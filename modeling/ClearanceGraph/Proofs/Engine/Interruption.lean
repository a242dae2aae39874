import ClearanceGraph.Proofs.Clearance.LaterTimes
import ClearanceGraph.Proofs.Clearance.Resumption
import ClearanceGraph.Proofs.Engine.Flush

/-! # Interruptions — taking up what was left

    An attempt reads how far levels have followed, and goes on from there: with the
    batch as it was at the commit, or with the one that was noted last (`Pass.takeUp`).
    `Engine.advance_eq` says that this is what an engine does before it publishes.

    However often attempts were interrupted (`Pass.Interrupted`), where the last one
    stopped is known (`Pass.Paused`), and so is what it has noted (`Paused.state`).
    So the one that completes comes to what an attempt without interruptions comes to
    (`takeUp_eq_of_interrupted`). -/

namespace ClearanceGraph

/-! ## Attempts -/

namespace Pass

/-- The batch that is taken up, by how far levels have followed. -/
def seed? (job : Batch) : Outbox.FlushState → Option Batch
  | .unrecorded => some job
  | .stopped b => some b
  | .recorded => none

/-- Takes up a batch, unless levels have followed everywhere. What there is to tell in
the end comes with the report. -/
def takeUp (levels : LevelConfig) (c : SpreadConfig) (job : Batch) :
    Act (Option (Batch × Report)) := do
  match seed? job (← World.read (Outbox.flushState job.transaction)) with
  | none => return none
  | some seed =>
    let report ← follow levels c seed true
    return some ({ seed with deltas := report.deltas }, report)

/-- The stores that interrupted attempts leave, one after another, while nobody
    else writes. -/
inductive Interrupted (levels : LevelConfig) (c : SpreadConfig) (job : Batch) (s : Store) :
    Store → Prop
  | start : Interrupted levels c job s s
  | attempt {r : Store} {w w' : World} {e : GraphError} (h : Interrupted levels c job s r)
      (hw : w.Alone r) (hfailed : takeUp levels c job w = (.error e, w')) :
      Interrupted levels c job s w'.backend.store

end Pass

namespace Work

variable {α β : Type}

theorem act_bind (a : Act α) (f : α → Act β) :
    act (a >>= f) = act a >>= fun x => act (f x) := by
  funext s
  show (((a >>= f) s.world).1, { s with world := ((a >>= f) s.world).2 }) =
    (ExceptT.bindCont (fun x => act (f x)) (act a s).1 : StateM System _) (act a s).2
  rw [Act.bind_apply]
  show _ = (ExceptT.bindCont (fun x => act (f x)) (a s.world).1 : StateM System _)
    { s with world := (a s.world).2 }
  cases a s.world with
  | mk r w => cases r <;> rfl

end Work

/-- **An engine takes up a batch**, and then publishes what there is to tell. -/
theorem Engine.advance_eq (job : Batch) : advance job = (do
    let c ← Work.config
    match ← Work.act (Pass.takeUp c.levels c.spread job) with
    | some (b, _) => Work.act (Publisher.publish c.publisher b)
    | none =>
      match ← Work.act (World.read (Outbox.entry job.transaction)) with
      | none => return ()
      | some e => Work.act (Publisher.publish c.publisher e.batch)) := by
  refine congrArg (Work.config >>= ·) (funext fun c => ?_)
  rw [Pass.takeUp, Work.act_bind, bind_assoc]
  refine congrArg (Work.act (World.read _) >>= ·) (funext fun state => ?_)
  cases state with
  | unrecorded =>
      dsimp only [Pass.seed?]
      rw [Work.act_bind, bind_assoc]
      rfl
  | stopped b =>
      dsimp only [Pass.seed?]
      rw [Work.act_bind, bind_assoc]
      rfl
  | recorded => rfl

/-! ## What was noted -/

namespace Store

variable {s : Store} {t : TransactionId}

theorem stamp_eq_none_iff : s.stamp t = none ↔ s.box t = .absent := by
  rw [stamp, Option.map_eq_none_iff, newestOf?_eq_none_iff, box_eq_absent_iff]

/-- A commit is not recorded exactly if nothing was noted for it. -/
theorem unrecorded_iff : (Outbox.flushState t).Gives s .unrecorded ↔ s.stamp t = none := by
  have hgives := flushState_gives s t
  rw [stamp_eq_none_iff]
  constructor
  · intro h
    have hstate := h.unique hgives
    cases hbox : s.box t with
    | absent => rfl
    | cleared =>
        rw [hbox] at hstate
        cases hstate
    | entry e =>
        rw [hbox, Box.state] at hstate
        split at hstate <;> cases hstate
  · intro h
    rwa [h] at hgives

end Store

namespace Pass

variable {levels : LevelConfig} {c : SpreadConfig} {job seed : Batch} {s r : Store}
    {tx : Committed}
  {m : Nat}

/-- A batch with nothing to tell has no deltas. -/
theorem deltas_of_isEmpty_batch {p : Progress} (h : (p.batch seed).isEmpty = true) :
    p.deltas = Table.empty := by
  refine Table.ext_get? fun r => ?_
  cases hr : p.deltas.get? r with
  | none => rfl
  | some d =>
      have hne : (p.batch seed).isEmpty = false :=
        isEmpty_batch_eq_false_iff.mpr (.inr ⟨r, (Table.contains_iff _).mpr ⟨d, hr⟩⟩)
      cases h.symm.trans hne

/-- **Where an interrupted pass was** is known from its box: nothing was noted, and
    there is nothing to tell yet except for what the job has; or the batch of that point
    was. -/
theorem Paused.state (h : Paused levels c job s tx m r) (hs : s.Sound)
    (hfirst : s.stamp job.transaction = none) :
    ((r.box job.transaction).state = .unrecorded ∧
      (point levels c job s tx m).progress.deltas = Settle.fold Table.empty job.deltas) ∨
    (r.box job.transaction).state =
      .stopped ((point levels c job s tx m).progress.batch job) := by
  have hstamp : (point levels c job s tx m).store.stamp job.transaction =
      (point levels c job s tx m).visited.getLast?.bind fun t =>
        (Outbox.posted? t ((point levels c job s tx m).progress.batch job) false).map
          fun e =>
          (t, e.map .outbox) := by
    obtain ⟨q, hmore⟩ := Option.ne_none_iff_exists'.mp h.ahead
    rw [← Point.isEmpty_of_popMin? hmore]
    exact Point.stamped_after hs (Settle.filed_empty.fold job.deltas) hfirst m
  rw [Store.box_eq_of_stamp, h.alike.stamp, hstamp]
  -- whether a note was left depends on the last instant that was visited
  cases hlast : (point levels c job s tx m).visited.getLast? with
  | none =>
      have hlen : (point levels c job s tx m).visited.length = 0 + m :=
        Point.length_visited_after fun k hk => Point.not_ended_of_le h.ahead
          (Nat.le_of_lt hk)
      rw [List.getLast?_eq_none_iff.mp hlast, List.length_nil, Nat.zero_add] at hlen
      subst hlen
      exact .inl ⟨rfl, rfl⟩
  | some t =>
      rw [Option.bind_some]
      cases hempty : ((point levels c job s tx m).progress.batch job).isEmpty with
      | true =>
          -- a batch that is still empty has no deltas, and so the first one has none
          have honward : (point levels c job s tx 0).Onward (point levels c job s tx m) :=
            Point.onward_after (Nat.zero_le m)
          rw [Outbox.posted?_eq_none_iff.mpr ⟨hempty, rfl⟩]
          refine .inl ⟨rfl, ?_⟩
          rw [deltas_of_isEmpty_batch hempty]
          exact (deltas_of_isEmpty_batch (honward.isEmpty_batch hempty)).symm
      | false =>
          refine .inr ?_
          rw [Outbox.posted?, hempty]
          rfl

/-- The batch that is taken up makes the pass that starts again. -/
theorem exists_seed? (hs : s.Sound) {st : Outbox.FlushState} (hst : st = .unrecorded ∧
        (point levels c job s tx m).progress.deltas = Settle.fold Table.empty job.deltas ∨
      st = .stopped ((point levels c job s tx m).progress.batch job)) :
    ∃ ds, seed? job st = some { job with deltas := ds } ∧ ∀ r n,
      point levels c { job with deltas := ds } r tx n = resumed levels c job s
        tx m r n := by
  rcases hst with ⟨rfl, hds⟩ | rfl
  · refine ⟨job.deltas, rfl, fun r n => ?_⟩
    rw [resumed, hds]
    rfl
  · refine ⟨(point levels c job s tx m).progress.deltas.values, rfl, fun r n => ?_⟩
    rw [point, Point.after_withDeltas, resumed, (onCourse_point hs m).filed.fold_values]

/-! ## Attempts, one after another -/

section Attempts

variable (hs : s.Sound) (hfirst : s.stamp job.transaction = none)
  (hfull : ∀ n, (point levels c job s tx n).progress.report.isPartial = false)

include hs hfirst hfull

/-- **An attempt** comes to what there is to tell, or is interrupted. -/
theorem Paused.leads_takeUp {sky : Weather} {g : Scene}
    (h : Paused levels c job s tx m g.store) :
    Leads (World.Shows sky) (takeUp levels c job) g
      (fun x g' => ∃ n, (resumed levels c job s tx m g.store n).Ended ∧
        g'.store = (resumed levels c job s tx m g.store n).store ∧
        x = some
          ({ job with deltas := (resumed levels c job s tx m g.store n).report.deltas },
            (resumed levels c job s tx m g.store n).report))
      (fun _ g' => ¬ sky.fair ∧ ∃ m', Paused levels c job s tx m' g'.store) := by
  refine Leads.step (leads_read_of_gives (Store.flushState_gives g.store _)) ?_ ?_
  · rintro e g' ⟨hfair, rfl⟩
    exact ⟨hfair, m, h⟩
  · rintro st g' ⟨rfl, rfl⟩
    obtain ⟨ds, hseed, hpoint⟩ := exists_seed? hs (h.state hs hfirst)
    rw [hseed]
    dsimp only
    refine Leads.step (leads_follow_points h.sound h.logged) ?_ ?_
    · rintro e g₁ ⟨hfair, k, hk, rfl⟩
      rw [hpoint] at hk ⊢
      exact ⟨hfair, _, h.again hs hfirst hfull hk⟩
    · rintro report g₁ ⟨n, hn, rfl, rfl⟩
      rw [hpoint] at hn ⊢
      exact Leads.pure ⟨n, hn, rfl, rfl⟩

theorem Paused.runs_takeUp (h : Paused levels c job s tx m r) :
    Act.Runs (takeUp levels c job) r
      (fun x s' => ∃ n, (resumed levels c job s tx m r n).Ended ∧
        s' = (resumed levels c job s tx m r n).store ∧
        x = some ({ job with deltas := (resumed levels c job s tx m r n).report.deltas },
          (resumed levels c job s tx m r n).report))
      (fun s' => ∃ m', Paused levels c job s tx m' s') :=
  Act.runs_of_leads fun topics =>
    (Paused.leads_takeUp (g := ⟨r, topics⟩) hs hfirst hfull h).imp (fun _ _ hx => hx)
      fun _ _ he => he.2

/-- However often attempts were interrupted, where the last one stopped is known. -/
theorem Interrupted.paused (htx : s.transaction? job.transaction = some tx)
    (h : Interrupted levels c job s r) : ∃ m, Paused levels c job s tx m r := by
  -- on the attempts
  induction h with
  | start => exact ⟨0, hs, htx, Point.not_ended_start _ _ _ _, .refl _ _⟩
  | attempt _ hw hfailed ih =>
      obtain ⟨m, hm⟩ := ih
      obtain ⟨s', halone, hpaused⟩ := (hm.runs_takeUp hs hfirst hfull).of_error hw hfailed
      rwa [halone.1]

end Attempts

/-- A pass that comes to its end follows a commit. -/
private theorem exists_ended_of_follow (hs : s.Sound) {w w' : World} {report : Report}
    (hw : w.Alone s) (hok : follow levels c job true w = (.ok report, w')) :
    ∃ tx n, s.transaction? job.transaction = some tx ∧ (point levels c job s tx n).Ended ∧
      report = (point levels c job s tx n).report ∧
      w'.backend.store = (point levels c job s tx n).store := by
  cases htx : s.transaction? job.transaction with
  | none =>
      have hruns : Act.Runs (follow levels c job true) s (fun _ _ => False) fun _ => True :=
        Act.runs_of_leads fun topics => leads_follow_unknown htx
      obtain ⟨-, -, hno⟩ := hruns.of_ok hw hok
      exact hno.elim
  | some tx =>
      have hruns : Act.Runs (follow levels c job true) s
          (fun report s' => ∃ n, (point levels c job s tx n).Ended ∧
            report = (point levels c job s tx n).report ∧
              s' = (point levels c job s tx n).store)
          fun _ => True :=
        Act.runs_of_leads fun topics => (leads_follow_points (g := ⟨s, topics⟩) hs htx).imp
          (fun _ _ ⟨n, hn, hreport, hg⟩ => ⟨n, hn, hreport, hg ▸ rfl⟩) fun _ _ _ => trivial
      obtain ⟨s', hw', n, hn, hreport, rfl⟩ := hruns.of_ok hw hok
      exact ⟨tx, n, rfl, hn, hreport, hw'.1⟩

/-- **Interruptions do not matter.** Where a pass over a commit that nothing was noted
    for comes to its end within the budget, so does the attempt that completes after any
    number of interrupted ones: it tells the same, went on to the same later instants,
    and leaves the same profiles at all instants and the same in the box of the commit.
    With nothing switched off it does complete. -/
theorem takeUp_eq_of_interrupted (hs : s.Sound)
    (hopen : (Outbox.flushState job.transaction).Gives s .unrecorded)
    {w w' : World} {report : Report} (hw : w.Alone s)
    (hok : follow levels c job true w = (.ok report, w'))
    (hwhole : report.isPartial = false)
    (hr : Interrupted levels c job s r) {v : World} (hv : v.Alone r) :
    (∀ x v', takeUp levels c job v = (.ok x, v') → ∃ report',
      x = some ({ job with deltas := report.deltas }, report') ∧
      report'.deltas = report.deltas ∧ report'.laterTimes = report.laterTimes ∧
      report'.isPartial = false ∧
      (∀ t q, v'.backend.store.visible t (.profile q) = w'.backend.store.visible t
        (.profile q)) ∧
      v'.backend.store.box job.transaction = w'.backend.store.box job.transaction) ∧
    (v.Calm → ∃ x v', takeUp levels c job v = (.ok x, v')) := by
  have hfirst := Store.unrecorded_iff.mp hopen
  obtain ⟨tx, n, htx, hn, rfl, hstore⟩ := exists_ended_of_follow hs hw hok
  have hfull := isPartial_point hn hwhole
  -- however often it was interrupted, the store is as after `m` visits
  obtain ⟨m, hm⟩ := Interrupted.paused hs hfirst hfull htx hr
  refine ⟨fun x v' hx => ?_, fun hcalm => ?_⟩
  · obtain ⟨r', ⟨hstore', -⟩, k, hk, rfl, rfl⟩ :=
      (hm.runs_takeUp hs hfirst hfull).of_ok hv hx
    obtain ⟨hdeltas, hlater, hpartial, halike⟩ := hm.report_eq hs hfirst hfull hn hk
    rw [hstore, hstore', ← hdeltas]
    refine ⟨_, rfl, rfl, hlater, hpartial, fun t q => ?_, ?_⟩
    · exact halike.visible _ DocumentKey.noConfusion t
    · rw [Store.box_eq_of_stamp, halike.stamp, Store.box_eq_of_stamp]
  · have hshows : v.Shows ⟨True, fun _ => True⟩ ⟨r, v.broker.topics⟩ :=
      ⟨hv.1, rfl, hv.2, fun _ => trivial, fun _ => hcalm⟩
    obtain ⟨x, -, hx, -⟩ := (Paused.leads_takeUp hs hfirst hfull hm).exists_ok hshows
      fun _ _ hno => hno.1 trivial
    exact ⟨x, _, Prod.ext hx rfl⟩

/-- An object whose declared level goes on the third day. -/
def brieflyDeclared : Store := .ofTransactions [
  ⟨dayOf 1, [
    .put (.content (.object ⟨⟨"Host|a"⟩, "Host", Table.empty⟩)),
    .put (.content (.declaration ⟨⟨"Host|a"⟩, LevelConfig.standard.highest⟩))]⟩,
  ⟨dayOf 3, [.delete (.fact (.declaration ⟨"Host|a"⟩))]⟩]

/-- The batch of its first commit. -/
def declaringJob : Batch := { (default : Batch) with transaction := ⟨1⟩ }

/-- What is noted on the first day. -/
def firstDay : Batch :=
  { declaringJob with
    deltas := [⟨⟨"Host|a"⟩, none, LevelConfig.standard.highest, .created⟩] }

/-- A world in which only the first write succeeds. -/
def oneWriteWorld : World :=
  { World.holding brieflyDeclared with
    submitFaults := none :: List.replicate 5 (some storeDown) }

/-- An attempt that stops before the third day, and another one that completes. -/
theorem takeUp_eq_of_interrupted_brieflyDeclared :
    brieflyDeclared.Sound ∧ (Outbox.flushState ⟨1⟩).Gives brieflyDeclared .unrecorded ∧
      ∃ report w', follow .standard .standard declaringJob true
        (World.holding brieflyDeclared) =
          (.ok report, w') ∧ report.isPartial = false ∧ report.laterTimes = [dayOf 3] ∧
        ∃ r, Interrupted .standard .standard declaringJob brieflyDeclared r ∧
          (Outbox.flushState ⟨1⟩).Gives r (.stopped firstDay) ∧
          ∃ report' v', takeUp .standard .standard declaringJob (World.holding r) =
              (.ok (some ({ declaringJob with deltas := report.deltas }, report')), v') ∧
            report'.laterTimes = [dayOf 3] ∧
            v'.backend.store.box ⟨1⟩ = w'.backend.store.box ⟨1⟩ := by
  have hsound : brieflyDeclared.Sound := (Store.reachable_ofTransactions _).sound
  have hopen : (Outbox.flushState ⟨1⟩).Gives brieflyDeclared .unrecorded := by
    rfl
  obtain ⟨report, hok, hreport⟩ := Act.exists_eq_ok (w := World.holding brieflyDeclared)
    (a := follow .standard .standard declaringJob true)
    (fun r => !r.isPartial && decide (r.laterTimes = [dayOf 3])) (by decide +kernel)
  obtain ⟨hwhole, hlater⟩ := (Bool.and_eq_true _ _).mp hreport
  rw [Bool.not_eq_true'] at hwhole
  obtain ⟨r, hr, hstopped⟩ : ∃ r, Interrupted .standard .standard declaringJob
    brieflyDeclared r ∧
      (Outbox.flushState ⟨1⟩).Gives r (.stopped firstDay) := by
    -- the store takes one write more, and then fails
    have hfails :
        (takeUp .standard .standard declaringJob oneWriteWorld).1.toOption.isNone =
        true := by
      decide +kernel
    have hstops : (Outbox.flushState ⟨1⟩ (takeUp .standard .standard declaringJob
        oneWriteWorld).2.backend.store).1.toOption = some (.stopped firstDay) := by
      decide +kernel
    cases hrun : takeUp .standard .standard declaringJob oneWriteWorld with
    | mk y w₁ =>
        rw [hrun] at hfails hstops
        cases y with
        | ok x => cases hfails
        | error e =>
            exact ⟨w₁.backend.store, .attempt .start ⟨rfl, rfl⟩ hrun,
              Act.toOption_eq_some_iff.mp hstops⟩
  obtain ⟨hall, hcomes⟩ := takeUp_eq_of_interrupted hsound hopen ⟨rfl, rfl⟩ hok hwhole hr
    (v := World.holding r) ⟨rfl, rfl⟩
  obtain ⟨x, v', hx⟩ := hcomes (World.calm_holding r)
  obtain ⟨report', rfl, -, hlater', -, -, hbox⟩ := hall x v' hx
  exact ⟨hsound, hopen, report, _, hok, hwhole, of_decide_eq_true hlater, r, hr,
    hstopped, report', v', hx,
    hlater'.trans (of_decide_eq_true hlater), hbox⟩

end Pass

end ClearanceGraph
