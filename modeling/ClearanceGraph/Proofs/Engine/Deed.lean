import ClearanceGraph.Proofs.Engine.Recalculation
import ClearanceGraph.Proofs.Origin.Writes

/-! # Deeds — runs of an engine, one operation at a time

    An engine takes in calls of origins, recalculates, and can be asked what is
    deferred; another one can take its place.  `Deed.performAll` runs such deeds, and
    `Deed.attemptsAll` are the flushes in the run.

    Whatever fails on the way, every run is made of parts that keep the engine in
    order (`Stage.Orderly.performAll`). -/

namespace ClearanceGraph

/-! ## Commits of reconciliation -/

/-- **A commit of reconciliation** is a part of a run, and its work awaits a flush. -/
theorem Stage.Orderly.committed {a : Stage} {g : Scene} {tx : Transaction}
    {id : TransactionId}
    {t : Instant} (h : a.Orderly) (hsub : a.store.submit tx = .ok (id, g.store))
    (htopics : g.topics = a.scene.topics) (hwrites : Plan.WritesRecord tx t)
    (ht : t ≤ Instant.latest) :
    a.Moves [] (Stage.setBarrier ⟨a.engine, g⟩ (a.engine.barrier.commit id)) ∧
      ∀ o cs, g.store.Awaits ⟨id, o, cs, []⟩ := by
  obtain ⟨rfl, o, ⟨op, hop, hwrite, hkey⟩, honly⟩ := hwrites
  -- a plan notes nothing, so the box of the new commit is absent
  have hno : ∀ u, ¬ tx.Writes (.outbox u) := by
    intro u hu
    rcases honly _ hu with ⟨f, hf⟩ | ho
    · cases hf
    · cases ho
  have hmoves := h.silent hsub htopics ht hno
  have habsent := h.boxed.box_id_of_silent hsub hno
  have hgraph : g.store.IsGraph id := by
    refine ⟨_, Store.transaction?_submit h.boxed.sound hsub,
      List.any_eq_true.mpr ⟨op, hop, ?_⟩⟩
    rw [hwrite, hkey]
    rfl
  have hopen : g.store.box id ≠ .cleared :=
    fun hcleared => nomatch habsent.symm.trans hcleared
  refine ⟨hmoves.trans (hmoves.orderly.setBarrier fun u hu => ?_), fun o cs => ⟨hgraph, ?_⟩⟩
  · rcases Barrier.contains_commit_iff.mp hu with rfl | hold
    · exact ⟨hgraph, hopen⟩
    · exact hmoves.orderly.pending u hold
  · rw [habsent]
    exact fun hstate => nomatch hstate

namespace Engine

variable {sky : Weather} {a : Stage} {s : System}

/-- Takes in a call, and does the work after its commit. -/
def take : Call → Work (Outcome × Option Flush)
  | .reconcile r => ingest r
  | .retire o t => retireOrigin o t

/-- The flush of a call, if there was a commit. -/
def callAttempts (c : Call) (s : System) : List Attempt :=
  match Work.act (c.perform s.engine.config.levels s.engine.config.reconcile)
      (Work.modifyBarrier Barrier.begin s).2 with
  | (.error _, _) => []
  | (.ok r, s) =>
    match r.job? with
    | none => []
    | some job => [⟨job, (Work.modifyBarrier (·.commit job.transaction) s).2⟩]

theorem take_eq (c : Call) : take c = (do
    let config ← Work.config
    commitThrough (c.perform config.levels config.reconcile)) := by
  cases c <;> rfl

/-- A ticket that is dropped leaves what is pending. -/
private theorem ends_drop {a₁ : Stage} (h : a.Moves [] a₁)
    (r : Except GraphError (Outcome × Option Flush)) :
    Ends (Exactly (System.Shows sky)) (do Work.modifyBarrier Barrier.drop; return r) (a₁, s)
      (Either (fun _ p => a.Moves [] p.1) (fun _ p => a.Moves [] p.1)) := by
  refine Ends.bind (Ends.exactly (Work.ends_modifyBarrier Barrier.drop)) ?_
  rintro _ ⟨a₂, s₂⟩ ⟨rfl, -⟩
  have hmoves : a.Moves [] (a₁.setBarrier a₁.engine.barrier.drop) :=
    h.trans (h.orderly.setBarrier h.orderly.pending)
  refine Ends.pure ?_
  cases r <;> exact hmoves

/-- **A call** with its flush is a part of a run. -/
theorem ends_take (h : a.Orderly) (hclock : ∀ t, sky.clock t → t ≤ Instant.latest)
    {c : Call} (hc : c.validTime ≤ Instant.latest) :
    Ends (Exactly (System.Shows sky)) (take c) (a, s) fun _ p =>
      a.Moves (callAttempts c s) p.1 := by
  refine Leads.ends (Q := fun _ p => a.Moves (callAttempts c s) p.1)
    (E := fun _ p => a.Moves (callAttempts c s) p.1) ?_ (fun _ _ hp => hp) fun _ _ hp => hp
  rw [take_eq]
  refine Leads.step (Leads.exactly Work.leads_config) (fun _ _ hf => hf.1.elim) ?_
  rintro config ⟨a', s'⟩ ⟨⟨-, ha'⟩, hrun⟩
  obtain rfl : a' = a := ha'
  obtain ⟨hconfig, rfl⟩ : s.engine.config = config ∧ s = s' :=
    ⟨Except.ok.inj (Prod.mk.inj hrun).1, (Prod.mk.inj hrun).2⟩
  refine Ends.bind (Ends.exactly (Work.ends_modifyBarrier Barrier.begin)) ?_
  rintro _ ⟨a₁, s₁⟩ ⟨ha₁, hbegin⟩
  obtain rfl : a₁ = a'.setBarrier a'.engine.barrier.begin := ha₁
  obtain rfl : (Work.modifyBarrier Barrier.begin s).2 = s₁ := congrArg Prod.snd hbegin
  have hmoves : a'.Moves [] (a'.setBarrier a'.engine.barrier.begin) :=
    h.setBarrier h.pending
  refine Ends.bind (Leads.exactly (Work.leads_act (Call.leads_perform _ _ c))) ?_
  -- either the call fails, or nothing was to be committed, or one flush follows
  rintro (e | r) ⟨a₂, s₂⟩ ⟨⟨g, rfl, hcomes⟩, hperform⟩
  · have hnone : callAttempts c s = [] := by
      rw [callAttempts, hconfig,
        show Work.act (c.perform config.levels config.reconcile) _ = _ from hperform]
    obtain rfl : g = (a'.setBarrier a'.engine.barrier.begin).scene := hcomes
    rw [hnone]
    exact ends_drop hmoves _
  · have hfs : callAttempts c s = match r.job? with
        | none => []
        | some job => [⟨job, (Work.modifyBarrier (·.commit job.transaction) s₂).2⟩] := by
      rw [callAttempts, hconfig,
        show Work.act (c.perform config.levels config.reconcile) _ = _ from hperform]
    rcases hcomes with ⟨-, rfl, rfl⟩ | ⟨p, id, s', hplan, hsub, rfl, rfl⟩
    · rw [hfs]
      exact ends_drop hmoves _
    · obtain ⟨hcommitted, hawaits⟩ :=
        hmoves.orderly.committed (g := { a'.scene with store := s' })
        hsub rfl (Call.plan_writes h.boxed.sound hplan) hc
      refine Ends.bind (Ends.exactly (Work.ends_modifyBarrier fun b => b.commit id)) ?_
      rintro _ ⟨a₃, s₃⟩ ⟨rfl, hcommit⟩
      have hone : callAttempts c s = [⟨⟨id, some c.origin, p.changes, []⟩, s₃⟩] := by
        obtain rfl : (Work.modifyBarrier (fun b => b.commit id) s₂).2 = s₃ :=
          congrArg Prod.snd hcommit
        exact hfs
      rw [hone]
      refine Ends.bind
        (Q := fun _ q => a'.Moves [⟨⟨id, some c.origin, p.changes, []⟩, s₃⟩] q.1) ?_ ?_
      · rintro _ ⟨hs, rfl⟩
        obtain ⟨a₄, ha₄, -, hflush⟩ := hcommitted.orderly.flush hs hclock (hawaits _ _)
        exact ⟨(a₄, _), ⟨ha₄, rfl⟩, (hmoves.trans hcommitted).trans hflush⟩
      · exact fun _ _ hp => Ends.pure hp

end Engine

/-! ## Deeds -/

/-- What an engine is asked to do. -/
inductive Deed where
  | call (c : Call)
  | recalculate
  /-- Which commits are deferred is asked for. -/
  | look
  /-- Another engine takes the place of this one. -/
  | restart (c : Config)

namespace Deed

def perform : Deed → System → System
  | call c, s => (Engine.take c s).2
  | recalculate, s => (Engine.recalculate s).2
  | look, s => (Engine.deferred s).2
  | restart c, s =>
    match Engine.start c with
    | .ok e => { s with engine := e }
    | .error _ => s

/-- The flushes of a deed. -/
def attempts : Deed → System → List Attempt
  | call c, s => Engine.callAttempts c s
  | recalculate, s => Engine.recalculationAttempts s
  | look, _ => []
  | restart _, _ => []

/-- Deeds, one after another; whether one succeeds does not matter to the next. -/
def performAll (ds : List Deed) (s : System) : System := ds.foldl (fun s d => d.perform s) s

/-- The flushes of deeds. -/
def attemptsAll : List Deed → System → List Attempt
  | [], _ => []
  | d :: ds, s => d.attempts s ++ attemptsAll ds (d.perform s)

/-- A deed hands in nothing that holds from after an instant only. -/
def Upto (t : Instant) : Deed → Prop
  | call c => c.validTime ≤ t
  | _ => True

theorem Upto.mono {t u : Instant} {d : Deed} (h : d.Upto t) (htu : t ≤ u) : d.Upto u := by
  cases d with
  | call c => exact le_trans h htu
  | recalculate => trivial
  | look => trivial
  | restart c => trivial

end Deed

/-- An engine on an empty store that nobody else writes. Faults may be written down, and
    the clock shows instants up to a given one. -/
structure System.Starts (last : Instant) (s : System) : Prop where
  engine : ∃ c, Engine.start c = .ok s.engine
  alone : s.world.Alone .empty
  clock : ∀ n, s.world.clock n ≤ last

namespace Stage

variable {sky : Weather} {a : Stage} {s : System}

theorem marks_of_start {c : Config} {e : Engine} (he : Engine.start c = .ok e) (s : Store) :
    s.Marks e.watermark ∧ ∀ t, e.barrier.pending.contains t = false := by
  rw [Engine.start] at he
  split at he
  · obtain rfl := Except.ok.inj he
    exact ⟨s.marks_one, fun _ => rfl⟩
  · cases he

namespace Orderly

/-- An engine that starts keeps the store in order. -/
private theorem restart (h : a.Orderly) {c : Config} {e : Engine}
    (he : Engine.start c = .ok e) :
    a.Moves [] ⟨e, a.scene⟩ := by
  obtain ⟨hmarks, hpending⟩ := marks_of_start he a.store
  refine .of_quiet ⟨h.boxed, hmarks, fun t ht => ?_⟩ (.refl _) (fun _ ht => ht)
    fun _ _ hr => .inr hr
  cases (hpending t).symm.trans ht

/-- **A deed** is a part of a run. -/
theorem perform (h : a.Orderly) (hs : System.Shows sky a s)
    (hclock : ∀ t, sky.clock t → t ≤ Instant.latest) {d : Deed}
    (hd : d.Upto Instant.latest) :
    ∃ a', System.Shows sky a' (d.perform s) ∧ a.Moves (d.attempts s) a' := by
  cases d with
  | call c =>
      obtain ⟨⟨a', s'⟩, ⟨ha', rfl⟩, hmoves⟩ := Engine.ends_take h hclock hd s ⟨hs, rfl⟩
      exact ⟨a', ha', hmoves⟩
  | recalculate =>
      obtain ⟨⟨a', s'⟩, ⟨ha', rfl⟩, hmoves⟩ := (Engine.leads_recalculate h hclock).ends
        (fun _ _ hp => hp.1) (fun _ _ hp => hp.1) s ⟨hs, rfl⟩
      exact ⟨a', ha', hmoves⟩
  | look =>
      obtain ⟨a', ha', hlooked⟩ := (Engine.leads_deferred h.boxed.sound h.marks).ends
        (fun _ _ hp => hp.1) (fun _ _ hp => hp.1) s hs
      exact ⟨a', ha', h.looked hlooked⟩
  | restart c =>
      show ∃ a', System.Shows sky a' (match Engine.start c with
        | .ok e => { s with engine := e }
        | .error _ => s) ∧ a.Moves [] a'
      cases he : Engine.start c with
      | ok e => exact ⟨⟨e, a.scene⟩, ⟨rfl, hs.world⟩, h.restart he⟩
      | error x => exact ⟨a, hs, .refl h⟩

/-- **A run** is made of such parts. -/
theorem performAll (hclock : ∀ t, sky.clock t → t ≤ Instant.latest) (ds : List Deed) :
    ∀ {a s}, a.Orderly → System.Shows sky a s → (∀ d ∈ ds, d.Upto Instant.latest) →
      ∃ a', System.Shows sky a' (Deed.performAll ds s) ∧
        a.Moves (Deed.attemptsAll ds s) a' := by
  induction ds with
  | nil => exact fun h hs _ => ⟨_, hs, .refl h⟩
  | cons d ds ih =>
      intro a s h hs hds
      obtain ⟨a₁, hs₁, hmoves⟩ := h.perform hs hclock (hds d List.mem_cons_self)
      obtain ⟨a', hs', hmoves'⟩ := ih hmoves.orderly hs₁ fun d hd =>
        hds d (List.mem_cons_of_mem _ hd)
      exact ⟨a', hs', hmoves.trans hmoves'⟩

end Orderly

end Stage

/-- The weather of a run: anything may fail, and the clock shows instants up to a given
    one. -/
def Weather.upto (last : Instant) : Weather := ⟨False, (· ≤ last)⟩

/-- A run from the start keeps an engine in order. -/
theorem System.Starts.performAll {last : Instant} {s : System} (h : s.Starts last)
    (hlast : last ≤ Instant.latest) {ds : List Deed} (hds : ∀ d ∈ ds, d.Upto last) :
    ∃ a : Stage, System.Shows (.upto last) a (Deed.performAll ds s) ∧ a.Orderly ∧
      ∃ a₀ : Stage, a₀.Moves (Deed.attemptsAll ds s) a := by
  obtain ⟨c, hc⟩ := h.engine
  obtain ⟨hmarks, hpending⟩ := Stage.marks_of_start hc .empty
  have horderly : Stage.Orderly ⟨s.engine, ⟨.empty, s.world.broker.topics⟩⟩ :=
    ⟨Store.boxed_empty, hmarks, fun t ht => nomatch (hpending t).symm.trans ht⟩
  have hshows : System.Shows (.upto last) ⟨s.engine, ⟨.empty, s.world.broker.topics⟩⟩ s :=
    ⟨rfl, h.alone.1, rfl, h.alone.2, h.clock, fun hfair => hfair.elim⟩
  obtain ⟨a, hs, hmoves⟩ :=
    Stage.Orderly.performAll (fun t ht => le_trans ht hlast) ds horderly
    hshows fun d hd => (hds d hd).mono hlast
  exact ⟨a, hs, hmoves.orderly, _, hmoves⟩

end ClearanceGraph
