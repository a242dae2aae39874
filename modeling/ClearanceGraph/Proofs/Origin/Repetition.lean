import ClearanceGraph.Proofs.Origin.Difference
import ClearanceGraph.Proofs.Origin.Guarantee
import ClearanceGraph.Proofs.Origin.Guard
import ClearanceGraph.Proofs.Origin.Refusal

/-! # Repetition — runs that are reconciled again

    A run has nothing to do exactly if the store reflects it already and its origin has
    reported the same before, by the same method and for no later time
    (`Run.settled_iff`).  This is a fixed point of planning: nothing is put, since all
    that is asserted shows; nothing is dropped, since the record says the same; so no
    object is gone, and the policy for orphaned edges has no edge to look at.

    A run that succeeds is settled (`Call.settled_of_ok`).  For this its commit has to
    read back what it wrote: its record is the latest one of its origin and starts when
    the run does.  It stays settled for as long as nothing that it asserts or refers to
    starts anew (`Run.Settled.again`).

    Together: a run that is reconciled again comes to nothing, at once or later, and
    leaves the store (`Reconcile.reconcile_again`), under the two conditions under which
    a run is reflected. -/

namespace ClearanceGraph

/-! ## Plans with nothing to do -/

namespace Plan

variable {s : Store} {o : OriginId} {t : Instant} {p : Plan}

/-- An origin may report when it was seen last, and later. -/
theorem checkNotStale_gives (h : ∀ v ∈ s.versionsOf (.origin o), v.validFrom ≤ t) :
    (checkNotStale o t).Gives s () := by
  obtain ⟨seen, hseen, -⟩ := s.lastSeen_gives o
  refine hseen.bind ?_
  cases seen with
  | none => exact Reading.gives_pure s _
  | some u =>
      dsimp only
      rw [if_neg (not_lt.mpr (Store.le_of_lastSeen h hseen))]
      exact Reading.gives_pure s _

/-- A content that shows is not put. -/
theorem putIfChanged_gives_self {c : Content} {d : Document}
    (hd : s.visible p.validTime (.fact c.fact) = some d)
    (hsame : (d == .content c) = true) (f : Fact) :
    (p.putIfChanged f c).Gives s p := by
  have hget := Reading.gives_get p.validTime (Document.content c).key s
  have hkey : (Document.content c).key = .fact c.fact := rfl
  rw [hkey, hd] at hget
  refine hget.bind ?_
  dsimp only
  rw [if_pos hsame]
  exact Reading.gives_pure s _

/-- Contents that all show are not put. -/
theorem putAll_gives_self {es : List (Fact × Content)}
    (h : ∀ e ∈ es, ∃ d, s.visible p.validTime (.fact e.2.fact) = some d ∧
      (d == .content e.2) = true) : (putAll es p).Gives s p := by
  induction es with
  | nil => exact Reading.gives_pure s _
  | cons e es ih =>
      obtain ⟨d, hd, hsame⟩ := h e List.mem_cons_self
      exact (putIfChanged_gives_self hd hsame e.1).bind
        (ih fun e' he' => h e' (List.mem_cons_of_mem _ he'))

/-- Where nothing is dropped no object is gone, and no edge is orphaned. -/
theorem retract_nil_gives (policy : CascadePolicy) (o : OriginId)
    (asserted : Table Fact Content)
    (p : Plan) (s : Store) : (retract policy o [] asserted p).Gives s (p, Table.empty) := by
  refine (Reading.gives_pure s (p, (Table.empty : KeySet Reference))).bind ?_
  cases policy with
  | retain => exact Reading.gives_pure s _
  | retractOrphanedEdges => exact (Reading.gives_pure s p).bind (Reading.gives_pure s _)

/-- What shows passes the check, if nothing is gone. -/
theorem checkAll_gives_of_shows (present : KeySet Reference)
    {ns : List (Dependent × Reference)}
    (h : ∀ n ∈ ns, s.ShowsObject t n.2) : (checkAll present Table.empty t ns).Gives s
      () := by
  induction ns with
  | nil => exact Reading.gives_pure s _
  | cons n ns ih =>
      refine Reading.Gives.bind (a := ()) ?_
        (ih fun n' hn' => h n' (List.mem_cons_of_mem _ hn'))
      obtain ⟨o, -, ho⟩ := h n List.mem_cons_self
      rw [checkPresent]
      split
      · exact Reading.gives_pure s _
      · have hget := Reading.gives_get t (.fact (.object n.2)) s
        rw [ho] at hget
        exact hget.bind (Reading.gives_pure s _)

end Plan

/-! ## Settled runs -/

namespace Run

variable {r : Run} {s s' : Store} {t u : Instant} {policy : CascadePolicy}

/-- **A run is settled** in a store: the store reflects it, and its origin has reported
    the same before, by the same method and for no later time. -/
structure Settled (r : Run) (s : Store) : Prop extends Reflected r s where
  inOrder : ∀ v ∈ s.versionsOf (.origin r.origin), v.validFrom ≤ r.validTime
  method : ∀ l, s.lastRecord? r.origin = some l → l.method = r.method
  unchanged : Plan.isUnchanged (s.lastRecord? r.origin) r.asserted = true

/-- What a reflected run needs shows. -/
theorem Reflected.needed (h : r.Reflected s) {n : Dependent × Reference}
    (hn : n ∈ Plan.needs r) :
    s.ShowsObject r.validTime n.2 := by
  rcases List.mem_append.mp hn with hn | hn
  · obtain ⟨e, he, hn⟩ := List.mem_flatMap.mp hn
    rcases List.mem_cons.mp hn with rfl | hn
    · exact (h.ends e he).1
    · rw [List.mem_singleton.mp hn]
      exact (h.ends e he).2
  · obtain ⟨d, hd, rfl⟩ := List.mem_map.mp hn
    exact h.declared d hd

/-- A settled run has nothing to do. -/
theorem Settled.gives_none (hs : s.Sound) (h : r.Settled s) (policy : CascadePolicy) :
    (Plan.ofRun policy r).Gives s none := by
  have hputs : (Plan.putAll r.asserted.entries (.empty r.validTime)).Gives s
      (.empty r.validTime) := by
    refine Plan.putAll_gives_self fun e he => ?_
    have hget := r.asserted.mem_entries_iff.mp he
    rw [r.filed_asserted hget]
    exact h.asserted _ _ hget
  rw [Plan.ofRun_eq]
  refine (Plan.checkNotStale_gives h.inOrder).bind
    ((hs.previous_gives_last r.origin).bind ?_)
  refine (Plan.checkMethod_gives_iff.mpr h.method).bind (hputs.bind ?_)
  rw [Plan.droppedBy_eq_nil h.unchanged]
  refine (Plan.retract_nil_gives policy r.origin r.asserted _ s).bind ?_
  refine (Plan.checkAll_gives_of_shows _ fun n hn => h.needed hn).bind ?_
  rw [h.unchanged]
  exact Reading.gives_pure s _

/-- **A run has nothing to do exactly if it is settled**, under any policy. -/
theorem settled_iff (hs : s.Sound) (hfiled : s.RecordsFiled) :
    r.Settled s ↔ (Plan.ofRun policy r).Gives s none := by
  refine ⟨fun h => h.gives_none hs policy, fun h => ?_⟩
  obtain ⟨previous, p, q, gone, hprevious, hmethod, -, -, -, ⟨-, -, hsame⟩ | hsome⟩ :=
    Plan.ofRun_checked h
  · obtain rfl := hprevious.unique (hs.previous_gives_last r.origin)
    exact ⟨reflected_of_unchanged hs hfiled h, Plan.not_stale_of_ofRun h, hmethod, hsame⟩
  · cases hsome

/-- The commit of its plan settles a run. -/
theorem settled_of_commit {p : Plan} {id : TransactionId} (hs : s.Sound)
    (hfiled : s.RecordsFiled) (h : (Plan.ofRun policy r).Gives s (some p))
    (hsub : s.submit p.transaction = .ok (id, s')) :
    r.Settled s' := by
  have hlast : s'.lastRecord? r.origin = some ⟨r.origin, r.method, r.validTime, r.asserted,
      (s.lastRecord? r.origin).elim 1 (·.runs + 1)⟩ :=
    Call.lastRecord?_submit (c := .reconcile r) hs h hsub
  have htime : p.transaction.validTime = r.validTime :=
    (Call.plan_files (c := .reconcile r) hs h).choose_spec.2.2
  refine ⟨reflected_of_commit hs hfiled h hsub, fun v hv => ?_, fun l hl => ?_, ?_⟩
  · rcases Store.mem_versionsOf_submit hsub hv with hv | ⟨hfrom, -⟩
    · exact Plan.not_stale_of_ofRun h v hv
    · exact le_of_eq (hfrom.trans htime)
  · obtain rfl := Option.some.inj (hl.symm.trans hlast)
    rfl
  · rw [hlast]
    exact beq_self_eq_true r.asserted

/-! ## The same run, later -/

/-- The same run at another time. -/
def again (r : Run) (u : Instant) : Run := { r with validTime := u }

/-- Nothing that a run asserts or refers to starts anew until an instant. -/
structure StaysUntil (r : Run) (s : Store) (u : Instant) : Prop where
  asserted : ∀ f, r.asserted.contains f = true → ¬ s.StartsWithin (.fact f) r.validTime u
  ends : ∀ e ∈ r.edges, ¬ s.StartsWithin (.fact (.object e.key.source)) r.validTime u ∧
    ¬ s.StartsWithin (.fact (.object e.key.target)) r.validTime u
  declared : ∀ d ∈ r.declarations, ¬ s.StartsWithin (.fact (.object d.reference))
    r.validTime u

/-- At once nothing starts anew. -/
theorem staysUntil_self (r : Run) (s : Store) : r.StaysUntil s r.validTime := by
  have hno : ∀ k, ¬ s.StartsWithin k r.validTime r.validTime :=
    fun k ⟨_, _, hlt, hle⟩ => absurd hle (not_le.mpr hlt)
  exact ⟨fun _ _ => hno _, fun _ _ => ⟨hno _, hno _⟩, fun _ _ => hno _⟩

/-- After the last commit nothing does. -/
theorem staysUntil_of_upto (h : s.Upto r.validTime) (u : Instant) : r.StaysUntil s u :=
  ⟨fun _ _ => h.not_startsWithin _ u, fun _ _ =>
    ⟨h.not_startsWithin _ u, h.not_startsWithin _ u⟩, fun _ _ => h.not_startsWithin _ u⟩

theorem Reflected.again (h : r.Reflected s) (hu : r.validTime ≤ u)
    (hstays : r.StaysUntil s u) :
    (r.again u).Reflected s := by
  have hshows : ∀ {q}, s.ShowsObject r.validTime q →
      ¬ s.StartsWithin (.fact (.object q)) r.validTime u → s.ShowsObject u q := by
    rintro q ⟨o, ho, hvisible⟩ hno
    exact ⟨o, ho, (Store.visible_eq_of_not_startsWithin hu hno).trans hvisible⟩
  refine ⟨fun f k hk => ?_, fun e he => ?_, fun d hd => ?_, h.recorded⟩
  · obtain ⟨d, hd, hsame⟩ := h.asserted f k hk
    have hno := hstays.asserted f (r.asserted.contains_iff.mpr ⟨k, hk⟩)
    exact ⟨d, (Store.visible_eq_of_not_startsWithin hu hno).trans hd, hsame⟩
  · exact ⟨hshows (h.ends e he).1 (hstays.ends e he).1,
      hshows (h.ends e he).2 (hstays.ends e he).2⟩
  · exact hshows (h.declared d hd) (hstays.declared d hd)

/-- A settled run stays settled until something of it starts anew. -/
theorem Settled.again (h : r.Settled s) (hu : r.validTime ≤ u) (hstays : r.StaysUntil s u) :
    (r.again u).Settled s :=
  ⟨h.toReflected.again hu hstays, fun v hv => le_trans (h.inOrder v hv) hu, h.method,
    h.unchanged⟩

end Run

/-! ## Stores in reach -/

namespace World

/-- The view of whether the store is switched off, where nobody else writes it. -/
def Switched (off : Bool) (w : World) : Prop := w.backend.isDown = off ∧ w.rivals = []

variable {off : Bool}

/-- A reading that asks finds the store switched on, or fails. -/
private theorem leads_read_switched {α : Type} {r : Reading α} (hasks : ∀ s, (r s).2 ≠ 0) :
    Leads Switched (World.read r) off (fun _ off' => off' = off ∧ off = false)
      (fun _ off' => off' = off) := by
  rintro w ⟨rfl, hrivals⟩
  have hspent := (read_spent r w).1
  refine ⟨w.backend.isDown, ⟨by rw [hspent.backend], hspent.rivals.trans hrivals⟩, ?_⟩
  cases hx : (World.read r w).1 with
  | error e => exact rfl
  | ok x =>
      refine ⟨rfl, Bool.eq_false_iff.mpr fun hdown => ?_⟩
      rw [read_apply, reaches_of_isDown hdown (hasks _), if_neg Bool.false_ne_true] at hx
      cases hx

/-- No submit throws the switch. -/
private theorem ends_submit_switched (tx : Transaction) :
    Ends Switched (World.submit tx) off fun _ off' => off' = off := by
  rintro w ⟨rfl, hrivals⟩
  have hsubmits := submit_spent hrivals tx
  revert hsubmits
  rcases World.submit tx w with ⟨x, w'⟩
  intro hsubmits
  cases hsubmits with
  | fault _ hspent => exact ⟨_, ⟨by rw [hspent.backend], hspent.rivals.trans hrivals⟩, rfl⟩
  | outage _ hspent => exact ⟨_, ⟨by rw [hspent.backend], hspent.rivals.trans hrivals⟩, rfl⟩
  | store hspent =>
      refine ⟨_, ⟨?_, hspent.rivals.trans hrivals⟩, rfl⟩
      show (w.backend.submit tx).2.isDown = w.backend.isDown
      rcases w.backend.submit_cases tx with ⟨e, n, hr⟩ | ⟨id, s', -, -, hr⟩
      · rw [hr]
      · rw [hr]

end World

namespace Reconcile

variable {plan : Reading (Option Plan)} (policy : RetryPolicy) (o : OriginId) (t : Instant)

private theorem leads_commit_switched (off : Bool) (hasks : ∀ s, (plan s).2 ≠ 0) :
    Leads World.Switched (commit policy o t plan) off (fun _ off' => off' = off ∧
      off = false) (fun _ off' => True ∧ off' = off) := by
  have hsubmit : ∀ p, Leads World.Switched (submit o p) off (fun _ off' => off' = off)
      (fun _ off' => off' = off) := by
    intro p
    refine (Leads.lift (World.ends_submit_switched p.transaction)).bind ?_
    rintro x _ rfl
    rcases x with e | id
    · cases e <;> exact Leads.throw rfl
    · exact Leads.pure rfl
  have hattempt : Leads World.Switched (attempt o t plan) off
      (fun _ off' => off' = off ∧ off = false) (fun _ off' => True ∧ off' = off) := by
    refine ((World.leads_read_switched hasks).imp (fun _ _ h => h) fun _ _ h =>
      ⟨trivial, h⟩).bind ?_
    rintro x _ ⟨rfl, hon⟩
    cases x with
    | none => exact Leads.pure ⟨rfl, hon⟩
    | some p => exact (hsubmit p).imp (fun _ _ h => ⟨h, hon⟩) fun _ _ h => ⟨trivial, h⟩
  exact leads_commit_of_attempt hattempt (fun _ _ _ => trivial) policy

/-- Where the store is in reach, a plan that has nothing to do comes to nothing. -/
private theorem commit_idle {w : World} (hon : w.backend.isDown = false)
    (hcalls : ∀ b ∈ w.outages, b = false) (h : plan.Gives w.backend.store none) :
    ∃ w', commit policy o t plan w = (.ok (.unchanged o t), w') ∧
    w'.backend = w.backend := by
  obtain ⟨hspent, hread⟩ := World.read_spent plan w
  have hnone : (World.read plan w).1 = .ok none := by
    rcases hread with hread | ⟨-, hdown | hout⟩
    · exact hread.trans h
    · cases hon.symm.trans hdown
    · cases hcalls true hout
  -- the first attempt finds no plan, and that is not tried again
  have hends : Ends (fun w₀ w => w = w₀) (attempt o t plan) w fun x w' =>
      x = .ok (.unchanged o t) ∧ w' = (World.read plan w).2 := by
    have hlook : Ends (fun w₀ w => w = w₀) (World.read plan) w fun x w' =>
        x = .ok none ∧ w' = (World.read plan w).2 := by
      rintro _ rfl
      exact ⟨_, rfl, hnone, rfl⟩
    refine hlook.andThen (fun found hfound => ?_) fun e he => nomatch he
    obtain rfl := Except.ok.inj hfound
    exact Ends.pure ⟨rfl, rfl⟩
  have hcommit : Ends (fun w₀ w => w = w₀) (commit policy o t plan) w fun x w' =>
      x = .ok (.unchanged o t) ∧ w' = (World.read plan w).2 := by
    refine Ends.bind (hends.runFrom_settled (fun e he => nomatch he) _ 1) ?_
    rintro ⟨r, n⟩ _ ⟨hr, rfl, -⟩
    obtain rfl : r = .ok (.unchanged o t) := hr
    exact Ends.pure ⟨rfl, rfl⟩
  obtain ⟨w', hw', hx, rfl⟩ := hcommit w rfl
  exact ⟨_, Prod.ext hx hw', hspent.backend⟩

end Reconcile

namespace Call

variable {levels : LevelConfig} {config : ReconcileConfig} {c : Call} {w w' : World}
    {x : Outcome}

/-- A call that succeeds was valid. -/
theorem valid_of_ok (h : c.perform levels config w = (.ok x, w')) : c.Valid levels := by
  by_contra hvalid
  obtain ⟨e, he⟩ := perform_of_not_valid config hvalid
  rw [he] at h
  cases h

/-- A call that succeeds leaves the store switched on. -/
theorem inReach_of_ok (hrivals : w.rivals = [])
    (h : c.perform levels config w = (.ok x, w')) :
    w'.backend.isDown = false := by
  have hleads := Reconcile.leads_commit_switched config.retry c.origin c.validTime
    w.backend.isDown (asks_plan config.cascade c)
  rw [← perform_of_valid config (valid_of_ok h)] at hleads
  obtain ⟨off, hswitched, hres⟩ := hleads w ⟨rfl, hrivals⟩
  rw [h] at hswitched hres
  obtain ⟨rfl, hon⟩ := hres
  exact hswitched.1.trans hon

/-- **A run that succeeds is settled.** -/
theorem settled_of_ok {r : Run} (hs : w.backend.store.Reachable)
    (hfiled : w.backend.store.RecordsFiled) (hrivals : w.rivals = [])
    (h : (Call.reconcile r).perform levels config w = (.ok x, w')) :
      r.Settled w'.backend.store := by
  rcases perform_ok (c := .reconcile r) ⟨rfl, hrivals⟩ h with
    ⟨hplan, -, hsame⟩ | ⟨p, id, hplan, hsub, -⟩
  · rw [hsame]
    exact (Run.settled_iff hs.sound hfiled).mpr hplan
  · exact Run.settled_of_commit hs.sound hfiled hplan hsub

end Call

/-! ## Runs that are reconciled again -/

namespace Reconcile

variable {levels : LevelConfig} {config : ReconcileConfig} {r : Run} {u : Instant}
  {w w' : World} {x : Outcome}

/-- **A run that succeeded comes to nothing when it is reconciled again**, at once or at
    any later time until which nothing that it asserts or refers to starts anew. Then
    nothing is submitted, changed or shared, and the store is left as it is, under
    either policy. As for what a run guarantees, records have to file their contents
    under their own facts, and nobody else may commit in between. -/
theorem reconcile_again (hs : w.backend.store.Reachable)
    (hfiled : w.backend.store.RecordsFiled)
    (hrivals : w.rivals = []) (h : reconcile levels config r w = (.ok x, w'))
    (hcalls : ∀ b ∈ w'.outages, b = false) (hu : r.validTime ≤ u)
    (hstays : r.StaysUntil w'.backend.store u) :
    ∃ w'', reconcile levels config (r.again u) w' = (.ok ⟨none, r.origin, u, [], []⟩, w'') ∧
      w''.backend = w'.backend := by
  have hok : (Call.reconcile r).perform levels config w = (.ok x, w') := h
  have hs' := Call.sound_perform levels config (.reconcile r) hs.sound (w := w)
    ⟨rfl, hrivals⟩
  rw [hok] at hs'
  have hsettled := (Call.settled_of_ok hs hfiled hrivals hok).again hu hstays
  -- the checks of a run do not look at its time
  have hfirst := Call.valid_of_ok hok
  have hvalid : (Call.reconcile (r.again u)).Valid levels := hfirst
  have hperform := Call.perform_of_valid config hvalid
  obtain ⟨w'', hcommit, hsame⟩ := commit_idle config.retry r.origin u
    (Call.inReach_of_ok hrivals hok) hcalls (hsettled.gives_none hs' config.cascade)
  exact ⟨w'', (congrFun hperform w').trans hcommit, hsame⟩

/-- An origin found two hosts and a link, at the start of the calendar. -/
def hostsLinked : Store :=
  Engine.doneTo .empty [.call .standard Engine.cascading
    (Engine.found "a" ⟨.origin, .midnight⟩ [("x", true), ("y", true)] [("x", "y")])]

/-- Then one host is lost, and the other one is down. -/
def hostLost : Run :=
  ⟨⟨"a"⟩, .observation, ⟨.origin, .midnight⟩,
    [⟨⟨"Host|y"⟩, "Host", Table.ofList [("up", ⟨.bool false, rfl⟩)]⟩], [], []⟩

/-- A run that changes a host and removes another one with a link has nothing to do at
    once, and nothing at the end of the calendar. -/
theorem reconcile_again_hostLost : ∃ s x w', s = hostsLinked ∧
    reconcile .standard Engine.cascading hostLost (World.holding s) = (.ok x, w') ∧
    x.changes = [⟨.object ⟨"Host|y"⟩, .updated⟩, ⟨.object ⟨"Host|x"⟩, .retracted⟩,
      ⟨.edge ⟨⟨"Host|x"⟩, "link", ⟨"Host|y"⟩⟩, .retracted⟩] ∧
    ∀ u, u = hostLost.validTime ∨ u = .latest →
      ∃ w'', reconcile .standard Engine.cascading (hostLost.again u) w' =
        (.ok ⟨none, ⟨"a"⟩, u, [], []⟩, w'') ∧ w''.backend = w'.backend := by
  obtain ⟨s, hs⟩ : ∃ s, s = hostsLinked := ⟨_, rfl⟩
  have hserved : s.Served := hs ▸ Engine.served_doneTo _ .empty
  have hupto : s.Upto hostLost.validTime := by
    rw [hs]
    exact Call.upto_perform Store.sound_empty (World.alone_holding _) le_rfl
      (Store.upto_empty _)
  have hrun : (reconcile .standard Engine.cascading hostLost
      (World.holding s)).1.toOption.any
        (fun x => x.changes = [⟨.object ⟨"Host|y"⟩, .updated⟩,
        ⟨.object ⟨"Host|x"⟩, .retracted⟩,
        ⟨.edge ⟨⟨"Host|x"⟩, "link", ⟨"Host|y"⟩⟩, .retracted⟩]) = true := by
    rw [hs]
    decide +kernel
  have hcalls : (reconcile .standard Engine.cascading hostLost
      (World.holding s)).2.outages = [] := by
    rw [hs]
    decide +kernel
  obtain ⟨x, hx, hchanges⟩ := Act.exists_eq_ok
    (a := reconcile .standard Engine.cascading hostLost) (w := World.holding s) _ hrun
  have hupto' : ((Call.reconcile hostLost).perform .standard Engine.cascading
      (World.holding s)).2.backend.store.Upto hostLost.validTime :=
    Call.upto_perform hserved.kept.1 (World.alone_holding s) le_rfl hupto
  have hreach :
    ∀ b ∈ (reconcile .standard Engine.cascading hostLost (World.holding s)).2.outages,
      b = false := by
    rw [hcalls]
    exact List.forall_mem_nil _
  refine ⟨s, x, _, hs, hx, of_decide_eq_true hchanges, fun u hu => ?_⟩
  -- at once, and at the end of the calendar
  rcases hu with rfl | rfl
  · exact reconcile_again hserved.reachable hserved.kept.2.recordsFiled rfl hx hreach le_rfl
      (Run.staysUntil_self _ _)
  · exact reconcile_again hserved.reachable hserved.kept.2.recordsFiled rfl hx
      hreach (by decide) (Run.staysUntil_of_upto hupto' _)

/-- The same run twice, one after the other: both succeed, and the second one commits as
    well. -/
private theorem again_hostUp {w : World} (cs : List Change)
    (hok : (reconcile .standard .standard hostUp w).1.toOption.isSome = true)
    (hagain : (reconcile .standard .standard hostUp
      (reconcile .standard .standard hostUp w).2).1.toOption.any (fun x =>
        x.transaction.isSome = true ∧ x.changes = cs) = true) :
    ∃ x w', reconcile .standard .standard hostUp w = (.ok x, w') ∧
      ∃ x' w'', reconcile .standard .standard (hostUp.again hostUp.validTime) w' =
        (.ok x', w'') ∧
        x'.transaction.isSome = true ∧ x'.changes = cs := by
  obtain ⟨x, hx⟩ := Option.isSome_iff_exists.mp hok
  obtain ⟨x', hx', hres⟩ := Act.exists_eq_ok _ hagain
  obtain ⟨htransaction, hchanges⟩ := of_decide_eq_true hres
  exact ⟨x, _, Prod.ext (Act.toOption_eq_some_iff.mp hx) rfl, x', _, hx',
    htransaction, hchanges⟩

/-- **Neither condition can go.** After a misfiled record or another origin has undone
    what a run asserts, the same run at once has something to do again. -/
theorem not_again_hostUp :
    (∃ w x w', w = World.holding hostMisfiled ∧ w.backend.store.Reachable ∧ w.rivals = [] ∧
      reconcile .standard .standard hostUp w = (.ok x, w') ∧
      ∃ x' w'', reconcile .standard .standard (hostUp.again hostUp.validTime) w' =
        (.ok x', w'') ∧
        x'.transaction.isSome = true ∧ x'.changes = [⟨.object ⟨"Host|y"⟩, .updated⟩]) ∧
    ∃ w x w', w = hostRaced ∧ w.backend.store.Reachable ∧ w.backend.store.RecordsFiled ∧
      reconcile .standard .standard hostUp w = (.ok x, w') ∧
      ∃ x' w'', reconcile .standard .standard (hostUp.again hostUp.validTime) w' =
        (.ok x', w'') ∧
        x'.transaction.isSome = true ∧ x'.changes = [⟨.object ⟨"Host|y"⟩, .created⟩] := by
  constructor
  · obtain ⟨w, hw⟩ : ∃ w, w = World.holding hostMisfiled := ⟨_, rfl⟩
    have hreach : w.backend.store.Reachable := hw ▸ Store.reachable_ofTransactions _
    obtain ⟨x, w', hx, hagain⟩ := again_hostUp (w := w) [⟨.object ⟨"Host|y"⟩, .updated⟩]
      (by rw [hw]; decide +kernel) (by rw [hw]; decide +kernel)
    exact ⟨w, x, w', hw, hreach, hw ▸ rfl, hx, hagain⟩
  · obtain ⟨w, hw⟩ : ∃ w, w = hostRaced := ⟨_, rfl⟩
    have hserved : w.backend.store.Served := hw ▸ Engine.served_doneTo _ .empty
    obtain ⟨x, w', hx, hagain⟩ := again_hostUp (w := w) [⟨.object ⟨"Host|y"⟩, .created⟩]
      (by rw [hw]; decide +kernel) (by rw [hw]; decide +kernel)
    exact ⟨w, x, w', hw, hserved.reachable, hserved.kept.2.recordsFiled, hx, hagain⟩

end Reconcile

end ClearanceGraph
