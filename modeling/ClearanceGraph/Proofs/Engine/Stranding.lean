import ClearanceGraph.Proofs.Engine.Deed

/-! # Stranding — no pending commit is lost sight of

    A commit is pending until its levels and messages are out.  Whatever failed in a
    run, every pending commit is listed as deferred or as unpublished, and one
    recalculation in which nothing fails leaves nothing pending, deferred or
    unpublished (`System.neverStranded_latest`).

    This needs that entries can be read where the program reads them, at the last
    instant of the calendar.  In the leap second behind it an entry is out of sight,
    and its commit is stranded (`System.neverStranded_iff`). -/

namespace ClearanceGraph

/-! ## Calming the world -/

/-- The world with everything switched on, and no failure written down. -/
def World.calmed (w : World) : World :=
  { w with
    backend := { w.backend with isDown := false, failing := 0 }
    broker := { w.broker with isDown := false, failing := 0 }
    submitFaults := []
    publishFaults := []
    outages := [] }

def System.calmed (s : System) : System := { s with world := s.world.calmed }

/-- Fair weather, with a clock that shows instants up to a given one. -/
def Weather.fairUpto (last : Instant) : Weather := ⟨True, (· ≤ last)⟩

namespace System

variable {last : Instant} {a : Stage} {s : System} {sky : Weather}
    {ds us : List TransactionId}

theorem Shows.calmed (h : Shows (.upto last) a s) : Shows (.fairUpto last) a s.calmed :=
  ⟨h.engine, h.world.store, h.world.topics, h.world.rivals, h.world.clock, fun _ =>
    .of_nil ⟨rfl, rfl⟩ ⟨rfl, rfl⟩ rfl rfl rfl⟩

/-! ## Lists -/

/-- What an engine lists as deferred and as unpublished. -/
structure Lists (s : System) (ds us : List TransactionId) : Prop where
  deferred : (Engine.deferred s).1 = .ok ds
  unpublished : (Engine.unpublished s).1 = .ok us

theorem lists_iff : s.Lists ds us ↔ (Engine.deferred s).1.toOption = some ds ∧
    (Engine.unpublished s).1.toOption = some us := by
  rw [Act.toOption_eq_some_iff, Act.toOption_eq_some_iff]
  exact ⟨fun h => ⟨h.deferred, h.unpublished⟩, fun h => ⟨h.1, h.2⟩⟩

instance : Decidable (s.Lists ds us) := decidable_of_iff _ lists_iff.symm

theorem Lists.unique {ds' us' : List TransactionId} (h : s.Lists ds us)
    (h' : s.Lists ds' us') :
    ds = ds' ∧ us = us' :=
  ⟨Except.ok.inj (h.deferred.symm.trans h'.deferred),
    Except.ok.inj (h.unpublished.symm.trans h'.unpublished)⟩

/-- What is listed in fair weather: the commits that levels have not followed, and those
    whose entries wait. -/
theorem exists_lists (h : a.Orderly) (hs : Shows sky a s) (hfair : sky.fair) :
    ∃ ds us, s.Lists ds us ∧
      (∀ t, t ∈ ds ↔ a.store.IsGraph t ∧ (a.store.box t).state ≠ .recorded) ∧
      ∀ t, t ∈ us ↔ ∃ e, a.store.box t = .entry e ∧ e.propagated = true := by
  obtain ⟨ds, -, hdeferred, -, -, hds⟩ :=
    (Engine.leads_deferred h.boxed.sound h.marks).exists_ok hs
    fun _ _ hfoul => hfoul.2 hfair
  obtain ⟨es, hes, hmem, -⟩ := h.boxed.waiting_gives
  have hpending : Publisher.pending.Gives a.store (es.map (·.batch.transaction)) :=
    hes.bind (Reading.gives_pure _ _)
  obtain ⟨us, -, hunpublished, -, -, -, rfl, -⟩ :=
    (Work.leads_act (leads_read_of_gives hpending)).exists_ok hs fun _ _ ⟨_, _, hfoul,
      _⟩ => hfoul hfair
  refine ⟨ds, _, ⟨hdeferred, hunpublished⟩, hds, fun t => ?_⟩
  rw [List.mem_map]
  constructor
  · rintro ⟨e, he, rfl⟩
    exact ⟨e, (hmem e).mp he⟩
  · rintro ⟨e, hbox, hprop⟩
    have hid := h.boxed.transaction_of_box hbox
    exact ⟨e, (hmem e).mpr ⟨hid.symm ▸ hbox, hprop⟩, hid⟩

/-- Nothing is listed exactly if nothing is left to do. -/
theorem lists_nil_iff (h : a.Orderly) (hs : Shows sky a s) (hfair : sky.fair) :
    s.Lists [] [] ↔ a.store.Drained := by
  obtain ⟨ds, us, hlists, hds, hus⟩ := exists_lists h hs hfair
  constructor
  · intro hnil
    obtain ⟨rfl, rfl⟩ := hlists.unique hnil
    refine ⟨fun t ht => ?_, fun t e he => ?_⟩
    · by_contra hstate
      cases (hds t).mpr ⟨ht, hstate⟩
    · refine Bool.eq_false_iff.mpr fun hprop => ?_
      cases (hus t).mpr ⟨e, he, hprop⟩
  · intro hdrained
    have hds : ds = [] := List.eq_nil_iff_forall_not_mem.mpr fun t ht =>
      ((hds t).mp ht).2 (hdrained.followed t ((hds t).mp ht).1)
    have hus : us = [] := List.eq_nil_iff_forall_not_mem.mpr fun t ht => by
      obtain ⟨e, he, hprop⟩ := (hus t).mp ht
      rw [hdrained.told t e he] at hprop
      cases hprop
    rwa [hds, hus] at hlists

/-! ## Pending commits -/

/-- Every pending commit is listed, once the world is calm. -/
def Sees (s : System) : Prop :=
  ∃ ds us, s.calmed.Lists ds us ∧ ∀ t ∈ (Engine.unflushed s).1, t ∈ ds ∨ t ∈ us

/-- A recalculation in the calm world succeeds, and nothing is left pending or listed. -/
def Drains (s : System) : Prop :=
  (∃ report, (Engine.recalculate s.calmed).1 = .ok report) ∧
    (Engine.unflushed (Engine.recalculate s.calmed).2).1 = [] ∧
    (Engine.recalculate s.calmed).2.Lists [] []

/-- In all runs up to an instant, whatever fails, pending commits are seen, and a
    recalculation in the calm world drains what is left. -/
def NeverStranded (last : Instant) : Prop :=
  ∀ s : System, s.Starts last → ∀ ds : List Deed, (∀ d ∈ ds, d.Upto last) →
    (Deed.performAll ds s).Sees ∧ (Deed.performAll ds s).Drains

theorem mem_unflushed_iff (hs : Shows sky a s) {t : TransactionId} :
    t ∈ (Engine.unflushed s).1 ↔ a.engine.barrier.pending.contains t = true := by
  rw [← hs.engine]
  exact KeySet.mem_toList _

/-- A pending commit has something left to do. -/
private theorem sees_of_orderly (h : a.Orderly) (hs : Shows (.upto last) a s) : s.Sees := by
  obtain ⟨ds, us, hlists, hds, hus⟩ := exists_lists h hs.calmed trivial
  refine ⟨ds, us, hlists, fun t ht => ?_⟩
  obtain ⟨hgraph, hopen⟩ := h.pending t ((mem_unflushed_iff hs).mp ht)
  rw [hds, hus]
  cases hbox : a.store.box t with
  | absent => exact .inl ⟨hgraph, fun hstate => nomatch hstate⟩
  | cleared => exact absurd hbox hopen
  | entry e =>
      cases hprop : e.propagated with
      | true => exact .inr ⟨e, rfl, hprop⟩
      | false =>
          refine .inl ⟨hgraph, fun hstate => ?_⟩
          rw [Box.state, hprop] at hstate
          cases hstate

private theorem drains_of_orderly (hlast : last ≤ Instant.latest) (h : a.Orderly)
    (hs : Shows (.upto last) a s) : s.Drains := by
  obtain ⟨report, ⟨a', s'⟩, hreport, ⟨hs', rfl⟩, hmoves, hdrained⟩ :=
    (Engine.leads_recalculate h
    fun t ht => le_trans ht hlast).exists_ok (w := s.calmed) ⟨hs.calmed, rfl⟩
      fun _ _ hfoul => hfoul.2 trivial
  have horderly : a'.Orderly := hmoves.orderly
  have hdrained : a'.store.Drained := hdrained trivial
  refine ⟨⟨report, hreport⟩, List.eq_nil_iff_forall_not_mem.mpr fun t ht => ?_,
    (lists_nil_iff horderly hs' trivial).mpr hdrained⟩
  -- a pending commit would be followed, so its entry would wait
  obtain ⟨hgraph, hopen⟩ := horderly.pending t ((mem_unflushed_iff hs').mp ht)
  have hstate := hdrained.followed t hgraph
  cases hbox : a'.store.box t with
  | absent =>
      rw [hbox] at hstate
      cases hstate
  | cleared => exact hopen hbox
  | entry e =>
      rw [hbox, Box.state, hdrained.told t e hbox] at hstate
      cases hstate

/-- **No commit is stranded** in runs that stay in front of the leap second. -/
theorem neverStranded_latest : NeverStranded Instant.latest := by
  intro s hstarts ds hds
  obtain ⟨a, hs, horderly, -⟩ := hstarts.performAll (le_refl _) hds
  exact ⟨sees_of_orderly horderly hs, drains_of_orderly (le_refl _) horderly hs⟩

/-! ## The leap second at the end of the calendar -/

/-- An engine whose queue is down and whose third submit fails. -/
def halfDown : System :=
  ⟨⟨.standard, .empty, 1⟩,
    { World.empty (fun _ => Instant.latest) with
      broker := ⟨Table.empty, true, 0⟩
      submitFaults := [none, none, some storeDown] }⟩

/-- An origin finds a host at an instant. -/
def foundHost (t : Instant) : Deed :=
  .call (.reconcile ⟨⟨"a"⟩, .observation, t, [⟨⟨"Host|x"⟩, "Host", Table.empty⟩], [], []⟩)

/-- In the leap second the entry of the commit is out of sight. -/
theorem not_sees_foundHost :
    ¬ (Deed.performAll [foundHost Instant.afterLatest] halfDown).Sees := by
  have hrun :
    (Engine.unflushed (Deed.performAll [foundHost Instant.afterLatest] halfDown)).1 =
    [⟨1⟩] ∧
      (Deed.performAll [foundHost Instant.afterLatest] halfDown).calmed.Lists [] [] := by
    decide +kernel
  rintro ⟨ds, us, hlists, hall⟩
  obtain ⟨rfl, rfl⟩ := hlists.unique hrun.2
  rcases hall ⟨1⟩ (hrun.1 ▸ List.mem_singleton_self _) with h | h <;> cases h

theorem not_neverStranded_afterLatest : ¬ NeverStranded Instant.afterLatest := by
  intro h
  refine not_sees_foundHost (h halfDown ⟨⟨.standard, rfl⟩, ⟨rfl, rfl⟩, fun _ => ?_⟩ _ ?_).1
  · show Instant.latest ≤ Instant.afterLatest
    decide
  · intro d hd
    obtain rfl := List.mem_singleton.mp hd
    exact le_refl Instant.afterLatest

/-- **No commit is stranded in runs up to an instant exactly if the instant is no leap
    second at the end of the calendar.** -/
theorem neverStranded_iff : NeverStranded last ↔ last ≤ Instant.latest := by
  constructor
  · intro h
    by_contra hle
    have hafter := Instant.afterLatest_le_of_latest_lt (lt_of_not_ge hle)
    refine not_neverStranded_afterLatest fun s hstarts ds hds => ?_
    exact h s ⟨hstarts.engine, hstarts.alone, fun n => le_trans (hstarts.clock n) hafter⟩ ds
      fun d hd => (hds d hd).mono hafter
  · intro hle s hstarts ds hds
    exact neverStranded_latest s ⟨hstarts.engine, hstarts.alone,
      fun n => le_trans (hstarts.clock n) hle⟩ ds fun d hd => (hds d hd).mono hle

end System

end ClearanceGraph
