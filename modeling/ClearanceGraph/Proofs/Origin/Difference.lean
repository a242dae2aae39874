import ClearanceGraph.Proofs.Origin.Exactness
import ClearanceGraph.Proofs.Origin.Ownership

/-! # Differences — what a call reports is what it changed

    A call that succeeds reports its changes and the facts that it leaves to others.
    Its changes are the differences between what shows before and after, one for each
    fact, and its commit writes nothing twice (`Call.Reports`).  This is what it means
    for the plan of the call to be exact.

    The facts that it leaves to others are looked up at the last instant that is no leap
    second.  So they are exactly those that live records of others assert as long as no
    origin was seen later (`Call.reportedUpTo_iff`). -/

namespace ClearanceGraph

namespace Store

variable {s s' : Store} {t : Instant} {o : OriginId}

/-! ## When origins were last seen -/

/-- No origin was last seen when nothing starts. -/
theorem Upto.lastSeen_le (h : s.Upto t) {u : Instant}
    (hu : (Ledger.lastSeen o).Gives s (some u)) :
    u ≤ t := le_of_lastSeen (h _) hu

/-- The record of an origin that was last seen early enough is the one that owners are
    read from. -/
theorem record?_eq_of_lastSeen
    (h : ∀ u, (Ledger.lastSeen o).Gives s (some u) → u ≤ Instant.latest) :
    s.record? o = s.lastRecord? o := by
  obtain ⟨seen, hseen, hle⟩ := s.lastSeen_gives o
  refine record?_eq_lastRecord? fun v hv => ?_
  obtain ⟨u, rfl, hvu⟩ := hle v (mem_of_newestOf? hv)
  exact le_trans hvu (h u hseen)

end Store

namespace Call

variable {levels : LevelConfig} {config : ReconcileConfig} {c : Call} {s s' : Store}
    {t : Instant}

/-- A call that is not later keeps a store up to an instant. -/
theorem upto_perform (hs : s.Sound) {w : World} (hw : w.Alone s) (hle : c.validTime ≤ t)
    (h : s.Upto t) : (c.perform levels config w).2.backend.store.Upto t := by
  rcases c.perform_store levels config hw with hsame | ⟨p, id, hplan, hsub⟩
  · exact hsame.symm ▸ h
  · exact h.submit_of_le ((plan_writes hs hplan).1.symm ▸ hle) hsub

/-! ## Reports -/

/-- A fact that an origin asserted and does not any more. -/
def Drops (c : Call) (s : Store) (f : Fact) : Prop :=
  ∃ l, (Ledger.previous c.origin).Gives s (some l) ∧ l.asserts f = true ∧
    c.asserted.get? f = none

/-- A fact that the live record of another origin asserts. -/
def Left (c : Call) (s : Store) (f : Fact) : Prop :=
  ∃ o l, o ≠ c.origin ∧ (Ledger.previous o).Gives s (some l) ∧ l.asserts f = true

/-- **What a call reports is what it did**: the changes of what shows, and the facts
    that it drops and others assert, if none of those was last seen later than an
    instant. -/
structure Reports (last : Instant) (c : Call) (s s' : Store) (x : Outcome) : Prop where
  changes : ∀ f k, ⟨f, k⟩ ∈ x.changes ↔
    ChangeKind.between? (s.visible c.validTime (.fact f))
    (s'.visible c.validTime (.fact f)) = some k
  /-- No fact is reported twice. -/
  once : (x.changes.map (·.fact)).Nodup
  /-- No key is written twice. -/
  committed : ∀ id, x.transaction = some id → ∃ tx, s'.transaction? id = some tx ∧
    ((tx.operations.filter Operation.isWrite).map Operation.key).Nodup
  unchanged : x.transaction = none → s' = s
  shared : (∀ o u, o ≠ c.origin → (Ledger.lastSeen o).Gives s (some u) → u ≤ last) →
    x.shared.Nodup ∧ ∀ f, f ∈ x.shared ↔ c.Drops s f ∧ c.Left s f

theorem drops_iff (hs : s.Sound) {f : Fact} :
    c.Drops s f ↔ f ∈ Plan.droppedBy (s.lastRecord? c.origin) c.asserted := by
  rw [Plan.mem_droppedBy]
  refine exists_congr fun l => and_congr_left fun _ => ⟨fun h => ?_, fun h => ?_⟩
  · exact (h.unique (hs.previous_gives_last c.origin)).symm
  · exact h ▸ hs.previous_gives_last c.origin

/-- Others are left what owners keep, if none of them was last seen in the leap second. -/
theorem left_iff (hs : s.Sound)
    (hseen : ∀ o u, o ≠ c.origin → (Ledger.lastSeen o).Gives s (some u) →
      u ≤ Instant.latest)
    {f : Fact} : c.Left s f ↔ s.keptByOthers c.origin f = true := by
  have hrecord : ∀ o, o ≠ c.origin → s.record? o = s.lastRecord? o := fun o ho =>
    Store.record?_eq_of_lastSeen fun u => hseen o u ho
  rw [Store.keptByOthers_iff]
  constructor
  · rintro ⟨o, l, ho, hl, hf⟩
    have hlast := hl.unique (hs.previous_gives_last o)
    obtain rfl := hs.id_of_lastRecord? hlast.symm
    exact ⟨l, hs.mem_owners_iff.mpr ⟨(hrecord _ ho).trans hlast.symm, hf⟩, ho⟩
  · rintro ⟨l, hl, ho⟩
    obtain ⟨hlive, hf⟩ := hs.mem_owners_iff.mp hl
    rw [hrecord _ ho] at hlive
    exact ⟨l.id, l, ho, hlive ▸ hs.previous_gives_last l.id, hf⟩

section Reports

variable (hs : s.Sound)
  (hfiled : ∀ f, ∀ r ∈ s.owners f, ∀ k, r.content? f = some k → k.fact = f)
  {policy : CascadePolicy}

include hs

/-- A call that finds nothing to do reports that. -/
theorem reports_unchanged (h : (c.plan policy).Gives s none) :
    c.Reports .latest s s (.unchanged c.origin c.validTime) := by
  refine ⟨fun f k => ?_, List.nodup_nil, fun id hid => ?_, fun _ => rfl, fun _ => ?_⟩
  · rw [hs.between?_visible_self]
    exact ⟨fun hmem => absurd hmem List.not_mem_nil, (nomatch ·)⟩
  · cases hid
  · refine ⟨List.nodup_nil, fun f => ?_⟩
    rw [drops_iff hs, droppedBy_eq_nil hs h]
    simp [Outcome.unchanged]

include hfiled

/-- A call that commits its plan reports what that does. -/
theorem reports_committed {p : Plan} {id : TransactionId}
    (h : (c.plan policy).Gives s (some p))
    (hsub : s.submit p.transaction = .ok (id, s')) :
    c.Reports .latest s s' ⟨some id, c.origin, p.validTime, p.changes, p.shared⟩ := by
  obtain ⟨q, gone, hdraws, hcloses⟩ := plan_drawn hs h
  obtain ⟨hchanges, hshared, x, hfiles⟩ := hcloses.files
  have htidy := hdraws.tidy hs hfiled
  refine ⟨fun f k => ?_, ?_, fun id' hid => ?_, (nomatch ·), fun hseen => ?_⟩
  · rw [hdraws.visible_submit hs hfiles hsub, hchanges, htidy.exact.mem_changes_iff hs,
      hdraws.validTime]
  · rw [hchanges]
    exact htidy.exact.nodup_changes
  · obtain rfl := Option.some.inj hid
    exact ⟨_, Store.transaction?_submit hs hsub, htidy.exact.nodup_writes hcloses⟩
  · rw [hshared, htidy.shared]
    refine ⟨(Plan.nodup_droppedBy _ _).filter _, fun f => ?_⟩
    rw [List.mem_filter, drops_iff hs, left_iff hs hseen]

end Reports

/-! ## Reports up to an instant -/

/-- Every call that succeeds reports what it did, as far as other origins were last seen
    up to an instant. -/
def ReportedUpTo (last : Instant) : Prop :=
  ∀ (levels : LevelConfig) (config : ReconcileConfig) (w : World),
    w.backend.store.Reachable →
    w.backend.store.RecordsFiled → w.rivals = [] →
      ∀ (c : Call) (x : Outcome) (w' : World), c.perform levels config w = (.ok x, w') →
        c.Reports last w.backend.store w'.backend.store x

theorem reportedUpTo_latest : ReportedUpTo Instant.latest := by
  intro levels config w hreach hfiled halone c x w' h
  have hs := hreach.sound
  rcases c.perform_ok ⟨rfl, halone⟩ h with ⟨hplan, rfl, hsame⟩ | ⟨p, id, hplan, hsub, rfl⟩
  · rw [hsame]
    exact reports_unchanged hs hplan
  · exact reports_committed hs (hfiled.owners hs) hplan hsub

/-- A store in which one origin found a host, and another one found it in the leap
    second. -/
def leapHost : Store :=
  Engine.doneTo .empty [.call .standard .standard (hostRun .latest "a" ["x"]),
    .call .standard .standard (hostRun .afterLatest "b" ["x"])]

private theorem served_leapHost : leapHost.Served := Engine.served_doneTo _ .empty

private theorem upto_leapHost : leapHost.Upto Instant.afterLatest := by
  obtain ⟨s, hs⟩ : ∃ s, s = Engine.doneTo .empty [.call .standard .standard
    (hostRun .latest "a" ["x"])] := ⟨_, rfl⟩
  have hserved : s.Served := hs ▸ Engine.served_doneTo _ .empty
  have hfirst : s.Upto Instant.afterLatest := by
    rw [hs]
    exact upto_perform Store.sound_empty (World.alone_holding _) (by decide)
      (Store.upto_empty _)
  have hsecond : ((hostRun .afterLatest "b" ["x"]).perform .standard .standard
      (World.holding s)).2.backend.store.Upto Instant.afterLatest :=
    upto_perform hserved.kept.1 (World.alone_holding s) le_rfl hfirst
  rw [hs] at hsecond
  exact hsecond

/-- When the first origin does not find the host any more, it is not reported that the
    other one asserts it. -/
theorem not_reportedUpTo_afterLatest : ¬ ReportedUpTo Instant.afterLatest := by
  intro h
  obtain ⟨s, hs⟩ : ∃ s, s = leapHost := ⟨_, rfl⟩
  have hserved : s.Served := hs ▸ served_leapHost
  have hupto : s.Upto Instant.afterLatest := hs ▸ upto_leapHost
  have hasserts : ∀ o, o = "a" ∨ o = "b" →
      ∃ l, (Ledger.previous ⟨o⟩).Gives s (some l) ∧
        l.asserts (.object ⟨"Host|x"⟩) = true := by
    intro o ho
    have hlast : (s.lastRecord? ⟨o⟩).any (·.asserts (.object ⟨"Host|x"⟩)) = true := by
      rw [hs]
      rcases ho with rfl | rfl
      · decide +kernel
      · decide +kernel
    obtain ⟨l, hl, hf⟩ := (Option.any_eq_true _ _).mp hlast
    exact ⟨l, hl ▸ hserved.kept.1.previous_gives_last ⟨o⟩, hf⟩
  -- the owners are asked for before the leap second, so `b` is not among them
  have hlost : ((hostRun .latest "a" []).perform .standard .standard
      (World.holding s)).1.toOption.any (fun x => x.shared = []) = true := by
    rw [hs]
    decide +kernel
  obtain ⟨x, hx, hshared⟩ :=
    Act.exists_eq_ok (a := (hostRun .latest "a" []).perform .standard
    .standard) (w := World.holding s) _ hlost
  have hreports := h .standard .standard (World.holding s) hserved.reachable
    hserved.kept.2.recordsFiled rfl (hostRun .latest "a" []) x _ hx
  obtain ⟨-, hiff⟩ := hreports.shared fun o u _ hu => hupto.lastSeen_le hu
  obtain ⟨l, hl, hf⟩ := hasserts "a" (.inl rfl)
  obtain ⟨l', hl', hf'⟩ := hasserts "b" (.inr rfl)
  have hmem :=
    (hiff (.object ⟨"Host|x"⟩)).mpr ⟨⟨l, hl, hf, rfl⟩, ⟨"b"⟩, l', by decide, hl', hf'⟩
  rw [of_decide_eq_true hshared] at hmem
  cases hmem

/-- **The report of a call is exact as far as origins were last seen up to an instant
    exactly if the instant is no leap second at the end of the calendar.** -/
theorem reportedUpTo_iff {last : Instant} : ReportedUpTo last ↔ last ≤ Instant.latest := by
  constructor
  · intro h
    by_contra hle
    have hafter := Instant.afterLatest_le_of_latest_lt (lt_of_not_ge hle)
    refine not_reportedUpTo_afterLatest ?_
    intro levels config w hreach hfiled halone c x w' hx
    obtain ⟨hchanges, honce, hcommitted, hunchanged, hshared⟩ :=
      h levels config w hreach hfiled halone c x w' hx
    exact ⟨hchanges, honce, hcommitted, hunchanged, fun hseen =>
      hshared fun o u ho hu => le_trans (hseen o u ho hu) hafter⟩
  · intro hle levels config w hreach hfiled halone c x w' hx
    obtain ⟨hchanges, honce, hcommitted, hunchanged, hshared⟩ :=
      reportedUpTo_latest levels config w hreach hfiled halone c x w' hx
    exact ⟨hchanges, honce, hcommitted, hunchanged, fun hseen =>
      hshared fun o u ho hu => le_trans (hseen o u ho hu) hle⟩

end Call

end ClearanceGraph
