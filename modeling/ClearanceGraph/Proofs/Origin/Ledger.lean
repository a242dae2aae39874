import ClearanceGraph.Origin.Ledger
import ClearanceGraph.Proofs.Store.History

/-! # The ledger — records that show and records that are the latest

    The latest record of an origin follows from all versions of it.  Owners of a
    fact are read at the last instant of the calendar instead, so the two agree
    only on stores in which no version starts after that instant: leap seconds
    at the very end of the calendar come after it (`Upto`).

    On such stores `record?` is both, and nothing that was committed is still to
    start. -/

open Std (TransCmp)

namespace ClearanceGraph

namespace Store

variable {s s' : Store} {t u : Instant}

/-! ## Stores up to an instant -/

/-- No version starts after an instant. -/
def Upto (s : Store) (t : Instant) : Prop := ∀ k, ∀ v ∈ s.versionsOf k, v.validFrom ≤ t

theorem upto_empty (t : Instant) : Store.empty.Upto t := by
  intro k v hv
  simp [versionsOf, Store.empty] at hv

theorem Upto.mono (h : s.Upto t) (htu : t ≤ u) : s.Upto u :=
  fun k v hv => le_trans (h k v hv) htu

theorem Upto.not_startsWithin (h : s.Upto t) (k : DocumentKey) (u : Instant) :
    ¬ s.StartsWithin k t u := by
  rintro ⟨v, hv, hlt, -⟩
  exact absurd (h k v hv) (not_le.mpr hlt)

/-- From there on the same documents show. -/
theorem Upto.visible_eq (h : s.Upto t) (htu : t ≤ u) (k : DocumentKey) :
    s.visible u k = s.visible t k :=
  visible_eq_of_not_startsWithin htu (h.not_startsWithin k u)

/-- A commit of no later valid time. -/
theorem Upto.submit_of_le {tx : Transaction} {id : TransactionId} (h : s.Upto t)
    (hle : tx.validTime ≤ t) (hsub : s.submit tx = .ok (id, s')) : s'.Upto t := by
  intro k v hv
  rcases mem_versionsOf_submit hsub hv with hv | ⟨hfrom, -⟩
  · exact h k v hv
  · exact hfrom ▸ hle

/-- A commit that is not earlier than anything before it. -/
theorem Upto.submit {tx : Transaction} {id : TransactionId} (h : s.Upto tx.validTime)
    (hsub : s.submit tx = .ok (id, s')) : s'.Upto tx.validTime := h.submit_of_le le_rfl hsub

/-- What such a commit leaves shows from its valid time on. -/
theorem Upto.visible_submit {tx : Transaction} {id : TransactionId} (hs : s.Sound)
    (h : s.Upto tx.validTime) (hsub : s.submit tx = .ok (id, s')) (hu : tx.validTime ≤ u)
    (k : DocumentKey) : s'.visible u k = (tx.lastWrite? k).getD (s.visible u k) :=
  Store.visible_submit hs hsub hu (h.not_startsWithin k u)

/-! ## Latest records -/

/-- The record of an origin that shows at the end of the calendar. -/
def record? (s : Store) (o : OriginId) : Option OriginRecord :=
  (s.visible Instant.latest (.origin o)).bind Document.origin?

theorem Sound.id_of_record? (hs : s.Sound) {o : OriginId} {r : OriginRecord}
    (h : s.record? o = some r) : r.id = o := by
  obtain ⟨d, hd, hr⟩ := Option.bind_eq_some_iff.mp h
  have hkey := hs.key_of_visible hd
  rcases d with c | x | p | e <;> simp [Document.origin?] at hr
  subst hr
  simpa [Document.key] using hkey

/-- The latest record of an origin, whatever instant is looked at. -/
def lastRecord? (s : Store) (o : OriginId) : Option OriginRecord :=
  (s.newestOf? (.origin o)).bind fun v => v.document.bind Document.origin?

/-- **The latest record** of an origin is in its newest version. -/
theorem Sound.previous_gives_last (hs : s.Sound) (o : OriginId) :
    (Ledger.previous o).Gives s (s.lastRecord? o) := by
  obtain ⟨ds, hds, hdated⟩ := s.exists_history_gives (.origin o)
  have hnew := newest?_of_dated hdated
  refine hds.bind ?_
  rw [lastRecord?, ← hnew]
  cases hn : newest? ds with
  | none => exact Reading.gives_pure s _
  | some d =>
      rw [hn] at hnew
      have hmem := mem_of_newestOf? hnew.symm
      dsimp only [Option.map_some, Option.bind_some, Dated.version] at hmem ⊢
      cases hd : d.document with
      | none => exact Reading.gives_pure s _
      | some x =>
          -- what lies under the key of an origin is a record
          have hkey := hs.filed hmem hd
          rcases x with c | r | p | e
          · simp [Document.key] at hkey
          · exact Reading.gives_pure s _
          · simp [Document.key] at hkey
          · simp [Document.key] at hkey

theorem Sound.id_of_lastRecord? (hs : s.Sound) {o : OriginId} {r : OriginRecord}
    (h : s.lastRecord? o = some r) : r.id = o := by
  obtain ⟨v, hv, hr⟩ := Option.bind_eq_some_iff.mp h
  obtain ⟨d, hd, hr⟩ := Option.bind_eq_some_iff.mp hr
  have hkey := hs.filed (mem_of_newestOf? hv) hd
  rcases d with c | x | p | e <;> simp [Document.origin?] at hr
  subst hr
  simpa [Document.key] using hkey

/-- The latest record shows at the end of the calendar, if its version has started by
    then. -/
theorem record?_eq_lastRecord? {o : OriginId}
    (h : ∀ v, s.newestOf? (.origin o) = some v → v.validFrom ≤ Instant.latest) :
    s.record? o = s.lastRecord? o := by
  rw [record?, lastRecord?]
  cases hn : s.newestOf? (.origin o) with
  | none => rw [visible_of_versionsOf_eq_nil (newestOf?_eq_none_iff.mp hn)]; rfl
  | some v => rw [visible_of_newestOf? hn (h v hn)]; rfl

/-- The latest record of an origin is the one that shows at the end of the calendar. -/
theorem Sound.previous_gives (hs : s.Sound) (hup : s.Upto Instant.latest) (o : OriginId) :
    (Ledger.previous o).Gives s (s.record? o) := by
  rw [record?_eq_lastRecord? fun v hv => hup _ v (mem_of_newestOf? hv)]
  exact hs.previous_gives_last o

/-- Nothing of an origin is later than when it was last seen. -/
theorem lastSeen_gives (s : Store) (o : OriginId) : ∃ t?, (Ledger.lastSeen o).Gives s t? ∧
    ∀ v ∈ s.versionsOf (.origin o), ∃ t, t? = some t ∧ v.validFrom ≤ t := by
  obtain ⟨ds, hds, hdated⟩ := s.exists_history_gives (.origin o)
  refine ⟨_, hds.bind (Reading.gives_pure s _), fun v hv => ?_⟩
  have hmem : v ∈ ds.map Dated.version := by
    rw [hdated]
    exact mem_sortBy.mpr hv
  obtain ⟨d, hd, rfl⟩ := List.mem_map.mp hmem
  have hstart : d.valid.start ∈ ds.map (·.valid.start) := List.mem_map.mpr ⟨d, hd, rfl⟩
  cases hlast : lastMax? compare (ds.map (·.valid.start)) with
  | none =>
      rw [lastMax?_eq_none_iff.mp hlast] at hstart
      cases hstart
  | some t => exact ⟨t, rfl, Instant.le_iff_isLE.mpr (isLE_of_lastMax? hlast _ hstart)⟩

/-- An origin was last seen at the start of some version. -/
theorem le_of_lastSeen {o : OriginId} (h : ∀ v ∈ s.versionsOf (.origin o), v.validFrom ≤ t)
    (hu : (Ledger.lastSeen o).Gives s (some u)) : u ≤ t := by
  obtain ⟨ds, hds, hdated⟩ := s.exists_history_gives (.origin o)
  obtain hlast := hu.unique (hds.bind (Reading.gives_pure s _))
  obtain ⟨d, hd, rfl⟩ := List.mem_map.mp (mem_of_lastMax? hlast.symm)
  have hmem : d.version ∈ sortBy Version.order (s.versionsOf (.origin o)) :=
    hdated ▸ List.mem_map.mpr ⟨d, hd, rfl⟩
  exact h d.version (mem_sortBy.mp hmem)

/-! ## Owners -/

/-- The records that keep a fact. -/
def owners (s : Store) (f : Fact) : List OriginRecord :=
  (s.query Instant.latest (.asserting f)).filterMap Document.origin?

theorem owners_gives (s : Store) (f : Fact) : (Ledger.owners f).Gives s (s.owners f) :=
  (Reading.gives_query Instant.latest (.asserting f) s).bind (Reading.gives_pure s _)

/-- The owners of a fact are the records that assert it. -/
theorem Sound.mem_owners_iff (hs : s.Sound) {f : Fact} {r : OriginRecord} :
    r ∈ s.owners f ↔ s.record? r.id = some r ∧ r.asserts f = true := by
  simp only [owners, List.mem_filterMap, query, mem_visibleWhere, record?,
    Option.bind_eq_some_iff]
  constructor
  · rintro ⟨d, ⟨k, hk, hf⟩, hr⟩
    have hkey := hs.key_of_visible hk
    rcases d with c | x | p | e <;> simp [Document.origin?] at hr
    subst hr
    obtain rfl : DocumentKey.origin x.id = k := hkey
    exact ⟨⟨_, hk, rfl⟩, by simpa [Document.isRecordAsserting, Document.origin?] using hf⟩
  · rintro ⟨⟨d, hd, hr⟩, hf⟩
    rcases d with c | x | p | e <;> simp [Document.origin?] at hr
    subst hr
    exact ⟨_, ⟨_, hd, by simpa [Document.isRecordAsserting, Document.origin?] using hf⟩,
      rfl⟩

end Store

end ClearanceGraph
