import ClearanceGraph.Proofs.Store.Commit
import ClearanceGraph.Proofs.Store.Reading
import Mathlib.Data.List.Perm.Subperm

/-! # Histories — the newest version of a document

    A history is read without an instant, and its newest version is the one with
    the greatest valid time, leap seconds at the end of the calendar included.
    A commit puts its own version on top unless a later one is there
    (`newestOf?_submit`); what is newest shows from its valid time on
    (`visible_of_newestOf?`). -/

namespace ClearanceGraph

/-- A version without its end. -/
def Dated.version (d : Dated) : Version := ⟨d.valid.start, d.transaction, d.document⟩

namespace Store

variable {s s' : Store} {k : DocumentKey} {v : Version}

/-- The newest version of a key, by valid time, then by commit. -/
def newestOf? (s : Store) (k : DocumentKey) : Option Version :=
  lastMax? Version.order (s.versionsOf k)

theorem mem_of_newestOf? (h : s.newestOf? k = some v) : v ∈ s.versionsOf k :=
  mem_of_lastMax? h

theorem newestOf?_eq_none_iff : s.newestOf? k = none ↔ s.versionsOf k = [] :=
  lastMax?_eq_none_iff

theorem le_of_newestOf? (h : s.newestOf? k = some v) {w : Version}
    (hw : w ∈ s.versionsOf k) :
    w.validFrom ≤ v.validFrom := compare_validFrom_isLE (isLE_of_lastMax? h w hw)

/-- From its valid time on the newest version is the one that shows. -/
theorem visible_of_newestOf? (h : s.newestOf? k = some v) {u : Instant}
    (hu : v.validFrom ≤ u) :
    s.visible u k = v.document := by
  have hall : (s.versionsOf k).filter (fun w => w.validFrom ≤ u) = s.versionsOf k := by
    refine List.filter_eq_self.mpr fun w hw => ?_
    exact decide_eq_true (le_trans (le_of_newestOf? h hw) hu)
  have hnew : lastMax? Version.order (s.versionsOf k) = some v := h
  rw [visible, showing, hall, hnew]
  rfl

/-- A document that shows is in some version. -/
theorem exists_version_of_visible {u : Instant} {d : Document}
    (h : s.visible u k = some d) :
    ∃ v ∈ s.versionsOf k, v.document = some d := by
  obtain ⟨v, hv, hd⟩ := Option.bind_eq_some_iff.mp h
  exact ⟨v, (List.mem_filter.mp (mem_of_lastMax? hv)).1, hd⟩

theorem visible_of_versionsOf_eq_nil (h : s.versionsOf k = []) (u : Instant) :
    s.visible u k = none := by
  rw [visible, h]
  rfl

/-! ## Starts -/

/-- The instants at which versions start, version by version. -/
def starts (s : Store) : List Instant := s.versions.values.flatten.map (·.validFrom)

theorem validFrom_mem_starts (hv : v ∈ s.versionsOf k) : v.validFrom ∈ s.starts := by
  refine List.mem_map.mpr ⟨v, List.mem_flatten.mpr ⟨s.versionsOf k, ?_, hv⟩, rfl⟩
  rw [Table.mem_values_iff]
  cases hk : s.versions.get? k with
  | none =>
      rw [versionsOf, hk] at hv
      cases hv
  | some vs =>
      refine ⟨k, ?_⟩
      rw [versionsOf, hk, Option.getD_some]

/-- There are no more starts than versions, so ascending instants are, but for one, no
    more. -/
theorem length_le_versionCount {us : List Instant} {t : Instant}
    (hasc : us.Pairwise (· < ·))
    (hstarts : ∀ u ∈ us, u = t ∨ u ∈ s.starts) : us.length ≤ s.versionCount + 1 := by
  have hsub : us ⊆ t :: s.starts := fun u hu => List.mem_cons.mpr (hstarts u hu)
  -- different instants need different versions
  have hlen := (List.subperm_of_subset (hasc.imp ne_of_lt) hsub).length_le
  rwa [List.length_cons, starts, List.length_map] at hlen

/-! ## Commits -/

section Commit

variable {tx : Transaction} {id : TransactionId}

/-- A commit leaves the versions of the keys that it does not write. -/
theorem versionsOf_submit_of_not_writes (h : s.submit tx = .ok (id, s'))
    (hk : tx.lastWrite? k = none) : s'.versionsOf k = s.versionsOf k := by
  obtain ⟨-, -, -, hvers, -⟩ := submit_eq_ok h
  rw [hvers, List.getLast?_eq_none_iff.mp hk, List.map_nil, List.append_nil]

/-- A commit only adds versions, all of its own valid time. -/
theorem mem_versionsOf_submit (h : s.submit tx = .ok (id, s')) (hv : v ∈ s'.versionsOf k) :
    v ∈ s.versionsOf k ∨
      v.validFrom = tx.validTime ∧ v.transaction = id ∧ v.document ∈ tx.writesTo k := by
  obtain ⟨-, -, -, hvers, -⟩ := submit_eq_ok h
  rw [hvers, List.mem_append] at hv
  rcases hv with hv | hv
  · exact .inl hv
  · obtain ⟨d, hd, rfl⟩ := List.mem_map.mp hv
    exact .inr ⟨rfl, rfl, hd⟩

/-- A document of a version was there before, or the commit put it. -/
theorem mem_versionsOf_submit_put (h : s.submit tx = .ok (id, s'))
    (hv : v ∈ s'.versionsOf k)
    {d : Document} (hd : v.document = some d) : v ∈ s.versionsOf k ∨
    .put d ∈ tx.operations := by
  refine (mem_versionsOf_submit h hv).imp_right ?_
  rintro ⟨-, -, hw⟩
  rw [hd] at hw
  obtain ⟨op, hop, hwrite⟩ := List.mem_filterMap.mp hw
  cases op with
  | put x =>
      rw [Operation.writeTo?_put] at hwrite
      split at hwrite
      · cases hwrite
        exact hop
      · cases hwrite
  | delete l =>
      rw [Operation.writeTo?_delete] at hwrite
      split at hwrite <;> cases hwrite
  | expect l x => cases hwrite

/-- **The newest version after a commit** that writes the key. -/
theorem newestOf?_submit (hs : s.Sound) (h : s.submit tx = .ok (id, s'))
    {d : Option Document} (hd : tx.lastWrite? k = some d) :
    s'.newestOf? k = (match s.newestOf? k with
      | none => some ⟨tx.validTime, id, d⟩
      | some x => if tx.validTime < x.validFrom then some x
          else some ⟨tx.validTime, id, d⟩) := by
  obtain ⟨-, rfl, -, hvers, -⟩ := submit_eq_ok h
  rw [newestOf?, hvers]
  exact lastMax?_append_versions (fun v hv => hs.numbered hv) hd

/-- A commit that is not earlier than any version of a key is the newest one of it. -/
theorem newestOf?_submit_of_le (hs : s.Sound) (h : s.submit tx = .ok (id, s'))
    {d : Option Document} (hd : tx.lastWrite? k = some d)
    (hle : ∀ v ∈ s.versionsOf k, v.validFrom ≤ tx.validTime) :
    s'.newestOf? k = some ⟨tx.validTime, id, d⟩ := by
  rw [newestOf?_submit hs h hd]
  cases hx : s.newestOf? k with
  | none => rfl
  | some x => exact if_neg (not_lt.mpr (hle x (mem_of_newestOf? hx)))

end Commit

/-! ## Reading a history -/

/-- Versions with the intervals in which they show, if they are sorted. -/
def datedBy : List Version → List Dated
  | [] => []
  | v :: vs =>
    ⟨⟨v.validFrom, vs.head?.map (·.validFrom)⟩, v.transaction, v.document⟩ :: datedBy vs

theorem map_version_datedBy (vs : List Version) : (datedBy vs).map Dated.version = vs := by
  induction vs with
  | nil => rfl
  | cons v vs ih => rw [datedBy, List.map_cons, ih, Dated.version]

/-- Versions that ascend can be dated. -/
theorem date_of_pairwise {vs : List Version}
    (h : vs.Pairwise fun v w => v.validFrom ≤ w.validFrom) : date vs = .ok
      (datedBy vs) := by
  induction vs with
  | nil => rfl
  | cons v vs ih =>
      obtain ⟨hv, hvs⟩ := List.pairwise_cons.mp h
      cases vs with
      | nil => rfl
      | cons w ws =>
          have hle : ¬ w.validFrom < (Interval.startingAt v.validFrom).start :=
            not_lt.mpr (hv w List.mem_cons_self)
          rw [date]
          simp only [Interval.closeAt, if_neg hle, ih hvs]
          rfl

theorem pairwise_sortBy_order (vs : List Version) :
    (sortBy Version.order vs).Pairwise fun v w => v.validFrom ≤ w.validFrom :=
  (pairwise_sortBy vs).imp compare_validFrom_isLE

/-- **A history does not fail**: it dates the versions of the key by valid time. -/
theorem history_eq_datedBy (s : Store) (k : DocumentKey) :
    s.history k = .ok (datedBy (sortBy Version.order (s.versionsOf k))) :=
  date_of_pairwise (pairwise_sortBy_order _)

/-- **A history is given**: all versions of the key by valid time. -/
theorem exists_history_gives (s : Store) (k : DocumentKey) :
    ∃ ds, (Reading.history k).Gives s ds ∧
      ds.map Dated.version = sortBy Version.order (s.versionsOf k) := by
  refine ⟨_, ?_, map_version_datedBy _⟩
  show (Except.mapError _ (s.history k)) = _
  rw [history_eq_datedBy]
  rfl

/-- The newest version of a history is the newest version of the key. -/
theorem newest?_of_dated {ds : List Dated}
    (h : ds.map Dated.version = sortBy Version.order (s.versionsOf k)) :
    (newest? ds).map Dated.version = s.newestOf? k := by
  rw [newestOf?, ← lastMax?_sortBy, ← h, lastMax?_map]
  rfl

end Store

end ClearanceGraph
