import ClearanceGraph.Proofs.Store.Query

/-! # Around an object — when what it shows can change

    An object shows itself, its declared level, its profile and its edges.  The
    store is asked for the later starts of versions of these, and it looks at every
    edge ever noted at the object, also at one that is only written or cut later on.

    So the times it names are the ones at which a version around the object starts,
    and no others (`Sound.contains_validTimesAfter_iff`).  Headline:
    `Reachable.stays_until_valid_time`.  Up to the first of these times everything
    that is found around the object stays as it is, which is what lets a pass skip
    the instants in between. -/

namespace ClearanceGraph

/-- The documents around an object: itself, its declared level, its profile and its
    edges. -/
def DocumentKey.IsAround (k : DocumentKey) (r : Reference) : Prop :=
  k = .fact (.object r) ∨ k = .fact (.declaration r) ∨ k = .profile r ∨
    ∃ e : EdgeKey, e.touches r = true ∧ k = .fact (.edge e)

namespace Store

variable {s : Store} {t u v : Instant} {r : Reference} {rs : List Reference}

/-- Whether a version of something around an object starts at an instant. -/
def StartsAround (s : Store) (r : Reference) (v : Instant) : Prop :=
  ∃ k : DocumentKey, k.IsAround r ∧ ∃ w ∈ s.versionsOf k, w.validFrom = v

/-! ## The times that are named -/

/-- Of the keys that have versions, those that are asked for are the ones around the
    object. -/
theorem Sound.mem_keysAround (hs : s.Sound) {k : DocumentKey} {w : Version}
    (hw : w ∈ s.versionsOf k) : k ∈ s.keysAround r ↔ k.IsAround r := by
  have hne : s.versionsOf k ≠ [] := List.ne_nil_of_mem hw
  simp only [keysAround, List.mem_cons, List.mem_map, DocumentKey.IsAround]
  refine or_congr_right (or_congr_right (or_congr_right ?_))
  constructor
  · rintro ⟨e, he, rfl⟩
    exact ⟨e, (hs.indexed.mp he).1, rfl⟩
  · rintro ⟨e, he, rfl⟩
    exact ⟨e, hs.indexed.mpr ⟨he, hne⟩, rfl⟩

theorem contains_validTimesAfter_iff :
    (s.validTimesAfter t rs).contains v = true ↔
      ∃ r ∈ rs, ∃ k ∈ s.keysAround r, ∃ w ∈ s.versionsOf k, w.validFrom = v ∧ t < v := by
  simp only [validTimesAfter, KeySet.contains_ofList_iff, List.mem_flatMap, List.mem_filter,
    List.mem_map, decide_eq_true_eq]
  constructor
  · rintro ⟨k, ⟨r, hr, hk⟩, ⟨w, hw, rfl⟩, hlt⟩
    exact ⟨r, hr, k, hk, w, hw, rfl, hlt⟩
  · rintro ⟨r, hr, k, hk, w, hw, rfl, hlt⟩
    exact ⟨k, ⟨r, hr, hk⟩, ⟨w, hw, rfl⟩, hlt⟩

/-- What is asked for at an object are the starts around it. -/
theorem Sound.exists_keysAround_iff (hs : s.Sound) :
    (∃ k ∈ s.keysAround r, ∃ w ∈ s.versionsOf k, w.validFrom = v ∧ t < v) ↔
      s.StartsAround r v ∧ t < v := by
  constructor
  · rintro ⟨k, hk, w, hw, hv, hlt⟩
    exact ⟨⟨k, (hs.mem_keysAround hw).mp hk, w, hw, hv⟩, hlt⟩
  · rintro ⟨⟨k, hk, w, hw, hv⟩, hlt⟩
    exact ⟨k, (hs.mem_keysAround hw).mpr hk, w, hw, hv, hlt⟩

/-- **The times that are named** are the later ones at which a version around some of
    the objects starts. -/
theorem Sound.contains_validTimesAfter_iff (hs : s.Sound) :
    (s.validTimesAfter t rs).contains v = true ↔ ∃ r ∈ rs, s.StartsAround r v ∧ t < v := by
  rw [Store.contains_validTimesAfter_iff]
  refine exists_congr fun r => and_congr_right fun _ => ?_
  rw [hs.exists_keysAround_iff]

/-! ## What stays -/

section Stays

variable (htu : t ≤ u) (hno : ∀ v, t < v → v ≤ u → ¬ s.StartsAround r v)

include hno

theorem not_startsWithin_of_not_startsAround {k : DocumentKey} (hk : k.IsAround r) :
    ¬ s.StartsWithin k t u := by
  rintro ⟨w, hw, hlt, hle⟩
  exact hno _ hlt hle ⟨k, hk, w, hw, rfl⟩

include htu

/-- Where nothing starts around an object, the documents around it stay. -/
theorem visible_eq_of_not_startsAround {k : DocumentKey} (hk : k.IsAround r) :
    s.visible u k = s.visible t k :=
  visible_eq_of_not_startsWithin htu (not_startsWithin_of_not_startsAround hno hk)

/-- Where nothing starts around an object, the same edges are found at it. -/
theorem Sound.touching_eq_of_not_startsAround (hs : s.Sound) :
    s.query u (.touching r) = s.query t (.touching r) := by
  refine hs.touching_congr hs fun e he => ?_
  exact visible_eq_of_not_startsAround htu hno (.inr (.inr (.inr ⟨e, he, rfl⟩)))

end Stays

/-- **Nothing around an object changes between the times that are named**: up to the
    first one it shows itself, its declared level and its profile as before, and the
    same edges are found at it. Each of these times is later, and a version around one
    of the objects starts there. -/
theorem Reachable.stays_until_valid_time (h : s.Reachable) (t : Instant)
    (rs : List Reference) :
    (∀ u, t < u → (∀ v, (s.validTimesAfter t rs).contains v = true → ¬ v ≤ u) → ∀ r ∈ rs,
      s.visible u (.fact (.object r)) = s.visible t (.fact (.object r)) ∧
        s.visible u (.fact (.declaration r)) = s.visible t (.fact (.declaration r)) ∧
        s.visible u (.profile r) = s.visible t (.profile r) ∧
        s.query u (.touching r) = s.query t (.touching r)) ∧
      ∀ v, (s.validTimesAfter t rs).contains v = true ↔
        ∃ r ∈ rs, s.StartsAround r v ∧ t < v := by
  have hs := h.sound
  refine ⟨?_, fun v => hs.contains_validTimesAfter_iff⟩
  intro u htu hquiet r hr
  have hno : ∀ v, t < v → v ≤ u → ¬ s.StartsAround r v := by
    intro v hlt hle hstarts
    exact hquiet v (hs.contains_validTimesAfter_iff.mpr ⟨r, hr, hstarts, hlt⟩) hle
  have hshow : ∀ k : DocumentKey, k.IsAround r → s.visible u k = s.visible t k := by
    intro k hk
    exact visible_eq_of_not_startsAround (le_of_lt htu) hno hk
  refine ⟨hshow _ (.inl rfl), hshow _ (.inr (.inl rfl)), hshow _ (.inr (.inr (.inl rfl))),
    ?_⟩
  exact hs.touching_eq_of_not_startsAround (le_of_lt htu) hno

/-- Around the third object nothing happens before the later edge comes in, so the cut
    elsewhere leaves what is found at it. -/
theorem edgesOfHost_stays_until_later_edge :
    edgesOfHost.Reachable ∧ default < Instant.latest ∧
      (edgesOfHost.validTimesAfter default [⟨"Host|c"⟩]).toList = [Instant.afterLatest] ∧
      edgesOfHost.query .latest (.touching ⟨"Host|c"⟩) =
        edgesOfHost.query default (.touching ⟨"Host|c"⟩) ∧
      edgesOfHost.StartsAround ⟨"Host|c"⟩ .afterLatest := by
  have hreach : edgesOfHost.Reachable := reachable_ofTransactions _
  have htimes : (edgesOfHost.validTimesAfter default [⟨"Host|c"⟩]).toList =
      [Instant.afterLatest] := by decide +kernel
  obtain ⟨hstays, hnamed⟩ := hreach.stays_until_valid_time default [⟨"Host|c"⟩]
  -- the only later start lies beyond the calendar
  have hquiet : ∀ v, (edgesOfHost.validTimesAfter default [⟨"Host|c"⟩]).contains v = true →
      ¬ v ≤ Instant.latest := by
    intro v hv
    rw [← KeySet.mem_toList, htimes, List.mem_singleton] at hv
    rw [hv]
    decide
  have hlater :
    (edgesOfHost.validTimesAfter default [⟨"Host|c"⟩]).contains Instant.afterLatest =
      true := by
    rw [← KeySet.mem_toList, htimes]
    exact List.mem_cons_self
  obtain ⟨-, -, -, htouching⟩ := hstays .latest (by decide) hquiet _ List.mem_cons_self
  obtain ⟨r, hr, hstarts, -⟩ := (hnamed _).mp hlater
  rw [List.mem_singleton.mp hr] at hstarts
  exact ⟨hreach, by decide, htimes, htouching, hstarts⟩

end Store

end ClearanceGraph
