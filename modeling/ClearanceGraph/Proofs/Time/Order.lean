import ClearanceGraph.Proofs.Order.Choice
import ClearanceGraph.Time.Instant
import Mathlib.Order.Defs.LinearOrder

/-! # The order of time — instants are linearly ordered

    The comparison of instants by day and time of day is a linear order, so the
    lemmas on linear orders apply to valid times. -/

open Std

namespace ClearanceGraph.Instant

theorem lt_iff_compare {a b : Instant} : a < b ↔ compare a b = .lt := Iff.rfl

theorem le_iff_compare {a b : Instant} : a ≤ b ↔ compare a b ≠ .gt := Iff.rfl

theorem le_iff_isLE {a b : Instant} : a ≤ b ↔ (compare a b).isLE = true := by
  rw [le_iff_compare]
  cases compare a b <;> decide

private theorem compare_swap (a b : Instant) : compare a b = (compare b a).swap :=
  OrientedCmp.eq_swap

/-- Instants are linearly ordered. -/
instance : LinearOrder Instant where
  le_refl a := by
    rw [le_iff_isLE]
    exact ReflCmp.isLE_rfl
  le_trans a b c hab hbc := by
    rw [le_iff_isLE] at hab hbc ⊢
    exact TransCmp.isLE_trans hab hbc
  lt_iff_le_not_ge a b := by
    rw [lt_iff_compare, le_iff_compare, le_iff_compare, compare_swap b a]
    cases compare a b <;> decide
  le_antisymm a b hab hba := by
    rw [le_iff_compare] at hab hba
    rw [compare_swap] at hba
    have heq : compare a b = .eq := by
      revert hab hba
      cases compare a b <;> decide
    exact LawfulEqCmp.eq_of_compare heq
  le_total a b := by
    rw [le_iff_compare, le_iff_compare, compare_swap b a]
    cases compare a b <;> decide
  toDecidableLE := inferInstance
  toDecidableLT := inferInstance
  compare_eq_compareOfLessAndEq a b := by
    unfold compareOfLessAndEq
    split
    · assumption
    · next h =>
      split
      · next he =>
        subst he
        exact ReflCmp.compare_self
      · next he =>
        rw [lt_iff_compare] at h
        have hne : compare a b ≠ .eq := fun hc => he (LawfulEqCmp.eq_of_compare hc)
        revert h hne
        cases compare a b <;> decide

open scoped Classical in
/-- The latest of some instants that have a property. -/
theorem exists_latest {us : List Instant} {p : Instant → Prop} (h : ∃ v ∈ us, p v) :
    ∃ v ∈ us, p v ∧ ∀ w ∈ us, v < w → ¬ p w := by
  obtain ⟨v, hv, hpv⟩ := h
  have hmem : v ∈ us.filter p := List.mem_filter.mpr ⟨hv, decide_eq_true hpv⟩
  cases hm : lastMax? compare (us.filter p) with
  | none =>
      rw [lastMax?_eq_none_iff.mp hm] at hmem
      cases hmem
  | some m =>
      obtain ⟨hmus, hpm⟩ := List.mem_filter.mp (mem_of_lastMax? hm)
      refine ⟨m, hmus, of_decide_eq_true hpm, fun w hw hlt hpw => ?_⟩
      have hle := isLE_of_lastMax? hm w (List.mem_filter.mpr ⟨hw, decide_eq_true hpw⟩)
      exact (le_iff_isLE.mpr hle).not_gt hlt

/-! ## The end of the calendar -/

/-- The first instant of the leap second at the end of the calendar. -/
def afterLatest : Instant := ⟨.last, ⟨23, 59, 60, 0, by decide⟩⟩

theorem monthLength_le (y : Int) (m : Nat) : monthLength y m ≤ 31 := by
  unfold monthLength
  split
  · split <;> omega
  · split <;> omega

private theorem lt_iff_then (a b : Instant) :
    a < b ↔ ((compare a.date.year b.date.year).then
        ((compare a.date.month b.date.month).then (compare a.date.day b.date.day))).then
      ((compare a.time.hour b.time.hour).then ((compare a.time.minute b.time.minute).then
        ((compare a.time.second b.time.second).then
          (compare a.time.nanos b.time.nanos)))) = .lt :=
  Iff.rfl

/-- No instant lies between the last one and the leap second. -/
theorem afterLatest_le_of_latest_lt {t : Instant} (h : latest < t) : afterLatest ≤ t := by
  by_contra hle
  have hlt := lt_of_not_ge hle
  obtain ⟨⟨y, m, d, hdate⟩, ⟨hour, minute, second, nanos, htime⟩⟩ := t
  have hday : d ≤ 31 := Nat.le_trans hdate.2.2.2.2.2 (monthLength_le y m)
  simp only [lt_iff_then, latest, afterLatest, Date.last, Ordering.then_eq_lt,
    Ordering.then_eq_eq, Nat.compare_eq_lt, Nat.compare_eq_eq, Int.compare_eq_lt,
    Int.compare_eq_eq] at h hlt
  omega

end ClearanceGraph.Instant
