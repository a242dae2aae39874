import ClearanceGraph.Order.Choice

/-! # Greatest elements — what a choice by an order keeps

    The choice of the last greatest element is above every other element, splits
    over appended lists, and does not see a stable sort.  Among elements that ascend
    it is the last one.  Least elements are only
    used where any of them will do, so nothing is said of them here. -/

open Std

namespace ClearanceGraph

variable {α : Type} {cmp : α → α → Ordering}

private theorem lastMax?_cons (x : α) (xs : List α) :
    lastMax? cmp (x :: xs) = (match lastMax? cmp xs with
      | none => some x
      | some y => if cmp x y = .gt then some x else some y) := rfl

/-- Where no element is above one behind it, the last one is chosen. -/
theorem lastMax?_eq_getLast? {xs : List α} (h : xs.Pairwise fun x y => cmp x y ≠ .gt) :
    lastMax? cmp xs = xs.getLast? := by
  induction xs with
  | nil => rfl
  | cons x xs ih =>
      obtain ⟨hx, hxs⟩ := List.pairwise_cons.mp h
      rw [lastMax?_cons, ih hxs]
      cases hlast : xs.getLast? with
      | none =>
          rw [List.getLast?_eq_none_iff.mp hlast]
          rfl
      | some y =>
          rw [List.getLast?_cons, hlast]
          exact if_neg (hx y (List.mem_of_getLast? hlast))

/-- No element is above the chosen one. -/
theorem isLE_of_lastMax? [TransCmp cmp] {xs : List α} {m : α}
    (h : lastMax? cmp xs = some m) :
    ∀ x ∈ xs, (cmp x m).isLE = true := by
  induction xs generalizing m with
  | nil => simp [lastMax?] at h
  | cons a xs ih =>
      intro x hx
      rw [lastMax?_cons] at h
      cases hm : lastMax? cmp xs with
      | none =>
          rw [hm] at h
          obtain rfl := lastMax?_eq_none_iff.mp hm
          obtain rfl : x = a := by simpa using hx
          obtain rfl := Option.some.inj h
          have hself : cmp x x = .eq := ReflCmp.compare_self
          rw [hself]
          rfl
      | some y =>
          rw [hm] at h
          by_cases hgt : cmp a y = .gt
          · -- the head is above the choice of the tail
            simp only [hgt, ↓reduceIte, Option.some.injEq] at h
            subst h
            rcases List.mem_cons.mp hx with rfl | hx
            · have hself : cmp x x = .eq := ReflCmp.compare_self
              rw [hself]
              rfl
            · have hya : (cmp y a).isLE = true := by
                have hswap : cmp y a = (cmp a y).swap := OrientedCmp.eq_swap
                rw [hswap, hgt]
                rfl
              exact TransCmp.isLE_trans (ih hm x hx) hya
          · simp only [hgt, ↓reduceIte, Option.some.injEq] at h
            subst h
            rcases List.mem_cons.mp hx with rfl | hx
            · revert hgt
              cases cmp x y <;> simp
            · exact ih hm x hx

/-- The chosen element is above everything that stands behind it. -/
theorem exists_split_of_lastMax? [TransCmp cmp] {xs : List α} {m : α}
    (h : lastMax? cmp xs = some m) :
    ∃ as bs, xs = as ++ m :: bs ∧ ∀ b ∈ bs, cmp b m = .lt := by
  induction xs generalizing m with
  | nil => cases h
  | cons a xs ih =>
      rw [lastMax?_cons] at h
      cases hm : lastMax? cmp xs with
      | none =>
          rw [hm] at h
          obtain rfl := lastMax?_eq_none_iff.mp hm
          obtain rfl := Option.some.inj h
          exact ⟨[], [], rfl, fun _ hb => by cases hb⟩
      | some y =>
          rw [hm] at h
          by_cases hgt : cmp a y = .gt
          · obtain rfl : a = m := by simpa [hgt] using h
            refine ⟨[], xs, rfl, fun b hb => ?_⟩
            exact TransCmp.lt_of_isLE_of_lt (isLE_of_lastMax? hm b hb)
              (OrientedCmp.lt_of_gt hgt)
          · obtain rfl : y = m := by simpa [hgt] using h
            obtain ⟨as, bs, hsplit, hbs⟩ := ih hm
            exact ⟨a :: as, bs, by rw [hsplit, List.cons_append], hbs⟩

/-- The choice from two lists in a row: the second one wins unless the first one is
    above. -/
theorem lastMax?_append [TransCmp cmp] (xs ys : List α) :
    lastMax? cmp (xs ++ ys) = (match lastMax? cmp ys with
      | none => lastMax? cmp xs
      | some y => match lastMax? cmp xs with
        | none => some y
        | some x => if cmp x y = .gt then some x else some y) := by
  induction xs with
  | nil =>
      cases h : lastMax? cmp ys with
      | none => simpa [lastMax?] using h
      | some y => simpa [lastMax?] using h
  | cons a xs ih =>
      rw [List.cons_append, lastMax?_cons, ih]
      cases hy : lastMax? cmp ys with
      | none => rfl
      | some y =>
          cases hx : lastMax? cmp xs with
          | none => simp [lastMax?_cons, hx]
          | some x =>
              simp only [lastMax?_cons, hx]
              by_cases hxy : cmp x y = .gt
              · by_cases hax : cmp a x = .gt
                · have hay : cmp a y = .gt := TransCmp.gt_trans hax hxy
                  simp [hxy, hax, hay]
                · simp [hxy, hax]
              · by_cases hax : cmp a x = .gt
                · simp [hxy, hax]
                · -- neither the head nor the first choice is above the second
                  have hle : (cmp a y).isLE = true := by
                    refine TransCmp.isLE_trans (b := x) ?_ ?_
                    · revert hax; cases cmp a x <;> simp
                    · revert hxy; cases cmp x y <;> simp
                  have hay : cmp a y ≠ .gt := by
                    intro hgt
                    rw [hgt] at hle
                    exact absurd hle (by decide)
                  simp [hxy, hax, hay]

/-! ## Sorting -/

private theorem lastMax?_swap [TransCmp cmp] {x y : α} (h : cmp x y = .gt) (zs : List α) :
    lastMax? cmp (y :: x :: zs) = lastMax? cmp (x :: y :: zs) := by
  have hyx : cmp y x = .lt := OrientedCmp.gt_iff_lt.mp h
  simp only [lastMax?_cons]
  cases lastMax? cmp zs with
  | none => simp [h, hyx]
  | some z =>
      by_cases hxz : cmp x z = .gt
      · by_cases hyz : cmp y z = .gt
        · simp [hxz, hyz, h, hyx]
        · simp [hxz, hyz, hyx]
      · by_cases hyz : cmp y z = .gt
        · exact absurd (TransCmp.gt_trans h hyz) hxz
        · simp [hxz, hyz]

/-- Whether an element is put in its place or first does not matter, nor what is left
    out. -/
private theorem lastMax?_filter_insertSorted [TransCmp cmp] (p : α → Bool) (x : α)
    (xs : List α) :
    lastMax? cmp ((insertSorted cmp x xs).filter p) = lastMax? cmp
      ((x :: xs).filter p) := by
  induction xs with
  | nil => rfl
  | cons y ys ih =>
      by_cases h : cmp x y = .gt
      · rw [show insertSorted cmp x (y :: ys) = y :: insertSorted cmp x ys by
          simp [insertSorted, h]]
        cases hy : p y with
        | false =>
            rw [List.filter_cons_of_neg (by simp [hy]), ih]
            cases hx : p x <;> simp [hx, hy]
        | true =>
            rw [List.filter_cons_of_pos hy, lastMax?_cons, ih, ← lastMax?_cons]
            cases hx : p x with
            | false => simp [hx, hy]
            | true =>
                rw [List.filter_cons_of_pos hx, List.filter_cons_of_pos hx,
                  List.filter_cons_of_pos hy, lastMax?_swap h]
      · rw [show insertSorted cmp x (y :: ys) = x :: y :: ys by simp [insertSorted, h]]

private theorem pairwise_insertSorted [TransCmp cmp] (x : α) {xs : List α}
    (h : xs.Pairwise fun a b => (cmp a b).isLE = true) :
    (insertSorted cmp x xs).Pairwise fun a b => (cmp a b).isLE = true := by
  induction xs with
  | nil => exact List.pairwise_singleton _ x
  | cons y ys ih =>
      obtain ⟨hy, hys⟩ := List.pairwise_cons.mp h
      rw [insertSorted]
      split
      · next hgt =>
        refine List.pairwise_cons.mpr ⟨fun z hz => ?_, ih hys⟩
        -- what stands behind `y` now stood behind it before, or is the new element
        rcases mem_insertSorted.mp hz with rfl | hz
        · have hswap : cmp y z = (cmp z y).swap := OrientedCmp.eq_swap
          rw [hswap, hgt]
          rfl
        · exact hy z hz
      · next hgt =>
        have hxy : (cmp x y).isLE = true := by
          revert hgt
          cases cmp x y <;> simp
        refine List.pairwise_cons.mpr ⟨fun z hz => ?_, h⟩
        rcases List.mem_cons.mp hz with rfl | hz
        · exact hxy
        · exact TransCmp.isLE_trans hxy (hy z hz)

/-- A sorted list ascends. -/
theorem pairwise_sortBy [TransCmp cmp] (xs : List α) :
    (sortBy cmp xs).Pairwise fun a b => (cmp a b).isLE = true := by
  induction xs with
  | nil => exact .nil
  | cons x xs ih => exact pairwise_insertSorted x ih

private theorem perm_insertSorted (x : α) (xs : List α) :
    (insertSorted cmp x xs).Perm (x :: xs) := by
  induction xs with
  | nil => exact .refl _
  | cons y ys ih =>
      rw [insertSorted]
      split
      · exact (ih.cons y).trans (.swap x y ys)
      · exact .refl _

/-- A sorted list has the elements that it is made of, each as often. -/
theorem perm_sortBy (xs : List α) : (sortBy cmp xs).Perm xs := by
  induction xs with
  | nil => exact .refl _
  | cons x xs ih => exact (perm_insertSorted x _).trans (ih.cons x)

/-- A choice by keys is the choice among the keys. -/
theorem lastMax?_map {β : Type} (f : β → α) (xs : List β) :
    lastMax? cmp (xs.map f) = (lastMax? (fun a b => cmp (f a) (f b)) xs).map f := by
  induction xs with
  | nil => rfl
  | cons x xs ih =>
      rw [List.map_cons, lastMax?_cons, ih]
      simp only [lastMax?]
      cases lastMax? (fun a b => cmp (f a) (f b)) xs with
      | none => rfl
      | some y =>
          by_cases h : cmp (f x) (f y) = .gt
          · simp [h]
          · simp [h]

/-- A stable sort keeps the last greatest element, also of the elements that some test
    lets pass. -/
theorem lastMax?_filter_sortBy [TransCmp cmp] (p : α → Bool) (xs : List α) :
    lastMax? cmp ((sortBy cmp xs).filter p) = lastMax? cmp (xs.filter p) := by
  induction xs with
  | nil => rfl
  | cons x xs ih =>
      show lastMax? cmp ((insertSorted cmp x (sortBy cmp xs)).filter p) = _
      rw [lastMax?_filter_insertSorted]
      cases hx : p x with
      | false =>
          rw [List.filter_cons_of_neg (by simp [hx]),
            List.filter_cons_of_neg (by simp [hx]), ih]
      | true =>
          rw [List.filter_cons_of_pos hx, List.filter_cons_of_pos hx, lastMax?_cons, ih,
            ← lastMax?_cons]

theorem lastMax?_sortBy [TransCmp cmp] (xs : List α) :
    lastMax? cmp (sortBy cmp xs) = lastMax? cmp xs := by
  have hall : lastMax? cmp ((sortBy cmp xs).filter fun _ => true) =
      lastMax? cmp (xs.filter fun _ => true) := lastMax?_filter_sortBy (fun _ => true) xs
  rwa [List.filter_eq_self.mpr fun _ _ => rfl, List.filter_eq_self.mpr fun _ _ =>
    rfl] at hall

/-- Where no two elements compare equal, the greatest one depends on which elements
    there are. -/
theorem lastMax?_congr [TransCmp cmp] [LawfulEqCmp cmp] {xs ys : List α}
    (h : ∀ x, x ∈ xs ↔ x ∈ ys) : lastMax? cmp xs = lastMax? cmp ys := by
  cases hx : lastMax? cmp xs with
  | none =>
      obtain rfl : xs = [] := lastMax?_eq_none_iff.mp hx
      have hnil : ys = [] := List.eq_nil_iff_forall_not_mem.mpr fun y hy =>
        nomatch (h y).mpr hy
      rw [hnil]
      rfl
  | some m =>
      cases hy : lastMax? cmp ys with
      | none =>
          have hm := (h m).mp (mem_of_lastMax? hx)
          rw [lastMax?_eq_none_iff.mp hy] at hm
          cases hm
      | some n =>
          -- each of the two is not less than the other
          have hmn := isLE_of_lastMax? hy m ((h m).mp (mem_of_lastMax? hx))
          have hnm := isLE_of_lastMax? hx n ((h n).mpr (mem_of_lastMax? hy))
          exact congrArg
            some (LawfulEqCmp.eq_of_compare (OrientedCmp.isLE_antisymm hmn hnm))

end ClearanceGraph
