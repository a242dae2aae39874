/-!
# Greatest, least, sorted — by an order on keys

  Of several greatest elements the last one is taken, of several least ones the
  first. Sorting keeps elements that compare equal in their places.
-/

namespace ClearanceGraph

variable {α : Type}

/-- The greatest element; of several the last. -/
def lastMax? (cmp : α → α → Ordering) : List α → Option α
  | [] => none
  | x :: xs =>
    match lastMax? cmp xs with
    | none => some x
    | some y => if cmp x y = .gt then some x else some y

/-- The least element; of several the first. -/
def firstMin? (cmp : α → α → Ordering) : List α → Option α
  | [] => none
  | x :: xs =>
    match firstMin? cmp xs with
    | none => some x
    | some y => if cmp y x = .lt then some y else some x

/-- Puts an element before the first one that is not less. -/
def insertSorted (cmp : α → α → Ordering) (x : α) : List α → List α
  | [] => [x]
  | y :: ys => if cmp x y = .gt then y :: insertSorted cmp x ys else x :: y :: ys

/-- The elements in ascending order; equal ones keep their order. -/
def sortBy (cmp : α → α → Ordering) : List α → List α
  | [] => []
  | x :: xs => insertSorted cmp x (sortBy cmp xs)

theorem lastMax?_eq_none_iff {cmp : α → α → Ordering} {xs : List α} :
    lastMax? cmp xs = none ↔ xs = [] := by
  cases xs with
  | nil => simp [lastMax?]
  | cons x xs =>
    simp only [lastMax?]
    split <;> simp
    split <;> simp

theorem mem_of_lastMax? {cmp : α → α → Ordering} {xs : List α} {x : α}
    (h : lastMax? cmp xs = some x) : x ∈ xs := by
  induction xs with
  | nil => simp [lastMax?] at h
  | cons y ys ih =>
    simp only [lastMax?] at h
    split at h
    · simp_all
    · next z hz =>
      split at h
      · simp_all
      · exact List.mem_cons_of_mem _ (ih (hz.trans h))

theorem mem_insertSorted {cmp : α → α → Ordering} {x y : α} {xs : List α} :
    y ∈ insertSorted cmp x xs ↔ y = x ∨ y ∈ xs := by
  induction xs with
  | nil => simp [insertSorted]
  | cons z zs ih =>
    simp only [insertSorted]
    split
    · simp only [List.mem_cons, ih]
      grind
    · simp

theorem mem_sortBy {cmp : α → α → Ordering} {y : α} {xs : List α} :
    y ∈ sortBy cmp xs ↔ y ∈ xs := by
  induction xs with
  | nil => simp [sortBy]
  | cons x xs ih => simp [sortBy, mem_insertSorted, ih]

end ClearanceGraph
