import ClearanceGraph.Json.Basic
import ClearanceGraph.Proofs.Order.Table

/-! # Values — what holds of the parts holds of the whole

    A value is readable if its parts are, and canonical if its parts are and its
    fields ascend.  Every proof about values goes by one induction, in which an
    array gives its items and an object the values of its fields. -/

open Std

namespace ClearanceGraph.Json

mutual

/-- Induction over values: an array by its items, an object by the values of its
    fields. -/
@[induction_eliminator]
theorem induct {p : Json → Prop} (null : p .null) (bool : ∀ b, p (.bool b))
    (int : ∀ n, p (.int n)) (float : ∀ x, p (.float x)) (string : ∀ s, p (.string s))
    (array : ∀ xs : List Json, (∀ x ∈ xs, p x) → p (.array xs))
    (object : ∀ fs : List (String × Json), (∀ e ∈ fs, p e.2) → p (.object fs))
    (unreadable : p .unreadable) : ∀ j, p j
  | .null => null
  | .bool b => bool b
  | .int n => int n
  | .float x => float x
  | .string s => string s
  | .array xs =>
      array xs (inductItems null bool int float string array object unreadable xs)
  | .object fs =>
      object fs (inductFields null bool int float string array object unreadable fs)
  | .unreadable => unreadable

private theorem inductItems {p : Json → Prop} (null : p .null) (bool : ∀ b, p (.bool b))
    (int : ∀ n, p (.int n)) (float : ∀ x, p (.float x)) (string : ∀ s, p (.string s))
    (array : ∀ xs : List Json, (∀ x ∈ xs, p x) → p (.array xs))
    (object : ∀ fs : List (String × Json), (∀ e ∈ fs, p e.2) → p (.object fs))
    (unreadable : p .unreadable) : ∀ xs : List Json, ∀ x ∈ xs, p x
  | [] => List.forall_mem_nil _
  | x :: xs => List.forall_mem_cons.mpr
      ⟨induct null bool int float string array object unreadable x,
        inductItems null bool int float string array object unreadable xs⟩

private theorem inductFields {p : Json → Prop} (null : p .null) (bool : ∀ b, p (.bool b))
    (int : ∀ n, p (.int n)) (float : ∀ x, p (.float x)) (string : ∀ s, p (.string s))
    (array : ∀ xs : List Json, (∀ x ∈ xs, p x) → p (.array xs))
    (object : ∀ fs : List (String × Json), (∀ e ∈ fs, p e.2) → p (.object fs))
    (unreadable : p .unreadable) : ∀ fs : List (String × Json), ∀ e ∈ fs, p e.2
  | [] => List.forall_mem_nil _
  | (_, x) :: fs => List.forall_mem_cons.mpr
      ⟨induct null bool int float string array object unreadable x,
        inductFields null bool int float string array object unreadable fs⟩

end

/-! ## Readable values -/

theorem isReadable_array_iff {xs : List Json} :
    (Json.array xs).isReadable = true ↔ ∀ x ∈ xs, x.isReadable = true := by
  rw [isReadable]
  induction xs with
  | nil => exact ⟨nofun, fun _ => rfl⟩
  | cons x xs ih => rw [readableItems, Bool.and_eq_true, ih, List.forall_mem_cons]

theorem isReadable_object_iff {fs : List (String × Json)} :
    (Json.object fs).isReadable = true ↔ ∀ e ∈ fs, e.2.isReadable = true := by
  rw [isReadable]
  induction fs with
  | nil => exact ⟨nofun, fun _ => rfl⟩
  | cons e fs ih => rw [readableFields, Bool.and_eq_true, ih, List.forall_mem_cons]

/-! ## Canonical values -/

theorem isCanonical_array_iff {xs : List Json} :
    (Json.array xs).isCanonical = true ↔ ∀ x ∈ xs, x.isCanonical = true := by
  rw [isCanonical]
  induction xs with
  | nil => exact ⟨nofun, fun _ => rfl⟩
  | cons x xs ih => rw [canonicalItems, Bool.and_eq_true, ih, List.forall_mem_cons]

/-- Names that ascend from one to the next ascend. -/
theorem ascendingNames_iff {fs : List (String × Json)} :
    ascendingNames fs = true ↔ fs.Pairwise fun a b => compare a.1 b.1 = .lt := by
  induction fs with
  | nil => exact ⟨fun _ => .nil, fun _ => rfl⟩
  | cons f fs ih =>
      cases fs with
      | nil => exact ⟨fun _ => List.pairwise_singleton _ _, fun _ => rfl⟩
      | cons g fs =>
          rw [ascendingNames, Bool.and_eq_true, beq_iff_eq, ih]
          constructor
          · rintro ⟨hfg, hrest⟩
            refine .cons (List.forall_mem_cons.mpr ⟨hfg, fun e he => ?_⟩) hrest
            exact TransCmp.lt_trans hfg ((List.pairwise_cons.mp hrest).1 e he)
          · intro h
            obtain ⟨hf, hrest⟩ := List.pairwise_cons.mp h
            exact ⟨hf g List.mem_cons_self, hrest⟩

theorem isCanonical_object_iff {fs : List (String × Json)} :
    (Json.object fs).isCanonical = true ↔
      fs.Pairwise (fun a b => compare a.1 b.1 = .lt) ∧
      ∀ e ∈ fs, e.2.isCanonical = true := by
  have hfields : canonicalFields fs = true ↔ ∀ e ∈ fs, e.2.isCanonical = true := by
    induction fs with
    | nil => exact ⟨nofun, fun _ => rfl⟩
    | cons e fs ih => rw [canonicalFields, Bool.and_eq_true, ih, List.forall_mem_cons]
  rw [isCanonical, Bool.and_eq_true, ascendingNames_iff, hfields]

theorem isReadable_of_isCanonical (j : Json) (h : j.isCanonical = true) :
    j.isReadable = true := by
  induction j with
  | array xs ih =>
      rw [isCanonical_array_iff] at h
      exact isReadable_array_iff.mpr fun x hx => ih x hx (h x hx)
  | object fs ih =>
      rw [isCanonical_object_iff] at h
      exact isReadable_object_iff.mpr fun e he => ih e he (h.2 e he)
  | unreadable => cases h
  | null => rfl
  | bool b => rfl
  | int n => rfl
  | float x => rfl
  | string s => rfl

end ClearanceGraph.Json
