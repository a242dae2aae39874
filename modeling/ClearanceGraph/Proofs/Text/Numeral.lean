import ClearanceGraph.Text.Numeral
import Mathlib.Algebra.Group.Nat.Defs

/-! # Numerals read back — digits, padded digits, hexadecimal digits

    The value of digits does not change with zeros in front of them.  A run of
    digits is taken whole where it ends: before a character that is no digit, or
    where as many digits as may be taken are taken. -/

namespace ClearanceGraph.Text

/-! ## Digits -/

theorem digit?_of_isDigit {c : Char} (h : c.isDigit = true) :
    digit? c = some (c.toNat - '0'.toNat) := by
  rw [Char.isDigit, Bool.and_eq_true, decide_eq_true_eq, decide_eq_true_eq] at h
  exact if_pos h

theorem isDigit_eq (c : Char) : isDigit c = c.isDigit := by
  rw [isDigit, digit?, Char.isDigit]
  split
  · next h =>
      symm
      exact Bool.and_eq_true_iff.mpr ⟨decide_eq_true h.1, decide_eq_true h.2⟩
  · next h =>
      symm
      refine Bool.eq_false_iff.mpr fun hdigit => h ?_
      rw [Bool.and_eq_true, decide_eq_true_eq, decide_eq_true_eq] at hdigit
      exact hdigit

/-- Reading digits on from a number. -/
private theorem foldl_digits {ds : List Char} (h : ∀ c ∈ ds, isDigit c = true) (n : Nat) :
    ds.foldl (fun n c => 10 * n + (digit? c).getD 0) n = Nat.ofDigitChars 10 ds n := by
  rw [Nat.ofDigitChars_eq_foldl]
  induction ds generalizing n with
  | nil => rfl
  | cons c ds ih =>
      have hc : c.isDigit = true := isDigit_eq c ▸ h c List.mem_cons_self
      rw [List.foldl_cons, List.foldl_cons, digit?_of_isDigit hc]
      exact ih (fun d hd => h d (List.mem_cons_of_mem c hd)) _

theorem digitsValue_eq {ds : List Char} (h : ∀ c ∈ ds, isDigit c = true) :
    digitsValue ds = Nat.ofDigitChars 10 ds 0 := foldl_digits h 0

theorem isDigit_of_mem_toDigits {n : Nat} {c : Char} (h : c ∈ Nat.toDigits 10 n) :
    isDigit c = true := by
  rw [isDigit_eq]
  exact Nat.isDigit_of_mem_toDigits (by decide) (by decide) h

/-- A run of digits is taken whole, if it ends where no more digits may be taken or none
    follow. -/
theorem takeDigits_append {ds r : List Char} {most : Nat} (h : ∀ c ∈ ds, isDigit c = true)
    (hmost : ds.length ≤ most)
    (hend : ds.length = most ∨ ∀ c ∈ r.head?, isDigit c = false) :
    takeDigits most (ds ++ r) = (ds, r) := by
  induction ds generalizing most with
  | nil =>
      cases r with
      | nil => rw [List.nil_append, takeDigits]
      | cons c r =>
          cases most with
          | zero => rfl
          | succ m =>
              -- taking stops here, since no digit follows
              have hc : isDigit c = false := hend.elim (fun h => by cases h) fun h =>
                h c rfl
              rw [List.nil_append, takeDigits, hc]
              rfl
  | cons d ds ih =>
      cases most with
      | zero => exact absurd hmost (Nat.not_succ_le_zero _)
      | succ m =>
          have hrest : takeDigits m (ds ++ r) = (ds, r) :=
            ih (fun c hc => h c (List.mem_cons_of_mem d hc)) (Nat.le_of_succ_le_succ hmost)
              (hend.imp_left Nat.succ.inj)
          rw [List.cons_append, takeDigits, if_pos (h d List.mem_cons_self), hrest]

/-! ## Padded digits -/

theorem isDigit_of_mem_padded {width n : Nat} {c : Char} (h : c ∈ padded width n) :
    isDigit c = true := by
  rcases List.mem_append.mp h with h | h
  · rw [List.eq_of_mem_replicate h]
    rfl
  · exact isDigit_of_mem_toDigits h

/-- The digits of a number have the number as their value, zeros in front or none. -/
theorem digitsValue_padded (width n : Nat) : digitsValue (padded width n) = n := by
  rw [digitsValue_eq fun _ => isDigit_of_mem_padded, padded, Nat.ofDigitChars_append,
    Nat.ofDigitChars_replicate_zero, Nat.mul_zero, Nat.ofDigitChars_ten_toDigits]

theorem padded_ne_nil (width n : Nat) : padded width n ≠ [] :=
  List.append_ne_nil_of_right_ne_nil _ Nat.toDigits_ne_nil

theorem length_padded {width n : Nat} (hwidth : 0 < width) (h : n < 10 ^ width) :
    (padded width n).length = width := by
  have hlength : (Nat.toDigits 10 n).length ≤ width :=
    (Nat.length_toDigits_le_iff (by decide) hwidth).mpr h
  rw [padded, List.length_append, List.length_replicate]
  omega

/-! ## Hexadecimal digits -/

theorem hexDigit?_hexDigit {n : Nat} (h : n < 16) : hexDigit? (hexDigit n) = some n := by
  revert n
  decide

end ClearanceGraph.Text
