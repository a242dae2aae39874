import ClearanceGraph.Proofs.Order.Table
import ClearanceGraph.Store.Document

/-! # Agreement — contents agree with themselves

    Contents are compared by agreement, not by equality: doubles agree as numbers,
    and the two zeros are one number.  Agreement is reflexive all the same, so a
    content that was just written agrees with what was to be written. -/

namespace ClearanceGraph

instance : ReflBEq Double where
  rfl {a} := by
    show (a.bits == a.bits || (a.isZero && a.isZero)) = true
    rw [beq_self_eq_true, Bool.true_or]

namespace Json

mutual

theorem agree_self : ∀ j : Json, agree j j = true
  | null => rfl
  | bool b => beq_self_eq_true b
  | int n => beq_self_eq_true n
  | float x => beq_self_eq_true x
  | string s => beq_self_eq_true s
  | array xs => agreeItems_self xs
  | object fs => agreeFields_self fs
  | unreadable => rfl

private theorem agreeItems_self : ∀ xs : List Json, agreeItems xs xs = true
  | [] => rfl
  | x :: xs => by rw [agreeItems, agree_self x, agreeItems_self xs, Bool.and_self]

private theorem agreeFields_self : ∀ fs : List (String × Json), agreeFields fs fs = true
  | [] => rfl
  | (k, x) :: fs => by
      rw [agreeFields, beq_self_eq_true, agree_self x, agreeFields_self fs, Bool.and_self,
        Bool.and_self]

end

end Json

instance : ReflBEq AttributeValue where
  rfl {a} := Json.agree_self a.json

namespace Table

variable {κ α : Type} [Ord κ]

instance [BEq κ] [BEq α] [ReflBEq κ] [ReflBEq α] : ReflBEq (Table κ α) where
  rfl {t} := beq_self_eq_true t.entries

/-- Tables that agree have the same keys. -/
theorem contains_eq_of_beq [DecidableEq κ] [BEq α] {s t : Table κ α} (h : (s == t) = true)
    (k : κ) :
    s.contains k = t.contains k := by
  have hes : (s.entries == t.entries) = true := h
  simp only [contains, get?]
  revert hes
  generalize s.entries = es
  generalize t.entries = fs
  -- entry by entry, since the comparison asks for the same keys in the same order
  induction es generalizing fs with
  | nil =>
      intro hes
      cases fs with
      | nil => rfl
      | cons f fs => cases hes
  | cons e es ih =>
      intro hes
      cases fs with
      | nil => cases hes
      | cons f fs =>
          obtain ⟨he, hrest⟩ := (Bool.and_eq_true _ _).mp hes
          obtain ⟨hk, -⟩ := (Bool.and_eq_true _ _).mp he
          rw [find, find, eq_of_beq hk]
          split
          · rfl
          · exact ih fs hrest

end Table

instance : ReflBEq Object where
  rfl {o} := by
    obtain ⟨r, t, a⟩ := o
    show (r == r && (t == t && a == a)) = true
    rw [beq_self_eq_true, beq_self_eq_true, beq_self_eq_true, Bool.and_self, Bool.and_self]

instance : ReflBEq Edge where
  rfl {e} := by
    obtain ⟨k, a⟩ := e
    show (k == k && a == a) = true
    rw [beq_self_eq_true, beq_self_eq_true, Bool.and_self]

instance : ReflBEq Content where
  rfl {c} := by
    cases c with
    | object o => exact beq_self_eq_true o
    | edge e => exact beq_self_eq_true e
    | declaration d => exact beq_self_eq_true d

/-- A filed content agrees with itself. -/
theorem Document.content_beq_self (c : Content) :
    (Document.content c == Document.content c) = true := beq_self_eq_true c

end ClearanceGraph
