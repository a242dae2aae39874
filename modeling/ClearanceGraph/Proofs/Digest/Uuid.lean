import ClearanceGraph.Digest.Uuid
import ClearanceGraph.Proofs.Text.Numeral

/-! # Written identifiers are read — as they were

    An identifier is written with as many hexadecimal digits as its sixteen
    bytes have, so the digits have its number as their value.  The hyphens stand
    where they are looked for, and without them the digits are there again. -/

namespace ClearanceGraph.Uuid

open Text

theorem length_hexText (width n : Nat) : (hexText width n).length = width := by
  induction width generalizing n with
  | zero => rfl
  | succ width ih => rw [hexText, List.length_append, ih, List.length_singleton]

/-- So many digits have the number as their value, but for what they cannot hold. -/
theorem mapM_hexDigit?_hexText (width n : Nat) :
    ∃ vs, (hexText width n).mapM hexDigit? = some vs ∧
    vs.foldl (fun n d => 16 * n + d) 0 = n % 16 ^ width := by
  induction width generalizing n with
  | zero => exact ⟨[], rfl, by simp [Nat.mod_one]⟩
  | succ width ih =>
      obtain ⟨vs, hvs, hvalue⟩ := ih (n / 16)
      have hlast : hexDigit? (hexDigit (n % 16)) = some (n % 16) :=
        hexDigit?_hexDigit (Nat.mod_lt _ (by decide))
      refine ⟨vs ++ [n % 16], ?_, ?_⟩
      · rw [hexText, List.mapM_append, hvs]
        simp [hlast]
      · rw [List.foldl_append, hvalue, List.foldl_cons, List.foldl_nil, Nat.pow_succ',
          Nat.mod_mul, Nat.add_comm]

theorem ofDigits?_hexText (u : Uuid) : ofDigits? (hexText 32 u.number) = some u := by
  obtain ⟨vs, hvs, hvalue⟩ := mapM_hexDigit?_hexText 32 u.number
  have hnumber : vs.foldl (fun n d => 16 * n + d) 0 = u.number :=
    hvalue.trans (Nat.mod_eq_of_lt (Nat.lt_of_lt_of_eq u.bounded (by decide)))
  rw [ofDigits?, if_pos (length_hexText 32 u.number), hvs]
  simp only [Option.bind_eq_bind, Option.bind_some, hnumber, dif_pos u.bounded]

/-- Groups of 8, 4, 4, 4 and 12 characters with hyphens between them are read as the
    characters. -/
theorem ofGroups?_append {a b c d e : List Char} (ha : a.length = 8) (hb : b.length = 4)
    (hc : c.length = 4) (hd : d.length = 4) (he : e.length = 12) :
    ofGroups? (a ++ '-' :: b ++ '-' :: c ++ '-' :: d ++ '-' :: e) = ofDigits?
      (a ++ b ++ c ++ d ++ e) := by
  have hform : (a ++ '-' :: b ++ '-' :: c ++ '-' :: d ++ '-' :: e).length = 36 ∧
      [8, 13, 18, 23].all
        (fun i => (a ++ '-' :: b ++ '-' :: c ++ '-' :: d ++ '-' :: e)[i]? ==
        some '-') = true := by
    simp [ha, hb, hc, hd, he, List.getElem?_append]
  rw [ofGroups?, if_pos hform]
  simp [ha, hb, hc, hd, List.drop_append, List.drop_eq_nil_of_le]

/-- **What an identifier is written as is read as the identifier.** -/
theorem ofText?_toText (u : Uuid) : ofText? u.toText = some u := by
  have hlength := length_hexText 32 u.number
  have hgroups := ofGroups?_append (a := (hexText 32 u.number).take 8)
    (b := ((hexText 32 u.number).drop 8).take 4)
      (c := ((hexText 32 u.number).drop 12).take 4)
    (d := ((hexText 32 u.number).drop 16).take 4) (e := (hexText 32 u.number).drop 20)
    (by simp [hlength]) (by simp [hlength]) (by simp [hlength]) (by simp [hlength])
      (by simp [hlength])
  have hwhole : (hexText 32 u.number).take 8 ++ ((hexText 32 u.number).drop 8).take 4 ++
      ((hexText 32 u.number).drop 12).take 4 ++ ((hexText 32 u.number).drop 16).take 4 ++
      (hexText 32 u.number).drop 20 = hexText 32 u.number := by
    rw [← List.take_add, ← List.take_add, ← List.take_add, List.take_append_drop]
  rw [hwhole, ofDigits?_hexText] at hgroups
  rw [ofText?, toText, String.toList_ofList, if_neg, if_pos, hgroups]
  · simp [hlength]
  · simp [hlength]

end ClearanceGraph.Uuid
