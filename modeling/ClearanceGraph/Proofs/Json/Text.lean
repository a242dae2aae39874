import ClearanceGraph.Json.Parser
import ClearanceGraph.Json.Printer
import ClearanceGraph.Proofs.Json.Basic
import ClearanceGraph.Proofs.Text.Numeral

/-! # Printed values read back — texts and numbers, then what is made of them

    A character of a text is printed so that it is read as itself, escaped or
    not.  A whole number that fits a word is printed with all its digits and is
    read as long as digits follow; what stands behind a printed value is a comma
    or a closing bracket, so the number ends there.

    The reader counts its steps.  Each of them takes a character at least, so
    the length of a text are steps enough. -/

namespace ClearanceGraph.Json

open Text

/-! ## Texts -/

/-- A simple escape is read as its character. -/
theorem units?_simple {e d : Char} (r : List Char) (hne : e ≠ 'u')
    (he : simpleEscape? e = some d) :
    units? ('\\' :: e :: r) = (units? r).map fun p => (.char d :: p.1, p.2) := by
  rw [units?, he]
  · cases units? r <;> rfl
  · intro _ _ _ _ _ h
    exact absurd h hne

/-- A character that needs no escape is read as itself. -/
theorem units?_plain {c : Char} (r : List Char) (hquote : c ≠ '"') (hslash : c ≠ '\\')
    (hcontrol : ¬ c.toNat < 0x20) :
    units? (c :: r) = (units? r).map fun p => (.char c :: p.1, p.2) := by
  rw [units?]
  · rw [if_neg (not_or.mpr ⟨hcontrol, hslash⟩)]
    cases units? r <;> rfl
  · exact hquote
  · intro _ _ _ _ _ h
    exact absurd h hslash
  · intro _ _ h
    exact absurd h hslash

/-- A control character is read from the number that is printed for it. -/
theorem units?_control {c : Char} (r : List Char) (h : c.toNat < 0x20) :
    units? ('\\' :: 'u' :: '0' :: '0' :: hexDigit (c.toNat / 16) :: hexDigit
      (c.toNat % 16) :: r) = (units? r).map fun p => (.char c :: p.1, p.2) := by
  have hnumber : hex4? '0' '0' (hexDigit (c.toNat / 16)) (hexDigit (c.toNat % 16)) =
      some c.toNat := by
    rw [hex4?, hexDigit?_hexDigit (by omega), hexDigit?_hexDigit (by omega)]
    have hzero : hexDigit? '0' = some 0 := by decide
    simp only [hzero, Option.bind_eq_bind, Option.bind_some, Option.pure_def,
      Option.some.injEq]
    omega
  have hunit : Unit16.ofNat c.toNat = .char c := by
    rw [Unit16.ofNat, if_neg (by omega), if_neg (by omega), Char.ofNat_toNat]
  rw [units?, hnumber, Option.bind_eq_bind, Option.bind_some, hunit]
  cases units? r <;> rfl

/-- A printed character is read as one unit. -/
theorem units?_escape (c : Char) (r : List Char) :
    units? (escape c ++ r) = (units? r).map fun p => (.char c :: p.1, p.2) := by
  rw [escape]
  split_ifs with hquote hslash hn hr ht hb hf hcontrol
  · exact units?_simple r (by decide) (by rw [hquote]; rfl)
  · exact units?_simple r (by decide) (by rw [hslash]; rfl)
  · exact units?_simple r (by decide) (by rw [hn]; rfl)
  · exact units?_simple r (by decide) (by rw [hr]; rfl)
  · exact units?_simple r (by decide) (by rw [ht]; rfl)
  · exact units?_simple r (by decide) (by rw [hb]; rfl)
  · exact units?_simple r (by decide) (by rw [hf]; rfl)
  · exact units?_control r hcontrol
  · exact units?_plain r hquote hslash hcontrol

/-- **What is printed of a text is read** up to its closing quote. -/
theorem units?_printed (cs r : List Char) :
    units? (cs.flatMap escape ++ '"' :: r) = some (cs.map .char, r) := by
  induction cs with
  | nil => rw [List.flatMap_nil, List.nil_append, units?, List.map_nil]
  | cons c cs ih => rw [List.flatMap_cons, List.append_assoc, units?_escape, ih]; rfl

/-- Where no unit is half a pair nothing has to be joined. -/
theorem joinUnits?_chars (cs : List Char) : joinUnits? (cs.map .char) = some cs := by
  induction cs with
  | nil => rfl
  | cons c cs ih => rw [List.map_cons, joinUnits?, ih]; rfl

/-- A printed text is read behind its first quote. -/
theorem text?_printed (s : String) (r : List Char) :
    text? (s.toList.flatMap escape ++ '"' :: r) = some (some s, r) := by
  simp only [text?, units?_printed, Option.bind_eq_bind, Option.bind_some, joinUnits?_chars,
    Option.map_some, String.ofList_toList]
  rfl

/-! ## Numbers -/

/-- The text does not go on with a number: there is no digit, no point and no exponent. -/
def EndsNumber (r : List Char) : Prop :=
  ∀ c ∈ r.head?, isDigit c = false ∧ c ≠ '.' ∧ c ≠ 'e' ∧ c ≠ 'E'

/-- Digits whose value fits a word are all taken. -/
theorem foldl_whole {ds : List Char} (h : ∀ c ∈ ds, isDigit c = true) (m : Nat)
    (hbound : Nat.ofDigitChars 10 ds m < UInt64.size) :
    (digitValues ds).foldl Decimal.Significand.whole ⟨m, 0, false⟩ =
      ⟨Nat.ofDigitChars 10 ds m, 0, false⟩ := by
  induction ds generalizing m with
  | nil => rfl
  | cons c ds ih =>
      have hc : c.isDigit = true := isDigit_eq c ▸ h c List.mem_cons_self
      have hvalue : (digit? c).getD 0 = c.toNat - '0'.toNat := by
        rw [digit?_of_isDigit hc]; rfl
      rw [Nat.ofDigitChars_cons] at hbound ⊢
      have hstep : 10 * m + (c.toNat - '0'.toNat) < UInt64.size := by
        rw [Nat.ofDigitChars_eq_ofDigitChars_zero] at hbound
        refine Nat.lt_of_le_of_lt ?_ hbound
        exact Nat.le_add_right_of_le (Nat.le_mul_of_pos_left _ (Nat.pow_pos (by decide)))
      have htaken : Decimal.Significand.whole ⟨m, 0, false⟩ (c.toNat - '0'.toNat) =
          ⟨10 * m + (c.toNat - '0'.toNat), 0, false⟩ := by
        simp only [Decimal.Significand.whole, Bool.false_or, decide_eq_true_eq]
        exact if_neg (Nat.not_le.mpr hstep)
      rw [digitValues, List.map_cons, List.foldl_cons, hvalue, htaken]
      exact ih (fun d hd => h d (List.mem_cons_of_mem c hd)) _ hbound

/-- Only the number zero starts with a zero. -/
theorem eq_zero_of_head?_toDigits {n : Nat} (h : (Nat.toDigits 10 n).head? = some '0') :
    n = 0 := by
  induction n using Nat.strongRecOn with
  | ind n ih =>
      by_cases hn : n < 10
      · rw [Nat.toDigits_of_lt_base hn, List.head?_cons, Option.some.injEq] at h
        exact Nat.digitChar_eq_zero.mp h
      · rw [Nat.toDigits_of_base_le (by decide) (Nat.le_of_not_lt hn),
          List.head?_append_of_ne_nil _ Nat.toDigits_ne_nil] at h
        have hzero := ih (n / 10) (by omega) h
        omega

/-- The digits of a number that fits a word are read as the number. -/
theorem number?_toDigits (negative : Bool) {n : Nat} {r : List Char} (hn : n < UInt64.size)
    (hr : EndsNumber r) :
    number? negative (Nat.toDigits 10 n ++ r) =
      some (ofWhole negative ⟨n, 0, false⟩, r) := by
  have htake : takeDigits (Nat.toDigits 10 n ++ r).length (Nat.toDigits 10 n ++ r) =
      (Nat.toDigits 10 n, r) :=
    takeDigits_append (fun _ => isDigit_of_mem_toDigits) (by rw [List.length_append]; omega)
      (.inr fun c hc => (hr c hc).1)
  have hfold : (digitValues (Nat.toDigits 10 n)).foldl Decimal.Significand.whole .zero =
      ⟨n, 0, false⟩ := by
    have hvalue := foldl_whole (fun _ => isDigit_of_mem_toDigits) 0
      ((Nat.ofDigitChars_ten_toDigits (n := n)).symm ▸ hn)
    rw [Nat.ofDigitChars_ten_toDigits] at hvalue
    exact hvalue
  -- behind the digits there is neither a fraction nor an exponent
  have hend : ∀ s : Decimal.Significand, fraction? negative s r =
      some (ofWhole negative s, r) := by
    intro s
    rw [fraction?.eq_def]
    split
    · exact absurd rfl (hr '.' rfl).2.1
    · rw [exponent?.eq_def]
      split
      · exact absurd rfl (hr 'e' rfl).2.2.1
      · exact absurd rfl (hr 'E' rfl).2.2.2
      · rfl
  rw [number?, htake]
  split
  · next hnil => exact absurd (Prod.mk.inj hnil).1 Nat.toDigits_ne_nil
  · next hlong =>
      have hdigits := (Prod.mk.inj hlong).1
      -- only zero starts with a zero, and it is one digit long
      obtain rfl := eq_zero_of_head?_toDigits (congrArg List.head? hdigits)
      rw [Nat.toDigits_zero] at hdigits
      cases hdigits
  · next hdigits =>
      obtain ⟨hds, hrest⟩ := Prod.mk.inj hdigits
      rw [← hds, ← hrest, hfold, hend]

/-- The numbers that a word can hold, with a sign or without. -/
def FitsWord (n : Int) : Prop := -(UInt64.size / 2 : Nat) ≤ n ∧ n < UInt64.size

/-- What is behind the sign of a printed number is read as its size. -/
theorem ofWhole_neg {n : Nat} (hpos : 0 < n) (h : n ≤ UInt64.size / 2) :
    ofWhole true ⟨n, 0, false⟩ = .int (-n) := by
  have hlarge : ¬ (n = 0 ∨ UInt64.size / 2 < n) := by omega
  simp only [ofWhole, Bool.not_true, Bool.false_eq_true, if_false, if_neg hlarge]

/-! ## Values -/

/-- What is read back as it was: values without doubles, with numbers that fit a word,
with at most so many arrays and objects inside each other. -/
inductive Plain : Nat → Json → Prop where
  | null {d : Nat} : Plain d .null
  | bool {d : Nat} (b : Bool) : Plain d (.bool b)
  | int {d : Nat} {n : Int} (h : FitsWord n) : Plain d (.int n)
  | string {d : Nat} (s : String) : Plain d (.string s)
  | array {d : Nat} {xs : List Json} (h : ∀ x ∈ xs, Plain d x) : Plain (d + 1) (.array xs)
  | object {d : Nat} {fs : List (String × Json)} (h : ∀ e ∈ fs, Plain d e.2) :
      Plain (d + 1) (.object fs)

/-- A printed value is read whole, and what is behind it is left, in as many steps as it
has characters. -/
def ReadsBack (depth : Nat) (j : Json) : Prop :=
  ∀ fuel r, (printChars j).length ≤ fuel + 1 → EndsNumber r →
    value? (fuel + 1) depth (printChars j ++ r) = some (j, r)

/-- Before a character that is no blank there is nothing to skip. -/
theorem skipSpace_cons {c : Char} (cs : List Char) (h : isSpace c = false) :
    skipSpace (c :: cs) = c :: cs :=
  List.dropWhile_cons_of_neg (by rw [h]; exact Bool.false_ne_true)

theorem ne_of_isDigit {c d : Char} (hd : isDigit d = true) (hc : isDigit c = false) :
    d ≠ c := by
  rintro rfl
  rw [hd] at hc
  cases hc

theorem isSpace_of_isDigit {d : Char} (hd : isDigit d = true) : isSpace d = false := by
  simp only [isSpace, Bool.or_eq_false_iff, decide_eq_false_iff_not]
  exact ⟨⟨⟨ne_of_isDigit hd rfl, ne_of_isDigit hd rfl⟩, ne_of_isDigit hd rfl⟩,
    ne_of_isDigit hd rfl⟩

/-- What starts with a digit is a number. -/
theorem value?_digit {fuel depth : Nat} {d : Char} (ds : List Char)
    (hd : isDigit d = true) :
    value? (fuel + 1) depth (d :: ds) = number? false (d :: ds) := by
  rw [value?, skipSpace_cons ds (isSpace_of_isDigit hd)]
  split
  all_goals first
    | rfl
    | next h => exact absurd (List.cons.inj h).1 (ne_of_isDigit hd rfl)

/-- **An integer is read back**, with its sign. -/
theorem readsBack_int {n : Int} (depth : Nat) (h : FitsWord n) :
    ReadsBack depth (.int n) := by
  intro fuel r _ hr
  rw [printChars]
  -- a sign is read first; the digits behind it are those of a natural number
  cases n with
  | ofNat n =>
      have hn : n < UInt64.size := Int.ofNat_lt.mp h.2
      cases hdigits : Nat.toDigits 10 n with
      | nil => exact absurd hdigits Nat.toDigits_ne_nil
      | cons d ds =>
          have hd : isDigit d = true :=
            isDigit_of_mem_toDigits (hdigits ▸ List.mem_cons_self)
          have hnumber := number?_toDigits false hn hr
          rw [hdigits, List.cons_append] at hnumber
          rw [printInt, hdigits, List.cons_append, value?_digit _ hd, hnumber]
          rfl
  | negSucc n =>
      have hn : n + 1 ≤ UInt64.size / 2 := by
        have hlow := h.1
        omega
      rw [printInt, List.cons_append, value?, skipSpace_cons _ rfl]
      simp only []
      rw [number?_toDigits true (by omega) hr, ofWhole_neg (Nat.succ_pos n) hn]
      rfl

theorem printString_append (cs r : List Char) :
    printString cs ++ r = '"' :: (cs.flatMap escape ++ '"' :: r) := by
  rw [printString, List.cons_append, List.cons_append, List.append_assoc,
    List.singleton_append]

/-- **A text is read back.** -/
theorem readsBack_string (depth : Nat) (s : String) : ReadsBack depth (.string s) := by
  intro fuel r _ _
  rw [printChars, printString_append, value?, skipSpace_cons _ rfl]
  simp only [text?_printed]
  rfl

/-! ## Arrays and objects -/

/-- A printed value starts with no blank and no closing bracket. -/
theorem Plain.exists_head {depth : Nat} {j : Json} (h : Plain depth j) :
    ∃ c cs, printChars j = c :: cs ∧ isSpace c = false ∧ c ≠ ']' := by
  cases h with
  | null => exact ⟨_, _, rfl, rfl, by decide⟩
  | bool b => cases b <;> exact ⟨_, _, rfl, rfl, by decide⟩
  | @int _ n _ =>
      cases n with
      | ofNat n =>
          cases hdigits : Nat.toDigits 10 n with
          | nil => exact absurd hdigits Nat.toDigits_ne_nil
          | cons d ds =>
              have hd : isDigit d = true :=
                isDigit_of_mem_toDigits (hdigits ▸ List.mem_cons_self)
              exact ⟨d, ds, hdigits, isSpace_of_isDigit hd, ne_of_isDigit hd rfl⟩
      | negSucc n => exact ⟨_, _, rfl, rfl, by decide⟩
  | string s => exact ⟨_, _, rfl, rfl, by decide⟩
  | @array _ xs _ => cases xs <;> exact ⟨_, _, rfl, rfl, by decide⟩
  | @object _ fs _ => cases fs <;> exact ⟨_, _, rfl, rfl, by decide⟩

/-- Something is printed of every value. -/
theorem Plain.length_pos {depth : Nat} {j : Json} (h : Plain depth j) :
    0 < (printChars j).length := by
  obtain ⟨c, cs, hhead, -⟩ := h.exists_head
  rw [hhead]
  exact Nat.succ_pos _

/-- A number ends before a comma or a closing bracket. -/
theorem endsNumber_cons {c : Char} (r : List Char) (h : c = ',' ∨ c = ']' ∨ c = '\x7d') :
    EndsNumber (c :: r) := by
  intro d hd
  cases hd
  rcases h with rfl | rfl | rfl <;> decide

/-- After the items of an array a number has ended. -/
theorem endsNumber_printItems (xs : List Json) (r : List Char) :
    EndsNumber (printItems xs ++ r) := by
  cases xs with
  | nil => exact endsNumber_cons r (.inr (.inl rfl))
  | cons x xs => exact endsNumber_cons _ (.inl rfl)

/-- So it has after the fields of an object. -/
theorem endsNumber_printFields (fs : List (String × Json)) (r : List Char) :
    EndsNumber (printFields fs ++ r) := by
  cases fs with
  | nil => exact endsNumber_cons r (.inr (.inr rfl))
  | cons e fs => exact endsNumber_cons _ (.inl rfl)

/-- Printed items are read up to the bracket that closes them. -/
theorem items?_printed {depth : Nat} {xs : List Json} :
    ∀ (x : Json) (fuel : Nat) (r : List Char), (∀ y ∈ x :: xs, Plain depth y) →
      (∀ y ∈ x :: xs, ReadsBack depth y) →
      (printChars x).length + (printItems xs).length ≤ fuel + 1 →
      items? (fuel + 1) depth (printChars x ++ (printItems xs ++ r)) =
        some (x :: xs, r) := by
  induction xs with
  | nil =>
      intro x fuel r hplain hback hfuel
      -- every item takes a character at least, so the fuel lasts
      have hpos := (hplain x List.mem_cons_self).length_pos
      rw [printItems, List.length_singleton] at hfuel
      obtain ⟨fuel, rfl⟩ : ∃ f, fuel = f + 1 := ⟨fuel - 1, by omega⟩
      have hx := hback x List.mem_cons_self fuel (printItems [] ++ r) (by omega)
        (endsNumber_printItems _ _)
      rw [items?, hx]
      rfl
  | cons y ys ih =>
      intro x fuel r hplain hback hfuel
      have hpos := (hplain x List.mem_cons_self).length_pos
      rw [printItems, List.length_append, List.length_cons] at hfuel
      obtain ⟨fuel, rfl⟩ : ∃ f, fuel = f + 1 := ⟨fuel - 1, by omega⟩
      have hx := hback x List.mem_cons_self fuel (printItems (y :: ys) ++ r) (by omega)
        (endsNumber_printItems _ _)
      have hys := ih y fuel r (fun z hz => hplain z (List.mem_cons_of_mem x hz))
        (fun z hz => hback z (List.mem_cons_of_mem x hz)) (by omega)
      rw [items?, hx]
      simp only [Option.bind_eq_bind, Option.bind_some, printItems, List.cons_append,
        List.append_assoc, skipSpace_cons _ (rfl : isSpace ',' = false), hys]
      rfl

/-- A printed field before a comma is the first of several. -/
theorem fields?_comma {fuel depth : Nat} {k : String} {x : Json} {cs r : List Char}
    (hx : value? fuel depth cs = some (x, ',' :: r)) :
    fields? (fuel + 1) depth (printString k.toList ++ ':' :: cs) =
      (fields? fuel depth r).map fun p => (p.1.map ((k, x) :: ·), p.2) := by
  rw [fields?, printString_append, skipSpace_cons _ rfl]
  simp only [text?_printed, Option.bind_eq_bind, Option.bind_some,
    skipSpace_cons _ (rfl : isSpace ':' = false), hx,
      skipSpace_cons _ (rfl : isSpace ',' = false)]
  cases fields? fuel depth r <;> rfl

/-- A printed field before a brace is the last. -/
theorem fields?_brace {fuel depth : Nat} {k : String} {x : Json} {cs r : List Char}
    (hx : value? fuel depth cs = some (x, '\x7d' :: r)) :
    fields? (fuel + 1) depth (printString k.toList ++ ':' :: cs) =
      some (some [(k, x)], r) := by
  rw [fields?, printString_append, skipSpace_cons _ rfl]
  simp only [text?_printed, Option.bind_eq_bind, Option.bind_some,
    skipSpace_cons _ (rfl : isSpace ':' = false), hx]
  rfl

/-- Printed fields are read up to the brace that closes them. -/
theorem fields?_printed {depth : Nat} {fs : List (String × Json)} :
    ∀ (k : String) (x : Json) (fuel : Nat) (r : List Char),
      (∀ e ∈ (k, x) :: fs, Plain depth e.2) →
      (∀ e ∈ (k, x) :: fs, ReadsBack depth e.2) →
      (printString k.toList).length + 1 + (printChars x).length +
        (printFields fs).length ≤ fuel + 1 →
      fields? (fuel + 1) depth
          (printString k.toList ++ ':' :: (printChars x ++ (printFields fs ++ r))) =
        some (some ((k, x) :: fs), r) := by
  induction fs with
  | nil =>
      intro k x fuel r hplain hback hfuel
      have hpos : 0 < (printChars x).length := (hplain (k, x) List.mem_cons_self).length_pos
      have hx : ReadsBack depth x := hback (k, x) List.mem_cons_self
      obtain ⟨fuel, rfl⟩ : ∃ f, fuel = f + 1 := ⟨fuel - 1, by omega⟩
      exact fields?_brace
        (hx fuel (printFields [] ++ r) (by omega) (endsNumber_printFields _ _))
  | cons e fs ih =>
      intro k x fuel r hplain hback hfuel
      obtain ⟨l, y⟩ := e
      have hpos : 0 < (printChars x).length := (hplain (k, x) List.mem_cons_self).length_pos
      have hx : ReadsBack depth x := hback (k, x) List.mem_cons_self
      rw [printFields, List.length_append, List.length_append, List.length_cons,
        List.length_cons] at hfuel
      obtain ⟨fuel, rfl⟩ : ∃ f, fuel = f + 1 := ⟨fuel - 1, by omega⟩
      -- each field takes its share of the fuel, and the others have the rest
      have hfs := ih l y fuel r (fun z hz => hplain z (List.mem_cons_of_mem _ hz))
        (fun z hz => hback z (List.mem_cons_of_mem _ hz)) (by omega)
      have hfirst := hx fuel (printFields ((l, y) :: fs) ++ r) (by omega)
        (endsNumber_printFields _ _)
      simp only [printFields, List.cons_append, List.append_assoc] at hfirst ⊢
      rw [fields?_comma hfirst, hfs]
      rfl

/-- **A plain value that is printed is read back, whatever is behind it that ends a
    number.** -/
theorem readsBack_of_plain {depth : Nat} {j : Json} (h : Plain depth j) :
    ReadsBack depth j := by
  induction h with
  | null =>
      intro fuel r _ _
      rw [printChars, List.cons_append, value?, skipSpace_cons _ rfl]
      rfl
  | bool b =>
      intro fuel r _ _
      cases b <;> (rw [printChars, List.cons_append, value?, skipSpace_cons _ rfl]; rfl)
  | int h => exact readsBack_int _ h
  | string s => exact readsBack_string _ s
  | @array depth xs hplain ih =>
      intro fuel r hfuel hr
      cases xs with
      | nil =>
          rw [printChars, List.cons_append, value?, skipSpace_cons _ rfl]
          rfl
      | cons x xs =>
          rw [printChars, List.length_append, List.length_cons] at hfuel
          -- no item starts with the bracket that would end the list
          obtain ⟨c, cs, hhead, hspace, hbracket⟩ :=
            (hplain x List.mem_cons_self).exists_head
          have hpos := (hplain x List.mem_cons_self).length_pos
          obtain ⟨fuel, rfl⟩ : ∃ f, fuel = f + 1 := ⟨fuel - 1, by omega⟩
          have hitems := items?_printed x fuel r hplain ih (by omega)
          rw [printChars, List.cons_append, List.cons_append, List.append_assoc, value?,
            skipSpace_cons _ rfl]
          rw [hhead, List.cons_append] at hitems ⊢
          simp only [skipSpace_cons _ hspace]
          split
          · next h => exact absurd (List.cons.inj h).1 hbracket
          · rw [Nat.add_sub_cancel, hitems]
            rfl
  | @object depth fs hplain ih =>
      intro fuel r hfuel hr
      cases fs with
      | nil =>
          rw [printChars, List.cons_append, value?, skipSpace_cons _ rfl]
          rfl
      | cons e fs =>
          obtain ⟨k, x⟩ := e
          have hquote : 0 < (printString k.toList).length := Nat.succ_pos _
          rw [printChars, List.length_append, List.length_append, List.length_cons,
            List.length_cons] at hfuel
          obtain ⟨fuel, rfl⟩ : ∃ f, fuel = f + 1 := ⟨fuel - 1, by omega⟩
          have hfields := fields?_printed k x fuel r hplain ih (by omega)
          simp only [printChars, List.cons_append, List.append_assoc]
          rw [value?, skipSpace_cons _ rfl]
          rw [printString_append] at hfields ⊢
          simp only [skipSpace_cons _ (rfl : isSpace '"' = false)]
          split
          · next h => exact absurd (List.cons.inj h).1 (by decide)
          · rw [Nat.add_sub_cancel, hfields]
            rfl

/-- **The text of a plain value is read as the value.** -/
theorem parse?_print {j : Json} (h : Plain nestingBound j) : parse? j.print = some j := by
  have hread := readsBack_of_plain h (2 * (printChars j).length + 1) [] (by omega) nofun
  rw [List.append_nil] at hread
  rw [parse?, print, String.toList_ofList, hread]
  rfl

end ClearanceGraph.Json
