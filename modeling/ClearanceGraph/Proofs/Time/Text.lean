import ClearanceGraph.Proofs.Text.Numeral
import ClearanceGraph.Proofs.Time.Order
import ClearanceGraph.Time.Text

/-! # Written instants — read as they were

    A written number is as wide as a number that is read may be, or ends before
    a mark; only a year beyond four digits has no width, and it has a sign.  So
    each part of a written instant is read up to where the next one starts, and
    universal time needs no offset. -/

namespace ClearanceGraph

open Text

/-! ## Numbers and marks -/

theorem isBlank_of_isDigit {c : Char} (h : isDigit c = true) : isBlank c = false := by
  rw [isDigit_eq, Char.isDigit, Bool.and_eq_true, decide_eq_true_eq, decide_eq_true_eq] at h
  have hlow : 48 ≤ c.toNat := UInt32.le_iff_toNat_le.mp h.1
  have hhigh : c.toNat ≤ 57 := UInt32.le_iff_toNat_le.mp h.2
  simp only [isBlank, blankRanges, List.any_cons, List.any_nil, Bool.or_false,
    Bool.or_eq_false_iff, Bool.and_eq_false_iff, decide_eq_false_iff_not]
  omega

theorem trimLeft_cons {c : Char} (r : List Char) (h : isBlank c = false) :
    trimLeft (c :: r) = c :: r :=
  List.dropWhile_cons_of_neg (by rw [h]; exact Bool.false_ne_true)

/-- A padded number starts with a digit. -/
theorem exists_padded_append (width n : Nat) (r : List Char) :
    ∃ d ds, isDigit d = true ∧ padded width n ++ r = d :: ds := by
  cases hpadded : padded width n with
  | nil => exact absurd hpadded (padded_ne_nil width n)
  | cons d ds =>
      have hd : d ∈ padded width n := hpadded ▸ List.mem_cons_self
      exact ⟨d, ds ++ r, isDigit_of_mem_padded hd, rfl⟩

/-- Before a number there is nothing to trim. -/
theorem trimLeft_padded (width n : Nat) (r : List Char) :
    trimLeft (padded width n ++ r) = padded width n ++ r := by
  obtain ⟨d, ds, hd, heq⟩ := exists_padded_append width n r
  rw [heq, trimLeft_cons ds (isBlank_of_isDigit hd)]

/-- A number that is padded to the width that is read is read whole. -/
theorem number?_padded {width n : Nat} (r : List Char) (hwidth : 0 < width)
    (h : n < 10 ^ width) :
    number? width (padded width n ++ r) = some (n, r) := by
  have hlength : (padded width n).length = width := length_padded hwidth h
  have htake := takeDigits_append (r := r) (fun _ => isDigit_of_mem_padded)
    (Nat.le_of_eq hlength) (.inl hlength)
  rw [number?, trimLeft_padded, htake]
  simp [padded_ne_nil, digitsValue_padded]

/-- A mark is read if it comes first. -/
theorem mark?_cons {c : Char} (r : List Char) (h : isBlank c = false) :
    mark? c (c :: r) = some r := by
  rw [mark?, trimLeft_cons r h]
  exact if_pos rfl

/-! ## Days -/

/-- A year is read up to where its digits end. -/
theorem year?_yearText (y : Int) {r : List Char} (hr : ∀ c ∈ r.head?, isDigit c = false) :
    year? (yearText y ++ r) = some (y, r) := by
  have htake : takeDigits (padded 4 y.natAbs ++ r).length (padded 4 y.natAbs ++ r) =
      (padded 4 y.natAbs, r) :=
    takeDigits_append (fun _ => isDigit_of_mem_padded) (by rw [List.length_append]; omega)
      (.inr hr)
  have hempty : (padded 4 y.natAbs).isEmpty = false := by simp [padded_ne_nil]
  rw [yearText]
  -- years of four digits go without a sign, all others with one
  split
  · next h =>
      obtain ⟨d, ds, hd, heq⟩ := exists_padded_append 4 y.toNat r
      have hnumber := number?_padded (n := y.toNat) r (by decide : 0 < 4) (by omega)
      rw [year?, trimLeft_padded]
      split
      · next hminus =>
          cases heq.symm.trans hminus
          exact absurd hd (by decide)
      · next hplus =>
          cases heq.symm.trans hplus
          exact absurd hd (by decide)
      · rw [hnumber, Option.map_some, Int.toNat_of_nonneg h.1]
  · next h =>
      by_cases hneg : y < 0
      · rw [if_pos hneg, List.cons_append, year?, trimLeft_cons _ (by decide)]
        simp only [htake, hempty, digitsValue_padded, Bool.false_eq_true, if_false,
          Option.map_some]
        rw [← Int.eq_neg_natAbs_of_nonpos (by omega)]
      · rw [if_neg hneg, List.cons_append, year?, trimLeft_cons _ (by decide)]
        simp only [htake, hempty, digitsValue_padded, Bool.false_eq_true, if_false,
          Option.map_some]
        rw [Int.natAbs_of_nonneg (by omega)]

theorem Date.make?_eq (d : Date) : make? d.year d.month d.day = some d := dif_pos d.valid

/-- **A date is read** from its text, in years of any length. -/
theorem date?_dateText (t : Instant) (r : List Char) :
    date? (t.dateText ++ r) = some (t.date, r) := by
  obtain ⟨-, -, -, hmonth, -, hday⟩ := t.date.valid
  have hlength := Instant.monthLength_le t.date.year t.date.month
  have hyear := year?_yearText t.date.year
    (r := '-' :: (padded 2 t.date.month ++ '-' :: (padded 2 t.date.day ++ r)))
    fun c hc => by cases hc; decide
  have hm := number?_padded (n := t.date.month) ('-' :: (padded 2 t.date.day ++ r))
    (by decide : 0 < 2) (by omega)
  have hd := number?_padded (n := t.date.day) r (by decide : 0 < 2) (by omega)
  simp [date?, Instant.dateText, hyear, mark?_cons _ (by decide : isBlank '-' = false),
    hm, hd, Date.make?_eq]

/-! ## Times of day -/

/-- Zeros behind the digits of a fraction make it one of nine digits. -/
theorem digitsValue_padded_append (width n k : Nat) :
    digitsValue (padded width n ++ List.replicate k '0') = 10 ^ k * n := by
  have hdigits : ∀ c ∈ padded width n ++ List.replicate k '0', isDigit c = true := by
    intro c hc
    rcases List.mem_append.mp hc with hc | hc
    · exact isDigit_of_mem_padded hc
    · rw [List.eq_of_mem_replicate hc]
      rfl
  rw [digitsValue_eq hdigits, Nat.ofDigitChars_append, Nat.ofDigitChars_replicate_zero,
    ← digitsValue_eq fun _ => isDigit_of_mem_padded, digitsValue_padded]

/-- A fraction of some digits counts in billionths. -/
theorem fraction?_padded {width n : Nat} {r : List Char} (hwidth : 0 < width)
    (hnine : width ≤ 9) (h : n < 10 ^ width) (hr : ∀ c ∈ r.head?, isDigit c = false) :
    fraction? ('.' :: (padded width n ++ r)) = some (10 ^ (9 - width) * n, r) := by
  have hlength : (padded width n).length = width := length_padded hwidth h
  have htake : takeDigits 9 (padded width n ++ r) = (padded width n, r) :=
    takeDigits_append (fun _ => isDigit_of_mem_padded) (hlength.symm ▸ hnine) (.inr hr)
  have hrest : takeDigits r.length r = ([], r) :=
    takeDigits_append (fun c (hc : c ∈ []) => nomatch hc) (Nat.zero_le _) (.inr hr)
  simp [fraction?, htake, hrest, padded_ne_nil, hlength, digitsValue_padded_append]

/-- A fraction is read from no digits, or from three, six or nine. -/
theorem fraction?_fractionText {n : Nat} {r : List Char} (h : n < 1000000000)
    (hr : ∀ c ∈ r.head?, isDigit c = false) (hpoint : r.head? ≠ some '.') :
    fraction? (fractionText n ++ r) = some (n, r) := by
  rw [fractionText]
  split
  · next hzero =>
      rw [List.nil_append, fraction?, hzero]
      rintro r' rfl
      exact hpoint rfl
  · split
    · rw [List.cons_append, fraction?_padded (by decide) (by decide) (by omega) hr]
      congr 2
      omega
    · split
      · rw [List.cons_append, fraction?_padded (by decide) (by decide) (by omega) hr]
        congr 2
        omega
      · rw [List.cons_append, fraction?_padded (by decide) (by decide) h hr]
        congr 2
        omega

theorem TimeOfDay.make?_eq (t : TimeOfDay) :
    make? t.hour t.minute t.second t.nanos = some t :=
  dif_pos t.valid

/-- **A time of day is read** from its text, a leap second too. -/
theorem time?_timeText (t : Instant) {r : List Char} (hr : ∀ c ∈ r.head?, isDigit c = false)
    (hpoint : r.head? ≠ some '.') : time? (t.timeText ++ r) = some (t.time, r) := by
  obtain ⟨hhour, hminute, hsecond, hnanos⟩ := t.time.valid
  have hh := number?_padded (n := t.time.hour)
    (':' :: (padded 2 t.time.minute ++ ':' :: (padded 2 t.time.second ++
      (fractionText t.time.nanos ++ r)))) (by decide : 0 < 2) (by omega)
  have hm := number?_padded (n := t.time.minute)
    (':' :: (padded 2 t.time.second ++ (fractionText t.time.nanos ++ r)))
      (by decide : 0 < 2) (by omega)
  have hs := number?_padded (n := t.time.second) (fractionText t.time.nanos ++ r)
    (by decide : 0 < 2) (by omega)
  simp [time?, Instant.timeText, hh, mark?_cons _ (by decide : isBlank ':' = false), hm, hs,
    fraction?_fractionText hnanos hr hpoint, TimeOfDay.make?_eq]

/-! ## Instants -/

/-- Universal time is ahead of itself by nothing. -/
theorem universal?_zero (d : Date) (t : TimeOfDay) : universal? d t 0 = some ⟨d, t⟩ := by
  obtain ⟨hhour, hminute, -⟩ := t.valid
  have hlow : ¬ (60 * (t.hour : Int) + t.minute - 0 < 0) := by omega
  have hhigh : ¬ (1440 ≤ 60 * (t.hour : Int) + t.minute - 0) := by omega
  have hhours : ((60 * (t.hour : Int) + t.minute - 0) % 1440).toNat / 60 = t.hour := by
    omega
  have hminutes : ((60 * (t.hour : Int) + t.minute - 0) % 1440).toNat % 60 =
    t.minute := by omega
  simp only [universal?, if_neg hlow, if_neg hhigh, hhours, hminutes, TimeOfDay.make?_eq]
  rfl

/-- **What an instant is written as is read as the instant**, in every year of the
    calendar, with any fraction, in leap seconds too. -/
theorem Instant.ofText?_toText (t : Instant) : ofText? t.toText = some t := by
  have hdate := date?_dateText t ('T' :: (t.timeText ++ ['Z']))
  have htime := time?_timeText t (r := ['Z']) (fun c hc => by cases hc; decide) (by decide)
  have hzone : zone? (trimLeft ['Z']) = some (0, []) := rfl
  have hend : trimLeft [] = [] := rfl
  simp [ofText?, toText, hdate, htime, hzone, hend, universal?_zero]

end ClearanceGraph
