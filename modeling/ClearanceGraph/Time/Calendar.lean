/-!
# The calendar — days of the proleptic Gregorian calendar

  Days are kept as year, month and day, so that their order is the order of the
  three numbers. The calendar has a first and a last year.
-/

open Std

namespace ClearanceGraph

/-- Whether a year has a 29th of February. -/
def isLeapYear (y : Int) : Bool := y % 4 == 0 && (y % 100 != 0 || y % 400 == 0)

/-- The number of days of a month. -/
def monthLength (y : Int) (m : Nat) : Nat :=
  if m = 2 then (if isLeapYear y then 29 else 28)
  else if m = 4 ∨ m = 6 ∨ m = 9 ∨ m = 11 then 30
  else 31

/-- A day of the calendar. -/
structure Date where
  /-- The year; zero and negative years come before year one. -/
  year : Int
  /-- The month, from one. -/
  month : Nat
  /-- The day of the month, from one. -/
  day : Nat
  /-- The years have bounds, the month and the day exist. -/
  valid : -262143 ≤ year ∧ year ≤ 262142 ∧ 1 ≤ month ∧ month ≤ 12 ∧ 1 ≤ day ∧
    day ≤ monthLength year month
deriving DecidableEq

namespace Date

/-- The day of a year, month and day, if it exists. -/
def make? (y : Int) (m d : Nat) : Option Date :=
  if h : -262143 ≤ y ∧ y ≤ 262142 ∧ 1 ≤ m ∧ m ≤ 12 ∧ 1 ≤ d ∧ d ≤ monthLength y m then
    some ⟨y, m, d, h⟩
  else none

/-- The first day of year one. -/
def origin : Date := ⟨1, 1, 1, by decide⟩

instance : Inhabited Date := ⟨origin⟩

/-- The last day of the calendar. -/
def last : Date := ⟨262142, 12, 31, by decide⟩

def next? (a : Date) : Option Date :=
  if a.day < monthLength a.year a.month then make? a.year a.month (a.day + 1)
  else if a.month < 12 then make? a.year (a.month + 1) 1
  else make? (a.year + 1) 1 1

def previous? (a : Date) : Option Date :=
  if 1 < a.day then make? a.year a.month (a.day - 1)
  else if 1 < a.month then make? a.year (a.month - 1) (monthLength a.year (a.month - 1))
  else make? (a.year - 1) 12 31

/-- Days are ordered by year, month and day. -/
instance : Ord Date :=
  ⟨compareLex (compareOn year) (compareLex (compareOn month) (compareOn day))⟩

instance : TransOrd Date :=
  inferInstanceAs
    (TransCmp (compareLex (compareOn year) (compareLex (compareOn month) (compareOn day))))

instance : LawfulEqOrd Date where
  eq_of_compare {a b} h := by
    change compareLex (compareOn year) (compareLex (compareOn month) (compareOn day))
      a b = .eq at h
    simp only [compareLex, compareOn, Ordering.then_eq_eq] at h
    obtain ⟨hy, hm, hd⟩ := h
    cases a; cases b
    simp only [mk.injEq]
    exact ⟨Std.compare_eq_iff_eq.1 hy, Std.compare_eq_iff_eq.1 hm,
      Std.compare_eq_iff_eq.1 hd⟩

end Date

/-- A time of day. -/
structure TimeOfDay where
  /-- The hour, from zero. -/
  hour : Nat
  /-- The minute, from zero. -/
  minute : Nat
  /-- The second, from zero; 60 is a leap second. -/
  second : Nat
  nanos : Nat
  valid : hour < 24 ∧ minute < 60 ∧ second ≤ 60 ∧ nanos < 1000000000
deriving DecidableEq

namespace TimeOfDay

/-- The time of day of four numbers, if it exists. -/
def make? (h m s n : Nat) : Option TimeOfDay :=
  if v : h < 24 ∧ m < 60 ∧ s ≤ 60 ∧ n < 1000000000 then some ⟨h, m, s, n, v⟩ else none

def midnight : TimeOfDay := ⟨0, 0, 0, 0, by decide⟩

instance : Inhabited TimeOfDay := ⟨midnight⟩

/-- Times of day are ordered by hour, minute, second and fraction. -/
instance : Ord TimeOfDay :=
  ⟨compareLex (compareOn hour)
    (compareLex (compareOn minute) (compareLex (compareOn second) (compareOn nanos)))⟩

instance : TransOrd TimeOfDay :=
  inferInstanceAs (TransCmp (compareLex (compareOn hour)
    (compareLex (compareOn minute) (compareLex (compareOn second) (compareOn nanos)))))

instance : LawfulEqOrd TimeOfDay where
  eq_of_compare {a b} h := by
    change compareLex (compareOn hour) (compareLex (compareOn minute)
      (compareLex (compareOn second) (compareOn nanos))) a b = .eq at h
    simp only [compareLex, compareOn, Ordering.then_eq_eq] at h
    obtain ⟨hh, hm, hs, hn⟩ := h
    cases a; cases b
    simp only [mk.injEq]
    exact ⟨Std.compare_eq_iff_eq.1 hh, Std.compare_eq_iff_eq.1 hm,
      Std.compare_eq_iff_eq.1 hs, Std.compare_eq_iff_eq.1 hn⟩

end TimeOfDay

end ClearanceGraph
