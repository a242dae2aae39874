import ClearanceGraph.Text.Blank
import ClearanceGraph.Text.Numeral
import ClearanceGraph.Time.Instant

/-!
# Instants as text

  Written in universal time, with no fraction or one of 3, 6 or 9 digits.
  Reading is more generous: blanks around the numbers, short numbers, signed
  years, any offset below a day, and `UTC` for the zone.
-/

namespace ClearanceGraph

open Text

/-! ## Writing -/

/-- A year: four digits, or a sign and at least four digits outside 0 to 9999. -/
def yearText (y : Int) : List Char :=
  if 0 ≤ y ∧ y ≤ 9999 then padded 4 y.toNat
  else (if y < 0 then '-' else '+') :: padded 4 y.natAbs

/-- The fraction of a second with its point, of 0, 3, 6 or 9 digits. -/
def fractionText (n : Nat) : List Char :=
  if n = 0 then []
  else if n % 1000000 = 0 then '.' :: padded 3 (n / 1000000)
  else if n % 1000 = 0 then '.' :: padded 6 (n / 1000)
  else '.' :: padded 9 n

namespace Instant

/-- The text of the day. -/
def dateText (t : Instant) : List Char :=
  yearText t.date.year ++ '-' :: padded 2 t.date.month ++ '-' :: padded 2 t.date.day

/-- The text of the time of day. -/
def timeText (t : Instant) : List Char :=
  padded 2 t.time.hour ++ ':' :: padded 2 t.time.minute ++ ':' :: padded 2 t.time.second ++
    fractionText t.time.nanos

/-- The form in documents and messages. -/
def toText (t : Instant) : String :=
  String.ofList (t.dateText ++ 'T' :: t.timeText ++ ['Z'])

def display (t : Instant) : String :=
  String.ofList (t.dateText ++ ' ' :: t.timeText ++ [' ', 'U', 'T', 'C'])

end Instant

/-! ## Reading -/

/-- Reads a number of one to `width` digits after blanks. -/
def number? (width : Nat) (cs : List Char) : Option (Nat × List Char) :=
  let (ds, r) := takeDigits width (trimLeft cs)
  if ds.isEmpty then none else some (digitsValue ds, r)

/-- Reads a year: up to four digits, or a sign and any number of digits. -/
def year? (cs : List Char) : Option (Int × List Char) :=
  let signed (r : List Char) : Option (Nat × List Char) :=
    let (ds, r) := takeDigits r.length r
    if ds.isEmpty then none else some (digitsValue ds, r)
  match trimLeft cs with
  | '-' :: r => (signed r).map fun y => (-y.1, y.2)
  | '+' :: r => (signed r).map fun y => (y.1, y.2)
  | r => (number? 4 r).map fun y => (y.1, y.2)

/-- Reads a mark, after blanks. -/
def mark? (c : Char) (cs : List Char) : Option (List Char) :=
  match trimLeft cs with
  | d :: r => if c = d then some r else none
  | [] => none

def date? (cs : List Char) : Option (Date × List Char) := do
  let (y, r) ← year? cs
  let (m, r) ← number? 2 (← mark? '-' r)
  let (d, r) ← number? 2 (← mark? '-' r)
  return (← Date.make? y m d, r)

/-- Reads a fraction of a second: nine digits count, more are dropped. -/
def fraction? : List Char → Option (Nat × List Char)
  | '.' :: r =>
    let (ds, r) := takeDigits 9 r
    if ds.isEmpty then none
    else some (digitsValue (ds ++ List.replicate (9 - ds.length) '0'),
      (takeDigits r.length r).2)
  | r => some (0, r)

/-- Reads a time of day. -/
def time? (cs : List Char) : Option (TimeOfDay × List Char) := do
  let (h, r) ← number? 2 cs
  let (m, r) ← number? 2 (← mark? ':' r)
  let (s, r) ← number? 2 (← mark? ':' r)
  let (n, r) ← fraction? r
  return (← TimeOfDay.make? h m s n, r)

/-- Reads hours and minutes of an offset, as minutes. -/
def offset? : List Char → Option (Nat × List Char)
  | a :: b :: r => do
    let hours := 10 * (← digit? a) + (← digit? b)
    match r.dropWhile fun c => c == ':' || isBlank c with
    | c :: d :: r =>
      let minutes := 10 * (← digit? c) + (← digit? d)
      if minutes < 60 ∧ hours < 24 then some (60 * hours + minutes, r) else none
    | _ => none
  | _ => none

/-- Reads a zone as minutes ahead of universal time. -/
def zone? : List Char → Option (Int × List Char)
  | 'Z' :: r | 'z' :: r => some (0, r)
  | '+' :: r => (offset? r).map fun o => (o.1, o.2)
  | '-' :: r | '−' :: r => (offset? r).map fun o => (-o.1, o.2)
  | a :: b :: c :: r =>
    if (a = 'U' ∨ a = 'u') ∧ (b = 'T' ∨ b = 't') ∧ (c = 'C' ∨ c = 'c') then
      some (0, r) else none
  | _ => none

/-- The universal time of a local time that is some minutes ahead of it. -/
def universal? (d : Date) (t : TimeOfDay) (ahead : Int) : Option Instant := do
  let m : Int := 60 * t.hour + t.minute - ahead
  let day ← if m < 0 then d.previous? else if 1440 ≤ m then d.next? else some d
  let m := (m % 1440).toNat
  return ⟨day, ← TimeOfDay.make? (m / 60) (m % 60) t.second t.nanos⟩

def Instant.ofText? (s : String) : Option Instant := do
  let (d, r) ← date? s.toList
  let r ← match r with
    | [] => none
    | c :: r => if c = 'T' ∨ c = 't' ∨ c = ' ' then some r else none
  let (t, r) ← time? r
  let (ahead, r) ← zone? (trimLeft r)
  if (trimLeft r).isEmpty then universal? d t ahead else none

end ClearanceGraph
