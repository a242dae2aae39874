import ClearanceGraph.Origin.Basic

/-!
# Keys — identities of stored documents

  The store numbers its commits from one. A document is filed under a fact, an
  origin, an object that has a profile, or a commit that owes messages.
-/

open Std

namespace ClearanceGraph

/-- The number of a commit. -/
structure TransactionId where
  value : Nat
deriving DecidableEq, Inhabited

namespace TransactionId

/-- Commits are ordered by number. -/
instance : Ord TransactionId := ⟨compareOn value⟩

instance : TransOrd TransactionId := inferInstanceAs (TransCmp (compareOn value))

instance : LawfulEqOrd TransactionId where
  eq_of_compare {a b} h := by
    change compare a.value b.value = .eq at h
    cases a; cases b
    simpa using h

instance : LT TransactionId := ⟨fun a b => a.value < b.value⟩

instance : LE TransactionId := ⟨fun a b => a.value ≤ b.value⟩

instance (a b : TransactionId) : Decidable (a < b) :=
  inferInstanceAs (Decidable (a.value < b.value))

instance (a b : TransactionId) : Decidable (a ≤ b) :=
  inferInstanceAs (Decidable (a.value ≤ b.value))

def display (t : TransactionId) : String := toString t.value

end TransactionId

/-- The identity of a stored document. -/
inductive DocumentKey where
  | fact (f : Fact)
  | origin (o : OriginId)
  | profile (r : Reference)
  | outbox (t : TransactionId)
deriving DecidableEq, Inhabited

namespace DocumentKey

/-- The order of the kinds: object, edge, origin, declaration, profile, outbox. -/
def rank : DocumentKey → Nat
  | fact (.object _) => 0
  | fact (.edge _) => 1
  | origin _ => 2
  | fact (.declaration _) => 3
  | profile _ => 4
  | outbox _ => 5

/-- What the key is about: an edge, or a name that stands for its two ends. -/
def subject : DocumentKey → EdgeKey
  | fact f => f.subject
  | origin o => ⟨⟨o.text⟩, "", ⟨o.text⟩⟩
  | profile r => ⟨r, "", r⟩
  | outbox _ => default

/-- The commit that the key is about. -/
def number : DocumentKey → Nat
  | outbox t => t.value
  | _ => 0

/-- Keys are ordered by kind, then by what they are about. -/
instance : Ord DocumentKey :=
  ⟨compareLex (compareOn rank) (compareLex (compareOn subject) (compareOn number))⟩

instance : TransOrd DocumentKey :=
  inferInstanceAs
    (TransCmp
      (compareLex (compareOn rank) (compareLex (compareOn subject) (compareOn number))))

instance : LawfulEqOrd DocumentKey where
  eq_of_compare {a b} h := by
    change (compare a.rank b.rank).then
      ((compare a.subject b.subject).then (compare a.number b.number)) = .eq at h
    rw [Ordering.then_eq_eq, Ordering.then_eq_eq] at h
    have hr := Std.compare_eq_iff_eq.1 h.1
    have hs := Std.compare_eq_iff_eq.1 h.2.1
    have hn := Std.compare_eq_iff_eq.1 h.2.2
    rcases a with (_ | _ | _) | ⟨⟨_⟩⟩ | _ | ⟨⟨_⟩⟩ <;> rcases b with (_ | _ | _) | ⟨⟨_⟩⟩ |
      _ | ⟨⟨_⟩⟩ <;>
      simp_all [rank, subject, number, Fact.subject]

/-- The fact whose content is filed under the key. -/
def fact? : DocumentKey → Option Fact
  | fact f => some f
  | _ => none

def display : DocumentKey → String
  | fact f => f.display
  | origin o => "origin " ++ o.text
  | profile r => "profile " ++ r.text
  | outbox t => "outbox " ++ t.display

end DocumentKey

end ClearanceGraph
