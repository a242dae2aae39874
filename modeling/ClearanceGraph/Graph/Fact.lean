import ClearanceGraph.Graph.Reference

/-!
# Facts — what an origin can assert

  A fact says that an object exists, that an edge exists, or that a level is
  declared for an object. A fact names what is asserted, not its content.
-/

open Std

namespace ClearanceGraph

/-- The identity of an edge: one relation between two objects. -/
structure EdgeKey where
  /-- Where the edge starts. -/
  source : Reference
  relation : String
  /-- Where the edge ends. -/
  target : Reference
deriving DecidableEq, Inhabited

namespace EdgeKey

/-- Edges are ordered by source, relation and target. -/
instance : Ord EdgeKey :=
  ⟨compareLex (compareOn source) (compareLex (compareOn relation) (compareOn target))⟩

instance : TransOrd EdgeKey :=
  inferInstanceAs
    (TransCmp (compareLex (compareOn source)
      (compareLex (compareOn relation) (compareOn target))))

instance : LawfulEqOrd EdgeKey where
  eq_of_compare {a b} h := by
    change (compare a.source b.source).then
      ((compare a.relation b.relation).then (compare a.target b.target)) = .eq at h
    rw [Ordering.then_eq_eq, Ordering.then_eq_eq] at h
    obtain ⟨hs, hr, ht⟩ := h
    cases a; cases b
    simp only [mk.injEq]
    exact ⟨Std.compare_eq_iff_eq.1 hs, Std.compare_eq_iff_eq.1 hr,
      Std.compare_eq_iff_eq.1 ht⟩

/-- Whether an object is an end of the edge. -/
def touches (k : EdgeKey) (r : Reference) : Bool := k.source == r || k.target == r

def display (k : EdgeKey) : String :=
  k.source.text ++ " -[" ++ k.relation ++ "]-> " ++ k.target.text

end EdgeKey

/-- The identity of something an origin asserts. -/
inductive Fact where
  | object (r : Reference)
  | edge (k : EdgeKey)
  /-- A level is declared for an object. -/
  | declaration (r : Reference)
deriving DecidableEq, Inhabited

namespace Fact

/-- Objects come before edges, edges before declarations. -/
def rank : Fact → Nat
  | object _ => 0
  | edge _ => 1
  | declaration _ => 2

/-- The edge of an edge fact; the object of another one stands for source and target. -/
def subject : Fact → EdgeKey
  | object r => ⟨r, "", r⟩
  | edge k => k
  | declaration r => ⟨r, "", r⟩

/-- Facts are ordered by kind, then by what they are about. -/
instance : Ord Fact := ⟨compareLex (compareOn rank) (compareOn subject)⟩

instance : TransOrd Fact :=
  inferInstanceAs (TransCmp (compareLex (compareOn rank) (compareOn subject)))

instance : LawfulEqOrd Fact where
  eq_of_compare {a b} h := by
    change (compare a.rank b.rank).then (compare a.subject b.subject) = .eq at h
    rw [Ordering.then_eq_eq] at h
    have hr := Std.compare_eq_iff_eq.1 h.1
    have hs := Std.compare_eq_iff_eq.1 h.2
    cases a <;> cases b <;> simp_all [rank, subject]

/-- The name of the kind. -/
def kind : Fact → String
  | object _ => "object"
  | edge _ => "edge"
  | declaration _ => "declaration"

/-- The object of an object or a declaration. -/
def reference? : Fact → Option Reference
  | object r => some r
  | edge _ => none
  | declaration r => some r

/-- What the fact is about, for people. -/
def subjectText : Fact → String
  | object r => r.text
  | edge k => k.display
  | declaration r => r.text

def display (f : Fact) : String := f.kind ++ " " ++ f.subjectText

end Fact

end ClearanceGraph
