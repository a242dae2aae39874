import ClearanceGraph.Graph.Content
import ClearanceGraph.Text.Blank
import ClearanceGraph.Time.Instant

/-!
# Origins — producers of facts, and the record of what they assert

  An origin is known by one name across its runs. Its record holds every fact of
  its latest run with the content it gave.
-/

open Std

namespace ClearanceGraph

/-- The name of an origin. -/
structure OriginId where
  text : String
deriving DecidableEq, Inhabited

namespace OriginId

/-- Origins are ordered by name. -/
instance : Ord OriginId := ⟨compareOn text⟩

instance : TransOrd OriginId := inferInstanceAs (TransCmp (compareOn text))

instance : LawfulEqOrd OriginId where
  eq_of_compare {a b} h := by
    change compare a.text b.text = .eq at h
    cases a; cases b
    simpa using h

/-- The origin of a source that looks at an object by some method. -/
def ofParts (source method : String) (target : Reference) : OriginId :=
  ⟨source ++ "|" ++ method ++ "|" ++ target.text⟩

/-- Whether the name has nothing but blanks. -/
def isEmpty (o : OriginId) : Bool := Text.allBlank o.text

end OriginId

/-- How an origin comes to its facts. -/
inductive Method where
  /-- By looking; such an origin declares no levels. -/
  | observation
  /-- By decree; such an origin may declare levels. -/
  | declaration
deriving DecidableEq

namespace Method

/-- The name of the method. -/
def name : Method → String
  | observation => "observation"
  | declaration => "declaration"

/-- The methods with their names. -/
def names : List (String × Method) := [observation, declaration].map fun m => (m.name, m)

end Method

/-- What an origin asserted in its latest run. -/
structure OriginRecord where
  id : OriginId
  method : Method
  /-- Since when the facts hold. -/
  validTime : Instant
  /-- Every fact of the run with its content. -/
  result : Table Fact Content
  runs : Nat
deriving BEq

namespace OriginRecord

/-- Whether the run asserts a fact. -/
def asserts (r : OriginRecord) (f : Fact) : Bool := r.result.contains f

/-- What the run asserts of a fact. -/
def content? (r : OriginRecord) (f : Fact) : Option Content := r.result.get? f

end OriginRecord

end ClearanceGraph
