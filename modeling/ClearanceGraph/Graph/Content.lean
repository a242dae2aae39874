import ClearanceGraph.Clearance.Level
import ClearanceGraph.Graph.Fact
import ClearanceGraph.Json.Basic

/-!
# Content — facts with what is asserted of them

  Objects and edges carry attributes, a declaration its level. Two contents
  agree when they are about the same fact and their attributes or levels agree.
-/

namespace ClearanceGraph

/-- An object with its attributes. -/
structure Object where
  reference : Reference
  /-- Its type, as it was given. -/
  objectType : String
  attributes : Attributes
deriving BEq

/-- An edge with its attributes. -/
structure Edge where
  key : EdgeKey
  attributes : Attributes
deriving BEq

/-- A fact with its content. -/
inductive Content where
  | object (o : Object)
  | edge (e : Edge)
  | declaration (d : DeclaredLevel)
deriving BEq

/-- The fact that a content is about. -/
def Content.fact : Content → Fact
  | .object o => .object o.reference
  | .edge e => .edge e.key
  | .declaration d => .declaration d.reference

end ClearanceGraph
