import ClearanceGraph.Origin.Run
import ClearanceGraph.Proofs.Graph.Json
import ClearanceGraph.Proofs.Graph.Naming

/-! # Objects and those that name them — what a run hands in

    An object is handed in as a type and the parts of a key.  An edge and a
    declared level name an object by its reference, which is read.  So an object
    can be named if the reference that it is composed of can be read, and that
    is all but the object whose key is a single empty part. -/

namespace ClearanceGraph

open Json (rearranges_id)

/-- An object as it is handed in: its type, the parts of its key and its attributes. -/
def Object.partsJson (t : String) (parts : List String) (a : Attributes) : Json :=
  .object (("object_type", .string t) :: ("natural_key", .array (parts.map .string)) ::
    a.field)

/-- An edge as it is handed in: the names of its ends, its relation and its attributes. -/
def Edge.namesJson (e : Edge) : Json :=
  .object (("source", .string e.key.source.text) :: ("relation", .string e.key.relation) ::
    ("target", .string e.key.target.text) :: e.attributes.field)

namespace Run

/-- An object that is handed in is composed of its parts. -/
theorem object?_partsJson (t : String) (parts : List String) (a : Attributes) :
    object? (Object.partsJson t parts a) =
      some ((Reference.ofParts t parts).map fun r => ⟨r, t, a⟩) := by
  obtain ⟨r, hr, hshows⟩ := rearranges_id.exists_fields _
    (a.nodup_field
      [("object_type", .string t), ("natural_key", .array (parts.map .string))] (by simp))
    ["object_type", "natural_key", "attributes"]
  have hattributes := a.defaulted_field rearranges_id hshows rfl
  have hparts : Json.asList? Json.asString? (.array (parts.map .string)) = some parts :=
    rearranges_id.asList? fun x _ => rearranges_id.asString? x
  rw [id_eq, List.cons_append, List.cons_append, List.nil_append] at hr
  simp [object?, Object.partsJson, hr, hattributes, Json.Fields.required, hshows.get?,
    List.lookup_cons, Json.asString?, hparts, Object.ofParts]
  cases Reference.ofParts t parts <;> rfl

/-- A declared level that is handed in is of the object whose name is read. -/
theorem declaration?_toJson (d : DeclaredLevel) :
    declaration? d.toJson = some ((Reference.parse d.reference.text).map fun r =>
      ⟨r, d.level⟩) := by
  have hread : declaration? d.toJson = (Level.ofJson? d.level.toJson).bind fun level =>
      some ((Reference.parse d.reference.text).map fun r => ⟨r, level⟩) := rfl
  have hlevel : Level.ofJson? d.level.toJson = some d.level :=
    Level.ofJson?_toJson rearranges_id d.level
  rw [hread, hlevel, Option.bind_some]

/-- An edge that is handed in is between the objects whose names are read. -/
theorem edge?_namesJson (e : Edge) :
    edge? e.namesJson = some (do
      let s ← Reference.parse e.key.source.text
      let t ← Reference.parse e.key.target.text
      return ⟨← EdgeKey.ofRelation s e.key.relation t, e.attributes⟩) := by
  obtain ⟨r, hr, hshows⟩ := rearranges_id.exists_fields _
    (e.attributes.nodup_field [("source", .string e.key.source.text),
      ("relation", .string e.key.relation),
      ("target", .string e.key.target.text)] (by simp)) ["source", "relation", "target",
        "attributes"]
  have hattributes := e.attributes.defaulted_field rearranges_id hshows rfl
  rw [id_eq, List.cons_append, List.cons_append, List.cons_append, List.nil_append] at hr
  simp [edge?, Edge.namesJson, hr, hattributes, Json.Fields.required, hshows.get?,
    List.lookup_cons, Json.asString?]

/-- **An object can be named exactly if its key has a character or a second part.** What
    is composed of a type and parts has this type, and the parts with bars between them
    as its key, and an object of them is taken in.  Its name is read, as it is, unless
    its only part is empty; then the name is refused, and no declared level and no edge
    that is handed in can be about it. -/
theorem nameable_iff {t : String} {parts : List String} {r : Reference}
    (h : Reference.ofParts t parts = .ok r) :
    r.objectType = t ∧ r.naturalKey = "|".intercalate parts ∧
      (∀ a, object? (Object.partsJson t parts a) = some (.ok ⟨r, t, a⟩)) ∧
      (Reference.parse r.text = .ok r ↔ parts ≠ [""]) ∧
      (parts = [""] →
        Reference.parse r.text = .error (.invalidReference r.text .emptyKey)) ∧
      (∀ level, declaration? (DeclaredLevel.toJson ⟨r, level⟩) = some (.ok ⟨r, level⟩) ↔
        parts ≠ [""]) ∧
      ∀ s relation a, Reference.parse s.text = .ok s →
        isRelationName relation.toList = true →
        (edge? (Edge.namesJson ⟨⟨r, relation, s⟩, a⟩) = some (.ok ⟨⟨r, relation, s⟩, a⟩) ↔
          parts ≠ [""]) ∧
        (edge? (Edge.namesJson ⟨⟨s, relation, r⟩, a⟩) = some (.ok ⟨⟨s, relation, r⟩, a⟩) ↔
          parts ≠ [""]) := by
  have hparse := Reference.parse_of_ofParts h
  refine ⟨Reference.objectType_of_ofParts h, Reference.naturalKey_of_ofParts h,
    fun a => by rw [object?_partsJson, h]; rfl, ?_,
    fun hempty => by rw [hparse, if_pos hempty], fun level => ?_,
    fun s relation a hs hrelation => ⟨?_, ?_⟩⟩
  · by_cases hempty : parts = [""] <;> simp [hparse, hempty]
  · rw [declaration?_toJson, hparse]
    by_cases hempty : parts = [""] <;> simp [hempty, Except.map]
  · rw [edge?_namesJson, hparse, hs]
    by_cases hempty : parts = [""] <;>
      simp [hempty, EdgeKey.ofRelation, hrelation, bind, Except.bind, pure, Except.pure]
  · rw [edge?_namesJson, hparse, hs]
    by_cases hempty : parts = [""] <;>
      simp [hempty, EdgeKey.ofRelation, hrelation, bind, Except.bind, pure, Except.pure]

/-- A network without a name is taken in, and cannot be the end of an edge. -/
theorem nameable_iff_emptyPart :
    Reference.ofParts "Network" [""] = .ok ⟨"Network|"⟩ ∧
      Reference.parse "Host|a" = .ok ⟨"Host|a"⟩ ∧ isRelationName "part_of".toList = true ∧
      object? (Object.partsJson "Network" [""] Table.empty) =
        some (.ok ⟨⟨"Network|"⟩, "Network", Table.empty⟩) ∧
      Reference.parse "Network|" = .error (.invalidReference "Network|" .emptyKey) ∧
      edge? (Edge.namesJson ⟨⟨⟨"Host|a"⟩, "part_of", ⟨"Network|"⟩⟩, Table.empty⟩) ≠
        some (.ok ⟨⟨⟨"Host|a"⟩, "part_of", ⟨"Network|"⟩⟩, Table.empty⟩) := by
  have hcomposed : Reference.ofParts "Network" [""] = .ok ⟨"Network|"⟩ := by rfl
  have hhost : Reference.parse "Host|a" = .ok ⟨"Host|a"⟩ := by rfl
  have hrelation : isRelationName "part_of".toList = true := by decide
  obtain ⟨-, -, hobject, -, hrefused, -, hedge⟩ := nameable_iff hcomposed
  have hend := (hedge ⟨"Host|a"⟩ "part_of" Table.empty hhost hrelation).2
  exact ⟨hcomposed, hhost, hrelation, hobject _, hrefused rfl, fun h => hend.mp h rfl⟩

end Run

end ClearanceGraph
