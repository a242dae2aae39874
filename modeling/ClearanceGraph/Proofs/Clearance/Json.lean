import ClearanceGraph.Clearance.Json
import ClearanceGraph.Proofs.Graph.Json

/-! # Profiles and deltas read back

    A profile carries its kind among its fields, so the other fields are set
    aside; they are read from there whatever their order.  A count of hops is
    read up to a bound. -/

namespace ClearanceGraph

open Json (Rearranges)

/-- No way is longer than what a count of hops can be read up to. -/
def Profile.InBounds : Profile → Prop
  | inherited _ _ is => ∀ i ∈ is, i.depth ≤ depthBound
  | _ => True

/-- The names of the kinds of delta are distinct. -/
theorem DeltaKind.lookup_name (k : DeltaKind) : names.lookup k.name = some k := by
  cases k <;> rfl

variable {f : Json → Json} (hf : Rearranges f)
include hf

/-! ## Profiles -/

theorem Inheritance.ofJson?_toJson (i : Inheritance) (h : i.depth ≤ depthBound) :
    ofJson? (f i.toJson) = some i := by
  obtain ⟨r, hr, hshows⟩ := hf.exists_fields
    [("parent", i.parent.toJson), ("source", i.source.toJson), ("level", i.level.toJson),
      ("depth", .int i.depth)] (by simp) ["parent", "source", "level", "depth"]
  simp [ofJson?, toJson, hr, Json.Fields.required, hshows.get?, List.lookup_cons,
    Reference.ofJson?_toJson hf, Level.ofJson?_toJson hf, hf.asNat? h]

/-- An object and a level are read as a profile of the kind that was told. -/
theorem Profile.plain?_of_perm (make : Reference → Level → Profile)
    {r : Reference} {l : Level} {gs : List (String × Json)}
    (hgs : gs.Perm [("reference", f r.toJson), ("level", f l.toJson)]) :
    plain? make (.object gs) = some (make r l) := by
  obtain ⟨found, hfound, hshows⟩ := Json.exists_fields_of_perm
    [("reference", r.toJson), ("level", l.toJson)] hgs (by simp) ["reference", "level"]
  simp [plain?, hfound, Json.Fields.required, hshows.get?, List.lookup_cons,
    Reference.ofJson?_toJson hf, Level.ofJson?_toJson hf]

/-- An object, a level and ways are read as a profile that is inherited along the ways. -/
theorem Profile.inherited?_of_perm {r : Reference} {l : Level}
    {is : List Inheritance} (h : ∀ i ∈ is, i.depth ≤ depthBound) {gs : List (String × Json)}
    (hgs : gs.Perm [("reference", f r.toJson), ("level", f l.toJson),
      ("inheritances", f (.array (is.map Inheritance.toJson)))]) :
    inherited? (.object gs) = some (.inherited r l is) := by
  obtain ⟨found, hfound, hshows⟩ := Json.exists_fields_of_perm
    [("reference", r.toJson), ("level", l.toJson),
      ("inheritances", .array (is.map Inheritance.toJson))] hgs (by simp)
    ["reference", "level", "inheritances"]
  have hways := hf.asList? fun i hi => Inheritance.ofJson?_toJson hf i (h i hi)
  simp [inherited?, hfound, Json.Fields.required, hshows.get?, List.lookup_cons,
    Reference.ofJson?_toJson hf, Level.ofJson?_toJson hf, hways]

omit hf in
theorem Profile.isReadable_ways (is : List Inheritance) :
    (Json.array (is.map Inheritance.toJson)).isReadable = true :=
  Json.isReadable_array_iff.mpr (List.forall_mem_map.mpr fun _ _ => rfl)

omit hf in
theorem Profile.isReadable_toJson (p : Profile) : p.toJson.isReadable = true := by
  cases p with
  | empty r l => rfl
  | declared r l => rfl
  | inherited r l is =>
      simp only [toJson, Json.isReadable_object_iff, List.forall_mem_cons]
      exact ⟨rfl, rfl, rfl, isReadable_ways is, nofun⟩

theorem Profile.read?_toJson (s : Json.Source) (p : Profile) (h : p.InBounds) :
    read? s (f p.toJson) = some p := by
  cases p with
  | empty r l =>
      exact hf.variant? (by simp)
        rfl (by simp only [List.forall_mem_cons]; exact ⟨rfl, rfl, nofun⟩)
        fun gs hgs => plain?_of_perm hf .empty hgs
  | declared r l =>
      exact hf.variant? (by simp)
        rfl (by simp only [List.forall_mem_cons]; exact ⟨rfl, rfl, nofun⟩)
        fun gs hgs => plain?_of_perm hf .declared hgs
  | inherited r l is =>
      exact hf.variant? (by simp) rfl
        (by simp only [List.forall_mem_cons]; exact ⟨rfl, rfl, isReadable_ways is, nofun⟩)
        fun gs hgs => inherited?_of_perm hf h hgs

/-! ## Deltas -/

theorem DeltaKind.read?_toJson (s : Json.Source) (k : DeltaKind) :
    read? s (f k.toJson) = some k := by
  rw [toJson, hf.string, read?, Json.alternative?, lookup_name]

omit hf in
theorem Delta.isReadable_toJson (d : Delta) : d.toJson.isReadable = true := by
  obtain ⟨r, old, l, k⟩ := d
  cases old <;> rfl

theorem Delta.read?_toJson (s : Json.Source) (d : Delta) :
    read? s (f d.toJson) = some d := by
  obtain ⟨r, hr, hshows⟩ := hf.exists_fields
    [("reference", d.reference.toJson),
      ("old_level", Json.ofOption Level.toJson d.oldLevel),
      ("new_level", d.newLevel.toJson), ("kind", d.kind.toJson)] (by simp)
    ["reference", "old_level", "new_level", "kind"]
  have hold : r.nullable "old_level" Level.ofJson? = some d.oldLevel := by
    rw [Json.Fields.nullable, hshows.get?]
    exact hf.asOption? rfl fun l _ => Level.ofJson?_toJson hf l
  simp [read?, toJson, hr, hold, Json.Fields.required, hshows.get?, List.lookup_cons,
    Reference.ofJson?_toJson hf, Level.ofJson?_toJson hf, DeltaKind.read?_toJson hf]

end ClearanceGraph
