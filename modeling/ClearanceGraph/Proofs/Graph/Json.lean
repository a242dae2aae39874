import ClearanceGraph.Graph.Json
import ClearanceGraph.Proofs.Json.Canonical
import Mathlib.Data.List.Perm.Basic

/-! # Facts and contents read back

    References, edges, facts, levels and contents are read from what they are
    written as, whatever the order of the fields. -/

namespace ClearanceGraph

open Json (Rearranges)

variable {f : Json → Json} (hf : Rearranges f)
include hf

/-! ## References, edges, facts -/

/-- A reference is read from its text. -/
theorem Reference.ofJson?_toJson (r : Reference) : ofJson? (f r.toJson) = some r := by
  rw [toJson, hf.string]
  rfl

/-- The key of an edge is read from its fields. -/
theorem EdgeKey.ofJson?_toJson (k : EdgeKey) : ofJson? (f k.toJson) = some k := by
  obtain ⟨r, hr, hshows⟩ := hf.exists_fields
    [("source", k.source.toJson), ("relation", .string k.relation),
      ("target", k.target.toJson)]
    (by simp) ["source", "relation", "target"]
  simp [ofJson?, toJson, hr, Json.Fields.required, hshows.get?, List.lookup_cons,
    Reference.ofJson?_toJson hf, hf.asString?]

/-- **A fact is read** from its kind and what it is about. -/
theorem Fact.read?_toJson (s : Json.Source) (x : Fact) : read? s (f x.toJson) = some x := by
  cases x with
  | object r =>
      refine hf.tagged? (by decide) rfl rfl fun s => ?_
      rw [Reference.ofJson?_toJson hf]
      rfl
  | edge k =>
      refine hf.tagged? (by decide) rfl rfl fun s => ?_
      rw [EdgeKey.ofJson?_toJson hf]
      rfl
  | declaration r =>
      refine hf.tagged? (by decide) rfl rfl fun s => ?_
      rw [Reference.ofJson?_toJson hf]
      rfl

/-! ## Levels -/

theorem Level.ofJson?_toJson (l : Level) : ofJson? (f l.toJson) = some l := by
  rw [toJson, ofJson?, hf.asNat? l.bounded, Option.bind_some, ofNat?, dif_pos l.bounded]

/-- A declared level is read from its fields. -/
theorem DeclaredLevel.ofJson?_toJson (d : DeclaredLevel) :
    ofJson? (f d.toJson) = some d := by
  obtain ⟨r, hr, hshows⟩ := hf.exists_fields
    [("reference", d.reference.toJson), ("level", d.level.toJson)] (by simp)
    ["reference", "level"]
  simp [ofJson?, toJson, hr, Json.Fields.required, hshows.get?, List.lookup_cons,
    Reference.ofJson?_toJson hf, Level.ofJson?_toJson hf]

/-! ## Objects and edges -/

omit hf in
/-- What is in the order of a list that is mapped, but for the order, is mapped too. -/
private theorem exists_of_perm_map {α β : Type} {g : α → β} {xs : List α} {ys : List β}
    (h : ys.Perm (xs.map g)) : ∃ zs : List α, ys = zs.map g ∧ zs.Perm xs := by
  have hxs : List.Forall₂ (fun y x => y = g x) (xs.map g) xs :=
    List.forall₂_map_left_iff.mpr (List.forall₂_same.mpr fun _ _ => rfl)
  obtain ⟨zs, hzs, hperm⟩ := List.perm_comp_forall₂ h hxs
  refine ⟨zs, ?_, hperm⟩
  rw [← List.forall₂_eq_eq_eq]
  exact List.forall₂_map_right_iff.mpr hzs

/-- Attributes are read back, and no attribute is lost. -/
theorem Attributes.ofJson?_toJson (a : Attributes) : ofJson? (f a.toJson) = some a := by
  have hnodup : ((a.entries.map fun e => (e.1, e.2.json)).map Prod.fst).Nodup := by
    rw [List.map_map]
    exact a.nodup_keys
  obtain ⟨gs, hgs, hperm⟩ := hf.object _ hnodup
  have hvalues : (a.entries.map fun e => (e.1, e.2.json)).map (fun e => (e.1, f e.2)) =
      a.entries.map fun e => (e.1, e.2.json) := by
    rw [List.map_map]
    exact List.map_congr_left fun e _ => Prod.ext rfl (hf.canonical _ e.2.canonical)
  rw [hvalues] at hperm
  obtain ⟨es, rfl, hes⟩ := exists_of_perm_map hperm
  rw [toJson, hgs, ofJson?, ofFields?_eq]
  exact congrArg some (Table.ofList_of_perm hes)

/-- The field of attributes is read where it is and where it was left out. -/
theorem Attributes.defaulted_field (a : Attributes) {r : Json.Fields}
    {fs : List (String × Json)}
    (hshows : r.Shows f fs) (hfs : fs.lookup "attributes" = a.field.lookup "attributes") :
    r.defaulted "attributes" Table.empty ofJson? = some a := by
  rw [Json.Fields.defaulted, hshows.get?, hfs, field]
  cases hempty : a.isEmpty with
  | true => rw [Table.eq_empty_of_isEmpty hempty]; rfl
  | false => exact ofJson?_toJson hf a

omit hf in
/-- The names of a record stay distinct with the field of attributes. -/
theorem Attributes.nodup_field (a : Attributes) (fs : List (String × Json))
    (h : ("attributes" :: fs.map Prod.fst).Nodup) :
      ((fs ++ a.field).map Prod.fst).Nodup := by
  obtain ⟨hnot, hnodup⟩ := List.nodup_cons.mp h
  rw [field, List.map_append]
  split
  · rwa [List.map_nil, List.append_nil]
  · exact List.nodup_append_comm.mp (List.nodup_cons.mpr ⟨hnot, hnodup⟩)

omit hf in
/-- What is written of attributes can be skipped. -/
theorem Attributes.isReadable_field (a : Attributes) :
    ∀ e ∈ a.field, e.2.isReadable = true := by
  intro e he
  rw [field] at he
  split at he
  · cases he
  · rw [List.mem_singleton.mp he, toJson, Json.isReadable_object_iff]
    exact List.forall_mem_map.mpr fun e _ => Json.isReadable_of_isCanonical _ e.2.canonical

omit hf in
theorem Object.isReadable_toJson (o : Object) : o.toJson.isReadable = true := by
  simp only [toJson, Json.isReadable_object_iff, List.forall_mem_cons]
  exact ⟨rfl, rfl, o.attributes.isReadable_field⟩

/-- **An object is read** from its fields, with attributes or without. -/
theorem Object.ofJson?_toJson (o : Object) : ofJson? (f o.toJson) = some o := by
  obtain ⟨r, hr, hshows⟩ := hf.exists_fields
    (("primary_key", o.reference.toJson) :: ("object_type", .string o.objectType) ::
      o.attributes.field)
    (o.attributes.nodup_field [("primary_key", _), ("object_type", _)] (by simp))
    ["primary_key", "object_type", "attributes"]
  have hattributes := o.attributes.defaulted_field hf hshows rfl
  simp [ofJson?, toJson, hr, hattributes, Json.Fields.required, hshows.get?,
    List.lookup_cons, Reference.ofJson?_toJson hf, hf.asString?]

omit hf in
theorem Edge.isReadable_toJson (e : Edge) : e.toJson.isReadable = true := by
  simp only [toJson, Json.isReadable_object_iff, List.forall_mem_cons]
  exact ⟨rfl, e.attributes.isReadable_field⟩

/-- **An edge is read** from its fields, with attributes or without. -/
theorem Edge.ofJson?_toJson (e : Edge) : ofJson? (f e.toJson) = some e := by
  obtain ⟨r, hr, hshows⟩ := hf.exists_fields (("key", e.key.toJson) :: e.attributes.field)
    (e.attributes.nodup_field [("key", _)] (by simp)) ["key", "attributes"]
  have hattributes := e.attributes.defaulted_field hf hshows rfl
  simp [ofJson?, toJson, hr, hattributes, Json.Fields.required, hshows.get?,
    EdgeKey.ofJson?_toJson hf]

end ClearanceGraph
