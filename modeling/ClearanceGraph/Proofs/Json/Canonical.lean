import ClearanceGraph.Proofs.Json.Record

/-! # The canonical form — one form for what differs in the order of fields

    The canonical form of a readable value is canonical, and a canonical value
    is its own canonical form.  The fields are filed in a table one after
    another, so they come out in the order of their names.  Where no name is
    repeated nothing is lost: the canonical form is a rearrangement. -/

open Std

namespace ClearanceGraph

namespace Json

/-- Each field with the canonical form of its value. -/
def canonicalFieldsOf (fs : List (String × Json)) : List (String × Json) :=
  fs.map fun e => (e.1, e.2.canonical)

theorem canonicalEach_eq (xs : List Json) : canonicalEach xs = xs.map canonical := by
  induction xs with
  | nil => rfl
  | cons x xs ih => rw [canonicalEach, ih, List.map_cons]

theorem canonicalInto_eq (fs : List (String × Json)) (t : Table String Json) :
    canonicalInto fs t = t.insertMany (canonicalFieldsOf fs) := by
  induction fs generalizing t with
  | nil => rfl
  | cons e fs ih =>
      rw [canonicalInto, ih]
      rfl

theorem canonical_array (xs : List Json) :
    (array xs).canonical = array (xs.map canonical) := by
  rw [canonical, canonicalEach_eq]

theorem canonical_object (fs : List (String × Json)) :
    (object fs).canonical = object (Table.ofList (canonicalFieldsOf fs)).entries := by
  rw [canonical, canonicalInto_eq]
  rfl

/-- **A canonical value is its own canonical form.** -/
theorem canonical_of_isCanonical (j : Json) (h : j.isCanonical = true) :
    j.canonical = j := by
  induction j with
  | array xs ih =>
      rw [isCanonical_array_iff] at h
      have hitems : xs.map canonical = xs.map id := List.map_congr_left fun x hx =>
        ih x hx (h x hx)
      rw [canonical_array, hitems, List.map_id]
  | object fs ih =>
      obtain ⟨hascending, hvalues⟩ := isCanonical_object_iff.mp h
      have hfields : canonicalFieldsOf fs = fs.map id :=
        List.map_congr_left fun e he => Prod.ext rfl (ih e he (hvalues e he))
      rw [canonical_object, hfields, List.map_id,
        Table.ofList_of_perm (t := ⟨fs, hascending⟩) (.refl fs)]
  | unreadable => cases h
  | null => rfl
  | bool b => rfl
  | int n => rfl
  | float x => rfl
  | string s => rfl

/-- **The canonical form of a readable value is canonical.** -/
theorem isCanonical_canonical (j : Json) (h : j.isReadable = true) :
    j.canonical.isCanonical = true := by
  induction j with
  | array xs ih =>
      rw [isReadable_array_iff] at h
      rw [canonical_array, isCanonical_array_iff]
      intro y hy
      obtain ⟨x, hx, rfl⟩ := List.mem_map.mp hy
      exact ih x hx (h x hx)
  | object fs ih =>
      rw [isReadable_object_iff] at h
      rw [canonical_object, isCanonical_object_iff]
      refine ⟨Table.ascending _, fun e he => ?_⟩
      obtain ⟨e', he', heq⟩ :=
        List.mem_map.mp (Table.mem_of_get?_ofList ((Table.mem_entries_iff _).mp he))
      have hvalue : e'.2.canonical = e.2 := congrArg Prod.snd heq
      rw [← hvalue]
      exact ih e' he' (h e' he')
  | unreadable => cases h
  | null => rfl
  | bool b => rfl
  | int n => rfl
  | float x => rfl
  | string s => rfl

/-- The canonical form moves fields and does nothing else. -/
theorem rearranges_canonical : Rearranges canonical where
  null := rfl
  bool _ := rfl
  int _ := rfl
  string _ := rfl
  array := canonical_array
  object fs hnodup := by
    refine ⟨_, canonical_object fs, Table.perm_entries_ofList ?_⟩
    rw [canonicalFieldsOf, List.map_map]
    exact hnodup
  readable j h := isReadable_of_isCanonical _ (isCanonical_canonical j h)
  canonical := canonical_of_isCanonical

end Json

/-! ## Attributes -/

/-- What an attribute is written as is read as the attribute. -/
theorem AttributeValue.ofJson?_json (v : AttributeValue) :
    AttributeValue.ofJson? v.json = some v := by
  have hcanonical : v.json.canonical = v.json := Json.canonical_of_isCanonical _ v.canonical
  have hread : v.json.isReadable = true := Json.isReadable_of_isCanonical _ v.canonical
  have hboth : v.json.isReadable = true ∧ v.json.canonical.isCanonical = true :=
    ⟨hread, hcanonical.symm ▸ v.canonical⟩
  rw [ofJson?, dif_pos hboth, Option.some.injEq]
  cases v
  simp only [hcanonical]

namespace Attributes

/-- Attributes are filed as they are read. -/
theorem ofFields?_eq (es : List (String × AttributeValue)) (t : Attributes) :
    ofFields? (es.map fun e => (e.1, e.2.json)) t = some (t.insertMany es) := by
  induction es generalizing t with
  | nil => rfl
  | cons e es ih =>
      rw [List.map_cons, ofFields?, AttributeValue.ofJson?_json]
      exact ih (t.insert e.1 e.2)

end Attributes

end ClearanceGraph
