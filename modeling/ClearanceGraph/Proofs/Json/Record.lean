import ClearanceGraph.Json.Decode
import ClearanceGraph.Proofs.Json.Basic

/-! # Records — read whatever the order of their fields

    A value is rearranged when the fields of its objects move and nothing else
    changes.  Written as it stands a value is rearranged, and so is its
    canonical form, with the fields in the order of their names.

    What a decoder asks of a record is what is under a name, so it reads a
    rearranged record as the record itself.  Only a tag may come after what it
    tells about; then that was set aside, and both ways of reading have to agree
    on it. -/

namespace ClearanceGraph.Json

variable {α β : Type}

/-- A way of writing values in which the fields of an object may move, and nothing
    else. -/
structure Rearranges (f : Json → Json) : Prop where
  null : f .null = .null
  bool : ∀ b, f (.bool b) = .bool b
  int : ∀ n, f (.int n) = .int n
  string : ∀ s, f (.string s) = .string s
  array : ∀ xs, f (.array xs) = .array (xs.map f)
  object : ∀ fs : List (String × Json), (fs.map Prod.fst).Nodup →
    ∃ gs, f (.object fs) = .object gs ∧ gs.Perm (fs.map fun e => (e.1, f e.2))
  /-- What can be read can be read after it. -/
  readable : ∀ j, j.isReadable = true → (f j).isReadable = true
  /-- A canonical value has its fields in their places. -/
  canonical : ∀ j, j.isCanonical = true → f j = j

/-- A value as it stands. -/
theorem rearranges_id : Rearranges id where
  null := rfl
  bool _ := rfl
  int _ := rfl
  string _ := rfl
  array xs := by rw [List.map_id]; rfl
  object fs _ := ⟨fs, rfl, .of_eq (List.map_id fs).symm⟩
  readable _ h := h
  canonical _ _ := rfl

/-! ## Fields under distinct names -/

theorem occurrences_le_one {n : String} {fs : List (String × Json)}
    (h : (fs.map Prod.fst).Nodup) :
    occurrences n fs ≤ 1 := by
  have hcount : occurrences n fs = (fs.map Prod.fst).count n := by
    rw [occurrences, List.count_eq_countP, List.countP_map]
    rfl
  rw [hcount]
  exact List.nodup_iff_count_le_one.mp h n

/-- Where no name occurs twice, what is under a name is the field of that name. -/
theorem lookup_eq_some_iff {n : String} {j : Json} {fs : List (String × Json)}
    (h : (fs.map Prod.fst).Nodup) : fs.lookup n = some j ↔ (n, j) ∈ fs := by
  induction fs with
  | nil => exact ⟨nofun, nofun⟩
  | cons e fs ih =>
      obtain ⟨m, x⟩ := e
      rw [List.map_cons, List.nodup_cons] at h
      rw [List.lookup_cons, List.mem_cons, Prod.mk.injEq]
      cases hm : n == m with
      | true =>
          obtain rfl := eq_of_beq hm
          have hnot : (n, j) ∉ fs := fun hin => h.1 (List.mem_map.mpr ⟨_, hin, rfl⟩)
          simp only [Option.some.injEq, hnot, or_false, true_and]
          exact eq_comm
      | false =>
          simp only [beq_eq_false_iff_ne.mp hm, false_and, false_or]
          exact ih h.2

/-- Fields that move stay under their names. -/
theorem lookup_of_perm {n : String} {fs gs : List (String × Json)} (h : gs.Perm fs)
    (hnodup : (fs.map Prod.fst).Nodup) : gs.lookup n = fs.lookup n := by
  have hnodup' : (gs.map Prod.fst).Nodup := ((h.map Prod.fst).nodup_iff).mpr hnodup
  refine Option.ext fun j => ?_
  rw [lookup_eq_some_iff hnodup', lookup_eq_some_iff hnodup]
  exact h.mem_iff

theorem lookup_map (f : α → β) (n : String) (fs : List (String × α)) :
    (fs.map fun e => (e.1, f e.2)).lookup n = (fs.lookup n).map f := by
  induction fs with
  | nil => rfl
  | cons e fs ih =>
      rw [List.map_cons, List.lookup_cons, List.lookup_cons, ih]
      cases n == e.1 <;> rfl

/-! ## Alternatives -/

theorem alternative?_map (f : α → β) (s : Source) (names : List (String × α)) (j : Json) :
    alternative? s (names.map fun e => (e.1, f e.2)) j = (alternative? s names j).map
      f := by
  rw [alternative?.eq_def, alternative?.eq_def]
  split
  · exact lookup_map f _ names
  · split
    · exact lookup_map f _ names
    · rfl
  · rfl

theorem label?_map (f : α → β) (s : Source) (names : List (String × α)) (j : Json) :
    label? s (names.map fun e => (e.1, f e.2)) j = (label? s names j).map f := by
  rw [label?.eq_def, label?.eq_def]
  split
  · exact lookup_map f _ names
  · split
    · rw [List.getElem?_map, Option.map_map, Option.map_map]
      rfl
    · rfl
  · rfl

/-- What is asked of every alternative is asked of the value. -/
theorem tagged?_bind (g : α → Option β) (s : Source) (tag content : String)
    (tags : List (String × (Source → Json → Option α))) (j : Json) :
    tagged? s tag content (tags.map fun e => (e.1, fun s j => (e.2 s j).bind g)) j =
      (tagged? s tag content tags j).bind g := by
  rw [tagged?.eq_def, tagged?.eq_def]
  split
  · -- an object with a tag and a content, or a list of the two
    next fs =>
      cases fields [tag, content] (.object fs) with
      | none => rfl
      | some r =>
          simp only [Option.bind_eq_bind, Option.bind_some, Fields.required]
          cases r.get? tag with
          | none => rfl
          | some t =>
              rw [Option.bind_some, Option.bind_some,
                alternative?_map (fun d : Source → Json → Option α => fun s j =>
                  (d s j).bind g)]
              cases alternative? s tags t with
              | none => rfl
              | some d =>
                  cases r.get? content with
                  | none => simp
                  | some x =>
                      simp only [Option.map_some, Option.bind_some]
                      split
                      · split <;> rfl
                      · rfl
  · next t x =>
      rw [label?_map (fun d : Source → Json → Option α => fun s j => (d s j).bind g)]
      cases label? s tags t <;> rfl
  · rfl

/-! ## Records -/

/-- What a record has under each name is what the fields have there, rearranged. -/
structure Fields.Shows (r : Fields) (f : Json → Json) (fs : List (String × Json)) :
    Prop where
  positional : r.positional = false
  get? : ∀ n, r.get? n = (fs.lookup n).map f

/-- An object of fields that moved is a record that shows them. -/
theorem exists_fields_of_perm {f : Json → Json} (fs : List (String × Json))
    {gs : List (String × Json)}
    (h : gs.Perm (fs.map fun e => (e.1, f e.2))) (hnodup : (fs.map Prod.fst).Nodup)
    (names : List String) : ∃ r, fields names (.object gs) = some r ∧ r.Shows f fs := by
  have hfst : (fs.map fun e => (e.1, f e.2)).map Prod.fst = fs.map Prod.fst := by
    rw [List.map_map]
    rfl
  have hgs : (gs.map Prod.fst).Nodup := by
    rw [(h.map Prod.fst).nodup_iff, hfst]
    exact hnodup
  have honce : (names.all fun n => decide (occurrences n gs ≤ 1)) = true :=
    List.all_eq_true.mpr fun n _ => decide_eq_true (occurrences_le_one hgs)
  refine ⟨⟨false, gs⟩, ?_, rfl, fun n => ?_⟩
  · rw [fields, if_pos honce]
  · rw [Fields.get?, lookup_of_perm h (hfst ▸ hnodup), lookup_map]

namespace Rearranges

variable {f : Json → Json} (hf : Rearranges f)
include hf

/-- A rearranged object is a record that shows its fields. -/
theorem exists_fields (fs : List (String × Json)) (hnodup : (fs.map Prod.fst).Nodup)
    (names : List String) : ∃ r, fields names (f (.object fs)) = some r ∧ r.Shows f fs := by
  obtain ⟨gs, hgs, hperm⟩ := hf.object fs hnodup
  rw [hgs]
  exact exists_fields_of_perm fs hperm hnodup names

/-! ## Scalars, lists and options -/

theorem asString? (s : String) : Json.asString? (f (.string s)) = some s := by
  rw [hf.string]
  rfl

theorem asNat? {bound n : Nat} (h : n ≤ bound) :
    Json.asNat? bound (f (.int n)) = some n := by
  rw [hf.int]
  exact if_pos h

/-- A list is read if each of its items is. -/
theorem asList? {g : Json → Option α} {toJson : α → Json} {xs : List α}
    (h : ∀ x ∈ xs, g (f (toJson x)) = some x) :
    Json.asList? g (f (.array (xs.map toJson))) = some xs := by
  rw [hf.array, List.map_map, Json.asList?]
  induction xs with
  | nil => rfl
  | cons x xs ih =>
      rw [List.map_cons, List.mapM_cons, Function.comp_apply, h x List.mem_cons_self,
        ih fun y hy => h y (List.mem_cons_of_mem x hy)]
      rfl

/-- A value that may be absent is read if null is not read as one. -/
theorem asOption? {g : Json → Option α} {toJson : α → Json} {o : Option α}
    (hnull : g .null = none) (h : ∀ x ∈ o, g (f (toJson x)) = some x) :
    Json.asOption? g (f (ofOption toJson o)) = some o := by
  cases o with
  | none => rw [ofOption, hf.null, Json.asOption?]
  | some x =>
      have hx : g (f (toJson x)) = some x := h x rfl
      rw [ofOption]
      cases hj : f (toJson x) with
      | null =>
          rw [hj, hnull] at hx
          cases hx
      | _ =>
          rw [hj] at hx
          rw [Json.asOption?, hx]
          · rfl
          · exact nofun

/-! ## Alternatives -/

/-- A value with its tag beside it is read as its tag tells, wherever the tag stands. -/
theorem tagged? {s : Source} {tag content name : String} {x : Json}
    {d : Source → Json → Option α}
    {a : α} {tags : List (String × (Source → Json → Option α))} (hne : tag ≠ content)
    (htags : tags.lookup name = some d) (hread : x.isReadable = true)
    (h : ∀ s, d s (f x) = some a) :
    Json.tagged? s tag content tags (f (.object [(tag, .string name), (content, x)])) =
      some a := by
  have hnodup : ([(tag, Json.string name), (content, x)].map Prod.fst).Nodup := by
    simp [hne]
  obtain ⟨gs, hgs, hperm⟩ := hf.object _ hnodup
  obtain ⟨r, hr, hshows⟩ := exists_fields_of_perm _ hperm hnodup [tag, content]
  have htag : r.required tag (alternative? s tags) = some d := by
    rw [Fields.required, hshows.get?, List.lookup_cons_self]
    rw [Option.map_some, hf.string, Option.bind_some, alternative?, htags]
  have hlookup : [(tag, Json.string name), (content, x)].lookup content = some x :=
    (lookup_eq_some_iff hnodup).mpr (by simp)
  rw [hgs, Json.tagged?]
  simp only [hr, htag, Option.bind_eq_bind, Option.bind_some]
  rw [Fields.required, Fields.required, hshows.get?, hlookup, Option.map_some,
    Option.bind_some, Option.bind_some, if_pos (hf.readable x hread), h, h, ite_self]

/-- A value with its tag among its fields is read as its tag tells, from the other
    fields. -/
theorem variant? {s : Source} {tag name : String} {fs : List (String × Json)}
    {d : Json → Option α} {a : α} {tags : List (String × (Json → Option α))}
    (hnodup : (tag :: fs.map Prod.fst).Nodup) (htags : tags.lookup name = some d)
    (hread : ∀ e ∈ fs, e.2.isReadable = true)
    (h : ∀ gs, gs.Perm (fs.map fun e => (e.1, f e.2)) → d (.object gs) = some a) :
    Json.variant? s tag tags (f (.object ((tag, .string name) :: fs))) = some a := by
  obtain ⟨gs, hgs, hperm⟩ := hf.object ((tag, .string name) :: fs) hnodup
  rw [List.map_cons, hf.string] at hperm
  obtain ⟨hnot, -⟩ := List.nodup_cons.mp hnodup
  have hother : ∀ e ∈ fs.map fun e => (e.1, f e.2), e.1 ≠ tag := by
    intro e he
    obtain ⟨e', he', rfl⟩ := List.mem_map.mp he
    exact fun htag => hnot (List.mem_map.mpr ⟨e', he', htag⟩)
  -- the tag comes once, and what is left when it is taken out are the fields
  have honce : occurrences tag gs = 1 := by
    have hnone : (fs.map fun e => (e.1, f e.2)).countP (·.1 == tag) = 0 :=
      List.countP_eq_zero.mpr fun e he => by simpa using hother e he
    rw [occurrences, hperm.countP_eq, List.countP_cons_of_pos (by simp), hnone]
  have hlookup : gs.lookup tag = some (.string name) := by
    rw [lookup_of_perm hperm, List.lookup_cons_self]
    rw [List.map_cons, List.map_map]
    exact hnodup
  have hothers : (gs.filter (·.1 != tag)).Perm (fs.map fun e => (e.1, f e.2)) := by
    have hall : (fs.map fun e => (e.1, f e.2)).filter (·.1 != tag) = fs.map fun e =>
      (e.1, f e.2) :=
      List.filter_eq_self.mpr fun e he => by simpa using hother e he
    have hfilter := hperm.filter (·.1 != tag)
    rw [List.filter_cons_of_neg (by simp), hall] at hfilter
    exact hfilter
  have hothersRead : (Json.object (gs.filter (·.1 != tag))).isReadable = true := by
    refine isReadable_object_iff.mpr fun e he => ?_
    obtain ⟨e', he', rfl⟩ := List.mem_map.mp (hothers.mem_iff.mp he)
    exact hf.readable _ (hread e' he')
  rw [hgs, Json.variant?, if_pos honce, hlookup]
  simp only [Option.bind_eq_bind, Option.bind_some, label?, htags]
  rw [if_pos hothersRead, h _ hothers]

end Rearranges

end ClearanceGraph.Json
