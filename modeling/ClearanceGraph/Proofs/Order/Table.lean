import ClearanceGraph.Order.Table
import Mathlib.Data.List.Induction
import Mathlib.Data.List.Nodup

/-! # Tables as maps — a table is its answers

    A table is an ascending list of entries, so it is determined by what it
    answers: two tables with the same answers are equal, and two key sets with
    the same members are equal.  This file reads every operation on tables and
    key sets off the answers, so that no later proof looks at entries.

    The heart is `ascending_ext`: an ascending list is determined by its
    members. -/

open Std

namespace ClearanceGraph

universe u v

namespace Table

variable {κ : Type u} {α : Type v} [Ord κ] [TransOrd κ] [LawfulEqOrd κ]

/-! ## Ascending lists -/

omit [LawfulEqOrd κ] in
private theorem compare_self_ne_lt (k : κ) : compare k k ≠ .lt := by
  have hself : compare k k = .eq := ReflCmp.compare_self
  rw [hself]
  decide

omit [LawfulEqOrd κ] in
/-- An ascending list has no key twice. -/
theorem nodup_of_ascending {β : Type v} {f : β → κ} {l : List β}
    (h : l.Pairwise fun a b => compare (f a) (f b) = .lt) : (l.map f).Nodup := by
  refine List.pairwise_map.mpr (h.imp ?_)
  intro a b hab heq
  rw [heq] at hab
  exact compare_self_ne_lt (f b) hab

omit [LawfulEqOrd κ] in
/-- An ascending list is determined by its members. -/
theorem ascending_ext {β : Type v} {f : β → κ} :
    ∀ {l m : List β}, l.Pairwise (fun a b => compare (f a) (f b) = .lt) →
      m.Pairwise (fun a b => compare (f a) (f b) = .lt) →
      (∀ x, x ∈ l ↔ x ∈ m) → l = m := by
  intro l
  induction l with
  | nil =>
      intro m _ _ h
      exact (List.eq_nil_iff_forall_not_mem.mpr fun x hx =>
        by simpa using (h x).mpr hx).symm
  | cons a l ih =>
      intro m hl hm h
      cases m with
      | nil => simpa using h a
      | cons b m =>
          rw [List.pairwise_cons] at hl hm
          -- each head is in the other list, and neither can stand before the other
          have hab : a = b := by
            rcases List.mem_cons.mp ((h a).mp List.mem_cons_self) with hab | ham
            · exact hab
            · rcases List.mem_cons.mp ((h b).mpr List.mem_cons_self) with hba | hbl
              · exact hba.symm
              · exact absurd (TransCmp.lt_trans (hm.1 a ham) (hl.1 b hbl))
                  (compare_self_ne_lt (f b))
          subst hab
          have htail : ∀ x, x ∈ l ↔ x ∈ m := by
            intro x
            constructor
            · intro hx
              rcases List.mem_cons.mp ((h x).mp (List.mem_cons_of_mem _ hx)) with rfl | hm'
              · exact absurd (hl.1 x hx) (compare_self_ne_lt (f x))
              · exact hm'
            · intro hx
              rcases List.mem_cons.mp ((h x).mpr (List.mem_cons_of_mem _ hx)) with rfl | hl'
              · exact absurd (hm.1 x hx) (compare_self_ne_lt (f x))
              · exact hl'
          rw [ih hl.2 hm.2 htail]

/-! ## Entries and answers -/

/-- In an ascending list the first entry of a key is the only one. -/
private theorem find_eq_some_iff {k : κ} {v : α} :
    ∀ {es : List (κ × α)}, es.Pairwise (fun a b => compare a.1 b.1 = .lt) →
      (find k es = some v ↔ (k, v) ∈ es) := by
  intro es
  induction es with
  | nil => intro _; simp [find]
  | cons e es ih =>
      intro h
      rw [List.pairwise_cons] at h
      by_cases hk : compare k e.1 = .eq
      · obtain rfl := LawfulEqCmp.eq_of_compare hk
        -- later keys are greater, so the key does not come again
        have hnot : (e.1, v) ∉ es := by
          intro hm
          exact compare_self_ne_lt e.1 (h.1 (e.1, v) hm)
        simp only [find, hk, ↓reduceIte, Option.some.injEq, List.mem_cons, hnot, or_false]
        constructor
        · intro hv; rw [← hv]
        · intro hv; rw [← hv]
      · have hne : (k, v) ≠ e := by
          intro he
          apply hk
          rw [← he]
          exact ReflCmp.compare_self
        simp only [find, hk, ↓reduceIte, List.mem_cons, hne, false_or]
        exact ih h.2

/-- The entries are the answers. -/
theorem mem_entries_iff (t : Table κ α) {k : κ} {v : α} :
    (k, v) ∈ t.entries ↔ t.get? k = some v :=
  (find_eq_some_iff t.ascending).symm

/-- **A table is its answers.** -/
theorem ext_get? {s t : Table κ α} (h : ∀ k, s.get? k = t.get? k) : s = t := by
  have hes : s.entries = t.entries := by
    refine ascending_ext (f := Prod.fst) s.ascending t.ascending ?_
    rintro ⟨k, v⟩
    rw [mem_entries_iff, mem_entries_iff, h k]
  cases s; cases t
  simp only at hes
  subst hes
  rfl

/-- The keys are those that have a value. -/
theorem mem_keys_iff (t : Table κ α) {k : κ} : k ∈ t.keys ↔ ∃ v, t.get? k = some v := by
  simp only [keys, List.mem_map]
  constructor
  · rintro ⟨⟨k', v⟩, he, rfl⟩
    exact ⟨v, t.mem_entries_iff.mp he⟩
  · rintro ⟨v, hv⟩
    exact ⟨(k, v), t.mem_entries_iff.mpr hv, rfl⟩

/-- The values are those that some key has. -/
theorem mem_values_iff (t : Table κ α) {v : α} : v ∈ t.values ↔ ∃ k, t.get? k = some v := by
  simp only [values, List.mem_map]
  constructor
  · rintro ⟨⟨k, v'⟩, he, rfl⟩
    exact ⟨k, t.mem_entries_iff.mp he⟩
  · rintro ⟨k, hk⟩
    exact ⟨(k, v), t.mem_entries_iff.mpr hk, rfl⟩

omit [TransOrd κ] [LawfulEqOrd κ] in
theorem eq_empty_of_isEmpty {t : Table κ α} (h : t.isEmpty = true) : t = Table.empty := by
  obtain ⟨es, hes⟩ := t
  obtain rfl : es = [] := List.isEmpty_iff.mp h
  rfl

omit [TransOrd κ] [LawfulEqOrd κ] in
theorem contains_iff (t : Table κ α) {k : κ} :
    t.contains k = true ↔ ∃ v, t.get? k = some v := Option.isSome_iff_exists

omit [TransOrd κ] [LawfulEqOrd κ] in
/-- The keys of a table ascend. -/
theorem pairwise_keys (t : Table κ α) : t.keys.Pairwise fun a b => compare a b = .lt :=
  List.pairwise_map.mpr t.ascending

omit [LawfulEqOrd κ] in
theorem nodup_keys (t : Table κ α) : t.keys.Nodup := nodup_of_ascending t.ascending

/-- A key that was inserted has the new value. -/
theorem get?_insert_self (t : Table κ α) (k : κ) (v : α) :
    (t.insert k v).get? k = some v := by
  rw [get?_insert, if_pos ReflCmp.compare_self]

/-- The other keys keep theirs. -/
theorem get?_insert_of_ne (t : Table κ α) {k l : κ} (v : α) (h : l ≠ k) :
    (t.insert k v).get? l = t.get? l := by
  rw [get?_insert, if_neg fun he => h (LawfulEqCmp.eq_of_compare he)]

theorem get?_update_self (t : Table κ α) (k : κ) (f : Option α → α) :
    (t.update k f).get? k = some (f (t.get? k)) :=
  t.get?_insert_self k _

theorem get?_update_of_ne (t : Table κ α) {k l : κ} (f : Option α → α) (h : l ≠ k) :
    (t.update k f).get? l = t.get? l :=
  t.get?_insert_of_ne _ h

/-- A filtered table keeps the answers that pass. -/
theorem get?_filter (t : Table κ α) (p : κ → α → Bool) (k : κ) :
    (t.filter p).get? k = (t.get? k).filter (p k) := by
  refine Option.ext fun v => ?_
  rw [← mem_entries_iff]
  simp only [filter, List.mem_filter, mem_entries_iff, Option.filter_eq_some_iff]

/-! ## Tables of lists -/

/-- In the table of a list a key has the last value that the list has for it. -/
theorem get?_ofList_eq_some_iff {es : List (κ × α)} {k : κ} {v : α} :
    (ofList es).get? k = some v ↔
      ∃ before after, es = before ++ (k, v) :: after ∧ ∀ e ∈ after, e.1 ≠ k := by
  -- from behind, since the last entry of a key counts
  induction es using List.reverseRecOn with
  | nil => simp [ofList, insertMany]
  | append_singleton es e ih =>
      have hlast : ofList (es ++ [e]) = (ofList es).insert e.1 e.2 := List.foldl_append
      rw [hlast]
      by_cases hk : k = e.1
      · rw [hk, get?_insert_self, Option.some.injEq]
        constructor
        · rintro rfl
          exact ⟨es, [], rfl, List.forall_mem_nil _⟩
        · rintro ⟨before, after, h, hafter⟩
          -- the entry is the last one, or something with another key follows it
          rcases List.eq_nil_or_concat after with rfl | ⟨after, x, rfl⟩
          · exact congrArg Prod.snd (List.append_singleton_inj.mp h).2
          · rw [List.concat_eq_append, ← List.cons_append, ← List.append_assoc] at h
            obtain ⟨-, rfl⟩ := List.append_singleton_inj.mp h
            exact absurd rfl (hafter e (by simp))
      · rw [get?_insert_of_ne _ _ hk, ih]
        constructor
        · rintro ⟨before, after, rfl, hafter⟩
          refine ⟨before, after ++ [e], by simp, fun x hx => ?_⟩
          rcases List.mem_append.mp hx with hx | hx
          · exact hafter x hx
          · rw [List.mem_singleton.mp hx]
            exact Ne.symm hk
        · rintro ⟨before, after, h, hafter⟩
          rcases List.eq_nil_or_concat after with rfl | ⟨after, x, rfl⟩
          · exact absurd (congrArg Prod.fst (List.append_singleton_inj.mp h).2).symm hk
          · rw [List.concat_eq_append, ← List.cons_append, ← List.append_assoc] at h
            exact ⟨before, after, (List.append_singleton_inj.mp h).1, fun y hy =>
              hafter y (by simp [hy])⟩

/-- Filing a list keeps a key filed. -/
theorem exists_get?_insertMany {es : List (κ × α)} :
    ∀ {t : Table κ α} {k : κ}, (∃ v, (k, v) ∈ es) ∨ (∃ v, t.get? k = some v) →
      ∃ w, (t.insertMany es).get? k = some w := by
  induction es with
  | nil =>
      intro t k h
      rcases h with ⟨v, hv⟩ | h
      · simp at hv
      · exact h
  | cons e es ih =>
      intro t k h
      refine ih (t := t.insert e.1 e.2) ?_
      by_cases he : k = e.1
      · exact .inr ⟨e.2, he ▸ get?_insert_self t e.1 e.2⟩
      · rcases h with ⟨v, hv⟩ | ⟨v, hv⟩
        · rcases List.mem_cons.mp hv with hv | hv
          · exact absurd (congrArg Prod.fst hv) he
          · exact .inl ⟨v, hv⟩
        · exact .inr ⟨v, (get?_insert_of_ne t e.2 he).trans hv⟩

/-- In the table of a list a key has a value of the list. -/
theorem mem_of_get?_ofList {es : List (κ × α)} {k : κ} {v : α}
    (h : (ofList es).get? k = some v) : (k, v) ∈ es := by
  obtain ⟨before, after, rfl, -⟩ := get?_ofList_eq_some_iff.mp h
  exact List.mem_append_right before List.mem_cons_self

/-- Where the list has one value for a key, the table of the list has it. -/
theorem get?_ofList_of_mem {es : List (κ × α)} {k : κ} {v : α} (h : (k, v) ∈ es)
    (huniq : ∀ w, (k, w) ∈ es → w = v) : (ofList es).get? k = some v := by
  obtain ⟨w, hw⟩ := exists_get?_insertMany (t := empty) (.inl ⟨v, h⟩)
  rw [← huniq w (mem_of_get?_ofList hw)]
  exact hw

/-- Where no key occurs twice, the table of a list has the entries of the list, and no
    others. -/
theorem perm_entries_ofList {es : List (κ × α)} (h : (es.map Prod.fst).Nodup) :
    (ofList es).entries.Perm es := by
  have hentries : (ofList es).entries.Nodup := .of_map Prod.fst (ofList es).nodup_keys
  refine (List.perm_ext_iff_of_nodup hentries (.of_map Prod.fst h)).mpr ?_
  rintro ⟨k, v⟩
  rw [mem_entries_iff]
  constructor
  · exact mem_of_get?_ofList
  · intro hv
    refine get?_ofList_of_mem hv fun w hw => ?_
    exact congrArg Prod.snd (List.inj_on_of_nodup_map h hw hv rfl)

/-- The entries of a table, filed in any order, are the table. -/
theorem ofList_of_perm {t : Table κ α} {es : List (κ × α)} (h : es.Perm t.entries) :
    ofList es = t := by
  have hnodup : (es.map Prod.fst).Nodup := (h.map Prod.fst).nodup_iff.mpr t.nodup_keys
  refine ext_get? fun k => Option.ext fun v => ?_
  rw [← mem_entries_iff, ← mem_entries_iff]
  exact ((perm_entries_ofList hnodup).trans h).mem_iff

/-- A key that no entry has is not in the table. -/
theorem get?_ofList_eq_none {es : List (κ × α)} {k : κ} (h : ∀ v, (k, v) ∉ es) :
    (ofList es).get? k = none := by
  cases hk : (ofList es).get? k with
  | none => rfl
  | some v => exact absurd (mem_of_get?_ofList hk) (h v)

end Table

/-! ## Key sets -/

namespace KeySet

variable {κ : Type u} [Ord κ] [TransOrd κ] [LawfulEqOrd κ]

/-- **A key set is its members.** -/
theorem ext_contains {s t : KeySet κ} (h : ∀ k, s.contains k = t.contains k) : s = t := by
  refine Table.ext_get? fun k => ?_
  have hk := h k
  simp only [Table.contains] at hk
  cases hs : Table.get? s k with
  | none =>
      cases ht : Table.get? t k with
      | none => rfl
      | some v => simp [hs, ht] at hk
  | some v =>
      cases ht : Table.get? t k with
      | none => simp [hs, ht] at hk
      | some w => rfl

theorem mem_toList (s : KeySet κ) {k : κ} : k ∈ s.toList ↔ s.contains k = true := by
  rw [toList, Table.mem_keys_iff, Table.contains_iff]

omit [TransOrd κ] [LawfulEqOrd κ] in
@[simp] theorem contains_empty (k : κ) :
    Table.contains (Table.empty : KeySet κ) k = false := rfl

theorem contains_add_iff (s : KeySet κ) {k l : κ} :
    (s.add k).contains l = true ↔ l = k ∨ s.contains l = true := by
  rw [contains_add, Bool.or_eq_true, beq_iff_eq, LawfulEqCmp.compare_eq_iff_eq]

/-- Many keys at once are added one by one. -/
theorem contains_addAll_iff {ks : List κ} :
    ∀ {s : KeySet κ} {l : κ}, (s.addAll ks).contains l = true ↔
      l ∈ ks ∨ s.contains l = true := by
  induction ks with
  | nil => intro s l; simp [addAll]
  | cons k ks ih =>
      intro s l
      show ((s.add k).addAll ks).contains l = true ↔ _
      rw [ih, contains_add_iff, List.mem_cons, ← or_assoc, or_comm (a := l ∈ ks)]

theorem contains_ofList_iff {ks : List κ} {l : κ} :
    (ofList ks).contains l = true ↔ l ∈ ks := by
  rw [ofList, contains_addAll_iff]
  simp

/-- A union has the keys of both sets. -/
theorem contains_union_iff (s t : KeySet κ) {k : κ} :
    (s.union t).contains k = true ↔ s.contains k = true ∨ t.contains k = true := by
  rw [union, contains_addAll_iff, mem_toList, or_comm]

/-- A difference has the keys of the first set that are not in the second. -/
theorem contains_diff_iff (s t : KeySet κ) {k : κ} :
    (s.diff t).contains k = true ↔ s.contains k = true ∧ t.contains k = false := by
  simp only [diff, Table.contains, Table.get?_filter]
  cases hs : Table.get? s k with
  | none => simp
  | some u => simp [Option.filter]

theorem contains_erase_iff (s : KeySet κ) {k l : κ} :
    Table.contains (Table.erase s k) l = true ↔ s.contains l = true ∧ l ≠ k := by
  simp only [Table.erase, Table.contains, Table.get?_filter]
  cases hs : Table.get? s l with
  | none => simp
  | some u => simp [Option.filter, ne_comm (a := l)]

/-- A set is empty if it has no key. -/
theorem isEmpty_iff (s : KeySet κ) : s.isEmpty = true ↔ ∀ k, s.contains k = false := by
  constructor
  · intro h k
    rw [Table.eq_empty_of_isEmpty h]
    rfl
  · intro h
    have hs : s = Table.empty := ext_contains h
    rw [hs]
    rfl

/-! ## The least member -/

omit [TransOrd κ] [LawfulEqOrd κ] in
/-- Only an empty set has no least key. -/
theorem popMin?_eq_none {s : KeySet κ} (h : s.popMin? = none) (k : κ) :
    s.contains k = false := by
  obtain ⟨es, hes⟩ := s
  cases es with
  | nil => rfl
  | cons e es => simp [popMin?, Table.popFirst?] at h

/-- Taking the least member leaves the others, and all of them are greater. -/
theorem popMin?_eq_some {s t : KeySet κ} {k : κ} (h : s.popMin? = some (k, t)) :
    (∀ l, s.contains l = true ↔ l = k ∨ t.contains l = true) ∧
      ∀ l, t.contains l = true → compare k l = .lt := by
  obtain ⟨es, hes⟩ := s
  cases es with
  | nil => simp [popMin?, Table.popFirst?] at h
  | cons e es =>
      simp only [popMin?, Table.popFirst?, Option.map_some, Option.some.injEq,
        Prod.mk.injEq] at h
      obtain ⟨rfl, rfl⟩ := h
      refine ⟨fun l => ?_, fun l hl => ?_⟩
      · rw [← mem_toList, ← mem_toList]
        simp [toList, Table.keys]
      · rw [← mem_toList] at hl
        obtain ⟨x, hx, rfl⟩ := List.mem_map.mp hl
        exact (List.pairwise_cons.mp hes).1 x hx

/-- A set has its least key and the keys of the rest. -/
theorem contains_iff_of_popMin? {s t : KeySet κ} {k l : κ} (h : s.popMin? = some (k, t)) :
    s.contains l = true ↔ l = k ∨ t.contains l = true := (popMin?_eq_some h).1 l

theorem contains_of_popMin? {s t : KeySet κ} {k : κ} (h : s.popMin? = some (k, t)) :
    s.contains k = true := (contains_iff_of_popMin? h).mpr (.inl rfl)

end KeySet

end ClearanceGraph
