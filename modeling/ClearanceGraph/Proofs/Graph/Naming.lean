import ClearanceGraph.Graph.Naming

/-! # Names of objects — composed and read

    A reference splits at its first bar, and the bar is never in the type: what
    is before it is the type that the reference was composed of, what is behind
    it are the parts of the key with bars between them.

    Composing asks for a part and reading for a key that is not empty.  The two
    differ in one case: a single part without a character. -/

namespace ClearanceGraph.Reference

theorem text_inj {r s : Reference} : r.text = s.text ↔ r = s := by
  refine ⟨fun h => ?_, congrArg text⟩
  cases r
  cases s
  exact congrArg mk h

/-- What is before the first bar and what is behind it. -/
theorem splitBar_append {t k : List Char} (h : '|' ∉ t) :
    splitBar (t ++ '|' :: k) = (t, some k) := by
  induction t with
  | nil => rfl
  | cons c t ih =>
      rw [List.mem_cons, not_or] at h
      rw [List.cons_append, splitBar, if_neg (Ne.symm h.1), ih h.2]

/-- What splits is what is before the bar, the bar and what is behind it. -/
theorem eq_append_of_splitBar {cs : List Char} :
    ∀ {t k : List Char}, splitBar cs = (t, some k) → cs = t ++ '|' :: k := by
  induction cs with
  | nil =>
      intro t k h
      cases h
  | cons c cs ih =>
      intro t k h
      rw [splitBar] at h
      split at h
      · next hc =>
          cases h
          rw [hc, List.nil_append]
      · obtain ⟨ht, hk⟩ := Prod.mk.inj h
        rw [← ht, List.cons_append, ← ih (Prod.ext rfl hk)]

theorem not_mem_of_isTypeName {t : List Char} (h : isTypeName t = true) : '|' ∉ t := by
  cases t with
  | nil => exact List.not_mem_nil
  | cons c t =>
      rw [isTypeName, Bool.and_eq_true, List.all_eq_true] at h
      rw [List.mem_cons, not_or]
      constructor
      · rintro rfl
        exact absurd h.1 (by decide)
      · exact fun hbar => absurd (h.2 _ hbar) (by decide)

/-! ## Composing -/

theorem toList_append_join (t : String) (p : String) (ps : List String) :
    (t ++ String.join ((p :: ps).map ("|" ++ ·))).toList =
      t.toList ++ '|' :: ("|".intercalate (p :: ps)).toList := by
  have hrest : ∀ qs : List String, (String.join ((p :: qs).map ("|" ++ ·))).toList =
      '|' :: ("|".intercalate (p :: qs)).toList := by
    intro qs
    induction qs generalizing p with
    | nil => simp
    | cons q qs ih =>
        have hq := ih q
        rw [String.toList_join, String.toList_intercalate] at hq ⊢
        rw [List.map_cons, List.flatMap_cons, hq]
        simp
  rw [String.toList_append, hrest ps]

/-- What is composed: a type, a bar, and the parts of a key with bars between them. -/
theorem ofParts_eq_ok_iff {t : String} {parts : List String} {r : Reference} :
    ofParts t parts = .ok r ↔ isTypeName t.toList = true ∧ parts ≠ [] ∧
      r.text.toList = t.toList ++ '|' :: ("|".intercalate parts).toList := by
  rw [ofParts]
  split
  · next hname =>
      refine ⟨nofun, fun h => ?_⟩
      rw [h.1] at hname
      cases hname
  · next hname =>
      have hname : isTypeName t.toList = true := by simpa using hname
      cases parts with
      | nil => exact ⟨nofun, fun h => absurd rfl h.2.1⟩
      | cons p ps =>
          rw [if_neg (by simp : ¬ (p :: ps).isEmpty = true), Except.ok.injEq,
            ← toList_append_join, String.toList_inj]
          constructor
          · rintro rfl
            exact ⟨hname, List.cons_ne_nil _ _, rfl⟩
          · rintro ⟨-, -, htext⟩
            rw [← htext]

/-- A reference that is composed splits again: its type is the one that it was composed
    of. -/
theorem objectType_of_ofParts {t : String} {parts : List String} {r : Reference}
    (h : ofParts t parts = .ok r) : r.objectType = t := by
  obtain ⟨hname, -, htext⟩ := ofParts_eq_ok_iff.mp h
  rw [objectType, htext, splitBar_append (not_mem_of_isTypeName hname),
    String.ofList_toList]

/-- Its key are the parts with bars between them. -/
theorem naturalKey_of_ofParts {t : String} {parts : List String} {r : Reference}
    (h : ofParts t parts = .ok r) : r.naturalKey = "|".intercalate parts := by
  obtain ⟨hname, -, htext⟩ := ofParts_eq_ok_iff.mp h
  rw [naturalKey, htext, splitBar_append (not_mem_of_isTypeName hname), Option.getD_some,
    String.ofList_toList]

/-! ## Reading -/

/-- What is read: a type, a bar, and a key that is not empty. -/
theorem parse_eq_ok_iff {text : String} {r : Reference} :
    parse text = .ok r ↔ r = ⟨text⟩ ∧ ∃ t k, isTypeName t = true ∧ k ≠ [] ∧
    text.toList = t ++ '|' :: k := by
  rw [parse]
  split
  · next hsplit =>
      refine ⟨nofun, ?_⟩
      rintro ⟨-, t, k, hname, -, htext⟩
      rw [htext, splitBar_append (not_mem_of_isTypeName hname)] at hsplit
      cases hsplit
  · next t k hsplit =>
      have htext : text.toList = t ++ '|' :: k := eq_append_of_splitBar hsplit
      -- the text is split at its first bar, so in one way only
      have hunique : ∀ {t' k' : List Char}, isTypeName t' = true →
        text.toList = t' ++ '|' :: k' →
          t = t' ∧ k = k' := by
        intro t' k' hname htext'
        rw [htext', splitBar_append (not_mem_of_isTypeName hname)] at hsplit
        cases hsplit
        exact ⟨rfl, rfl⟩
      split
      · next hname =>
          refine ⟨nofun, ?_⟩
          rintro ⟨-, t', k', hname', -, htext'⟩
          rw [(hunique hname' htext').1, hname'] at hname
          cases hname
      · next hname =>
          cases k with
          | nil =>
              refine ⟨nofun, ?_⟩
              rintro ⟨-, t', k', hname', hkey, htext'⟩
              exact absurd (hunique hname' htext').2.symm hkey
          | cons c k =>
              constructor
              · intro h
                cases h
                exact ⟨rfl, t, c :: k, by simpa using hname, List.cons_ne_nil _ _, htext⟩
              · rintro ⟨rfl, -⟩
                rfl

/-- Only an empty part makes an empty key, and only alone. -/
theorem intercalate_toList_eq_nil_iff {parts : List String} (h : parts ≠ []) :
    ("|".intercalate parts).toList = [] ↔ parts = [""] := by
  match parts with
  | [] => exact absurd rfl h
  | [p] => simp
  | p :: q :: ps => simp [String.toList_intercalate]

/-- A reference that is composed is read, except where its key is empty. -/
theorem parse_of_ofParts {t : String} {parts : List String} {r : Reference}
    (h : ofParts t parts = .ok r) :
    parse r.text = if parts = [""] then .error (.invalidReference r.text .emptyKey)
      else .ok r := by
  obtain ⟨hname, hparts, htext⟩ := ofParts_eq_ok_iff.mp h
  split
  · next hempty =>
      rw [(intercalate_toList_eq_nil_iff hparts).mpr hempty] at htext
      rw [parse, htext, splitBar_append (not_mem_of_isTypeName hname)]
      simp [hname]
  · next hkey =>
      refine parse_eq_ok_iff.mpr ⟨rfl, t.toList, _, hname, ?_, htext⟩
      exact fun hnil => hkey ((intercalate_toList_eq_nil_iff hparts).mp hnil)

end ClearanceGraph.Reference
