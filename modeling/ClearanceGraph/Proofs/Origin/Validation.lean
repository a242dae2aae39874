import ClearanceGraph.Proofs.Graph.Naming
import ClearanceGraph.Proofs.Origin.Plan

/-! # Validation — the runs that are accepted, and what they assert

    The checks of a run share one set of facts that were seen.  Objects, edges and
    declared levels are facts of three kinds, so no loop meets what another one noted,
    and the set keeps apart what repeats within one kind.

    Each loop is a fold of a check that notes what it is about (`Notes`), so the three are
    one induction (`Notes.foldlM_eq_ok_iff`).  Accepted are then exactly the well-formed
    runs (`validate_eq_ok_iff`), and none of their elements hides another one
    (`asserted_perm`).  Only a type that is not that of the reference makes a reference
    invalid, and reading composes references so that they split again
    (`Reference.objectType_of_ofParts`).  Headline: `validation_exact`. -/

namespace ClearanceGraph

variable {α β ε : Type}

/-! ## One step after another -/

/-- Two steps succeed if both do. -/
theorem bind_eq_ok_iff {x : Except ε α} {f : α → Except ε β} {b : β} :
    x >>= f = .ok b ↔ ∃ a, x = .ok a ∧ f a = .ok b := by
  cases x with
  | error e => simp [bind, Except.bind]
  | ok a => simp [bind, Except.bind]

/-- Two steps fail if one does, and the first failure counts. -/
theorem bind_eq_error_iff {x : Except ε α} {f : α → Except ε β} {e : ε} :
    x >>= f = .error e ↔ x = .error e ∨ ∃ a, x = .ok a ∧ f a = .error e := by
  cases x with
  | error e => simp [bind, Except.bind]
  | ok a => simp [bind, Except.bind]

/-- A loop that fails does so at one of its elements. -/
theorem exists_of_foldlM_eq_error {f : β → α → Except ε β} {e : ε} {xs : List α} :
    ∀ {b : β}, xs.foldlM f b = .error e → ∃ x ∈ xs, ∃ c, f c x = .error e := by
  induction xs with
  | nil =>
      intro b h
      cases h
  | cons x xs ih =>
      intro b h
      rw [List.foldlM_cons] at h
      rcases bind_eq_error_iff.mp h with hx | ⟨c, -, hxs⟩
      · exact ⟨x, List.mem_cons_self, b, hx⟩
      · obtain ⟨y, hy, hfail⟩ := ih hxs
        exact ⟨y, List.mem_cons_of_mem _ hy, hfail⟩

namespace Run

variable {r : Run} {highest : Level} {seen seen' : KeySet Fact}

/-! ## Checks -/

/-- A fact can be noted once. -/
theorem note_eq_ok_iff {f : Fact} :
    note seen f = .ok seen' ↔ seen.contains f = false ∧ seen.add f = seen' := by
  rw [note]
  cases seen.contains f <;> simp

/-- A check notes what an element is about: it passes if the element is as it has to be
    and its fact is new. -/
def Notes (p : α → Prop) (fact : α → Fact)
    (check : KeySet Fact → α → Except ValidationError (KeySet Fact)) : Prop :=
  ∀ seen x seen', check seen x = .ok seen' ↔
    p x ∧ seen.contains (fact x) = false ∧ seen.add (fact x) = seen'

/-- Objects are noted, and their types are checked. -/
theorem notes_checkObject :
    Notes (fun o : Object => o.reference.objectType = o.objectType)
    (fun o => .object o.reference) checkObject := by
  intro seen o seen'
  rw [checkObject]
  split
  · next h => simp [h]
  · next h => rw [note_eq_ok_iff, and_iff_right (not_not.mp h)]

/-- Edges are noted, and nothing else is asked of them. -/
theorem notes_edge : Notes (fun _ : Edge => True) (fun e => .edge e.key)
    fun seen e => note seen (.edge e.key) := by
  intro seen e seen'
  rw [note_eq_ok_iff, true_and]

/-- Declared levels are noted, up to the highest level. -/
theorem notes_checkDeclaration :
    Notes (fun d : DeclaredLevel => d.level ≤ highest) (fun d => .declaration d.reference)
      (checkDeclaration highest) := by
  intro seen d seen'
  rw [checkDeclaration, bind_eq_ok_iff, Level.check]
  split
  · next h =>
      have hnot : ¬ d.level ≤ highest := Nat.not_le_of_lt h
      simp [hnot]
  · next h =>
      have hle : d.level ≤ highest := Nat.le_of_not_lt h
      simp [note_eq_ok_iff, hle]

/-- **A loop of checks** passes if each element is as it has to be, no fact occurs twice
    in it, and none was seen before. -/
theorem Notes.foldlM_eq_ok_iff {p : α → Prop} {fact : α → Fact}
    {check : KeySet Fact → α → Except ValidationError (KeySet Fact)}
    (h : Notes p fact check)
    {xs : List α} : ∀ {seen : KeySet Fact}, xs.foldlM check seen = .ok seen' ↔
      (∀ x ∈ xs, p x) ∧ (xs.map fact).Nodup ∧ (∀ f ∈ xs.map fact, seen.contains f = false) ∧
        seen.addAll (xs.map fact) = seen' := by
  induction xs with
  | nil =>
      intro seen
      simp [KeySet.addAll, pure, Except.pure]
  | cons x xs ih =>
      intro seen
      -- noting `x` keeps the others apart from it
      have hnew : (∀ f ∈ xs.map fact, (seen.add (fact x)).contains f = false) ↔
          fact x ∉ xs.map fact ∧ ∀ f ∈ xs.map fact, seen.contains f = false := by
        simp only [← Bool.not_eq_true, KeySet.contains_add_iff, not_or]
        constructor
        · exact fun h => ⟨fun hx => (h _ hx).1 rfl, fun f hf => (h f hf).2⟩
        · exact fun h f hf => ⟨fun heq => h.1 (heq ▸ hf), h.2 f hf⟩
      rw [List.foldlM_cons, bind_eq_ok_iff]
      simp only [h seen x, ih, List.map_cons, List.nodup_cons, List.forall_mem_cons]
      constructor
      · rintro ⟨_, ⟨hx, hseen, rfl⟩, hxs, hnodup, hapart, hall⟩
        obtain ⟨hother, hapart⟩ := hnew.mp hapart
        exact ⟨⟨hx, hxs⟩, ⟨hother, hnodup⟩, ⟨hseen, hapart⟩, hall⟩
      · rintro ⟨⟨hx, hxs⟩, ⟨hother, hnodup⟩, ⟨hseen, hapart⟩, hall⟩
        exact ⟨_, ⟨hx, hseen, rfl⟩, hxs, hnodup, hnew.mpr ⟨hother, hapart⟩, hall⟩

/-! ## Well-formed runs -/

/-- What a run has to be like. -/
structure WellFormed (r : Run) (highest : Level) : Prop where
  /-- The name of the origin is not blank. -/
  named : ∃ c ∈ r.origin.text.toList, Text.isBlank c = false
  /-- Who only looks declares nothing. -/
  observed : r.method = .observation → r.declarations = []
  /-- Objects are of the types of their references. -/
  typed : ∀ o ∈ r.objects, o.reference.objectType = o.objectType
  onScale : ∀ d ∈ r.declarations, d.level ≤ highest
  /-- No object occurs twice. -/
  objects : (r.objects.map (·.reference)).Nodup
  /-- No edge occurs twice. -/
  edges : (r.edges.map (·.key)).Nodup
  /-- No object has two declared levels. -/
  declarations : (r.declarations.map (·.reference)).Nodup

/-- The loops over the elements, each with the facts that were seen before it. -/
def checkElements (r : Run) (highest : Level) : Except ValidationError Unit :=
  r.objects.foldlM checkObject Table.empty >>= fun seen =>
  r.edges.foldlM (fun s e => note s (.edge e.key)) seen >>= fun seen =>
  r.declarations.foldlM (checkDeclaration highest) seen >>= fun _ => .ok ()

/-- **Validation**: the name, what an observation may declare, and then every
    element. -/
theorem validate_eq : r.validate highest =
    if r.origin.isEmpty then .error .emptyOriginId
    else if r.method = .observation ∧ r.declarations ≠ [] then
      .error (.declarationFromObservation r.origin)
    else r.checkElements highest := by
  have hsome : (!r.declarations.isEmpty) = true ↔ r.declarations ≠ [] := by simp
  rw [validate]
  split
  · rfl
  · simp only [hsome]
    split
    · rfl
    · rfl

private theorem nodup_map_fact {κ : Type} {key : α → κ} {fact : κ → Fact}
    (hinj : Function.Injective fact) {xs : List α} :
    (xs.map fun x => fact (key x)).Nodup ↔ (xs.map key).Nodup := by
  rw [← List.nodup_map_iff hinj, List.map_map]
  rfl

/-- The loops pass if each element is as it has to be and none occurs twice among those
    of its kind: what was seen of other kinds does no harm. -/
theorem checkElements_eq_ok_iff : r.checkElements highest = .ok () ↔
    ((∀ o ∈ r.objects, o.reference.objectType = o.objectType) ∧
        (r.objects.map (·.reference)).Nodup) ∧
      (r.edges.map (·.key)).Nodup ∧
      (∀ d ∈ r.declarations, d.level ≤ highest) ∧
      (r.declarations.map (·.reference)).Nodup := by
  -- a fact is determined by what it is about, so notes repeat only where references do
  have hobject : Function.Injective Fact.object := fun _ _ h => Fact.object.inj h
  have hedge : Function.Injective Fact.edge := fun _ _ h => Fact.edge.inj h
  have hdeclaration : Function.Injective Fact.declaration :=
    fun _ _ h => Fact.declaration.inj h
  simp only [checkElements, bind_eq_ok_iff, notes_checkObject.foldlM_eq_ok_iff,
    notes_edge.foldlM_eq_ok_iff, notes_checkDeclaration.foldlM_eq_ok_iff,
      nodup_map_fact hobject,
    nodup_map_fact hedge, nodup_map_fact hdeclaration]
  constructor
  · rintro ⟨_, ⟨htyped, hobjects, -, rfl⟩, _, ⟨-, hedges, -, rfl⟩, _,
      ⟨hscale, hdecls, -, -⟩, -⟩
    exact ⟨⟨htyped, hobjects⟩, hedges, hscale, hdecls⟩
  · rintro ⟨⟨htyped, hobjects⟩, hedges, hscale, hdecls⟩
    refine ⟨_, ⟨htyped, hobjects, ?_, rfl⟩, _, ⟨fun _ _ => trivial, hedges, ?_, rfl⟩, _,
      ⟨hscale, hdecls, ?_, rfl⟩, trivial⟩
    · simp
    · simp [← Bool.not_eq_true, KeySet.contains_addAll_iff]
    · simp [← Bool.not_eq_true, KeySet.contains_addAll_iff]

/-- A name is not empty if some character of it is no blank. -/
theorem isEmpty_eq_false_iff {o : OriginId} :
    o.isEmpty = false ↔ ∃ c ∈ o.text.toList, Text.isBlank c = false := by
  rw [OriginId.isEmpty, Text.allBlank, List.all_eq_false]
  simp only [Bool.not_eq_true]

/-- **The accepted runs** are the well-formed ones. -/
theorem validate_eq_ok_iff : r.validate highest = .ok () ↔ r.WellFormed highest := by
  rw [validate_eq]
  split
  · next hblank =>
      constructor
      · intro h
        cases h
      · intro h
        rw [isEmpty_eq_false_iff.mpr h.named] at hblank
        cases hblank
  · next hnamed =>
      rw [Bool.not_eq_true] at hnamed
      split
      · next hdeclared =>
          constructor
          · intro h
            cases h
          · exact fun h => absurd (h.observed hdeclared.1) hdeclared.2
      · next hobserved =>
          -- the elements are looked at once the header is in order
          rw [checkElements_eq_ok_iff]
          constructor
          · rintro ⟨⟨htyped, hobjects⟩, hedges, hscale, hdecls⟩
            have hempty : r.method = .observation → r.declarations = [] :=
              fun hm => not_not.mp fun hne => hobserved ⟨hm, hne⟩
            exact ⟨isEmpty_eq_false_iff.mp hnamed, hempty, htyped, hscale, hobjects,
              hedges, hdecls⟩
          · exact fun h => ⟨⟨h.typed, h.objects⟩, h.edges, h.onScale, h.declarations⟩

/-! ## What they assert -/

/-- The elements of a run, each with the fact that it is about. -/
def elements (r : Run) : List (Fact × Content) :=
  r.objects.map (fun o => (.object o.reference, .object o)) ++
    r.edges.map (fun e => (.edge e.key, .edge e)) ++
    r.declarations.map fun d => (.declaration d.reference, .declaration d)

/-- What a run asserts is the table of its elements. -/
theorem asserted_eq : r.asserted = Table.ofList r.elements := by
  rw [asserted, Content.byFact, contents, elements, List.map_append, List.map_append,
    List.map_map, List.map_map, List.map_map]
  rfl

/-- The elements of a well-formed run are about facts of their own: facts of two kinds
    are never the same. -/
theorem WellFormed.nodup_facts (h : r.WellFormed highest) :
    (r.elements.map Prod.fst).Nodup := by
  have hobjects := h.objects.map (f := Fact.object) fun _ _ h => Fact.object.inj h
  have hedges := h.edges.map (f := Fact.edge) fun _ _ h => Fact.edge.inj h
  have hdeclarations := h.declarations.map (f := Fact.declaration) fun _ _ h =>
    Fact.declaration.inj h
  have hfacts : r.elements.map Prod.fst = (r.objects.map (·.reference)).map Fact.object ++
      (r.edges.map (·.key)).map Fact.edge ++
      (r.declarations.map (·.reference)).map Fact.declaration := by
    simp [elements, Function.comp_def]
  rw [hfacts, List.nodup_append', List.nodup_append']
  refine ⟨⟨hobjects, hedges, ?_⟩, hdeclarations, ?_⟩
  · simp [List.disjoint_left]
  · simp only [List.disjoint_left, List.mem_append, List.mem_map]
    rintro _ (⟨_, -, rfl⟩ | ⟨_, -, rfl⟩) ⟨_, -, heq⟩
    · cases heq
    · cases heq

/-- **Nothing gets lost**: a well-formed run asserts its elements, and nothing else. -/
theorem WellFormed.asserted_perm (h : r.WellFormed highest) :
    r.asserted.entries.Perm r.elements := by
  rw [asserted_eq]
  exact Table.perm_entries_ofList h.nodup_facts

/-! ## Invalid references -/

/-- A reference is refused if it belongs to an object of another type, and for no other
    reason. -/
theorem exists_of_validate_eq_invalidReference {x : String} {d : ReferenceDefect}
    (h : r.validate highest = .error (.invalidReference x d)) :
    ∃ o ∈ r.objects, o.reference.objectType ≠ o.objectType ∧
      x = o.reference.text ∧ d = .otherType o.objectType := by
  -- noting a fact twice is another error
  have hnote : ∀ seen f, note seen f ≠ .error (.invalidReference x d) := by
    intro seen f h
    rw [note] at h
    split at h
    · cases h
    · cases h
  rw [validate_eq] at h
  split at h
  · cases h
  · split at h
    · cases h
    · rw [checkElements] at h
      rcases bind_eq_error_iff.mp h with h | ⟨_, -, h⟩
      · obtain ⟨o, ho, seen, h⟩ := exists_of_foldlM_eq_error h
        rw [checkObject] at h
        split at h
        · next htype =>
            cases h
            exact ⟨o, ho, htype, rfl, rfl⟩
        · exact absurd h (hnote _ _)
      rcases bind_eq_error_iff.mp h with h | ⟨_, -, h⟩
      · obtain ⟨e, -, seen, h⟩ := exists_of_foldlM_eq_error h
        exact absurd h (hnote _ _)
      rcases bind_eq_error_iff.mp h with h | ⟨_, -, h⟩
      · obtain ⟨y, -, seen, h⟩ := exists_of_foldlM_eq_error h
        rw [checkDeclaration, Level.check] at h
        split at h
        · cases h
        · exact absurd h (hnote _ _)
      · cases h

end Run

/-! ## Reading -/

/-- An object that is built from parts has the type of its reference. -/
theorem Object.typed_of_ofParts {t : String} {parts : List String} {o : Object}
    (h : Object.ofParts t parts = .ok o) : o.reference.objectType = o.objectType := by
  rw [Object.ofParts, bind_eq_ok_iff] at h
  obtain ⟨r, hr, h⟩ := h
  cases h
  exact Reference.objectType_of_ofParts hr

/-- What comes out of a list that is read comes from one of its items. -/
theorem exists_of_mem_mapM {f : α → Option β} {xs : List α} :
    ∀ {ys : List β}, xs.mapM f = some ys → ∀ y ∈ ys, ∃ x ∈ xs, f x = some y := by
  induction xs with
  | nil =>
      intro ys h
      cases h
      exact List.forall_mem_nil _
  | cons x xs ih =>
      intro ys h
      simp only [List.mapM_cons, Option.bind_eq_bind, Option.bind_eq_some_iff] at h
      obtain ⟨y, hy, ys, hys, h⟩ := h
      cases h
      refine List.forall_mem_cons.mpr ⟨⟨x, List.mem_cons_self, hy⟩, fun z hz => ?_⟩
      obtain ⟨w, hw, hz⟩ := ih hys z hz
      exact ⟨w, List.mem_cons_of_mem _ hw, hz⟩

/-- What is in a list of results was a result. -/
theorem ok_mem_of_mapM_id {xs : List (Except ε α)} :
    ∀ {ys : List α}, xs.mapM id = .ok ys → ∀ y ∈ ys, .ok y ∈ xs := by
  induction xs with
  | nil =>
      intro ys h
      cases h
      exact List.forall_mem_nil _
  | cons x xs ih =>
      intro ys h
      simp only [List.mapM_cons, bind_eq_ok_iff] at h
      obtain ⟨y, hy, ys, hys, h⟩ := h
      cases h
      refine List.forall_mem_cons.mpr ⟨?_, fun z hz => List.mem_cons_of_mem _ (ih hys z hz)⟩
      rw [← hy]
      exact List.mem_cons_self

/-- What is in a list that may be left out was read. -/
theorem Json.Fields.exists_of_mem_defaulted {fs : Json.Fields} {name : String}
    {f : Json → Option α}
    {xs : List α} (h : fs.defaulted name [] (Json.asList? f) = some xs) :
    ∀ x ∈ xs, ∃ j, f j = some x := by
  intro x hx
  rw [defaulted] at h
  split at h
  · cases h
    exact absurd hx List.not_mem_nil
  · next j _ =>
      cases j with
      | array js =>
          obtain ⟨j, -, hj⟩ := exists_of_mem_mapM h x hx
          exact ⟨j, hj⟩
      | _ => cases h

namespace Run

variable {r : Run}

/-- So has one that is read. -/
theorem typed_of_object? {j : Json} {o : Object} (h : object? j = some (.ok o)) :
    o.reference.objectType = o.objectType := by
  simp only [object?, Option.bind_eq_bind, Option.bind_eq_some_iff, Option.pure_def,
    Option.some.injEq] at h
  obtain ⟨_, -, t, -, parts, -, attributes, -, h⟩ := h
  cases hparts : Object.ofParts t parts with
  | error e =>
      rw [hparts] at h
      cases h
  | ok o =>
      rw [hparts] at h
      cases h
      exact Object.typed_of_ofParts (o := o) hparts

/-- **What is read** has objects of the types of their references. -/
theorem typed_of_ofText {text : String} (h : ofText text = .ok r) :
    ∀ o ∈ r.objects, o.reference.objectType = o.objectType := by
  rw [ofText] at h
  split at h
  · cases h
  · next hread =>
      obtain ⟨j, -, hread⟩ := Option.bind_eq_some_iff.mp hread
      subst h
      simp only [ofJson?, Option.bind_eq_bind, Option.bind_eq_some_iff, Option.pure_def,
        Option.some.injEq, bind_eq_ok_iff] at hread
      obtain ⟨_, -, _, -, _, -, _, -, objects, hobjects, _, -, _, -, os, hos, _, -, _,
        -, h⟩ := hread
      cases h
      intro o ho
      obtain ⟨j, hj⟩ := Json.Fields.exists_of_mem_defaulted hobjects _
        (ok_mem_of_mapM_id hos o ho)
      exact typed_of_object? hj

/-- **Validation is exact.** Accepted are the well-formed runs.  Such a run asserts each
    of its elements once, under the fact that it is about, and nothing else.  A run that
    was read from a text is never refused for a reference. -/
theorem validation_exact (r : Run) (highest : Level) :
    (r.validate highest = .ok () ↔ r.WellFormed highest) ∧
      (r.validate highest = .ok () →
        r.asserted.entries.Perm r.elements ∧ ∀ e ∈ r.asserted.entries, e.2.fact = e.1) ∧
      ∀ text, ofText text = .ok r → ∀ x d, r.validate highest ≠ .error
        (.invalidReference x d) := by
  refine ⟨validate_eq_ok_iff, fun h => ?_, fun text hread x d h => ?_⟩
  · have hwell : r.WellFormed highest := validate_eq_ok_iff.mp h
    exact ⟨hwell.asserted_perm, fun e he => r.filed_asserted
      (r.asserted.mem_entries_iff.mp he)⟩
  · obtain ⟨o, ho, htype, -⟩ := exists_of_validate_eq_invalidReference h
    exact htype (typed_of_ofText hread o ho)

/-- Two hosts, the key of the first with a bar in it, an edge between them, and a level
that is declared for the second; all fields by their positions. -/
def hostsText : String :=
  "[\"dns\", \"declaration\", \"2024-01-01T00:00:00Z\", " ++
  "[[\"Host\", [\"a|b\"]], [\"Host\", [\"c\"]]]," ++
  "[[\"Host|a|b\", \"leads_to\", \"Host|c\"]], [[\"Host|c\", 2]]]"

/-- The run is read and valid, and no level above zero would be for a lower highest
    one. -/
theorem validation_exact_hosts : ∃ r, ofText hostsText = .ok r ∧
    r.validate LevelConfig.standard.highest = .ok () ∧
    r.WellFormed LevelConfig.standard.highest ∧
    r.asserted.entries.Perm r.elements ∧ (∀ e ∈ r.asserted.entries, e.2.fact = e.1) ∧
    r.elements.length = 4 ∧ ∀ x d, r.validate Level.zero ≠ .error
      (.invalidReference x d) := by
  have hrun : ((ofText hostsText).toOption.any fun r =>
      (r.validate LevelConfig.standard.highest).isOk && r.elements.length == 4) =
        true := by decide +kernel
  cases hread : ofText hostsText with
  | error e =>
      rw [hread] at hrun
      cases hrun
  | ok r =>
      rw [hread] at hrun
      obtain ⟨hok, hlength⟩ := Bool.and_eq_true_iff.mp hrun
      have hvalid : r.validate LevelConfig.standard.highest = .ok () := by
        cases hv : r.validate LevelConfig.standard.highest with
        | error e =>
            rw [hv] at hok
            cases hok
        | ok u => rfl
      obtain ⟨hiff, hkept, -⟩ := validation_exact r LevelConfig.standard.highest
      obtain ⟨hperm, hfiled⟩ := hkept hvalid
      exact ⟨r, rfl, hvalid, hiff.mp hvalid, hperm, hfiled, beq_iff_eq.mp hlength,
        (validation_exact r Level.zero).2.2 hostsText hread⟩

end Run

end ClearanceGraph
