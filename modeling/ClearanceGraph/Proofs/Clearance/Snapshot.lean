import ClearanceGraph.Clearance.View
import ClearanceGraph.Proofs.Store.Commit
import ClearanceGraph.Proofs.Store.Reading

/-! # Snapshots — surveys answered from one table of answers

    A survey is a tree of questions.  A `Snapshot` has an answer to each, and
    `Survey.answer` follows the tree along them.  A view that remembers what the
    store said gives, for every survey, the answer of the snapshot it shows
    (`Survey.run_eq`): asking late, asking once and asking in another order make
    no difference.

    Hops are then a pure function of the snapshot, `Snapshot.hops`, and nothing
    in the theory of levels looks at a view again. -/

namespace ClearanceGraph

/-- What a graph shows at one instant: an answer to every question of a survey. -/
structure Snapshot where
  /-- Whether an object exists. -/
  isObject : Reference → Bool
  /-- The level that is declared for an object, whether or not it exists. -/
  declaration : Reference → Option Level
  /-- The profile that is stored for an object. -/
  profile : Reference → Option Profile
  /-- The edges that have an object as an end. -/
  edges : Reference → List EdgeKey

/-- The answer to a survey. -/
def Survey.answer {α : Type} (g : Snapshot) : Survey α → α
  | done a => a
  | object r next => (next (g.isObject r)).answer g
  | declaration r next => (next (g.declaration r)).answer g
  | profile r next => (next (g.profile r)).answer g
  | edges r next => (next (g.edges r)).answer g

namespace Snapshot

/-- The level that is declared for an object that exists. -/
def declared (g : Snapshot) (r : Reference) : Option Level :=
  if g.isObject r then g.declaration r else none

/-- The steps from an object to existing neighbours, or from those to it. -/
def hops (g : Snapshot) (c : SpreadConfig) (outgoing : Bool) (r : Reference) : List Hop :=
  ((g.edges r).filterMap (Hop.ofEdge? c r outgoing)).filter fun h =>
    decide (h.node ≠ r) && g.isObject h.node

/-- The steps to the objects that take levels from an object. -/
def taking (g : Snapshot) (c : SpreadConfig) (r : Reference) : List Hop := g.hops c true r

end Snapshot

namespace Survey

variable {α β : Type} (g : Snapshot)

@[simp] theorem answer_pure (a : α) : (pure a : Survey α).answer g = a := rfl

/-- Surveys are answered one after another. -/
@[simp] theorem answer_bind (s : Survey α) (f : α → Survey β) :
    (s >>= f).answer g = (f (s.answer g)).answer g := by
  show (bind f s).answer g = _
  induction s with
  | done a => rfl
  | object r next ih => exact ih _
  | declaration r next ih => exact ih _
  | profile r next ih => exact ih _
  | edges r next ih => exact ih _

@[simp] theorem answer_isObject (r : Reference) : (isObject r).answer g = g.isObject r :=
  rfl

@[simp] theorem answer_storedProfile (r : Reference) :
    (storedProfile r).answer g = g.profile r := rfl

@[simp] theorem answer_edgesAt (r : Reference) : (edgesAt r).answer g = g.edges r := rfl

/-- A declared level counts where there is an object. -/
@[simp] theorem answer_declaredLevel (r : Reference) :
    (declaredLevel r).answer g = g.declared r := by
  show ((if g.isObject r then declaration r done else done none) : Survey _).answer g = _
  rw [Snapshot.declared]
  split <;> rfl

/-- Hops count that lead to another object that exists. -/
private theorem answer_existing (r : Reference) (hs : List Hop) :
    (existing r hs).answer g = hs.filter fun h => decide (h.node ≠ r) &&
      g.isObject h.node := by
  induction hs with
  | nil => rfl
  | cons h hs ih =>
      by_cases hr : h.node = r
      · simp [existing, hr, ih]
      · cases ho : g.isObject h.node with
        | true => simp [existing, hr, ho, ih]
        | false => simp [existing, hr, ho, ih]

/-- **The hops that a survey finds** are those of the snapshot. -/
@[simp] theorem answer_hops (c : SpreadConfig) (outgoing : Bool) (r : Reference) :
    (hops c outgoing r).answer g = g.hops c outgoing r := by
  rw [hops, answer_bind, answer_edgesAt, answer_existing, Snapshot.hops]

@[simp] theorem answer_taking (c : SpreadConfig) (r : Reference) :
    (taking c r).answer g = g.taking c r := answer_hops g c true r

end Survey

/-! ## Views that show a snapshot -/

namespace View

/-- What a view knows, and what it would be told, are the answers of a snapshot. -/
structure Shows (v : View) (s : Store) (g : Snapshot) : Prop where
  knownObject : ∀ {r b}, v.objects.get? r = some b → b = g.isObject r
  askedObject : ∀ {r}, v.objects.get? r = none → (v.askObject r).Gives s (g.isObject r)
  knownDeclaration : ∀ {r l}, v.declared.get? r = some l → l = g.declaration r
  askedDeclaration : ∀ {r}, v.declared.get? r = none →
    (v.askDeclaration r).Gives s (g.declaration r)
  knownProfile : ∀ {r p}, v.profiles.get? r = some p → p = g.profile r
  askedProfile : ∀ {r}, v.profiles.get? r = none → (v.askProfile r).Gives s (g.profile r)
  knownEdges : ∀ {r ks}, v.edges.get? r = some ks → ks = g.edges r
  askedEdges : ∀ {r}, v.edges.get? r = none → (v.askEdges r).Gives s (g.edges r)

/-- An answer that is noted is the right one. -/
private theorem known_insert {α : Type} {t : Table Reference α} {f : Reference → α}
    {q : Reference} (h : ∀ {r a}, t.get? r = some a → a = f r) :
    ∀ {r a}, (t.insert q (f q)).get? r = some a → a = f r := by
  intro r a hr
  by_cases hq : r = q
  · subst hq
    rw [Table.get?_insert_self] at hr
    exact (Option.some.inj hr).symm
  · rw [Table.get?_insert_of_ne _ _ hq] at hr
    exact h hr

/-- What is unknown later was unknown before. -/
private theorem unknown_insert {α : Type} {t : Table Reference α} {q r : Reference} {a : α}
    (h : (t.insert q a).get? r = none) : t.get? r = none := by
  by_cases hq : r = q
  · subst hq
    rw [Table.get?_insert_self] at h
    cases h
  · rwa [Table.get?_insert_of_ne _ _ hq] at h

end View

/-- **A view answers as its snapshot does**, and goes on showing it. -/
theorem Survey.run_eq {α : Type} {s : Store} {g : Snapshot} (sv : Survey α) :
    ∀ {v : View}, v.Shows s g →
      ∃ v', v'.Shows s g ∧ (sv.run v).Gives s (sv.answer g, v') := by
  induction sv with
  | done a => intro v h; exact ⟨v, h, rfl⟩
  | object r next ih =>
      intro v h
      rw [Survey.run]
      cases hr : v.objects.get? r with
      | some b =>
          obtain rfl := h.knownObject hr
          exact ih _ h
      | none =>
          -- the answer is remembered, and the view goes on showing the snapshot
          have h' : View.Shows { v with objects := v.objects.insert r (g.isObject r) } s
            g :=
            { h with
              knownObject := View.known_insert h.knownObject
              askedObject := fun hn => h.askedObject (View.unknown_insert hn) }
          obtain ⟨v', hv', hrun⟩ := ih _ h'
          exact ⟨v', hv', (h.askedObject hr).bind hrun⟩
  | declaration r next ih =>
      intro v h
      rw [Survey.run]
      cases hr : v.declared.get? r with
      | some l =>
          obtain rfl := h.knownDeclaration hr
          exact ih _ h
      | none =>
          have h' :
            View.Shows { v with declared := v.declared.insert r (g.declaration r) } s g :=
            { h with
              knownDeclaration := View.known_insert h.knownDeclaration
              askedDeclaration := fun hn => h.askedDeclaration (View.unknown_insert hn) }
          obtain ⟨v', hv', hrun⟩ := ih _ h'
          exact ⟨v', hv', (h.askedDeclaration hr).bind hrun⟩
  | profile r next ih =>
      intro v h
      rw [Survey.run]
      cases hr : v.profiles.get? r with
      | some p =>
          obtain rfl := h.knownProfile hr
          exact ih _ h
      | none =>
          have h' : View.Shows { v with profiles := v.profiles.insert r (g.profile r) } s
            g :=
            { h with
              knownProfile := View.known_insert h.knownProfile
              askedProfile := fun hn => h.askedProfile (View.unknown_insert hn) }
          obtain ⟨v', hv', hrun⟩ := ih _ h'
          exact ⟨v', hv', (h.askedProfile hr).bind hrun⟩
  | edges r next ih =>
      intro v h
      rw [Survey.run]
      cases hr : v.edges.get? r with
      | some ks =>
          obtain rfl := h.knownEdges hr
          exact ih _ h
      | none =>
          have h' : View.Shows { v with edges := v.edges.insert r (g.edges r) } s g :=
            { h with
              knownEdges := View.known_insert h.knownEdges
              askedEdges := fun hn => h.askedEdges (View.unknown_insert hn) }
          obtain ⟨v', hv', hrun⟩ := ih _ h'
          exact ⟨v', hv', (h.askedEdges hr).bind hrun⟩

namespace View

/-- What a view knows and, of the rest, what it would be told. -/
def shown (v : View) (s : Store) : Snapshot where
  isObject r := (v.objects.get? r).getD <|
    if v.isComplete then false else (s.visible v.time (.fact (.object r))).isSome
  declaration r := (v.declared.get? r).getD <|
    if v.isComplete then none
    else ((s.visible v.time (.fact (.declaration r))).bind Document.declaration?).map
      (·.level)
  profile r := (v.profiles.get? r).getD <|
    if v.isComplete then none else (s.visible v.time (.profile r)).bind Document.profile?
  edges r := (v.edges.get? r).getD <|
    if v.isComplete then []
    else ((s.query v.time (.touching r)).filterMap Document.edge?).map (·.key)

private theorem known_getD {α : Type} {t : Table Reference α} {r : Reference} {a b : α}
    (h : t.get? r = some a) : a = (t.get? r).getD b := by
  rw [h, Option.getD_some]

/-- What is asked is answered by what a view knows, or else by the store. -/
private theorem asked_getD {α : Type} {v : View} {s : Store} {t : Table Reference α}
    {r : Reference}
    {otherwise a : α} {rd : Reading α} (hr : t.get? r = none) (h : rd.Gives s a) :
    (v.ask otherwise rd).Gives s
      ((t.get? r).getD (if v.isComplete then otherwise else a)) := by
  rw [hr, Option.getD_none, ask]
  split
  · exact Reading.gives_pure s otherwise
  · exact h

/-- Every view shows something, over every store. -/
theorem shows_shown (v : View) (s : Store) : v.Shows s (v.shown s) where
  knownObject h := known_getD h
  askedObject h := asked_getD h ((Reading.gives_get v.time _ s).bind rfl)
  knownDeclaration h := known_getD h
  askedDeclaration h := asked_getD h ((Reading.gives_get v.time _ s).bind rfl)
  knownProfile h := known_getD h
  askedProfile h := asked_getD h ((Reading.gives_get v.time _ s).bind rfl)
  knownEdges h := known_getD h
  askedEdges h := asked_getD h ((Reading.gives_query v.time (.touching _) s).bind rfl)

end View

/-! ## The snapshot of a store -/

namespace Store

/-- What a store shows at an instant. -/
def snapshot (s : Store) (t : Instant) : Snapshot where
  isObject r := (s.visible t (.fact (.object r))).isSome
  declaration r := ((s.visible t (.fact (.declaration r))).bind Document.declaration?).map
    (·.level)
  profile r := (s.visible t (.profile r)).bind Document.profile?
  edges r := (s.edgesAt r).filter fun e => (s.visible t (.fact (.edge e))).isSome

/-- The edges a query finds at an object are those noted there that show. -/
theorem Sound.edges_of_touching {s : Store} (hs : s.Sound) (t : Instant) (r : Reference) :
    ((s.query t (.touching r)).filterMap Document.edge?).map (·.key) =
      (s.snapshot t).edges r := by
  show (((s.edgesAt r).filterMap fun e => s.visible t (.fact (.edge e))).filterMap
    Document.edge?).map _ = _
  simp only [snapshot]
  induction s.edgesAt r with
  | nil => rfl
  | cons e es ih =>
      cases he : s.visible t (.fact (.edge e)) with
      | none => simpa [he] using ih
      | some d =>
          obtain ⟨x, hx, rfl⟩ := Document.edge?_of_key (hs.key_of_visible he)
          simpa [he, hx] using ih

/-- A view that knows nothing shows what the store shows. -/
theorem Sound.fresh_shows {s : Store} (hs : s.Sound) (t : Instant) :
    (View.fresh t).Shows s (s.snapshot t) where
  knownObject h := by cases h
  askedObject _ := (Reading.gives_get t _ s).bind rfl
  knownDeclaration h := by cases h
  askedDeclaration _ := (Reading.gives_get t _ s).bind rfl
  knownProfile h := by cases h
  askedProfile _ := (Reading.gives_get t _ s).bind rfl
  knownEdges h := by cases h
  askedEdges := by
    intro r _
    refine (Reading.gives_query t (.touching r) s).bind ?_
    show Except.ok _ = _
    rw [hs.edges_of_touching]

end Store

end ClearanceGraph
