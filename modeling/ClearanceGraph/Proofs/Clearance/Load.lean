import ClearanceGraph.Proofs.Clearance.Snapshot
import ClearanceGraph.Proofs.Store.Query
import Mathlib.Tactic.ByContra

/-! # Loading — a complete view shows what the store shows

    A complete view is loaded with four queries.  It notes an edge at both of
    its ends, so an edge from an object to itself is noted twice there; such an
    edge is no hop, and hops are all that levels see.  So a complete view and a
    view that asks give the same hops (`Store.loaded_hops`), and the objects a
    full pass starts from are those that exist or still have a profile. -/

namespace ClearanceGraph

namespace Store

/-! ## Documents of a kind -/

/-- The objects that a query gives are those of the snapshot. -/
theorem Sound.mem_objects_iff {s : Store} (hs : s.Sound) {t : Instant} {r : Reference} :
    (∃ o ∈ (s.query t (.objects none)).filterMap Document.object?, o.reference = r) ↔
      (s.snapshot t).isObject r = true := by
  simp only [List.mem_filterMap, query, mem_visibleWhere, snapshot,
    Option.isSome_iff_exists]
  constructor
  · rintro ⟨o, ⟨d, ⟨k, hk, -⟩, hd⟩, rfl⟩
    have hkey := hs.key_of_visible hk
    rcases d with (x | e | l) | q | q | q <;> simp [Document.object?] at hd
    subst hd
    obtain rfl : DocumentKey.fact (.object x.reference) = k := hkey
    exact ⟨_, hk⟩
  · rintro ⟨d, hd⟩
    have hkey := hs.key_of_visible hd
    rcases d with (x | e | l) | q | q | q <;> simp [Document.key, Content.fact] at hkey
    exact ⟨x, ⟨_, ⟨_, hd, rfl⟩, rfl⟩, hkey⟩

/-- The declared levels that a query gives are those of the snapshot. -/
theorem Sound.mem_declarations_iff {s : Store} (hs : s.Sound) {t : Instant} {r : Reference}
    {l : Level} :
    ⟨r, l⟩ ∈ (s.query t .declarations).filterMap Document.declaration? ↔
      (s.snapshot t).declaration r = some l := by
  simp only [List.mem_filterMap, query, mem_visibleWhere, snapshot, Option.map_eq_some_iff,
    Option.bind_eq_some_iff]
  constructor
  · rintro ⟨d, ⟨k, hk, -⟩, hd⟩
    have hkey := hs.key_of_visible hk
    rcases d with (x | e | x) | q | q | q <;> simp [Document.declaration?] at hd
    subst hd
    obtain rfl : DocumentKey.fact (.declaration r) = k := hkey
    exact ⟨⟨r, l⟩, ⟨_, hk, rfl⟩, rfl⟩
  · rintro ⟨x, ⟨d, hd, hx⟩, rfl⟩
    have hkey := hs.key_of_visible hd
    rcases d with (y | e | y) | q | q | q <;> simp [Document.declaration?] at hx
    subst hx
    obtain rfl : y.reference = r := by simpa [Document.key, Content.fact] using hkey
    exact ⟨_, ⟨_, hd, rfl⟩, rfl⟩

/-- The profiles that a query gives are those of the snapshot. -/
theorem Sound.mem_profiles_iff {s : Store} (hs : s.Sound) {t : Instant} {r : Reference}
    {p : Profile} :
    (p ∈ (s.query t .profiles).filterMap Document.profile? ∧ p.reference = r) ↔
      (s.snapshot t).profile r = some p := by
  simp only [List.mem_filterMap, query, mem_visibleWhere, snapshot, Option.bind_eq_some_iff]
  constructor
  · rintro ⟨⟨d, ⟨k, hk, -⟩, hd⟩, rfl⟩
    have hkey := hs.key_of_visible hk
    rcases d with x | q | q | q <;> simp [Document.profile?] at hd
    subst hd
    obtain rfl : DocumentKey.profile q.reference = k := hkey
    exact ⟨_, hk, rfl⟩
  · rintro ⟨d, hd, hp⟩
    have hkey := hs.key_of_visible hd
    rcases d with x | q | q | q <;> simp [Document.profile?] at hp
    subst hp
    obtain rfl : q.reference = r := by simpa [Document.key] using hkey
    exact ⟨⟨_, ⟨_, hd, rfl⟩, rfl⟩, rfl⟩

/-- The edges that show, by ascending key. -/
def edgeKeys (s : Store) (t : Instant) : List EdgeKey :=
  ((s.query t .edges).filterMap Document.edge?).map (·.key)

/-- The edges that a query gives are those that are visible. -/
theorem Sound.mem_edgeKeys_iff {s : Store} (hs : s.Sound) {t : Instant} {e : EdgeKey} :
    e ∈ s.edgeKeys t ↔ (s.visible t (.fact (.edge e))).isSome = true := by
  simp only [edgeKeys, List.mem_map, List.mem_filterMap, query, mem_visibleWhere,
    Option.isSome_iff_exists]
  constructor
  · rintro ⟨x, ⟨d, ⟨k, hk, -⟩, hd⟩, rfl⟩
    have hkey := hs.key_of_visible hk
    rcases d with (y | y | y) | q | q | q <;> simp [Document.edge?] at hd
    subst hd
    obtain rfl : DocumentKey.fact (.edge y.key) = k := hkey
    exact ⟨_, hk⟩
  · rintro ⟨d, hd⟩
    have hkey := hs.key_of_visible hd
    rcases d with (y | y | y) | q | q | q <;> simp [Document.key, Content.fact] at hkey
    exact ⟨y, ⟨_, ⟨_, hd, rfl⟩, rfl⟩, hkey⟩

/-- They ascend, so none of them comes twice. -/
theorem Sound.pairwise_edgeKeys {s : Store} (hs : s.Sound) (t : Instant) :
    (s.edgeKeys t).Pairwise fun e f => compare e f = .lt := by
  rw [edgeKeys, List.pairwise_map, List.pairwise_filterMap]
  refine (hs.pairwise_visibleWhere t _).imp ?_
  intro a b hab x hx y hy
  rcases a with (u | u | u) | q | q | q <;> simp [Document.edge?] at hx
  rcases b with (w | w | w) | q | q | q <;> simp [Document.edge?] at hy
  subst hx hy
  rwa [Document.key, Document.key, Content.fact, Content.fact, compare_edge_key] at hab

/-- The edges of an object are the visible ones that touch it. -/
theorem Sound.mem_edges_iff {s : Store} (hs : s.Sound) {t : Instant} {e : EdgeKey}
    {r : Reference} :
    e ∈ (s.snapshot t).edges r ↔
      e.touches r = true ∧ (s.visible t (.fact (.edge e))).isSome = true := by
  show e ∈ (s.edgesAt r).filter _ ↔ _
  rw [List.mem_filter, hs.indexed]
  constructor
  · rintro ⟨⟨ht, -⟩, hv⟩
    exact ⟨ht, hv⟩
  · rintro ⟨ht, hv⟩
    refine ⟨⟨ht, fun hnil => ?_⟩, hv⟩
    simp [visible, hnil, showing, lastMax?] at hv

theorem pairwise_edges (s : Store) (t : Instant) (r : Reference) :
    ((s.snapshot t).edges r).Pairwise fun e f => compare e f = .lt :=
  (s.pairwise_edgesAt r).filter _

/-- The edges at an object are those of all edges that touch it. -/
theorem Sound.edges_eq_filter {s : Store} (hs : s.Sound) (t : Instant) (r : Reference) :
    (s.snapshot t).edges r = (s.edgeKeys t).filter fun e => e.touches r := by
  refine Table.ascending_ext (f := id) (s.pairwise_edges t r)
    ((hs.pairwise_edgeKeys t).filter _) fun e => ?_
  rw [hs.mem_edges_iff, List.mem_filter, hs.mem_edgeKeys_iff]
  exact and_comm

/-- The existing objects with a declared level, ascending. -/
def sources (s : Store) (t : Instant) : List (Reference × Level) :=
  ((s.query t .declarations).filterMap Document.declaration?).filterMap fun d =>
    if (s.snapshot t).isObject d.reference then some (d.reference, d.level) else none

/-- The sources are the objects with a declared level. -/
theorem Sound.mem_sources_iff {s : Store} (hs : s.Sound) {t : Instant} {r : Reference}
    {l : Level} :
    (r, l) ∈ s.sources t ↔ (s.snapshot t).declared r = some l := by
  rw [sources, List.mem_filterMap, Snapshot.declared]
  constructor
  · rintro ⟨d, hd, h⟩
    split at h
    · next ho =>
      simp only [Option.some.injEq, Prod.mk.injEq] at h
      obtain ⟨rfl, rfl⟩ := h
      rw [if_pos ho]
      exact hs.mem_declarations_iff.mp hd
    · cases h
  · intro h
    split at h
    · next ho => exact ⟨⟨r, l⟩, hs.mem_declarations_iff.mpr h, by rw [if_pos ho]⟩
    · cases h

/-- They ascend by object, so no object comes twice. -/
theorem Sound.pairwise_sources {s : Store} (hs : s.Sound) (t : Instant) :
    (s.sources t).Pairwise fun a b => compare a.1 b.1 = .lt := by
  rw [sources, List.pairwise_filterMap, List.pairwise_filterMap]
  refine (hs.pairwise_visibleWhere t _).imp ?_
  intro a b hab x hx y hy v hv w hw
  rcases a with (u | u | u) | q | q | q <;> simp [Document.declaration?] at hx
  rcases b with (z | z | z) | q | q | q <;> simp [Document.declaration?] at hy
  subst hx hy
  rw [Document.key, Document.key, Content.fact, Content.fact,
    compare_declaration_key] at hab
  split at hv <;> cases hv
  split at hw <;> cases hw
  exact hab

/-! ## The loaded snapshot -/

/-- What a complete view shows: as the store, but an edge is noted once for each of its
    ends. -/
def loaded (s : Store) (t : Instant) : Snapshot :=
  { s.snapshot t with
    edges := fun r => (s.edgeKeys t).flatMap fun e =>
      (if e.source = r then [e] else []) ++ (if e.target = r then [e] else []) }

/-- A loop leads back to its object. -/
private theorem node_of_loop {c : SpreadConfig} {r : Reference} {o : Bool}
    {e : EdgeKey} {h : Hop}
    (hl : e.source = e.target) (he : Hop.ofEdge? c r o e = some h) : h.node = r := by
  simp only [Hop.ofEdge?] at he
  split at he
  · next hc =>
    obtain rfl := Option.some.inj he
    exact hl ▸ hc.1
  · split at he
    · next hc =>
      obtain rfl := Option.some.inj he
      exact hl.trans hc.1
    · cases he

/-- Loops are no hops. -/
private theorem hops_eq_of_filter (g : Snapshot) (c : SpreadConfig) (o : Bool)
    (r : Reference) :
    g.hops c o r =
      (((g.edges r).filter fun e => e.source ≠ e.target).filterMap
        (Hop.ofEdge? c r o)).filter
        fun h => decide (h.node ≠ r) && g.isObject h.node := by
  rw [Snapshot.hops]
  induction g.edges r with
  | nil => rfl
  | cons e es ih =>
      by_cases hl : e.source = e.target
      · cases he : Hop.ofEdge? c r o e with
        | none => simpa [he, hl] using ih
        | some h => simpa [he, hl, node_of_loop hl he] using ih
      · cases he : Hop.ofEdge? c r o e with
        | none => simpa [he, hl] using ih
        | some h =>
            simp only [List.filterMap_cons, he, ne_eq, hl, not_false_eq_true, decide_true,
              List.filter_cons_of_pos, List.filter_cons]
            rw [ih]

/-- Only a loop is noted twice at one object. -/
private theorem filter_noted (es : List EdgeKey) (r : Reference) :
    ((es.flatMap fun e =>
        (if e.source = r then [e] else []) ++ (if e.target = r then [e] else [])).filter
      fun e => e.source ≠ e.target) =
      (es.filter fun e => e.touches r).filter fun e => e.source ≠ e.target := by
  induction es with
  | nil => rfl
  | cons e es ih =>
      rw [List.flatMap_cons, List.filter_append, ih, List.filter_cons]
      by_cases hsource : e.source = r
      · by_cases htarget : e.target = r
        · simp [EdgeKey.touches, hsource, htarget]
        · simp [EdgeKey.touches, hsource, htarget, Ne.symm htarget]
      · by_cases htarget : e.target = r
        · simp [EdgeKey.touches, hsource, htarget]
        · simp [EdgeKey.touches, hsource, htarget]

/-- Without loops, the edges a complete view has at an object are those the store has
    there. -/
private theorem Sound.loaded_edges {s : Store} (hs : s.Sound) (t : Instant)
    (r : Reference) :
    (((s.loaded t).edges r).filter fun e => e.source ≠ e.target) =
      ((s.snapshot t).edges r).filter fun e => e.source ≠ e.target := by
  rw [hs.edges_eq_filter]
  exact filter_noted (s.edgeKeys t) r

/-- **A complete view gives the same hops** as a view that asks. -/
theorem Sound.loaded_hops {s : Store} (hs : s.Sound) (t : Instant)
    (c : SpreadConfig) (o : Bool)
    (r : Reference) : (s.loaded t).hops c o r = (s.snapshot t).hops c o r := by
  rw [hops_eq_of_filter, hs.loaded_edges, hops_eq_of_filter]
  rfl

end Store

/-! ## Loading -/

namespace View

/-- Noting objects inserts each of them. -/
private theorem foldl_noteObject (os : List Object) (v : View) :
    os.foldl noteObject v =
      { v with objects := v.objects.insertMany (os.map fun o => (o.reference, true)) } := by
  induction os generalizing v with
  | nil => rfl
  | cons o os ih => rw [List.foldl_cons, ih]; rfl

/-- Noting declared levels inserts each of them. -/
private theorem foldl_noteDeclaration (ds : List DeclaredLevel) (v : View) :
    ds.foldl noteDeclaration v =
      { v with
        declared :=
          v.declared.insertMany (ds.map fun d => (d.reference, some d.level)) } := by
  induction ds generalizing v with
  | nil => rfl
  | cons d ds ih => rw [List.foldl_cons, ih]; rfl

/-- Noting profiles inserts each of them. -/
private theorem foldl_noteProfile (ps : List Profile) (v : View) :
    ps.foldl noteProfile v =
      { v with
        profiles := v.profiles.insertMany (ps.map fun p => (p.reference, some p)) } := by
  induction ps generalizing v with
  | nil => rfl
  | cons p ps ih => rw [List.foldl_cons, ih]; rfl

/-- Noting edges changes the edges of a view only: each is noted at its ends. -/
private theorem foldl_noteEdge (es : List Edge) (v : View) :
    ∃ t, es.foldl noteEdge v = { v with edges := t } ∧
      ∀ r, (t.get? r).getD [] = (v.edges.get? r).getD [] ++
        (es.map (·.key)).flatMap fun e =>
        (if e.source = r then [e] else []) ++ (if e.target = r then [e] else []) := by
  induction es generalizing v with
  | nil => exact ⟨v.edges, rfl, fun r => by simp⟩
  | cons e es ih =>
      obtain ⟨t, ht, hget⟩ := ih (v.noteEdge e)
      refine ⟨t, by rw [List.foldl_cons, ht]; rfl, fun r => ?_⟩
      have hone : ∀ (u : Table Reference (List EdgeKey)) (q : Reference),
          ((u.update q fun ks => ks.getD [] ++ [e.key]).get? r).getD [] =
            (u.get? r).getD [] ++ if q = r then [e.key] else [] := by
        intro u q
        by_cases hq : r = q
        · subst hq
          rw [Table.get?_update_self, if_pos rfl, Option.getD_some]
        · rw [Table.get?_update_of_ne _ _ hq, if_neg (Ne.symm hq), List.append_nil]
      rw [hget, List.map_cons, List.flatMap_cons]
      show (((v.edges.update _ _).update _ _).get? r).getD [] ++ _ = _
      rw [hone, hone, List.append_assoc, List.append_assoc, List.append_assoc]

end View

namespace Store

/-- The tables that loading fills. -/
private structure Loads (s : Store) (t : Instant) (v : View) : Prop where
  complete : v.isComplete = true
  objects : v.objects = Table.ofList
    (((s.query t (.objects none)).filterMap Document.object?).map fun o =>
      (o.reference, true))
  declared : v.declared = Table.ofList
    (((s.query t .declarations).filterMap Document.declaration?).map fun d =>
      (d.reference, some d.level))
  profiles : v.profiles = Table.ofList
    (((s.query t .profiles).filterMap Document.profile?).map fun p => (p.reference, some p))
  edges : ∀ r, (v.edges.get? r).getD [] = (s.loaded t).edges r

/-- A load gives a view, and what is in it comes from the four queries. -/
private theorem exists_loads (s : Store) (t : Instant) :
    ∃ v, (View.load t).Gives s v ∧ s.Loads t v := by
  obtain ⟨es, hes, hget⟩ :=
    View.foldl_noteEdge ((s.query t .edges).filterMap Document.edge?)
    (((s.query t (.objects none)).filterMap Document.object?).foldl View.noteObject
      { View.fresh t with isComplete := true })
  refine ⟨_, (Reading.gives_query t _ s).bind ((Reading.gives_query t _ s).bind
    ((Reading.gives_query t _ s).bind ((Reading.gives_query t _ s).bind rfl))), ?_⟩
  rw [hes, View.foldl_noteObject, View.foldl_noteDeclaration, View.foldl_noteProfile]
  refine ⟨rfl, rfl, rfl, rfl, fun r => ?_⟩
  rw [View.foldl_noteObject] at hget
  exact hget r

variable {s : Store} {t : Instant} {v : View}

private theorem Loads.getObject (hs : s.Sound) (h : s.Loads t v) (r : Reference) :
    v.objects.get? r = if (s.snapshot t).isObject r then some true else none := by
  rw [h.objects]
  by_cases ho : (s.snapshot t).isObject r = true
  · obtain ⟨o, hmem, rfl⟩ := hs.mem_objects_iff.mpr ho
    rw [if_pos ho]
    refine Table.get?_ofList_of_mem (List.mem_map.mpr ⟨o, hmem, rfl⟩) ?_
    intro b hb
    obtain ⟨o', -, he⟩ := List.mem_map.mp hb
    exact (congrArg Prod.snd he).symm
  · rw [if_neg ho]
    refine Table.get?_ofList_eq_none ?_
    intro b hb
    obtain ⟨o, hmem, he⟩ := List.mem_map.mp hb
    exact ho (hs.mem_objects_iff.mp ⟨o, hmem, congrArg Prod.fst he⟩)

private theorem Loads.getDeclaration (hs : s.Sound) (h : s.Loads t v) (r : Reference) :
    v.declared.get? r = ((s.snapshot t).declaration r).map some := by
  rw [h.declared]
  cases hl : (s.snapshot t).declaration r with
  | some l =>
      refine Table.get?_ofList_of_mem
        (List.mem_map.mpr ⟨_, hs.mem_declarations_iff.mpr hl, rfl⟩) ?_
      intro w hw
      obtain ⟨⟨q, m⟩, hmem, he⟩ := List.mem_map.mp hw
      obtain ⟨rfl, rfl⟩ : q = r ∧ some m = w := by simpa using he
      rw [← hl, hs.mem_declarations_iff.mp hmem]
  | none =>
      refine Table.get?_ofList_eq_none ?_
      intro w hw
      obtain ⟨⟨q, m⟩, hmem, he⟩ := List.mem_map.mp hw
      obtain rfl : q = r := congrArg Prod.fst he
      have hm := hs.mem_declarations_iff.mp hmem
      rw [hl] at hm
      cases hm

private theorem Loads.getProfile (hs : s.Sound) (h : s.Loads t v) (r : Reference) :
    v.profiles.get? r = ((s.snapshot t).profile r).map some := by
  rw [h.profiles]
  cases hp : (s.snapshot t).profile r with
  | some p =>
      obtain ⟨hmem, rfl⟩ := hs.mem_profiles_iff.mpr hp
      refine Table.get?_ofList_of_mem (List.mem_map.mpr ⟨_, hmem, rfl⟩) ?_
      intro w hw
      obtain ⟨q, hq, he⟩ := List.mem_map.mp hw
      have hq' := hs.mem_profiles_iff.mp ⟨hq, congrArg Prod.fst he⟩
      rw [hp] at hq'
      obtain rfl := Option.some.inj hq'
      exact (congrArg Prod.snd he).symm
  | none =>
      refine Table.get?_ofList_eq_none ?_
      intro w hw
      obtain ⟨q, hq, he⟩ := List.mem_map.mp hw
      have hq' := hs.mem_profiles_iff.mp ⟨hq, congrArg Prod.fst he⟩
      rw [hp] at hq'
      cases hq'

/-- A complete view does not ask for what it does not have. -/
private theorem gives_of_complete {α : Type} {otherwise a : α} {r : Reading α}
    (hc : v.isComplete = true) (ha : otherwise = a) : (v.ask otherwise r).Gives s a := by
  rw [View.ask, if_pos hc, ha]
  exact Reading.gives_pure s a

/-- **A loaded view shows the snapshot**, objects, levels, profiles and edges. -/
private theorem Loads.shows (hs : s.Sound) (h : s.Loads t v) : v.Shows s (s.loaded t) where
  knownObject := by
    intro r b hb
    -- what a loaded view knows is what the store shows
    rw [h.getObject hs] at hb
    split at hb
    · next ho => exact (Option.some.inj hb).symm.trans ho.symm
    · cases hb
  askedObject := by
    intro r hr
    -- what it does not know is answered as absent, and it is absent
    refine gives_of_complete h.complete ?_
    rw [h.getObject hs] at hr
    split at hr
    · cases hr
    · next ho => exact (Bool.eq_false_iff.mpr ho).symm
  knownDeclaration := by
    intro r l hl
    rw [h.getDeclaration hs] at hl
    obtain ⟨m, hm, rfl⟩ := Option.map_eq_some_iff.mp hl
    exact hm.symm
  askedDeclaration := by
    intro r hr
    refine gives_of_complete h.complete ?_
    rw [h.getDeclaration hs, Option.map_eq_none_iff] at hr
    exact hr.symm
  knownProfile := by
    intro r p hp
    rw [h.getProfile hs] at hp
    obtain ⟨q, hq, rfl⟩ := Option.map_eq_some_iff.mp hp
    exact hq.symm
  askedProfile := by
    intro r hr
    refine gives_of_complete h.complete ?_
    rw [h.getProfile hs, Option.map_eq_none_iff] at hr
    exact hr.symm
  knownEdges := by
    intro r ks hk
    rw [← h.edges r, hk, Option.getD_some]
  askedEdges := by
    intro r hr
    refine gives_of_complete h.complete ?_
    rw [← h.edges r, hr, Option.getD_none]

/-- What is loaded is complete. -/
theorem isComplete_of_load (h : (View.load t).Gives s v) : v.isComplete = true := by
  obtain ⟨v', hv', hloads⟩ := exists_loads s t
  obtain rfl := h.unique hv'
  exact hloads.complete

/-- The objects a full pass settles are those that exist or still have a profile. -/
private theorem Loads.mem_knownNodes_iff (hs : s.Sound) (h : s.Loads t v) (r : Reference) :
    r ∈ v.knownNodes.toList ↔
      (s.snapshot t).isObject r = true ∨ ((s.snapshot t).profile r).isSome = true := by
  rw [KeySet.mem_toList, View.knownNodes, KeySet.contains_ofList_iff, List.mem_append]
  -- the table of objects lists the first half, that of profiles the second
  refine or_congr ?_ ?_
  · constructor
    · intro hr
      obtain ⟨⟨q, b⟩, hmem, rfl⟩ := List.mem_map.mp hr
      have hget := (Table.mem_entries_iff _).mp (List.mem_filter.mp hmem).1
      rw [h.getObject hs] at hget
      by_contra hno
      rw [if_neg hno] at hget
      cases hget
    · intro ho
      refine List.mem_map.mpr ⟨(r, true), List.mem_filter.mpr ⟨?_, rfl⟩, rfl⟩
      rw [Table.mem_entries_iff, h.getObject hs, if_pos ho]
  · constructor
    · intro hr
      obtain ⟨⟨q, b⟩, hmem, rfl⟩ := List.mem_map.mp hr
      have hget := (Table.mem_entries_iff _).mp (List.mem_filter.mp hmem).1
      rw [h.getProfile hs] at hget
      obtain ⟨p, hp, -⟩ := Option.map_eq_some_iff.mp hget
      rw [hp]
      rfl
    · intro hsome
      obtain ⟨p, hp⟩ := Option.isSome_iff_exists.mp hsome
      refine List.mem_map.mpr ⟨(r, some p), List.mem_filter.mpr ⟨?_, rfl⟩, rfl⟩
      rw [Table.mem_entries_iff, h.getProfile hs, hp]
      rfl

/-- A full pass starts from the existing objects with a declared level. -/
private theorem Loads.declaredNodes_eq (hs : s.Sound) (h : s.Loads t v) :
    v.declaredNodes = s.sources t := by
  -- both lists ascend, so it is enough that they have the same entries
  refine Table.ascending_ext (f := Prod.fst) ?_ (hs.pairwise_sources t) ?_
  · rw [View.declaredNodes, List.pairwise_filterMap]
    refine v.declared.ascending.imp ?_
    rintro ⟨q, l⟩ ⟨r, m⟩ hqr x hx y hy
    dsimp only at hx hy
    split at hx
    · obtain ⟨-, -, rfl⟩ := Option.map_eq_some_iff.mp hx
      split at hy
      · obtain ⟨-, -, rfl⟩ := Option.map_eq_some_iff.mp hy
        exact hqr
      · cases hy
    · cases hx
  · rintro ⟨r, l⟩
    rw [hs.mem_sources_iff, Snapshot.declared, View.declaredNodes, List.mem_filterMap]
    constructor
    · rintro ⟨⟨q, m⟩, hm, hq⟩
      rw [Table.mem_entries_iff, h.getDeclaration hs] at hm
      obtain ⟨k, hk, rfl⟩ := Option.map_eq_some_iff.mp hm
      simp only [h.getObject hs, Option.map_some] at hq
      by_cases ho : (s.snapshot t).isObject q = true
      · simp only [ho, ↓reduceIte, Option.getD_some, Option.some.injEq, Prod.mk.injEq] at hq
        obtain ⟨rfl, rfl⟩ := hq
        rw [if_pos ho, hk]
      · simp [ho] at hq
    · intro hl
      split at hl
      · next ho =>
        refine ⟨(r, some l), ?_, ?_⟩
        · rw [Table.mem_entries_iff, h.getDeclaration hs, hl]
          rfl
        · simp [h.getObject hs, ho]
      · cases hl

/-- **Loading** gives a complete view of the store at an instant. -/
theorem Sound.load_gives (hs : s.Sound) (t : Instant) :
    ∃ v, (View.load t).Gives s v ∧ v.Shows s (s.loaded t) ∧ v.declaredNodes = s.sources t ∧
      ∀ r, r ∈ v.knownNodes.toList ↔
        (s.snapshot t).isObject r = true ∨ ((s.snapshot t).profile r).isSome = true := by
  obtain ⟨v, hv, h⟩ := exists_loads s t
  exact ⟨v, hv, h.shows hs, h.declaredNodes_eq hs, h.mem_knownNodes_iff hs⟩

end Store

end ClearanceGraph
