import ClearanceGraph.Proofs.Clearance.Load
import Mathlib.Data.Finset.Filter

/-! # Mirrors — the same edges, asked from either end

    Which steps lead on from an object, and which lead to it, is decided by one
    function of an edge, with the direction of its relation and the two caps swapped
    by turns.  So the edges by which a level goes from one object to another can be
    asked for at either of them, and the answers have to agree.

    `SpreadConfig.crossing?` says of one edge, without taking sides, what it does to a
    level that goes from `a` to `b`; both answers are its values over all edges that
    show (`Snapshot.towards_hops`, `Store.Sound.towards_hops`).  A view may know the
    graph from loading or from asking: what it shows is the same but for loops
    (`View.Opened.hops`). -/

namespace ClearanceGraph

/-- What the steps of a list to an object take off a level, with their caps. -/
def Hop.towards (r : Reference) (hs : List Hop) : Multiset (Nat × Option Level) :=
  ((hs.filter fun h => h.node = r).map fun h => (h.decay, h.cap) : List
    (Nat × Option Level))

/-! ## One edge -/

namespace SpreadConfig

variable (c : SpreadConfig) (a b : Reference) (e : EdgeKey)

/-- An edge from `a` to `b` whose relation carries levels forward. -/
def Issues : Prop :=
  e.source = a ∧ e.target = b ∧ (c.passage e.relation).direction ≠ .backward

/-- An edge from `b` to `a` whose relation carries levels backward. -/
def Inherits : Prop :=
  e.source = b ∧ e.target = a ∧ (c.passage e.relation).direction ≠ .forward

instance : DecidablePred (c.Issues a b) := fun _ => inferInstanceAs (Decidable (_ ∧ _ ∧ _))

instance : DecidablePred (c.Inherits a b) :=
  fun _ => inferInstanceAs (Decidable (_ ∧ _ ∧ _))

/-- What an edge takes off a level that goes from its source to its target, with the
    cap. -/
def issue : Nat × Option Level :=
  ((c.passage e.relation).decay, (c.passage e.relation).maxIssue)

/-- What an edge takes off a level that goes from its target to its source, with the
    cap. -/
def inherit : Nat × Option Level :=
  ((c.passage e.relation).decay, (c.passage e.relation).maxInherit)

/-- What an edge does to a level that goes from `a` to `b`, if levels go that way. -/
def crossing? : Option (Nat × Option Level) :=
  if c.Issues a b e then some (c.issue e)
  else if c.Inherits a b e then some (c.inherit e)
  else none

end SpreadConfig

variable {c : SpreadConfig} {o : Bool} {a b q r : Reference} {e : EdgeKey}

theorem Direction.carries_true_iff {d : Direction} :
    d.carries true = true ↔ d ≠ .backward := by
  cases d <;> decide

theorem Direction.carries_false_iff {d : Direction} :
    d.carries false = true ↔ d ≠ .forward := by
  cases d <;> decide

/-- An edge by which a level goes from one object to another touches both. -/
theorem SpreadConfig.touches_of_crossing? {x : Nat × Option Level}
    (h : c.crossing? a b e = some x) : e.touches a = true ∧ e.touches b = true := by
  rw [crossing?] at h
  split at h
  · next hforth => simp [EdgeKey.touches, hforth.1, hforth.2.1]
  · split at h
    · next hback => simp [EdgeKey.touches, hback.1, hback.2.1]
    · cases h

/-- **The step of an edge** between two objects is its crossing, from whichever end it
    is asked. -/
theorem Hop.ofEdge?_eq_crossing? (hne : r ≠ q) :
    ((ofEdge? c r o e).filter fun h => h.node = q).map (fun h => (h.decay, h.cap)) =
      (if o then c.crossing? r q else c.crossing? q r) e := by
  cases o with
  | true =>
      simp only [ofEdge?, SpreadConfig.crossing?, SpreadConfig.Issues,
        SpreadConfig.Inherits,
        SpreadConfig.issue, SpreadConfig.inherit, Direction.carries_true_iff,
        Direction.carries_false_iff, Bool.not_true, Passage.cap, ↓reduceIte,
          Bool.false_eq_true]
      grind
  | false =>
      simp only [ofEdge?, SpreadConfig.crossing?, SpreadConfig.Issues,
        SpreadConfig.Inherits,
        SpreadConfig.issue, SpreadConfig.inherit, Direction.carries_true_iff,
        Direction.carries_false_iff, Bool.not_false, Passage.cap, ↓reduceIte,
          Bool.false_eq_true]
      grind

/-! ## The steps between two objects -/

/-- The steps from an object to another one, or to it from there, are the crossings of
    its edges. -/
theorem Snapshot.towards_hops (g : Snapshot) (hq : g.isObject q = true) (hne : r ≠ q) :
    Hop.towards q (g.hops c o r) =
      ((g.edges r).filterMap (if o then c.crossing? r q else c.crossing? q r) :
        List (Nat × Option Level)) := by
  have hexists : ((g.edges r).filterMap (Hop.ofEdge? c r o)).filter
      (fun h => decide (h.node = q) && (decide (h.node ≠ r) && g.isObject h.node)) =
      ((g.edges r).filterMap (Hop.ofEdge? c r o)).filter fun h => h.node = q := by
    refine List.filter_congr fun h _ => ?_
    by_cases hh : h.node = q
    · simp [hh, hq, Ne.symm hne]
    · simp [hh]
  rw [Hop.towards, hops, List.filter_filter, hexists, List.filter_filterMap,
    List.map_filterMap]
  simp only [Hop.ofEdge?_eq_crossing? hne]

/-- The crossings from `a` to `b` among some edges are those of the edges that go there
    and those of the edges that come from there; no edge between different objects does
    both. -/
theorem SpreadConfig.filterMap_crossing? (hne : a ≠ b) (es : Multiset EdgeKey) :
    es.filterMap (c.crossing? a b) =
      (es.filter (c.Issues a b)).map c.issue + (es.filter (c.Inherits a b)).map
        c.inherit := by
  induction es using Multiset.induction_on with
  | empty => rfl
  | cons e es ih =>
      by_cases hforth : c.Issues a b e
      · have hback : ¬ c.Inherits a b e := fun hback => hne (hforth.1.symm.trans hback.1)
        have hsome : c.crossing? a b e = some (c.issue e) := if_pos hforth
        rw [Multiset.filterMap_cons_some _ _ _ hsome, Multiset.filter_cons_of_pos _ hforth,
          Multiset.filter_cons_of_neg _ hback, Multiset.map_cons, Multiset.cons_add, ih]
      · by_cases hback : c.Inherits a b e
        · have hsome : c.crossing? a b e = some (c.inherit e) :=
            (if_neg hforth).trans (if_pos hback)
          rw [Multiset.filterMap_cons_some _ _ _ hsome,
            Multiset.filter_cons_of_neg _ hforth,
            Multiset.filter_cons_of_pos _ hback, Multiset.map_cons, Multiset.add_cons, ih]
        · have hnone : c.crossing? a b e = none := (if_neg hforth).trans (if_neg hback)
          rw [Multiset.filterMap_cons_none _ _ hnone, Multiset.filter_cons_of_neg _ hforth,
            Multiset.filter_cons_of_neg _ hback, ih]

/-! ## The views of a store -/

/-- The views of a store at an instant: one that knows nothing, one that was loaded, and
    what they become when they are asked. -/
inductive View.Opened (s : Store) (t : Instant) : View → Prop where
  | fresh : Opened s t (.fresh t)
  | loaded {v : View} : (View.load t).Gives s v → Opened s t v
  | asked {α : Type} {sv : Survey α} {x : α} {v v' : View} :
      Opened s t v → (sv.run v).Gives s (x, v') → Opened s t v'

namespace Store

variable {s : Store} {t : Instant} {v : View}

/-- What a view shows is what the store shows, or what loading it shows. -/
theorem Sound.exists_shows (hs : s.Sound) (hv : View.Opened s t v) :
    ∃ g, v.Shows s g ∧ (g = s.snapshot t ∨ g = s.loaded t) := by
  induction hv with
  | fresh => exact ⟨_, hs.fresh_shows t, .inl rfl⟩
  | loaded h =>
      obtain ⟨v', hv', hshows, -⟩ := hs.load_gives t
      obtain rfl := hv'.unique h
      exact ⟨_, hshows, .inr rfl⟩
  | @asked α sv x v v' _ h ih =>
      obtain ⟨g, hg, hor⟩ := ih
      obtain ⟨v₁, hv₁, hrun⟩ := sv.run_eq hg
      obtain rfl := (Prod.mk.inj (hrun.unique h)).2
      exact ⟨g, hv₁, hor⟩

/-- **Every view of a store finds the same steps.** -/
theorem Sound.hops_gives (hs : s.Sound) (hv : View.Opened s t v)
    (c : SpreadConfig) (o : Bool)
    (r : Reference) : ∃ v', ((Survey.hops c o r).run v).Gives s
      ((s.snapshot t).hops c o r, v') := by
  obtain ⟨g, hg, hor⟩ := hs.exists_shows hv
  obtain ⟨v', -, hrun⟩ := (Survey.hops c o r).run_eq hg
  refine ⟨v', ?_⟩
  rw [Survey.answer_hops] at hrun
  rcases hor with rfl | rfl
  · exact hrun
  · rwa [hs.loaded_hops] at hrun

/-- **The steps between two objects are the crossings of all edges**, asked from either
    end. -/
theorem Sound.towards_hops (hs : s.Sound) (c : SpreadConfig) (o : Bool) (hne : r ≠ q)
    (hq : (s.snapshot t).isObject q = true) :
    Hop.towards q ((s.snapshot t).hops c o r) =
      ((s.edgeKeys t).filterMap (if o then c.crossing? r q else c.crossing? q r) :
        List (Nat × Option Level)) := by
  have htouches : ∀ e x, (if o then c.crossing? r q else c.crossing? q r) e = some x →
      e.touches r = true := by
    intro e x hx
    cases o with
    | true => exact (SpreadConfig.touches_of_crossing? hx).1
    | false => exact (SpreadConfig.touches_of_crossing? hx).2
  rw [(s.snapshot t).towards_hops hq hne, hs.edges_eq_filter, List.filterMap_filter]
  congr 1
  refine List.filterMap_congr fun e _ => ?_
  split
  · rfl
  · next hno =>
    refine (Option.eq_none_iff_forall_not_mem.mpr fun x hx => ?_).symm
    exact hno (htouches e x hx)

/-- **Steps are the same from either end.** Between two different objects that exist,
    the steps that lead on from the first one and the steps that lead to the second one
    take the same off a level and have the same caps, in whichever views they are asked
    for. There is one step for each edge that shows and carries levels forward from the
    first object to the second one, with the cap on what the source issues, and one for
    each that carries them backward, with the cap on what the source inherits. -/
theorem Reachable.taking_mirrors_giving (h : s.Reachable) (t : Instant) (c : SpreadConfig)
    (hne : a ≠ b) (ha : (s.visible t (.fact (.object a))).isSome = true)
    (hb : (s.visible t (.fact (.object b))).isSome = true) {v w : View}
    (hv : View.Opened s t v) (hw : View.Opened s t w) :
    ∃ down up v' w', ∃ es : Finset EdgeKey,
      ((Survey.taking c a).run v).Gives s (down, v') ∧
      ((Survey.giving c b).run w).Gives s (up, w') ∧
      Hop.towards b down = Hop.towards a up ∧
      (∀ e, e ∈ es ↔ (s.visible t (.fact (.edge e))).isSome = true) ∧
      Hop.towards b down =
        (es.filter (c.Issues a b)).val.map c.issue +
          (es.filter (c.Inherits a b)).val.map c.inherit := by
  have hs := h.sound
  obtain ⟨v', hdown⟩ := hs.hops_gives hv c true a
  obtain ⟨w', hup⟩ := hs.hops_gives hw c false b
  have hnodup : (s.edgeKeys t).Nodup := by
    have hkeys := Table.nodup_of_ascending (f := id) (hs.pairwise_edgeKeys t)
    rwa [List.map_id] at hkeys
  -- both sides are one expression over the edges that show
  have htaking := hs.towards_hops c true hne hb
  have hgiving := hs.towards_hops c false hne.symm ha
  refine ⟨_, _, v', w', ⟨s.edgeKeys t, hnodup⟩, hdown, hup, htaking.trans hgiving.symm,
    fun e => hs.mem_edgeKeys_iff, ?_⟩
  rw [htaking]
  exact SpreadConfig.filterMap_crossing? hne (s.edgeKeys t : Multiset EdgeKey)

/-- Two hosts with links both ways, one twice; a loop; and a link to nowhere. -/
def hostsBothWays : Store := .ofTransactions [⟨default, [
  .put (.content (.object ⟨⟨"Host|a"⟩, "Host", Table.empty⟩)),
  .put (.content (.object ⟨⟨"Host|b"⟩, "Host", Table.empty⟩)),
  .put (.content (.edge ⟨⟨⟨"Host|a"⟩, "link", ⟨"Host|b"⟩⟩, Table.empty⟩)),
  .put (.content (.edge ⟨⟨⟨"Host|b"⟩, "link", ⟨"Host|a"⟩⟩, Table.empty⟩)),
  .put (.content (.edge ⟨⟨⟨"Host|a"⟩, "down", ⟨"Host|b"⟩⟩, Table.empty⟩)),
  .put (.content (.edge ⟨⟨⟨"Host|b"⟩, "down", ⟨"Host|a"⟩⟩, Table.empty⟩)),
  .put (.content (.edge ⟨⟨⟨"Host|a"⟩, "up", ⟨"Host|b"⟩⟩, Table.empty⟩)),
  .put (.content (.edge ⟨⟨⟨"Host|b"⟩, "up", ⟨"Host|a"⟩⟩, Table.empty⟩)),
  .put (.content (.edge ⟨⟨⟨"Host|a"⟩, "link", ⟨"Host|a"⟩⟩, Table.empty⟩)),
  .put (.content (.edge ⟨⟨⟨"Host|a"⟩, "link", ⟨"Host|c"⟩⟩, Table.empty⟩))]⟩]

/-- Links carry levels both ways with a cap on either, the other relations one way. -/
def oneWayRules : SpreadConfig := { SpreadConfig.standard with rules := [
  ⟨"link", .both, none, some .zero, some LevelConfig.standard.highest⟩,
  ⟨"down", .forward, some 1, none, none⟩,
  ⟨"up", .backward, some 2, none, none⟩] }

/-- Levels go from the first host to the second one over the link there, the link back,
    the relation that goes down there and the one that goes up from there. A view that
    was loaded and one that asks find these from either end. -/
theorem taking_mirrors_giving_hostsBothWays : ∃ v down up v' w',
    hostsBothWays.Reachable ∧ (View.load .latest).Gives hostsBothWays v ∧
    ((Survey.taking oneWayRules ⟨"Host|a"⟩).run v).Gives hostsBothWays (down, v') ∧
    ((Survey.giving oneWayRules ⟨"Host|b"⟩).run (.fresh .latest)).Gives hostsBothWays
      (up, w') ∧
    Hop.towards ⟨"Host|b"⟩ down = Hop.towards ⟨"Host|a"⟩ up ∧
    Hop.towards ⟨"Host|a"⟩ up =
      {(0, some .zero), (0, some LevelConfig.standard.highest), (1, none), (2, none)} := by
  have hreach : hostsBothWays.Reachable := reachable_ofTransactions _
  obtain ⟨v, hv, -⟩ := hreach.sound.load_gives .latest
  obtain ⟨down, up, v', w', es, hdown, hup, hsame, -⟩ :=
    hreach.taking_mirrors_giving .latest oneWayRules (a := ⟨"Host|a"⟩) (b := ⟨"Host|b"⟩)
      (by decide) (by decide +kernel) (by decide +kernel) (.loaded hv) .fresh
  have hfound : ((Survey.giving oneWayRules ⟨"Host|b"⟩).run (.fresh .latest)
      hostsBothWays).1.toOption.map (fun x => Hop.towards ⟨"Host|a"⟩ x.1) =
      some {(0, some .zero), (0, some LevelConfig.standard.highest), (1, none),
        (2, none)} := by
    decide +kernel
  have hasked :
    ((Survey.giving oneWayRules ⟨"Host|b"⟩).run (.fresh .latest) hostsBothWays).1 =
      .ok (up, w') := hup
  rw [hasked] at hfound
  exact ⟨v, down, up, v', w', hreach, hv, hdown, hup, hsame, Option.some.inj hfound⟩

end Store

end ClearanceGraph
