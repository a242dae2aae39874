import ClearanceGraph.Proofs.Clearance.Facts
import ClearanceGraph.Proofs.Clearance.FullPass
import ClearanceGraph.Proofs.Clearance.Telling

/-! # Shapes — passes write well-formed profiles

    `Profile.WellFormed` says how a profile looks on a scale of levels and within a
    number of hops: declared levels end with the scale, an empty profile has the default
    level, and an inherited one has a level in between, with a list of how it came.

    Profiles have two sources.  What is due comes from walks, so its shape is that of
    walks (`Sound.wellFormed_due`).  Where the budget allows one hop only, levels come
    from stored profiles, and those may be out of date: what comes of one hop is well
    formed because what is stored is on the scale, whether or not it is right
    (`Region.wellFormed_oneHop`).  Passes write from these two sources
    (`Sound.wellFormed_of_mem_find`, `Sound.wellFormed_of_mem_findAll`). -/

open Std (TransCmp)

namespace ClearanceGraph

instance : TransCmp Inheritance.order :=
  inferInstanceAs (TransCmp (compareLex (compareOn Inheritance.parent)
    (compareLex (compareOn Inheritance.source)
      (compareLex (compareOn Inheritance.level) (compareOn Inheritance.depth)))))

variable {levels : LevelConfig} {c : SpreadConfig} {n : Nat} {r : Reference} {l : Level}

/-- The form of a profile: its level, and for an inherited one a sorted list of ways on
    which the level came, each from another object and over at least one hop. -/
def Profile.WellFormed (levels : LevelConfig) (maxDepth : Nat) : Profile → Prop
  | empty _ l => l = levels.default
  | declared _ l => l ≤ levels.highest
  | inherited r l is =>
    levels.default < l ∧ l ≤ levels.highest ∧ is ≠ [] ∧
      is.Pairwise (fun i j => (Inheritance.order i j).isLE = true) ∧
      ∀ i ∈ is, i.level = l ∧ 1 ≤ i.depth ∧ i.depth ≤ maxDepth ∧ i.parent ≠ r

/-- A well-formed profile is on the scale. -/
theorem Profile.WellFormed.level_le {p : Profile} (h : p.WellFormed levels n)
    (hlevels : levels.default ≤ levels.highest) : p.level ≤ levels.highest := by
  cases p with
  | empty r l => exact h.symm ▸ hlevels
  | declared r l => exact h
  | inherited r l is => exact h.2.1

/-- What a snapshot shows is on the scale: declared levels, and those of stored
    profiles. -/
structure Snapshot.OnScale (levels : LevelConfig) (g : Snapshot) : Prop where
  declaration : ∀ r l, g.declaration r = some l → l ≤ levels.highest
  profile : ∀ r p, g.profile r = some p → p.level ≤ levels.highest

theorem Snapshot.OnScale.declared {g : Snapshot} (h : g.OnScale levels)
    (hl : g.declared r = some l) : l ≤ levels.highest := by
  rw [Snapshot.declared] at hl
  split at hl
  · exact h.declaration r l hl
  · cases hl

/-- The profile that an object should have is well formed, if what it inherits is. -/
theorem Settle.wellFormed_desired {declared : Option Level}
    {inherited : Option (Level × List Inheritance)}
    (hdeclared : ∀ l, declared = some l → l ≤ levels.highest)
    (hinherited : ∀ l is, inherited = some (l, is) →
      (Profile.inherited r l is).WellFormed levels n) :
    (desired levels.default r declared inherited).WellFormed levels n := by
  unfold desired
  split
  · exact hdeclared _ rfl
  · split
    · exact hinherited _ _ rfl
    · rfl
  · rfl

theorem Settle.eq_some_of_leave {w : Option Profile} {p : Profile}
    (h : .put (.profile p) = leave r w) : w = some p := by
  cases w with
  | none => cases h
  | some q =>
      cases h
      rfl

/-! ## What walks bring -/

/-- No level arrives higher than it was declared. -/
theorem Flow.Walk.exists_declared {φ : Flow} {s p q : Reference} {k : Nat}
    (h : φ.Walk s p q k l) :
    ∃ m, φ.declared s = some m ∧ l ≤ m := by
  induction h with
  | first hm _ _ => exact ⟨_, hm, Hop.carry_le _ _⟩
  | next _ _ _ ih =>
      obtain ⟨m, hm, hle⟩ := ih
      exact ⟨m, hm, Nat.le_trans (Hop.carry_le _ _) hle⟩

theorem Snapshot.node_ne_of_mem_hops {g : Snapshot} {o : Bool} {h : Hop}
    (hh : h ∈ g.hops c o r) :
    h.node ≠ r :=
  of_decide_eq_true (Bool.and_eq_true _ _ ▸ (List.mem_filter.mp hh).2).1

/-- A walk arrives from another object. -/
theorem Snapshot.parent_ne_of_walk {g : Snapshot} {s p q : Reference} {k : Nat}
    (h : (g.flow c).Walk s p q k l) : p ≠ q := by
  cases h with
  | first _ hh _ => exact (node_ne_of_mem_hops hh).symm
  | next _ hh _ => exact (node_ne_of_mem_hops hh).symm

/-- **What is due is well formed.** -/
theorem Store.Sound.wellFormed_due {s : Store} {t : Instant} (hs : s.Sound)
    (hdepth : 1 ≤ c.maxDepth) (hscale : (s.snapshot t).OnScale levels) {p : Profile}
    (hp : s.due levels c t r = some p) :
    p.WellFormed levels c.maxDepth := by
  rw [Store.due] at hp
  split at hp
  · obtain rfl := Option.some.inj hp
    refine Settle.wellFormed_desired (fun l hl => hscale.declared hl) fun l is hbest => ?_
    -- the best level comes by one walk
    obtain ⟨i, rfl, rfl, ⟨hwalk, hdeep, habove⟩, -⟩ :=
      (hs.spreads_fronts levels t hdepth).best_eq_some hbest
    obtain ⟨m, hm, hle⟩ := hwalk.exists_declared
    refine ⟨habove, Nat.le_trans hle (hscale.declared hm), List.cons_ne_nil _ _,
      List.pairwise_singleton _ _, fun j hj => ?_⟩
    obtain rfl := List.mem_singleton.mp hj
    exact ⟨rfl, hwalk.pos, hdeep, Snapshot.parent_ne_of_walk hwalk⟩
  · cases hp

/-! ## What one hop brings -/

namespace Region

/-- An entry that a profile of an object may list. -/
def Offers (levels : LevelConfig) (maxDepth : Nat) (r : Reference) (i : Inheritance) :
    Prop :=
  levels.default < i.level ∧ i.level ≤ levels.highest ∧ 1 ≤ i.depth ∧ i.depth ≤ maxDepth ∧
    i.parent ≠ r

/-- The highest of such entries make a well-formed profile. -/
theorem wellFormed_bestOf {js is : List Inheritance} (hjs : ∀ j ∈ js, Offers levels n r j)
    (h : bestOf js = some (l, is)) : (Profile.inherited r l is).WellFormed levels n := by
  obtain ⟨m, hm, he⟩ := Option.map_eq_some_iff.mp h
  obtain ⟨rfl, rfl⟩ := Prod.mk.inj he
  have hmem : ∀ i, i ∈ sortBy Inheritance.order (js.filter (·.level == m)) ↔
      i ∈ js ∧ i.level = m := fun i => by
    rw [mem_sortBy, List.mem_filter, beq_iff_eq]
  obtain ⟨j, hj, rfl⟩ := List.mem_map.mp (mem_of_lastMax? hm)
  obtain ⟨habove, hle, -⟩ := hjs j hj
  refine ⟨habove, hle, List.ne_nil_of_mem ((hmem j).mpr ⟨hj, rfl⟩), pairwise_sortBy _, ?_⟩
  intro i hi
  obtain ⟨hi, hlevel⟩ := (hmem i).mp hi
  exact ⟨hlevel, (hjs i hi).2.2⟩

variable {g : Snapshot}

/-- What a neighbour passes on is such an entry, if its stored profile is on the scale. -/
private theorem offers_of_candidate? {h : Hop} {p : Profile} {i : Inheritance}
    (hp : p.level ≤ levels.highest) (hne : h.node ≠ r)
    (hi : candidate? levels c h p = some i) :
    Offers levels c.maxDepth r i := by
  obtain ⟨⟨source, depth⟩, -, hi⟩ := Option.bind_eq_some_iff.mp hi
  dsimp only at hi
  split at hi
  · next hc =>
    obtain rfl := Option.some.inj hi
    exact ⟨hc.1, Nat.le_trans (h.carry_le _) hp, Nat.succ_pos _, hc.2, hne⟩
  · cases hi

private theorem offers_of_mem_candidates (hscale : g.OnScale levels) {hs : List Hop}
    (hne : ∀ h ∈ hs, h.node ≠ r) {i : Inheritance}
    (hi : i ∈ (candidates levels c hs).answer g) :
    Offers levels c.maxDepth r i := by
  induction hs with
  | nil => cases hi
  | cons h hs ih =>
      have ih := ih fun h' hh' => hne h' (List.mem_cons_of_mem h hh')
      rw [candidates, Survey.answer_bind, Survey.answer_storedProfile] at hi
      cases hp : g.profile h.node with
      | none =>
          rw [hp] at hi
          exact ih hi
      | some p =>
          rw [hp, Survey.answer_bind, Survey.answer_pure] at hi
          rcases List.mem_append.mp hi with hi | hi
          · exact offers_of_candidate? (hscale.profile _ p hp) (hne h List.mem_cons_self)
              (Option.mem_toList.mp hi)
          · exact ih hi

private theorem wellFormed_inheritOnce (hscale : g.OnScale levels) (rs : List Reference) :
    ∀ {inherited : Inherited} {reach : KeySet Reference},
      (∀ r l is, inherited.get? r = some (l, is) →
        (Profile.inherited r l is).WellFormed levels c.maxDepth) →
      ∀ r l is, ((inheritOnce levels c rs inherited reach).answer g).1.get? r =
        some (l, is) →
        (Profile.inherited r l is).WellFormed levels c.maxDepth := by
  -- on the objects left; the invariant is that the table so far is as it should be
  induction rs with
  | nil => exact fun hinherited => hinherited
  | cons q rs ih =>
      intro inherited reach hinherited
      rw [inheritOnce, Survey.answer_bind, Survey.giving, Survey.answer_hops,
        Survey.answer_bind]
      cases hbest : bestOf ((candidates levels c (g.hops c false q)).answer g) with
      | none => exact ih hinherited
      | some b =>
          refine ih fun r l is hr => ?_
          by_cases heq : r = q
          · subst heq
            rw [Table.get?_insert_self] at hr
            obtain rfl := Option.some.inj hr
            exact wellFormed_bestOf (fun i hi => offers_of_mem_candidates hscale
              (fun h hh => Snapshot.node_ne_of_mem_hops hh) hi) hbest
          · rw [Table.get?_insert_of_ne _ _ heq] at hr
            exact hinherited r l is hr

/-- **What one hop brings is well formed**, whatever the neighbours' profiles are
    worth. -/
theorem wellFormed_oneHop (hscale : g.OnScale levels) (dirty : KeySet Reference)
    {p : Profile}
    (hp : Settle.wanted levels.default ((oneHop levels c dirty).answer g).inherited
      g r = some p) :
    p.WellFormed levels c.maxDepth := by
  rw [Settle.wanted] at hp
  split at hp
  · obtain rfl := Option.some.inj hp
    refine Settle.wellFormed_desired (fun l hl => hscale.declared hl) fun l is hl => ?_
    simp only [oneHop, Survey.answer_bind, Survey.answer_pure] at hl
    exact wellFormed_inheritOnce hscale _ (fun _ _ _ he => by cases he) r l is hl
  · cases hp

end Region

/-! ## What passes write -/

namespace Store

variable {s : Store} {t : Instant} {dirty watched : KeySet Reference} {p : Profile}

/-- **A pass after a commit** writes well-formed profiles, within the budget or not. -/
theorem Sound.wellFormed_of_mem_find (hs : s.Sound) (hdepth : 1 ≤ c.maxDepth)
    (hscale : (s.snapshot t).OnScale levels)
    (hp : .put (.profile p) ∈ (s.finding levels c dirty watched t).operations) :
    p.WellFormed levels c.maxDepth := by
  obtain ⟨r, hr, -, hput⟩ := mem_settleAll_iff.mp hp
  have hwanted := Settle.eq_some_of_leave hput
  rw [Region.answer_around] at hwanted hr
  cases hfull : (Region.full levels c dirty).answer (s.snapshot t) with
  | some region =>
      rw [hfull] at hwanted hr
      obtain ⟨-, -, hdue⟩ := hs.full_eq_some hdepth hfull
      exact hs.wellFormed_due hdepth hscale ((hdue r hr).symm.trans hwanted)
  | none =>
      rw [hfull] at hwanted
      exact Region.wellFormed_oneHop hscale dirty hwanted

/-- **A full pass** writes well-formed profiles. -/
theorem Sound.wellFormed_of_mem_findAll (hs : s.Sound) (hdepth : 1 ≤ c.maxDepth)
    (hscale : (s.snapshot t).OnScale levels) {ops : List Operation} {deltas : List Delta}
    (h : (Pass.findAll levels c t).Gives s (ops, deltas)) (hp : .put (.profile p) ∈ ops) :
    p.WellFormed levels c.maxDepth := by
  obtain ⟨r, hput⟩ := hs.exists_due_of_mem_findAll h hp
  exact hs.wellFormed_due hdepth hscale (Settle.eq_some_of_leave hput)

end Store

end ClearanceGraph
