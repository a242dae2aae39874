import ClearanceGraph.Proofs.Clearance.Due
import ClearanceGraph.Proofs.Store.Around

/-! # Regions — what a pass after a commit settles

    A pass after a commit looks at the ball of objects downstream of what the
    commit touched, and spreads levels inside of everything upstream of it.  By
    locality this gives the ball what full recomputation gives it, so within the
    budget the pass settles the ball to what is due, like a full pass
    (`Sound.settling_finding`).

    `Sound.due_congr` is locality for stores: what an object is due changes only
    with something around an object upstream of it. -/

namespace ClearanceGraph

open scoped Classical

/-! ## Locality for stores -/

namespace Store

variable {levels : LevelConfig} {c : SpreadConfig} {s s' : Store} {t u : Instant}

theorem Sound.linked (hs : s.Sound) (t : Instant) : (s.snapshot t).Linked where
  touches := by
    intro e r he
    exact (hs.indexed.mp (List.mem_filter.mp he).1).1
  shared := by
    intro e r q he hq
    obtain ⟨hmem, hvis⟩ := List.mem_filter.mp he
    exact List.mem_filter.mpr ⟨hs.indexed.mpr ⟨hq, (hs.indexed.mp hmem).2⟩, hvis⟩

theorem Sound.isObject_of_mem_sources (hs : s.Sound) {x : Reference × Level}
    (hx : x ∈ s.sources t) : (s.snapshot t).isObject x.1 = true :=
  Snapshot.isObject_of_declared (hs.mem_sources_iff.mp hx)

/-- The declared objects among some are the same where their declared levels are. -/
private theorem filter_sources_congr {as as' : List (Reference × Level)}
    {Q : Reference → Prop} (ha : as.Pairwise fun x y => compare x.1 y.1 = .lt)
    (ha' : as'.Pairwise fun x y => compare x.1 y.1 = .lt)
    (h : ∀ r l, Q r → ((r, l) ∈ as ↔ (r, l) ∈ as')) :
    (as.filter fun x => Q x.1) = as'.filter fun x => Q x.1 := by
  refine Table.ascending_ext (f := Prod.fst) (ha.filter _) (ha'.filter _) ?_
  rintro ⟨r, l⟩
  rw [List.mem_filter, List.mem_filter]
  constructor
  · rintro ⟨hmem, hq⟩
    exact ⟨(h r l (of_decide_eq_true hq)).mp hmem, hq⟩
  · rintro ⟨hmem, hq⟩
    exact ⟨(h r l (of_decide_eq_true hq)).mpr hmem, hq⟩

/-- Everything upstream of an object within the allowed number of hops. -/
def Upstream (s : Store) (c : SpreadConfig) (t : Instant) (r : Reference) (n : Nat) :
    Reference → Prop := Within ((s.snapshot t).next c false) (· = r) n

/-- **Locality of what is due.** An object is due the same where everything upstream of
    it is the same, and no object upstream was there in the first place only. -/
theorem Sound.due_congr (hs : s.Sound) (hs' : s'.Sound) (hdepth : 1 ≤ c.maxDepth)
    {r : Reference}
    (hsame : ∀ x, s'.Upstream c u r c.maxDepth x → (s.snapshot t).SameAt (s'.snapshot u) x)
    (hback : ∀ n x y, n < c.maxDepth → s'.Upstream c u r n y →
      y ∈ (s.snapshot t).next c true x →
      (s.snapshot t).isObject x = true → (s'.snapshot u).isObject x = true) :
    s.due levels c t r = s'.due levels c u r := by
  have hr := hsame r (.start rfl)
  have hfront : (s.fronts levels c t).front r = (s'.fronts levels c u).front r := by
    refine Snapshot.spread_front_congr (b := Region.bounds levels c) (r := r) hdepth
      (hs.linked t) (hs'.linked u) hsame hback
      (fun _ _ => ⟨rfl, rfl⟩) (fun x hx => hs.isObject_of_mem_sources hx)
      (fun x hx => hs'.isObject_of_mem_sources hx) ?_
    refine filter_sources_congr (hs.pairwise_sources t) (hs'.pairwise_sources u)
      fun q l hq => ?_
    rw [hs.mem_sources_iff, hs'.mem_sources_iff, (hsame q hq).declared]
  rw [due, due, hr.isObject, hr.declared, Fronts.best, Fronts.best, hfront]

/-! ## The region of a commit -/

/-- The objects downstream of some others, within the allowed number of hops. -/
def Ball (s : Store) (c : SpreadConfig) (t : Instant) (dirty : KeySet Reference) :
    Reference → Prop :=
  Within ((s.snapshot t).next c true) (fun q => dirty.contains q = true) c.maxDepth

/-- Everything that a pass looks at: what is upstream of the ball. -/
def Looked (s : Store) (c : SpreadConfig) (t : Instant) (dirty : KeySet Reference) :
    Reference → Prop :=
  Within ((s.snapshot t).next c false) (s.Ball c t dirty) c.maxDepth

/-- What is found at an instant. -/
def finding (levels : LevelConfig) (c : SpreadConfig) (s : Store)
    (dirty watched : KeySet Reference) (t : Instant) : Pass.Finding :=
  let region := (Region.around levels c dirty).answer (s.snapshot t)
  let fresh := KeySet.diff region.reach watched
  let settled :=
    (Settle.settleAll levels.default region.inherited region.targets.toList).answer
    (s.snapshot t)
  ⟨fresh, if fresh.isEmpty then Table.empty else s.validTimesAfter t fresh.toList,
    settled.1, settled.2, region.isPartial⟩

/-- Finding succeeds. -/
theorem Sound.find_gives (hs : s.Sound) (levels : LevelConfig) (c : SpreadConfig)
    (dirty watched : KeySet Reference) :
    (Pass.find levels c dirty watched t).Gives s (s.finding levels c dirty watched t) := by
  obtain ⟨v, hshows, hrun⟩ := Survey.run_eq (Region.around levels c dirty)
    (hs.fresh_shows t)
  obtain ⟨v', -, hrun'⟩ := Survey.run_eq (Settle.settleAll levels.default
    ((Region.around levels c dirty).answer (s.snapshot t)).inherited
    ((Region.around levels c dirty).answer (s.snapshot t)).targets.toList) hshows
  refine hrun.bind ?_
  dsimp only
  simp only [finding]
  split
  · exact (Reading.gives_pure s _).bind (hrun'.bind (Reading.gives_pure s _))
  · exact (Reading.gives_ask _ s).bind (hrun'.bind (Reading.gives_pure s _))

theorem answer_declaredAmong (g : Snapshot) (rs : List Reference) :
    (Region.declaredAmong rs).answer g =
      rs.filterMap fun r => (g.declared r).map fun l => (r, l) := by
  induction rs with
  | nil => rfl
  | cons r rs ih =>
      rw [Region.declaredAmong, Survey.answer_bind, Survey.answer_declaredLevel]
      cases h : g.declared r with
      | none => simp only [ih, List.filterMap_cons, h, Option.map_none]
      | some l =>
          simp only [Survey.answer_bind, Survey.answer_pure, ih, List.filterMap_cons, h,
            Option.map_some]

/-- Inside of what is upstream of some objects, spreading brings them what it brings
    overall. -/
private theorem Sound.best_among (hs : s.Sound) (hdepth : 1 ≤ c.maxDepth)
    {search : KeySet Reference} {A : Reference → Prop}
    (hsearch : ∀ x, search.contains x = true ↔
      Within ((s.snapshot t).next c false) A c.maxDepth x)
    {r : Reference} (hr : A r) :
    Fronts.best (((s.snapshot t).flow c).spread (Region.bounds levels c) (some search)
      ((Region.declaredAmong search.toList).answer (s.snapshot t))) r =
      (s.fronts levels c t).best r := by
  -- the search holds all objects from which something may arrive at `r`
  have hup : ∀ x, s.Upstream c t r c.maxDepth x → search.contains x = true := by
    intro x hx
    refine (hsearch x).mpr (hx.imp fun q hq => ?_)
    rw [hq]
    exact hr
  have hmem : ∀ q l, (q, l) ∈ (Region.declaredAmong search.toList).answer (s.snapshot t) ↔
      search.contains q = true ∧ (s.snapshot t).declared q = some l := by
    intro q l
    rw [answer_declaredAmong, List.mem_filterMap]
    constructor
    · rintro ⟨x, hx, he⟩
      obtain ⟨m, hm, heq⟩ := Option.map_eq_some_iff.mp he
      obtain ⟨rfl, rfl⟩ := Prod.mk.inj heq
      exact ⟨(KeySet.mem_toList search).mp hx, hm⟩
    · rintro ⟨hq, hl⟩
      exact ⟨q, (KeySet.mem_toList search).mpr hq, by rw [hl]; rfl⟩
  have hasc : ((Region.declaredAmong search.toList).answer (s.snapshot t)).Pairwise
      fun x y => compare x.1 y.1 = .lt := by
    rw [answer_declaredAmong, List.pairwise_filterMap]
    refine (Table.pairwise_keys search).imp ?_
    intro a b hab x hx y hy
    obtain ⟨-, -, rfl⟩ := Option.map_eq_some_iff.mp hx
    obtain ⟨-, -, rfl⟩ := Option.map_eq_some_iff.mp hy
    exact hab
  have hfront : (((s.snapshot t).flow c).spread (Region.bounds levels c) (some search)
      ((Region.declaredAmong search.toList).answer (s.snapshot t))).front r =
      (s.fronts levels c t).front r := ?_
  · rw [Fronts.best, Fronts.best, hfront]
  have harea : ∀ x, s.Upstream c t r c.maxDepth x →
      Spread.Area.allows (some search) x = true ∧ Spread.Area.allows none x = true :=
    fun x hx => ⟨hup x hx, rfl⟩
  -- so the flow among them and the whole one agree at `r`
  refine Snapshot.spread_front_congr (b := Region.bounds levels c) (r := r) hdepth
    (hs.linked t)
    (hs.linked t) (fun x _ => .refl _ x) (fun _ _ _ _ _ _ h => h) harea ?_ ?_ ?_
  · intro x hx
    exact Snapshot.isObject_of_declared ((hmem x.1 x.2).mp hx).2
  · intro x hx
    exact hs.isObject_of_mem_sources hx
  · refine filter_sources_congr hasc (hs.pairwise_sources t) fun q l hq => ?_
    rw [hmem, hs.mem_sources_iff]
    constructor
    · exact And.right
    · intro hl
      exact ⟨hup q hq, hl⟩

/-- A region within the budget: the ball with what it is due, and all that is upstream
    of it. -/
theorem Sound.full_eq_some (hs : s.Sound) (hdepth : 1 ≤ c.maxDepth)
    {dirty : KeySet Reference} {region : Region}
    (h : (Region.full levels c dirty).answer (s.snapshot t) = some region) :
    (∀ r, region.targets.contains r = true ↔ s.Ball c t dirty r) ∧
      (∀ r, region.reach.contains r = true ↔ s.Looked c t dirty r) ∧
      ∀ r ∈ region.targets.toList, Settle.wanted levels.default region.inherited
        (s.snapshot t) r = s.due levels c t r := by
  rw [Region.full, Survey.answer_bind] at h
  split at h
  · cases h
  · next targets htargets =>
    rw [Survey.answer_bind] at h
    split at h
    · cases h
    · next search hsearch =>
      have ht := Closure.answer_closure htargets
      have hs' := Closure.answer_closure hsearch
      -- the targets are the ball, so what is searched from them is what is looked at
      have hlooked : ∀ r, search.contains r = true ↔ s.Looked c t dirty r := by
        intro r
        rw [hs' r]
        constructor
        · intro hw
          exact hw.imp fun q hq => (ht q).mp hq
        · intro hw
          exact hw.imp fun q hq => (ht q).mpr hq
      simp only [Survey.answer_bind, Spread.answer_relax, Survey.answer_pure,
        Option.some.injEq] at h
      subst h
      refine ⟨ht, hlooked, fun r hr => wanted_eq_due hr ?_⟩
      exact hs.best_among hdepth (A := s.Ball c t dirty) hlooked
        ((ht r).mp ((KeySet.mem_toList targets).mp hr))

/-- **What a pass finds within the budget.** It settles the ball to what is due, it
    looks at all that is upstream of the ball, and it asks for the later changes of what
    is new to it. -/
theorem Sound.settling_finding (hs : s.Sound) (hdepth : 1 ≤ c.maxDepth)
    {dirty watched : KeySet Reference}
    (h : (s.finding levels c dirty watched t).isPartial = false) :
    s.Settling levels c t (s.Ball c t dirty)
    (s.finding levels c dirty watched t).operations ∧
      ∀ x, (s.finding levels c dirty watched t).fresh.contains x = true ↔
        s.Looked c t dirty x ∧ watched.contains x = false := by
  have hsome : ∃ region, (Region.full levels c dirty).answer (s.snapshot t) = some region ∧
      (Region.around levels c dirty).answer (s.snapshot t) = region := by
    have hp : ((Region.around levels c dirty).answer (s.snapshot t)).isPartial = false := h
    rw [Region.around, Survey.answer_bind] at hp ⊢
    cases hf : (Region.full levels c dirty).answer (s.snapshot t) with
    | some region => exact ⟨region, rfl, rfl⟩
    | none =>
        -- one hop is always partial
        rw [hf] at hp
        simp only [Region.oneHop, Survey.answer_bind, Survey.answer_pure] at hp
        cases hp
  obtain ⟨region, hfull, haround⟩ := hsome
  obtain ⟨htargets, hreach, hwant⟩ := hs.full_eq_some hdepth hfull
  have hset := settling_of_wanted hwant
  simp only [finding, haround]
  refine ⟨⟨?_, ?_⟩, ?_⟩
  · intro k hk
    obtain ⟨r, hr, he⟩ := hset.profiles k hk
    exact ⟨r, (htargets r).mp ((KeySet.mem_toList _).mp hr), he⟩
  · intro r hr
    exact hset.leaves r ((KeySet.mem_toList _).mpr ((htargets r).mpr hr))
  · intro x
    rw [KeySet.contains_diff_iff, hreach]

/-- The later instants that a pass asks for. -/
theorem contains_later_iff {dirty watched : KeySet Reference} {v : Instant} :
    (s.finding levels c dirty watched t).later.contains v = true ↔
      ∃ x, (s.finding levels c dirty watched t).fresh.contains x = true ∧
        ∃ k ∈ s.keysAround x, ∃ w ∈ s.versionsOf k, w.validFrom = v ∧ t < v := by
  show Table.contains (if Table.isEmpty (s.finding levels c dirty watched t).fresh then
    (Table.empty : KeySet Instant) else s.validTimesAfter t
      (KeySet.toList (s.finding levels c dirty watched t).fresh)) v = true ↔ _
  split
  · next hempty =>
    rw [KeySet.isEmpty_iff] at hempty
    constructor
    · intro hc
      cases hc
    · rintro ⟨x, hx, -⟩
      rw [hempty x] at hx
      cases hx
  · rw [contains_validTimesAfter_iff]
    refine exists_congr fun x => and_congr_left fun _ => ?_
    rw [KeySet.mem_toList]

end Store

end ClearanceGraph
