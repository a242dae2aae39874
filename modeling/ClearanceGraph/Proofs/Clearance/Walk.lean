import ClearanceGraph.Clearance.Region
import ClearanceGraph.Proofs.Clearance.Flow

/-! # Walks — what spreading computes

    A level walks from a declared object over hops to objects without a declared
    level of their own, and each hop takes its decay off and caps the rest.
    Spreading keeps, at every object, the arrivals that no walk of at most the
    allowed number of hops beats: whatever is kept is realised by a walk
    (soundness), and whatever a walk brings is covered by something kept
    (completeness).  Since fronts hold no arrival that another one beats, the
    best level of an object comes with exactly one inheritance, of least depth
    (`Spreads.best_eq_some`, `Spreads.best_eq_none_iff`).

    The invariant carried from round to round is `Spreading`. -/

namespace ClearanceGraph

/-! ## Levels over a hop -/

namespace Level

theorem value_meet (a b : Level) : (a.meet b).value = min a.value b.value := by
  rw [meet]
  split
  · next h => exact (Nat.min_eq_left h).symm
  · next h => exact (Nat.min_eq_right (Nat.le_of_not_le h)).symm

end Level

namespace Hop

theorem value_carry (h : Hop) (l : Level) :
    (h.carry l).value = match h.cap with
      | none => l.value - h.decay
      | some c => min (l.value - h.decay) c.value := by
  rw [carry]
  cases h.cap with
  | none => rfl
  | some c => exact Level.value_meet _ c

/-- A hop never raises a level. -/
theorem carry_le (h : Hop) (l : Level) : h.carry l ≤ l := by
  rw [Level.le_iff, value_carry]
  cases h.cap with
  | none => exact Nat.sub_le _ _
  | some c => exact Nat.le_trans (Nat.min_le_left _ _) (Nat.sub_le _ _)

/-- A higher level stays at least as high over a hop. -/
theorem carry_mono (h : Hop) {l m : Level} (hlm : l ≤ m) : h.carry l ≤ h.carry m := by
  rw [Level.le_iff] at hlm ⊢
  rw [value_carry, value_carry]
  cases h.cap with
  | none => simp only; omega
  | some c => simp only; omega

end Hop

namespace Flow

open Spread (Bounds Area arrivals)

/-! ## Walks -/

/-- The level declared for `s` walks: after some hops, the last one from a parent, it
    arrives at an object without a declared level. -/
inductive Walk (φ : Flow) (s : Reference) : Reference → Reference → Nat → Level → Prop where
  /-- One hop from the declared object. -/
  | first {l : Level} {h : Hop} : φ.declared s = some l → h ∈ φ.taking s →
      φ.declared h.node = none → Walk φ s s h.node 1 (h.carry l)
  /-- One more hop. -/
  | next {p n : Reference} {k : Nat} {l : Level} {h : Hop} : Walk φ s p n k l →
      h ∈ φ.taking n → φ.declared h.node = none → Walk φ s n h.node (k + 1) (h.carry l)

variable {φ : Flow} {b : Bounds}

theorem Walk.pos {s p n : Reference} {k : Nat} {l : Level} (h : φ.Walk s p n k l) :
    0 < k := by
  cases h with
  | first => exact Nat.one_pos
  | next => exact Nat.succ_pos _

/-- An arrival is what a walk brings, above the default level. -/
def Realised (φ : Flow) (b : Bounds) (r : Reference) (a : Arrival) : Prop :=
  b.default < a.level ∧ φ.Walk a.source a.parent r a.depth a.level

theorem mem_arrivals_iff {area : Area} {p s : Reference} {l : Level} {k : Nat}
    {hs : List Hop} {e : Reference × Arrival} :
    e ∈ arrivals b area p s l k hs ↔
      ∃ h ∈ hs, b.default < h.carry l ∧ area.allows h.node = true ∧
        e = (h.node, ⟨h.carry l, k, p, s⟩) := by
  simp only [arrivals, List.mem_filterMap]
  refine exists_congr fun h => and_congr_right fun _ => ?_
  split
  · next hc =>
    rw [Option.some.injEq]
    constructor
    · intro he; exact ⟨hc.1, hc.2, he.symm⟩
    · intro he; exact he.2.2.symm
  · next hc =>
    constructor
    · intro he; cases he
    · intro he; exact absurd ⟨he.1, he.2.1⟩ hc

/-- What a realised arrival sends on is realised, wherever no level is declared. -/
theorem realised_of_mem_sent {area : Area} {r : Reference} {a : Arrival}
    {e : Reference × Arrival} (ha : φ.Realised b r a) (he : e ∈ φ.sent b area (r, a)) :
    e.2.depth = a.depth + 1 ∧ (φ.declared e.1 = none → φ.Realised b e.1 e.2) := by
  obtain ⟨h, hh, hlt, -, rfl⟩ := mem_arrivals_iff.mp he
  exact ⟨rfl, fun hnone => ⟨hlt, ha.2.next hh hnone⟩⟩

/-! ## The invariant of rounds -/

/-- Before the round of depth `d`: what waits and what is kept is realised, every walk
    of fewer hops is covered, and what a kept arrival sends on is covered or waits. -/
structure Spreading (φ : Flow) (b : Bounds) (sources : List (Reference × Level)) (d : Nat)
    (as : List (Reference × Arrival)) (f : Fronts) : Prop where
  waiting : ∀ e ∈ as, e.2.depth = d ∧ (φ.declared e.1 = none → φ.Realised b e.1 e.2)
  sound : ∀ {r a}, a ∈ f.front r → φ.declared r = none ∧ a.depth < d ∧ φ.Realised b r a
  launched : ∀ e ∈ φ.launch b none sources, φ.declared e.1 = none →
    e ∈ as ∨ f.Covers e.1 e.2
  sent : ∀ {r a}, a ∈ f.front r → ∀ e ∈ φ.sent b none (r, a), φ.declared e.1 = none →
    e ∈ as ∨ f.Covers e.1 e.2
  complete : ∀ {s p n k l}, φ.Walk s p n k l → k < d → b.default < l →
    f.Covers n ⟨l, k, p, s⟩
  antichain : ∀ r, (f.front r).Pairwise fun x y => ¬ x.dominatedBy y ∧ ¬ y.dominatedBy x

variable {sources : List (Reference × Level)}

/-- A walk of exactly `d` hops is covered once all that waits before round `d` is. -/
private theorem covers_of_walk
    (hsrc : ∀ r l, (r, l) ∈ sources ↔ φ.declared r = some l) {d : Nat}
    {as : List (Reference × Arrival)} {f f' : Fronts} (hinv : Spreading φ b sources d as f)
    (hmono : ∀ {r a}, f.Covers r a → f'.Covers r a)
    (hoff : ∀ {r a}, (r, a) ∈ as → φ.declared r = none → f'.Covers r a)
    {s p n : Reference} {l : Level} (hw : φ.Walk s p n d l) (hl : b.default < l) :
    f'.Covers n ⟨l, d, p, s⟩ := by
  cases hw with
  | @first m h hdecl hh hnone =>
      have he : (h.node, (⟨h.carry m, 1, s, s⟩ : Arrival)) ∈ φ.launch b none sources :=
        List.mem_flatMap.mpr
          ⟨(s, m), (hsrc s m).mpr hdecl, mem_arrivals_iff.mpr ⟨h, hh, hl, rfl, rfl⟩⟩
      rcases hinv.launched _ he hnone with has | hcov
      · exact hoff has hnone
      · exact hmono hcov
  | @next q _ k m h hw' hh hnone =>
      -- the walk without its last hop is covered, and the arrival that covers it was
      -- sent on
      have hlm : b.default < m := Nat.lt_of_lt_of_le hl (h.carry_le m)
      obtain ⟨a, ha, hdom⟩ := hinv.complete hw' (Nat.lt_succ_self k) hlm
      obtain ⟨hdepth, hlevel⟩ := Arrival.dominatedBy_iff.mp hdom
      have hcarry : h.carry m ≤ h.carry a.level := h.carry_mono hlevel
      have he : (h.node, (⟨h.carry a.level, a.depth + 1, p, a.source⟩ : Arrival)) ∈
          φ.sent b none (p, a) :=
        mem_arrivals_iff.mpr ⟨h, hh, Nat.lt_of_lt_of_le hl hcarry, rfl, rfl⟩
      have hcov : f'.Covers h.node ⟨h.carry a.level, a.depth + 1, p, a.source⟩ := by
        rcases hinv.sent ha _ he hnone with has | hcov
        · exact hoff has hnone
        · exact hmono hcov
      obtain ⟨x, hx, hdx⟩ := hcov
      refine ⟨x, hx, Arrival.dominatedBy_trans (Arrival.dominatedBy_iff.mpr ⟨?_, hcarry⟩)
        hdx⟩
      exact Nat.succ_le_succ hdepth

/-- A round takes the invariant one hop further. -/
theorem Spreading.round (hsrc : ∀ r l, (r, l) ∈ sources ↔ φ.declared r = some l) {d : Nat}
    {as : List (Reference × Arrival)} {f : Fronts} (hinv : Spreading φ b sources d as f) :
    Spreading φ b sources (d + 1) (φ.offerAll b none true as f []).2
      (φ.offerAll b none true as f []).1 := by
  have hr : Round φ b none true as f [] _ _ := round_offerAll as f []
  refine ⟨?_, ?_, ?_, ?_, ?_, hr.antichain hinv.antichain⟩
  · intro e he
    rcases hr.queue he with hnil | ⟨⟨q, x⟩, hq, hnone, he⟩
    · cases hnil
    · obtain ⟨hdepth, hreal⟩ := hinv.waiting _ hq
      obtain ⟨hd', hreal'⟩ := realised_of_mem_sent (hreal hnone) he
      exact ⟨hd'.trans (congrArg (· + 1) hdepth), hreal'⟩
  · intro r a ha
    rcases hr.kept ha with ha | ⟨hmem, hnone⟩
    · obtain ⟨hnone, hlt, hreal⟩ := hinv.sound ha
      exact ⟨hnone, Nat.lt_succ_of_lt hlt, hreal⟩
    · obtain ⟨hdepth, hreal⟩ := hinv.waiting _ hmem
      exact ⟨hnone, Nat.lt_succ_of_le (Nat.le_of_eq hdepth), hreal hnone⟩
  · intro e he hnone
    rcases hinv.launched e he hnone with has | hcov
    · exact .inr (hr.covers_offered has hnone)
    · exact .inr (hr.covers_mono hcov)
  · intro r a ha e he hnone
    rcases hr.sends ha with hold | hnew
    · rcases hinv.sent hold e he hnone with has | hcov
      · exact .inr (hr.covers_offered has hnone)
      · exact .inr (hr.covers_mono hcov)
    · exact .inl (hnew rfl e he)
  · intro s p n k l hw hk hl
    by_cases hkd : k < d
    · exact hr.covers_mono (hinv.complete hw hkd hl)
    -- a walk of exactly so many hops arrives in this round
    · obtain rfl : k = d := Nat.le_antisymm (Nat.le_of_lt_succ hk) (Nat.le_of_not_lt hkd)
      exact covers_of_walk hsrc hinv hr.covers_mono hr.covers_offered hw hl

/-- What spreading leaves: exactly the arrivals that no walk of at most `D` hops beats. -/
structure Spreads (φ : Flow) (b : Bounds) (D : Nat) (f : Fronts) : Prop where
  sound : ∀ {r a}, a ∈ f.front r → φ.declared r = none ∧ a.depth ≤ D ∧ φ.Realised b r a
  complete : ∀ {s p n k l}, φ.Walk s p n k l → k ≤ D → b.default < l →
    f.Covers n ⟨l, k, p, s⟩
  antichain : ∀ r, (f.front r).Pairwise fun x y => ¬ x.dominatedBy y ∧ ¬ y.dominatedBy x

private theorem spreads_rounds (hsrc : ∀ r l, (r, l) ∈ sources ↔ φ.declared r = some l)
    (n : Nat) :
    ∀ {d : Nat} {as : List (Reference × Arrival)} {f : Fronts},
      Spreading φ b sources d as f →
      Spreads φ b (d + n) (φ.rounds b none n as f) := by
  -- on the rounds left; the invariant is `Spreading`, and the last round only keeps
  induction n with
  | zero =>
      intro d as f hinv
      have hr : Round φ b none false as f [] _ _ := round_offerAll as f []
      refine ⟨?_, ?_, hr.antichain hinv.antichain⟩
      · intro r a ha
        rcases hr.kept ha with ha | ⟨hmem, hnone⟩
        · obtain ⟨hnone, hlt, hreal⟩ := hinv.sound ha
          exact ⟨hnone, Nat.le_of_lt hlt, hreal⟩
        · obtain ⟨hdepth, hreal⟩ := hinv.waiting _ hmem
          exact ⟨hnone, Nat.le_of_eq hdepth, hreal hnone⟩
      · intro s p n k l hw hk hl
        by_cases hkd : k < d
        · exact hr.covers_mono (hinv.complete hw hkd hl)
        · obtain rfl : k = d := Nat.le_antisymm hk (Nat.le_of_not_lt hkd)
          exact covers_of_walk hsrc hinv hr.covers_mono hr.covers_offered hw hl
  | succ n ih =>
      intro d as f hinv
      have h := ih (hinv.round hsrc)
      rwa [show d + 1 + n = d + (n + 1) by omega] at h

private theorem spreading_launch (hsrc : ∀ r l, (r, l) ∈ sources ↔ φ.declared r = some l) :
    Spreading φ b sources 1 (φ.launch b none sources) Table.empty where
  waiting := by
    intro e he
    obtain ⟨⟨s, l⟩, hs, he⟩ := List.mem_flatMap.mp he
    obtain ⟨h, hh, hlt, -, rfl⟩ := mem_arrivals_iff.mp he
    exact ⟨rfl, fun hnone => ⟨hlt, .first ((hsrc s l).mp hs) hh hnone⟩⟩
  sound := by intro r a ha; cases ha
  launched := fun _ he _ => .inl he
  sent := by intro r a ha; cases ha
  complete := by
    intro s p n k l hw hk _
    exact absurd hw.pos (by omega)
  antichain := fun _ => .nil

/-- **Spreading is exact**: it keeps what walks bring and covers all that walks bring.
    The first hop is always taken. -/
theorem spreads_spread_max (hsrc : ∀ r l, (r, l) ∈ sources ↔ φ.declared r = some l) :
    Spreads φ b (max b.maxDepth 1) (φ.spread b none sources) := by
  have h := spreads_rounds (b := b) hsrc (b.maxDepth - 1) (spreading_launch hsrc)
  rwa [show 1 + (b.maxDepth - 1) = max b.maxDepth 1 by omega] at h

theorem spreads_spread (hdepth : 1 ≤ b.maxDepth)
    (hsrc : ∀ r l, (r, l) ∈ sources ↔ φ.declared r = some l) :
    Spreads φ b b.maxDepth (φ.spread b none sources) := by
  have h := spreads_spread_max (b := b) hsrc
  rwa [Nat.max_eq_left hdepth] at h

/-! ## The best level of an object -/

/-- A walk arrives above the default level within the allowed number of hops. -/
def Inherits (φ : Flow) (b : Bounds) (n : Reference) (i : Inheritance) : Prop :=
  φ.Walk i.source i.parent n i.depth i.level ∧ i.depth ≤ b.maxDepth ∧ b.default < i.level

/-- No walk brings a higher level, nor as high a level in fewer hops. -/
def Best (φ : Flow) (b : Bounds) (n : Reference) (i : Inheritance) : Prop :=
  φ.Inherits b n i ∧ ∀ j, φ.Inherits b n j → j.level ≤ i.level ∧
    (j.level = i.level → i.depth ≤ j.depth)

/-- Without a walk above the default level nothing is inherited. -/
theorem Spreads.best_eq_none_iff {f : Fronts} (h : Spreads φ b b.maxDepth f)
    {n : Reference} :
    f.best n = none ↔ ∀ i, ¬ φ.Inherits b n i := by
  rw [Fronts.best_eq_none_iff]
  constructor
  · rintro hnil ⟨p, s, l, k⟩ ⟨hw, hk, hl⟩
    obtain ⟨a, ha, -⟩ := h.complete hw hk hl
    rw [hnil] at ha
    cases ha
  · intro hno
    refine List.eq_nil_iff_forall_not_mem.mpr fun a ha => ?_
    obtain ⟨-, hdepth, hlt, hw⟩ := h.sound ha
    exact hno a.toInheritance ⟨hw, hdepth, hlt⟩

/-- **The best level of an object comes with one inheritance**: one of the highest level
    and, among those, of the fewest hops. -/
theorem Spreads.best_eq_some {f : Fronts} (h : Spreads φ b b.maxDepth f)
    {n : Reference} {l : Level}
    {is : List Inheritance} (hbest : f.best n = some (l, is)) :
    ∃ i, is = [i] ∧ i.level = l ∧ φ.Best b n i := by
  obtain ⟨a, ha, rfl, rfl, hmax⟩ := Fronts.exists_of_best_eq_some (h.antichain n) hbest
  obtain ⟨-, hdepth, hlt, hw⟩ := h.sound ha
  refine ⟨a.toInheritance, rfl, rfl, ⟨hw, hdepth, hlt⟩, ?_⟩
  rintro ⟨p, s, l, k⟩ ⟨hw', hk, hl⟩
  exact hmax ⟨l, k, p, s⟩ (h.complete hw' hk hl)

end Flow

end ClearanceGraph
