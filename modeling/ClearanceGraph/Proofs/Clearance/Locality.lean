import ClearanceGraph.Proofs.Clearance.Walk
import Mathlib.Logic.Basic

/-! # Locality — which part of a graph decides what an object inherits

    What an object inherits within a number of hops is decided by the objects
    upstream of it within that number: their declared levels, and their hops
    towards it.  This is not only so for levels but for the whole front with its
    order, on which ties between inheritances depend.

    The argument follows the rounds.  `Z d` is the zone in which arrivals of
    depth `d` matter, and zones narrow as depth grows.  A round on a flow and the
    same round on another flow, with other arrivals outside the zone in between,
    leave equal fronts in the zone and equal queues in the next zone
    (`offerAll_alike`). -/

namespace ClearanceGraph

namespace Flow

open Spread (Bounds Area arrivals)
open scoped Classical

variable {φ ψ : Flow} {b : Bounds} {area area' : Area} {depth d : Nat}
  {Z : Nat → Reference → Prop}

/-- Two flows are alike in narrowing zones: they have the same declared objects there
    and the same hops into the next zone, and no hop enters a zone from outside the zone
    before. -/
structure Alike (φ ψ : Flow) (depth : Nat) (Z : Nat → Reference → Prop) : Prop where
  narrows : ∀ {d r}, d < depth → Z (d + 1) r → Z d r
  declared : ∀ {d r}, d < depth → Z (d + 1) r → (φ.declared r = none ↔ ψ.declared r = none)
  taking : ∀ {d r}, d < depth → Z d r →
    (φ.taking r).filter (fun h => Z (d + 1) h.node) = (ψ.taking r).filter fun h =>
      Z (d + 1) h.node
  enters : ∀ {d r h}, d < depth → φ.isObject r = true → h ∈ φ.taking r →
    Z (d + 1) h.node → Z d r
  enters' : ∀ {d r h}, d < depth → ψ.isObject r = true → h ∈ ψ.taking r →
    Z (d + 1) h.node → Z d r

/-- The second of two flows that are alike is like itself. -/
theorem Alike.right (h : Alike φ ψ depth Z) : Alike ψ ψ depth Z where
  narrows := h.narrows
  declared _ _ := Iff.rfl
  taking _ _ := rfl
  enters := h.enters'
  enters' := h.enters'

/-- An area leaves the zones in which arrivals matter open. -/
def Open (area : Area) (depth : Nat) (Z : Nat → Reference → Prop) : Prop :=
  ∀ {d r}, d < depth → Z (d + 1) r → area.allows r = true

theorem isObject_of_mem_arrivals {p q s : Reference} {l : Level} {k : Nat}
    {e : Reference × Arrival} (h : e ∈ arrivals b area p s l k (φ.taking q)) :
    φ.isObject e.1 = true := by
  obtain ⟨h, hh, -, -, rfl⟩ := mem_arrivals_iff.mp h
  exact φ.isObject_of_mem_taking hh

/-- In an open zone, arrivals are those of the hops into it. -/
private theorem filter_arrivals {Q : Reference → Prop}
    (hopen : ∀ {r}, Q r → area.allows r = true) (p s : Reference) (l : Level) (k : Nat)
    (hs : List Hop) :
    (arrivals b area p s l k hs).filter (fun e => Q e.1) =
      arrivals b none p s l k (hs.filter fun h => Q h.node) := by
  induction hs with
  | nil => rfl
  | cons h hs ih =>
      simp only [arrivals] at ih ⊢
      by_cases hQ : Q h.node
      · have hallow := hopen hQ
        have hnone : Area.allows none h.node = true := rfl
        by_cases hl : b.default < h.carry l
        · simp [hQ, hallow, hnone, hl, ih]
        · simp [hQ, hl, ih]
      · by_cases hc : b.default < h.carry l ∧ area.allows h.node = true
        · simp [hQ, hc, ih]
        · simp [hQ, hc, ih]

/-- What an arrival in a zone sends on into the next zone is the same on both flows. -/
private theorem filter_sent (h : Alike φ ψ depth Z) (ho : Open area depth Z)
    (ho' : Open area' depth Z) (hd : d < depth) {e : Reference × Arrival} (he : Z d e.1) :
    (φ.sent b area e).filter (fun x => Z (d + 1) x.1) =
      (ψ.sent b area' e).filter fun x => Z (d + 1) x.1 := by
  rw [sent, sent, filter_arrivals (ho hd), filter_arrivals (ho' hd), h.taking hd he]

/-- What an arrival outside a zone sends on stays outside the next zone. -/
private theorem filter_sent_eq_nil (h : Alike φ ψ depth Z) (hd : d < depth)
    {e : Reference × Arrival} (hobj : φ.isObject e.1 = true) (he : ¬ Z d e.1) :
    (φ.sent b area e).filter (fun x => Z (d + 1) x.1) = [] := by
  refine List.filter_eq_nil_iff.mpr fun x hx hzx => ?_
  obtain ⟨hop, hh, -, -, rfl⟩ := mem_arrivals_iff.mp hx
  exact he (h.enters hd hobj hh (of_decide_eq_true hzx))

/-! ## Rounds -/

private theorem covers_congr {f f' : Fronts} {r : Reference} (h : f.front r = f'.front r)
    (a : Arrival) : f.Covers r a ↔ f'.Covers r a := by
  rw [Fronts.Covers, Fronts.Covers, h]

private theorem front_keep_congr {f f' : Fronts} {r q : Reference} {a : Arrival}
    (h : f.front q = f'.front q) : (f.keep r a).front q = (f'.keep r a).front q := by
  by_cases hq : q = r
  · subst hq
    rw [Fronts.front_keep_self, Fronts.front_keep_self, h]
  · rw [Fronts.front_keep_of_ne hq, Fronts.front_keep_of_ne hq, h]

/-- Arrivals outside the zone of a round do not matter to it. -/
private theorem offerAll_filter (h : Alike φ ψ depth Z) (ho : Open area depth Z)
    (ho' : Open area' depth Z) {goesOn : Bool} (hd : d < depth)
    (hgo : goesOn = true → d + 1 < depth) (as : List (Reference × Arrival)) :
    ∀ (f f' : Fronts) (next next' : List (Reference × Arrival)),
      (∀ e ∈ as, φ.isObject e.1 = true) → (∀ r, Z (d + 1) r → f.front r = f'.front r) →
      next.filter (fun e => Z (d + 2) e.1) = next'.filter (fun e => Z (d + 2) e.1) →
      (∀ r, Z (d + 1) r → (φ.offerAll b area goesOn as f next).1.front r =
        (ψ.offerAll b area' goesOn (as.filter fun e => Z (d + 1) e.1) f' next').1.front r) ∧
      (φ.offerAll b area goesOn as f next).2.filter (fun e => Z (d + 2) e.1) =
        (ψ.offerAll b area' goesOn (as.filter fun e => Z (d + 1) e.1) f' next').2.filter
          fun e => Z (d + 2) e.1 := by
  -- on the arrivals; outside the zone only the left side takes a step
  induction as with
  | nil =>
      intro f f' next next' _ hf hn
      exact ⟨hf, hn⟩
  | cons e rest ih =>
      intro f f' next next' hobj hf hn
      have hobj' : ∀ e ∈ rest, φ.isObject e.1 = true := fun x hx =>
        hobj x (List.mem_cons_of_mem _ hx)
      have he : φ.isObject e.1 = true := hobj e List.mem_cons_self
      by_cases hz : Z (d + 1) e.1
      · -- an arrival in the zone meets the same front on both sides
        rw [List.filter_cons_of_pos (by simpa using hz), offerAll, offerAll]
        have hskip : ((φ.declared e.1).isSome ∨ f.Covers e.1 e.2) ↔
            ((ψ.declared e.1).isSome ∨ f'.Covers e.1 e.2) := by
          rw [covers_congr (hf e.1 hz), ← Option.ne_none_iff_isSome,
            ← Option.ne_none_iff_isSome, ne_eq, ne_eq, h.declared hd hz]
        by_cases hs : (φ.declared e.1).isSome ∨ f.Covers e.1 e.2
        · rw [if_pos hs, if_pos (hskip.mp hs)]
          exact ih f f' next next' hobj' hf hn
        · rw [if_neg hs, if_neg (fun hc => hs (hskip.mpr hc))]
          refine ih _ _ _ _ hobj' (fun r hr => front_keep_congr (hf r hr)) ?_
          cases goesOn with
          | false => exact hn
          | true =>
              simp only [↓reduceIte, List.filter_append, hn]
              rw [filter_sent h ho ho' (hgo rfl) hz]
      · -- an arrival outside changes nothing inside
        rw [List.filter_cons_of_neg (by simpa using hz), offerAll]
        by_cases hs : (φ.declared e.1).isSome ∨ f.Covers e.1 e.2
        · rw [if_pos hs]
          exact ih f f' next next' hobj' hf hn
        · rw [if_neg hs]
          refine ih _ _ _ _ hobj' (fun r hr => ?_) ?_
          -- the front that changes lies outside, and so does what is sent on
          · have hne : r ≠ e.1 := fun heq => hz (heq ▸ hr)
            rw [Fronts.front_keep_of_ne hne, hf r hr]
          · cases goesOn with
            | false => exact hn
            | true =>
                simp only [↓reduceIte, List.filter_append, hn]
                rw [filter_sent_eq_nil h (hgo rfl) he hz, List.append_nil]

/-- **A round is local**: it depends on the arrivals in its zone only. -/
theorem offerAll_alike (h : Alike φ ψ depth Z) (ho : Open area depth Z)
    (ho' : Open area' depth Z) (goesOn : Bool) (hd : d < depth)
    (hgo : goesOn = true → d + 1 < depth) {as as' : List (Reference × Arrival)}
    {f f' : Fronts}
    (hobj : ∀ e ∈ as, φ.isObject e.1 = true) (hobj' : ∀ e ∈ as', ψ.isObject e.1 = true)
    (has : as.filter (fun e => Z (d + 1) e.1) = as'.filter fun e => Z (d + 1) e.1)
    (hf : ∀ r, Z (d + 1) r → f.front r = f'.front r) :
    (∀ r, Z (d + 1) r → (φ.offerAll b area goesOn as f []).1.front r =
      (ψ.offerAll b area' goesOn as' f' []).1.front r) ∧
    (φ.offerAll b area goesOn as f []).2.filter (fun e => Z (d + 2) e.1) =
      (ψ.offerAll b area' goesOn as' f' []).2.filter fun e => Z (d + 2) e.1 := by
  -- both sides are compared with the arrivals of the zone alone
  obtain ⟨hfront, hqueue⟩ := offerAll_filter (b := b) h ho ho' hd hgo as f f' []
    [] hobj hf rfl
  obtain ⟨hfront', hqueue'⟩ := offerAll_filter (b := b) h.right ho' ho' hd hgo
    as' f' f' [] [] hobj' (fun _ _ => rfl) rfl
  rw [has] at hfront hqueue
  exact ⟨fun r hr => (hfront r hr).trans (hfront' r hr).symm, hqueue.trans hqueue'.symm⟩

private theorem isObject_of_mem_queue {goesOn : Bool} {as : List (Reference × Arrival)}
    {f : Fronts}
    {e : Reference × Arrival} (he : e ∈ (φ.offerAll b area goesOn as f []).2) :
    φ.isObject e.1 = true := by
  rcases (round_offerAll as f []).queue he with hnil | ⟨x, -, -, hx⟩
  · cases hnil
  · exact isObject_of_mem_arrivals hx

private theorem rounds_alike (h : Alike φ ψ depth Z) (ho : Open area depth Z)
    (ho' : Open area' depth Z) (n : Nat) :
    ∀ {d : Nat} {as as' : List (Reference × Arrival)} {f f' : Fronts}, d + 1 + n = depth →
      (∀ e ∈ as, φ.isObject e.1 = true) → (∀ e ∈ as', ψ.isObject e.1 = true) →
      as.filter (fun e => Z (d + 1) e.1) = as'.filter (fun e => Z (d + 1) e.1) →
      (∀ r, Z (d + 1) r → f.front r = f'.front r) →
      ∀ r, Z depth r →
        (φ.rounds b area n as f).front r = (ψ.rounds b area' n as' f').front r := by
  -- on the rounds left: as many hops may still come, so the zone narrows to `Z depth`
  induction n with
  | zero =>
      intro d as as' f f' hn hobj hobj' has hf r hr
      obtain rfl : d + 1 = depth := hn
      exact (offerAll_alike h ho ho' false (Nat.lt_succ_self d) (fun hc => by cases hc)
        hobj hobj' has hf).1 r hr
  | succ n ih =>
      intro d as as' f f' hn hobj hobj' has hf r hr
      have hlt : d + 1 < depth := by omega
      obtain ⟨hfront, hqueue⟩ := offerAll_alike (b := b) h ho ho' true
        (Nat.lt_of_succ_lt hlt) (fun _ => hlt) hobj hobj' has hf
      refine ih (by omega) (fun e he => isObject_of_mem_queue he)
        (fun e he => isObject_of_mem_queue he) hqueue (fun q hq => ?_) r hr
      exact hfront q (h.narrows hlt hq)

/-- Arrivals of sources outside the first zone do not matter. -/
private theorem filter_launch (h : Alike φ ψ depth Z) (ho : Open area depth Z)
    (ho' : Open area' depth Z) (hd : 0 < depth) {sources : List (Reference × Level)}
    (hsrc : ∀ s ∈ sources, φ.isObject s.1 = true) :
    (φ.launch b area sources).filter (fun e => Z 1 e.1) =
      (ψ.launch b area' (sources.filter fun s => Z 0 s.1)).filter fun e => Z 1 e.1 := by
  induction sources with
  | nil => rfl
  | cons s rest ih =>
      have hih := ih fun x hx => hsrc x (List.mem_cons_of_mem _ hx)
      simp only [launch] at hih
      by_cases hz : Z 0 s.1
      · rw [List.filter_cons_of_pos (by simpa using hz)]
        simp only [launch, List.flatMap_cons, List.filter_append, hih]
        rw [filter_arrivals (ho hd), filter_arrivals (ho' hd), h.taking hd hz]
      · have hnil : (arrivals b area s.1 s.1 s.2 1 (φ.taking s.1)).filter
            (fun e => Z 1 e.1) = [] := by
          refine List.filter_eq_nil_iff.mpr fun x hx hzx => ?_
          obtain ⟨hop, hh, -, -, rfl⟩ := mem_arrivals_iff.mp hx
          exact hz (h.enters hd (hsrc s List.mem_cons_self) hh (of_decide_eq_true hzx))
        rw [List.filter_cons_of_neg (by simpa using hz)]
        simp only [launch, List.flatMap_cons, List.filter_append, hnil,
          List.nil_append, hih]

private theorem isObject_of_mem_launch {sources : List (Reference × Level)}
    {e : Reference × Arrival} (he : e ∈ φ.launch b area sources) :
      φ.isObject e.1 = true := by
  obtain ⟨s, -, he⟩ := List.mem_flatMap.mp he
  exact isObject_of_mem_arrivals he

/-- **Spreading is local**: flows that are alike in narrowing zones leave the same front
    in the last zone. -/
theorem spread_alike (hdepth : 1 ≤ b.maxDepth) (h : Alike φ ψ b.maxDepth Z)
    (ho : Open area b.maxDepth Z) (ho' : Open area' b.maxDepth Z)
    {sources sources' : List (Reference × Level)}
    (hobj : ∀ s ∈ sources, φ.isObject s.1 = true)
    (hobj' : ∀ s ∈ sources', ψ.isObject s.1 = true)
    (hsrc : sources.filter (fun s => Z 0 s.1) = sources'.filter fun s => Z 0 s.1)
    {r : Reference} (hr : Z b.maxDepth r) :
    (φ.spread b area sources).front r = (ψ.spread b area' sources').front r := by
  refine rounds_alike h ho ho' (b.maxDepth - 1) (d := 0) (by omega)
    (fun e he => isObject_of_mem_launch he) (fun e he => isObject_of_mem_launch he) ?_
    (fun _ _ => rfl) r hr
  rw [filter_launch h ho ho' hdepth hobj, filter_launch h.right ho' ho' hdepth hobj', hsrc]

end Flow

end ClearanceGraph
