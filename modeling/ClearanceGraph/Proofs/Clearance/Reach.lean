import ClearanceGraph.Proofs.Clearance.Closure
import ClearanceGraph.Proofs.Clearance.Load
import ClearanceGraph.Proofs.Clearance.Locality

/-! # Reach — the zones around an object

    Hops lead back: an object that exists gives to what takes from it
    (`Linked.mem_next_back`), so the zones of locality are the objects within a
    number of steps against the flow.

    `spread_front_congr` puts this together: two snapshots that are the same
    around everything upstream of an object leave the same front there. -/

namespace ClearanceGraph

/-! ## Hops lead back -/

namespace Hop

/-- An edge that is a step from one object to another is one back, asked the other way. -/
theorem ofEdge?_back {c : SpreadConfig} {r : Reference} {o : Bool} {e : EdgeKey} {h : Hop}
    (he : ofEdge? c r o e = some h) (hne : h.node ≠ r) :
    e.touches h.node = true ∧ ∃ h', ofEdge? c h.node (!o) e = some h' ∧ h'.node = r := by
  simp only [ofEdge?] at he
  split at he
  · next hc =>
    obtain rfl := Option.some.inj he
    obtain ⟨rfl, hcar⟩ := hc
    refine ⟨by simp [EdgeKey.touches],
      ⟨e.source, (c.passage e.relation).decay, (c.passage e.relation).cap o⟩, ?_, rfl⟩
    simp only [ofEdge?, Bool.not_not]
    rw [if_neg (fun hs => hne hs.1.symm), if_pos ⟨trivial, hcar⟩]
  · split at he
    · next hc =>
      obtain rfl := Option.some.inj he
      obtain ⟨rfl, hcar⟩ := hc
      refine ⟨by simp [EdgeKey.touches],
        ⟨e.target, (c.passage e.relation).decay, (c.passage e.relation).cap (!o)⟩, ?_, rfl⟩
      simp only [ofEdge?]
      rw [if_pos ⟨trivial, hcar⟩]
    · cases he

end Hop

namespace Snapshot

/-- Edges are noted at the objects they touch, and at both ends alike. -/
structure Linked (g : Snapshot) : Prop where
  touches : ∀ {e r}, e ∈ g.edges r → e.touches r = true
  shared : ∀ {e r q}, e ∈ g.edges r → e.touches q = true → e ∈ g.edges q

variable {g g' : Snapshot} {c : SpreadConfig} {o : Bool} {q r : Reference}

theorem mem_next_iff : q ∈ g.next c o r ↔
    (∃ e ∈ g.edges r, ∃ h, Hop.ofEdge? c r o e = some h ∧ h.node = q) ∧ q ≠ r ∧
      g.isObject q = true := by
  simp only [next, hops, List.mem_map, List.mem_filter, List.mem_filterMap,
    Bool.and_eq_true, decide_eq_true_eq]
  constructor
  · rintro ⟨h, ⟨⟨e, he, hh⟩, hne, hobj⟩, rfl⟩
    exact ⟨⟨e, he, h, hh, rfl⟩, hne, hobj⟩
  · rintro ⟨⟨e, he, h, hh, rfl⟩, hne, hobj⟩
    exact ⟨h, ⟨⟨e, he, hh⟩, hne, hobj⟩, rfl⟩

/-- **Hops lead back** to objects that exist. -/
theorem Linked.mem_next_back (hl : g.Linked) (hr : g.isObject r = true)
    (h : q ∈ g.next c o r) :
    r ∈ g.next c (!o) q := by
  obtain ⟨⟨e, he, h, hh, rfl⟩, hne, -⟩ := mem_next_iff.mp h
  obtain ⟨ht, h', hh', hnode⟩ := Hop.ofEdge?_back hh hne
  exact mem_next_iff.mpr ⟨⟨e, hl.shared he ht, h', hh', hnode⟩, Ne.symm hne, hr⟩

/-- What is upstream of an object that exists has it downstream. -/
theorem Linked.within_back (hl : g.Linked) (hr : g.isObject r = true) {n : Nat}
    (h : Within (g.next c (!o)) (· = r) n q) : Within (g.next c o) (· = q) n r := by
  induction h with
  | start he => exact .start he.symm
  | @step m x q hx hq ih =>
      -- the step before ended at an object, or at `r` itself
      have hxo : g.isObject x = true := by
        cases hx with
        | start he => exact he ▸ hr
        | step _ hx => exact isObject_of_mem_next hx
      have hback := hl.mem_next_back hxo hq
      rw [Bool.not_not] at hback
      exact .cons hback ih

/-! ## Snapshots that are the same around an object -/

/-- Two snapshots tell the same about an object, its declared level and its edges. -/
structure SameAt (g g' : Snapshot) (r : Reference) : Prop where
  isObject : g.isObject r = g'.isObject r
  declaration : g.declaration r = g'.declaration r
  edges : g.edges r = g'.edges r

namespace SameAt

theorem refl (g : Snapshot) (r : Reference) : g.SameAt g r := ⟨rfl, rfl, rfl⟩

theorem declared (h : g.SameAt g' r) : g.declared r = g'.declared r := by
  rw [Snapshot.declared, Snapshot.declared, h.isObject, h.declaration]

/-- A step towards an object around which nothing differs is also one in the other
    snapshot, if it starts at an object there. -/
theorem mem_next (h : g.SameAt g' q) (hl : g.Linked) (hl' : g'.Linked)
    (hq : q ∈ g.next c o r) : q ∈ g'.next c o r := by
  obtain ⟨⟨e, he, hop, hh, rfl⟩, hne, hobj⟩ := mem_next_iff.mp hq
  obtain ⟨ht, -⟩ := Hop.ofEdge?_back hh hne
  have heq : e ∈ g'.edges hop.node := h.edges ▸ hl.shared he ht
  exact mem_next_iff.mpr ⟨⟨e, hl'.shared heq (hl.touches he), hop, hh, rfl⟩, hne,
    h.isObject ▸ hobj⟩

end SameAt

open Spread (Bounds Area)
open scoped Classical

/-- Hops into a set of objects are the same where the edges and those objects are. -/
private theorem taking_filter_congr {Q : Reference → Prop} (hr : g.edges r = g'.edges r)
    (hQ : ∀ q, Q q → g.isObject q = g'.isObject q) :
    (g.taking c r).filter (fun h => Q h.node) = (g'.taking c r).filter fun h =>
      Q h.node := by
  simp only [taking, hops, hr, List.filter_filter]
  refine List.filter_congr fun h _ => ?_
  by_cases hq : Q h.node
  · rw [hQ _ hq]
  · simp [hq]

/-- **Locality of spreading.** Two snapshots leave the same front at an object if they
    are the same around everything upstream of it within the allowed number of hops, and
    no object upstream exists in the first one only. -/
theorem spread_front_congr {b : Bounds} {area area' : Area} (hdepth : 1 ≤ b.maxDepth)
    (hl : g.Linked) (hl' : g'.Linked)
    (hsame : ∀ x, Within (g'.next c false) (· = r) b.maxDepth x → g.SameAt g' x)
    (hback : ∀ n x y, n < b.maxDepth → Within (g'.next c false) (· = r) n y →
      y ∈ g.next c true x → g.isObject x = true → g'.isObject x = true)
    (harea : ∀ x, Within (g'.next c false) (· = r) b.maxDepth x →
      area.allows x = true ∧ area'.allows x = true)
    {sources sources' : List (Reference × Level)}
    (hobj : ∀ s ∈ sources, g.isObject s.1 = true)
    (hobj' : ∀ s ∈ sources', g'.isObject s.1 = true)
    (hsrc : (sources.filter fun s => Within (g'.next c false) (· = r) b.maxDepth s.1) =
      sources'.filter fun s => Within (g'.next c false) (· = r) b.maxDepth s.1) :
    ((g.flow c).spread b area sources).front r =
      ((g'.flow c).spread b area' sources').front r := by
  have hwide : ∀ {d x}, Within (g'.next c false) (· = r) (b.maxDepth - d) x →
      Within (g'.next c false) (· = r) b.maxDepth x := fun h => h.mono (Nat.sub_le _ _)
  have hzone : ∀ {d x y}, d < b.maxDepth →
      Within (g'.next c false) (· = r) (b.maxDepth - (d + 1)) y → x ∈ g'.next c false y →
      Within (g'.next c false) (· = r) (b.maxDepth - d) x := by
    intro d x y hd hy hx
    rw [show b.maxDepth - d = b.maxDepth - (d + 1) + 1 by omega]
    exact .step hy hx
  -- the zone of depth `d` is what the remaining hops reach against the flow
  refine Flow.spread_alike
    (Z := fun d x => Within (g'.next c false) (· = r) (b.maxDepth - d) x)
    hdepth ?_ (fun _ hz => (harea _ (hwide hz)).1) (fun _ hz => (harea _ (hwide hz)).2)
      hobj hobj'
    hsrc (.start rfl)
  -- a hop into a zone starts in the wider one: `hback` has it start at an object of the
  -- other snapshot, where it can be taken back
  refine ⟨?_, ?_, ?_, ?_, ?_⟩
  · intro d x hd hx
    exact hx.mono (by omega)
  · intro d x hd hx
    show g.declared x = none ↔ g'.declared x = none
    rw [(hsame x (hwide hx)).declared]
  · intro d x hd hx
    exact taking_filter_congr (hsame x (hwide hx)).edges fun q hq =>
      (hsame q (hwide hq)).isObject
  · intro d x h hd hx hh hz
    have hnext : h.node ∈ g.next c true x := List.mem_map.mpr ⟨h, hh, rfl⟩
    have hx' : g'.isObject x = true := hback _ x h.node (by omega) hz hnext hx
    have hnext' := (hsame _ (hwide hz)).mem_next hl hl' hnext
    exact hzone hd hz (hl'.mem_next_back hx' hnext')
  · intro d x h hd hx hh hz
    have hnext : h.node ∈ g'.next c true x := List.mem_map.mpr ⟨h, hh, rfl⟩
    exact hzone hd hz (hl'.mem_next_back hx hnext)

end Snapshot

end ClearanceGraph
