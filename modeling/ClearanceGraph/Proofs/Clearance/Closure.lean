import ClearanceGraph.Clearance.Closure
import ClearanceGraph.Proofs.Clearance.Snapshot
import ClearanceGraph.Proofs.Order.Table
import Mathlib.Data.Set.Card

/-! # Closures — bounded search is exact

    `Within next A n` holds of the objects that at most `n` steps lead to from
    the objects of `A`.  A closure meets them level by level; the invariant of
    levels is `Reached`.  A search that gives up holds more objects than its
    budget, and only such as the steps lead to (`Exceeds`); so it gives up
    exactly if there are too many of them, wherever in a level it stops
    (`closure_exact`). -/

namespace ClearanceGraph

/-! ## Steps -/

/-- The objects that at most so many steps lead to. -/
inductive Within (next : Reference → List Reference) (A : Reference → Prop) :
    Nat → Reference → Prop where
  | start {n : Nat} {r : Reference} : A r → Within next A n r
  | step {n : Nat} {q r : Reference} : Within next A n q → r ∈ next q →
      Within next A (n + 1) r

namespace Within

variable {next next' : Reference → List Reference} {A B : Reference → Prop} {m n : Nat}
  {q r : Reference}

theorem zero_iff : Within next A 0 r ↔ A r := by
  constructor
  · intro h
    cases h with
    | start ha => exact ha
  · exact .start

/-- What is within some hops is within more. -/
theorem mono (h : Within next A m r) (hmn : m ≤ n) : Within next A n r := by
  induction h generalizing n with
  | start ha => exact .start ha
  | step _ hr ih =>
      cases n with
      | zero => exact absurd hmn (Nat.not_succ_le_zero _)
      | succ n => exact .step (ih (Nat.le_of_succ_le_succ hmn)) hr

theorem imp (h : Within next A n r) (hab : ∀ r, A r → B r) : Within next B n r := by
  induction h with
  | start ha => exact .start (hab _ ha)
  | step _ hr ih => exact .step ih hr

/-- Steps from where steps lead to. -/
theorem trans (hr : Within next (· = q) n r) (hq : Within next A m q) :
    Within next A (m + n) r := by
  induction hr with
  | start he => exact he ▸ hq.mono (Nat.le_add_right _ _)
  | step _ hr ih => exact .step ih hr

/-- One step more at the beginning. -/
theorem cons {x : Reference} (hx : q ∈ next x) (hr : Within next (· = q) n r) :
    Within next (· = x) (n + 1) r := by
  have h := hr.trans (.step (.start rfl) hx : Within next (· = x) 1 q)
  rwa [Nat.add_comm] at h

end Within

/-! ## Closures -/

namespace Snapshot

/-- The existing neighbours of an object along the flow of levels, or against it. -/
def next (g : Snapshot) (c : SpreadConfig) (outgoing : Bool) (r : Reference) :
    List Reference :=
  (g.hops c outgoing r).map (·.node)

/-- Hops lead to objects. -/
theorem isObject_of_mem_next {g : Snapshot} {c : SpreadConfig} {o : Bool} {q r : Reference}
    (h : r ∈ g.next c o q) : g.isObject r = true := by
  obtain ⟨h, hh, rfl⟩ := List.mem_map.mp h
  exact (Bool.and_eq_true _ _ ▸ (List.mem_filter.mp hh).2).2

end Snapshot

/-- The size of a set is the number of its members. -/
theorem KeySet.encard_members (s : KeySet Reference) :
    {r | s.contains r = true}.encard = s.size := by
  have hset : {r | s.contains r = true} = (s.toList.toFinset : Set Reference) := by
    ext r
    rw [Finset.mem_coe, List.mem_toFinset, KeySet.mem_toList, Set.mem_ofPred_eq]
  have hlength : s.toList.length = s.size := List.length_map _
  have hnodup : s.toList.Nodup := s.nodup_keys
  rw [hset, Set.encard_coe_eq_coe_finsetCard, List.toFinset_card_of_nodup hnodup, hlength]

namespace Closure

variable {budget : Nat}

/-! ### What is met -/

/-- Some objects are met: what is new among them comes next. -/
structure Meets (P : Reference → Prop) (seen : KeySet Reference) (next : List Reference)
    (seen' : KeySet Reference) (next' : List Reference) : Prop where
  contains_iff : ∀ x, seen'.contains x = true ↔ seen.contains x = true ∨ P x
  queued : ∀ x ∈ next, x ∈ next'
  met : ∀ x ∈ next', x ∈ next ∨ seen'.contains x = true
  fresh : ∀ x, seen'.contains x = true → seen.contains x = true ∨ x ∈ next'

namespace Meets

variable {P Q R : Reference → Prop} {seen seen₁ seen' : KeySet Reference}
  {next next₁ next' : List Reference} {r : Reference}

/-- Meeting nothing changes nothing. -/
theorem nothing (hP : ∀ x, ¬ P x) : Meets P seen next seen next where
  contains_iff x := (or_iff_left (hP x)).symm
  queued _ hx := hx
  met _ hx := .inl hx
  fresh _ hx := .inl hx

/-- Nor does meeting what was seen. -/
theorem again (hr : seen.contains r = true) : Meets (· = r) seen next seen next where
  contains_iff x := by
    refine (or_iff_left_of_imp ?_).symm
    rintro rfl
    exact hr
  queued _ hx := hx
  met _ hx := .inl hx
  fresh _ hx := .inl hx

/-- What was not seen is seen now, and comes next. -/
theorem one (r : Reference) : Meets (· = r) seen next (seen.add r) (next ++ [r]) where
  contains_iff x := by rw [KeySet.contains_add_iff, or_comm]
  queued x hx := List.mem_append_left _ hx
  met x hx := by
    rw [List.mem_append, List.mem_singleton] at hx
    rw [KeySet.contains_add_iff]
    exact hx.imp_right .inl
  fresh x hx := by
    rw [KeySet.contains_add_iff, or_comm] at hx
    rw [List.mem_append, List.mem_singleton]
    exact hx.imp_right .inr

/-- Meetings add up. -/
theorem trans (h : Meets P seen next seen₁ next₁) (h' : Meets Q seen₁ next₁ seen' next')
    (hR : ∀ x, R x ↔ P x ∨ Q x) : Meets R seen next seen' next' where
  contains_iff x := by rw [h'.contains_iff, h.contains_iff, hR, or_assoc]
  queued x hx := h'.queued x (h.queued x hx)
  met x hx := by
    rcases h'.met x hx with hx | hx
    · exact (h.met x hx).imp_right fun hs => (h'.contains_iff x).mpr (.inl hs)
    · exact .inr hx
  fresh x hx := by
    rcases h'.fresh x hx with hx | hx
    · exact (h.fresh x hx).imp_right (h'.queued x)
    · exact .inr hx

end Meets

/-- More objects with a property than the budget allows. -/
def Exceeds (budget : Nat) (P : Reference → Prop) : Prop :=
  ∃ seen : KeySet Reference, budget < seen.size ∧ ∀ x, seen.contains x = true → P x

/-- More is over the budget too. -/
theorem Exceeds.imp {P Q : Reference → Prop} (h : Exceeds budget P) (hPQ : ∀ x, P x → Q x) :
    Exceeds budget Q := by
  obtain ⟨seen, hsize, hP⟩ := h
  exact ⟨seen, hsize, fun x hx => hPQ x (hP x hx)⟩

/-- What is over the budget has more objects than the budget allows. -/
theorem Exceeds.lt_encard {P : Reference → Prop} (h : Exceeds budget P) :
    (budget : ℕ∞) < {x | P x}.encard := by
  obtain ⟨seen, hsize, hP⟩ := h
  calc (budget : ℕ∞) < seen.size := Nat.cast_lt.mpr hsize
    _ = {x | seen.contains x = true}.encard := seen.encard_members.symm
    _ ≤ {x | P x}.encard := Set.encard_le_encard hP

/-- What a search for some objects comes to: it meets them, or it gives up over too
    many. -/
def Searches (budget : Nat) (P : Reference → Prop) (seen : KeySet Reference)
    (next : List Reference) : Option State → Prop
  | some s => Meets P seen next s.1 s.2
  | none => Exceeds budget fun x => seen.contains x = true ∨ P x

/-- A search goes on where some objects were met. -/
theorem Meets.searches {P Q R : Reference → Prop} {seen seen₁ : KeySet Reference}
    {next next₁ : List Reference} {res : Option State} (h : Meets P seen next seen₁ next₁)
    (h' : Searches budget Q seen₁ next₁ res) (hR : ∀ x, R x ↔ P x ∨ Q x) :
    Searches budget R seen next res := by
  cases res with
  | some s => exact h.trans h' hR
  | none =>
      refine Exceeds.imp h' fun x hx => ?_
      rw [hR]
      rcases hx with hx | hx
      · exact ((h.contains_iff x).mp hx).imp_right .inl
      · exact .inr (.inr hx)

/-- Meeting the neighbours of one object. -/
private theorem searches_meet (hs : List Hop) : ∀ (seen : KeySet Reference)
    (next : List Reference),
      Searches budget (· ∈ hs.map (·.node)) seen next (meet budget hs (seen, next)) := by
  induction hs with
  | nil =>
      intro seen next
      refine Meets.nothing fun x hx => ?_
      cases hx
  | cons e hs ih =>
      intro seen next
      have hcons : ∀ x, x ∈ (e :: hs).map (·.node) ↔ x = e.node ∨ x ∈ hs.map (·.node) := by
        intro x
        rw [List.map_cons, List.mem_cons]
      rw [meet]
      split
      · next hc => exact (Meets.again hc).searches (ih seen next) hcons
      · dsimp only
        split
        · -- the search stops here, with the objects met so far
          next hsize =>
          refine ⟨seen.add e.node, hsize, ?_⟩
          intro x hx
          rw [KeySet.contains_add_iff, or_comm] at hx
          exact hx.imp_right fun he => (hcons x).mpr (.inl he)
        · exact (Meets.one e.node).searches (ih _ _) hcons

variable {g : Snapshot} {c : SpreadConfig} {o : Bool}

/-- Meeting the neighbours of a level, object by object. -/
private theorem searches_level (rs : List Reference) : ∀ (seen : KeySet Reference)
    (next : List Reference), Searches budget (fun x => ∃ r ∈ rs, x ∈ g.next c o r) seen next
      ((level c o budget rs (seen, next)).answer g) := by
  induction rs with
  | nil =>
      intro seen next
      refine Meets.nothing ?_
      rintro x ⟨r, hr, -⟩
      cases hr
  | cons r rs ih =>
      intro seen next
      have hcons : ∀ x, (∃ q ∈ r :: rs, x ∈ g.next c o q) ↔
          x ∈ g.next c o r ∨ ∃ q ∈ rs, x ∈ g.next c o q := by
        intro x
        simp only [List.mem_cons, exists_eq_or_imp]
      have hmeet : Searches budget (· ∈ g.next c o r) seen next
          (meet budget (g.hops c o r) (seen, next)) := searches_meet _ seen next
      rw [level, Survey.answer_bind, Survey.answer_hops]
      -- the budget runs out at the first object, or the others go on with what is left
      split
      · next hnone =>
        rw [hnone] at hmeet
        exact Exceeds.imp hmeet fun x hx => hx.imp_right fun hr => (hcons x).mpr (.inl hr)
      · next st hsome =>
        rw [hsome] at hmeet
        exact Meets.searches hmeet (ih _ _) hcons

/-! ### Levels -/

/-- Everything within so many steps was met. What was met before the last level has had
    its neighbours met as well. -/
structure Reached (g : Snapshot) (c : SpreadConfig) (o : Bool) (A : Reference → Prop)
    (i : Nat) (frontier : List Reference) (seen : KeySet Reference) : Prop where
  seen_iff : ∀ x, seen.contains x = true ↔ Within (g.next c o) A i x
  frontier_seen : ∀ x ∈ frontier, seen.contains x = true
  closed : ∀ x, seen.contains x = true →
    x ∈ frontier ∨ ∀ y ∈ g.next c o x, seen.contains y = true

namespace Reached

variable {A : Reference → Prop} {i : Nat} {frontier next : List Reference}
  {seen seen' : KeySet Reference}

/-- A level more is a step more. -/
theorem level (h : Reached g c o A i frontier seen)
    (hm : Meets (fun x => ∃ r ∈ frontier, x ∈ g.next c o r) seen [] seen' next) :
    Reached g c o A (i + 1) next seen' where
  seen_iff y := by
    rw [hm.contains_iff]
    constructor
    · rintro (hy | ⟨q, hq, hy⟩)
      · exact ((h.seen_iff y).mp hy).mono (Nat.le_succ i)
      · exact .step ((h.seen_iff q).mp (h.frontier_seen q hq)) hy
    · intro hw
      cases hw with
      | start ha => exact .inl ((h.seen_iff y).mpr (.start ha))
      | @step _ q _ hq hy =>
          rcases h.closed q ((h.seen_iff q).mpr hq) with hqf | hqd
          · exact .inr ⟨q, hqf, hy⟩
          · exact .inl (hqd y hy)
  frontier_seen y hy := by
    rcases hm.met y hy with hnil | hs
    · cases hnil
    · exact hs
  -- what was met before is expanded by now, and what is new is the next frontier
  closed y hy := by
    rcases hm.fresh y hy with hold | hnew
    · refine .inr fun z hz => (hm.contains_iff z).mpr ?_
      rcases h.closed y hold with hyf | hyd
      · exact .inr ⟨y, hyf, hz⟩
      · exact .inl (hyd z hz)
    · exact .inl hnew

/-- Once nothing new was met, everything was. -/
theorem contains_of_within (h : Reached g c o A i [] seen) {m : Nat} {x : Reference}
    (hx : Within (g.next c o) A m x) : seen.contains x = true := by
  induction hx with
  | start ha => exact (h.seen_iff _).mpr (.start ha)
  | @step _ q y _ hy ih =>
      rcases h.closed q ih with hq | hq
      · cases hq
      · exact hq y hy

end Reached

/-- What a search within some steps comes to: what they lead to, or too many objects. -/
def Finds (g : Snapshot) (c : SpreadConfig) (o : Bool) (budget : Nat) (A : Reference → Prop)
    (n : Nat) : Option (KeySet Reference) → Prop
  | some seen => ∀ x, seen.contains x = true ↔ Within (g.next c o) A n x
  | none => Exceeds budget (Within (g.next c o) A n)

/-- Level by level a search comes to what is within so many hops. -/
private theorem finds_levels {A : Reference → Prop} (n : Nat) :
    ∀ {i : Nat} {frontier : List Reference} {seen : KeySet Reference},
      Reached g c o A i frontier seen →
      Finds g c o budget A (i + n) ((levels c o budget n frontier seen).answer g) := by
  induction n with
  | zero =>
      intro i frontier seen hreached
      exact hreached.seen_iff
  | succ n ih =>
      intro i frontier seen hreached
      rw [levels]
      split
      · next hempty =>
        -- nothing new was met: what was met is closed under steps
        obtain rfl : frontier = [] := List.isEmpty_iff.mp hempty
        intro x
        constructor
        · intro hx
          exact ((hreached.seen_iff x).mp hx).mono (Nat.le_add_right _ _)
        · intro hw
          exact hreached.contains_of_within hw
      · have hlevel : Searches budget (fun x => ∃ r ∈ frontier, x ∈ g.next c o r) seen []
            ((level c o budget frontier (seen, [])).answer g) :=
              searches_level frontier seen []
        rw [Survey.answer_bind]
        split
        · next hnone =>
          rw [hnone] at hlevel
          refine Exceeds.imp hlevel fun x hx => ?_
          rcases hx with hx | ⟨r, hr, hx⟩
          · exact ((hreached.seen_iff x).mp hx).mono (Nat.le_add_right _ _)
          · have hw := (hreached.seen_iff r).mp (hreached.frontier_seen r hr)
            exact (Within.step hw hx).mono (by omega)
        · next seen₁ next₁ hsome =>
          rw [hsome] at hlevel
          have hres := ih (hreached.level hlevel)
          rwa [show i + 1 + n = i + (n + 1) by omega] at hres

variable {start seen : KeySet Reference}

/-- With no hop a search has come to its start. -/
private theorem reached_start (g : Snapshot) (c : SpreadConfig) (o : Bool)
    (start : KeySet Reference) :
    Reached g c o (fun r => start.contains r = true) 0 start.toList start where
  seen_iff x := by rw [Within.zero_iff]
  frontier_seen x hx := (KeySet.mem_toList start).mp hx
  closed x hx := .inl ((KeySet.mem_toList start).mpr hx)

/-- A closure finds what so many steps lead to, and no more than its budget. -/
private theorem finds_closure (g : Snapshot) (c : SpreadConfig) (o : Bool)
    (start : KeySet Reference) :
    Finds g c o c.nodeBudget (fun r => start.contains r = true) c.maxDepth
        ((closure c o start).answer g) ∧
      ∀ seen, (closure c o start).answer g = some seen → seen.size ≤ c.nodeBudget := by
  have hfinds : Finds g c o c.nodeBudget (fun r => start.contains r = true) (0 + c.maxDepth)
      ((levels c o c.nodeBudget c.maxDepth start.toList start).answer g) :=
    finds_levels c.maxDepth (reached_start g c o start)
  -- the search proper starts at depth zero
  rw [Nat.zero_add] at hfinds
  rw [closure, Survey.answer_bind]
  cases hl : (levels c o c.nodeBudget c.maxDepth start.toList start).answer g with
  | none =>
      rw [hl] at hfinds
      refine ⟨hfinds, ?_⟩
      intro seen h
      cases h
  | some met =>
      rw [hl] at hfinds
      simp only [Survey.answer_pure]
      split
      · next hsize =>
        refine ⟨⟨met, hsize, fun x hx => (hfinds x).mp hx⟩, ?_⟩
        intro seen h
        cases h
      · next hsize =>
        refine ⟨hfinds, ?_⟩
        intro seen h
        cases h
        exact Nat.le_of_not_lt hsize

/-- **A closure** within its budget is what so many steps lead to. -/
theorem answer_closure (h : (closure c o start).answer g = some seen) (x : Reference) :
    seen.contains x = true ↔
      Within (g.next c o) (fun r => start.contains r = true) c.maxDepth x := by
  have hfinds := (finds_closure g c o start).1
  rw [h] at hfinds
  exact hfinds x

/-- A closure is found exactly if the steps lead to no more objects than the budget
    allows. -/
theorem isSome_closure_iff :
    ((closure c o start).answer g).isSome = true ↔
      {x | Within (g.next c o) (fun r => start.contains r = true) c.maxDepth x}.encard ≤
        c.nodeBudget := by
  obtain ⟨hfinds, hsize⟩ := finds_closure g c o start
  cases h : (closure c o start).answer g with
  | none =>
      rw [h] at hfinds
      simp only [Option.isSome_none, Bool.false_eq_true, false_iff, not_le]
      exact Exceeds.lt_encard hfinds
  | some seen =>
      simp only [Option.isSome_some, true_iff]
      calc {x | Within (g.next c o) (fun r => start.contains r = true) c.maxDepth x}.encard
          = {x | seen.contains x = true}.encard := by simp only [answer_closure h]
        _ = seen.size := seen.encard_members
        _ ≤ c.nodeBudget := Nat.cast_le.mpr (hsize seen h)

/-- **A closure is exact**, on every view. Its steps are those that the view answers. It
    is found exactly if the objects within the largest number of steps, those of the
    start included, are no more than the budget; and then it is the set of them. -/
theorem closure_exact (v : View) (s : Store) (c : SpreadConfig) (o : Bool)
    (start : KeySet Reference) :
    (∀ r, ∃ hs v', ((Survey.hops c o r).run v).Gives s (hs, v') ∧
      hs.map (·.node) = (v.shown s).next c o r) ∧
    ∃ found v', ((closure c o start).run v).Gives s (found, v') ∧
      (found.isSome = true ↔
        {x | Within ((v.shown s).next c o) (fun r => start.contains r = true)
          c.maxDepth x}.encard ≤ c.nodeBudget) ∧
      ∀ seen, found = some seen → ∀ x, seen.contains x = true ↔
        Within ((v.shown s).next c o) (fun r => start.contains r = true) c.maxDepth x := by
  constructor
  · intro r
    obtain ⟨v', -, hrun⟩ := (Survey.hops c o r).run_eq (v.shows_shown s)
    rw [Survey.answer_hops] at hrun
    exact ⟨_, v', hrun, rfl⟩
  · obtain ⟨v', -, hrun⟩ := (closure c o start).run_eq (v.shows_shown s)
    exact ⟨_, v', hrun, isSome_closure_iff, fun seen h => answer_closure h⟩

end Closure

end ClearanceGraph
