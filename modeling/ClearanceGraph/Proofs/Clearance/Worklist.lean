import ClearanceGraph.Proofs.Clearance.Walk
import Mathlib.Algebra.Order.BigOperators.Group.Finset
import Mathlib.Algebra.BigOperators.Ring.Finset
import Mathlib.Data.List.MinMax
import Mathlib.Data.Set.Finite.Basic
import Mathlib.Order.Interval.Finset.Nat

/-! # Worklists — spreading from a queue

    Spreading can be said without rounds: the first arrival is taken off a queue
    and offered, and what it sends on goes to the end.  A round is so many steps
    of the queue (`steps_round`), so the fronts are the same once the queue is
    empty (`worklist_fronts`).

    The queue bounds the work whatever number of hops is allowed.  Its depths
    ascend (`Paced`).  An arrival that was kept therefore stands for as few hops
    as any that is taken off later, and such a one is kept only if its level is
    higher: at one object the kept levels rise, from above the default level up to
    the highest declared one. -/

namespace ClearanceGraph

namespace Flow

open Spread (Bounds Area arrivals)

/-- A queue of arrivals and the fronts so far, with what was taken off the queue and
    what of that was kept, in their order. -/
structure Worklist where
  queue : List (Reference × Arrival)
  fronts : Fronts
  popped : List (Reference × Arrival)
  accepted : List (Reference × Arrival)

variable (φ : Flow) (b : Bounds) (area : Area)

/-- What a kept arrival adds to the queue: nothing once it has made all its hops. -/
def sentOn (e : Reference × Arrival) : List (Reference × Arrival) :=
  if e.2.depth < b.maxDepth then φ.sent b area e else []

/-- Takes the first arrival off the queue and offers it, unless its object has a
    declared level. -/
def step (w : Worklist) : Worklist :=
  match w.queue with
  | [] => w
  | e :: rest =>
    if (φ.declared e.1).isSome ∨ w.fronts.Covers e.1 e.2 then
      { w with queue := rest, popped := w.popped ++ [e] }
    else
      ⟨rest ++ φ.sentOn b area e, w.fronts.keep e.1 e.2, w.popped ++ [e], w.accepted ++ [e]⟩

/-- The worklist after so many steps from what declared objects send. -/
def worklist (sources : List (Reference × Level)) (n : Nat) : Worklist :=
  (φ.step b area)^[n] ⟨φ.launch b area sources, Table.empty, [], []⟩

variable {φ b area}

/-- An empty queue stays empty. -/
theorem step_of_queue_eq_nil {w : Worklist} (h : w.queue = []) : φ.step b area w = w := by
  rw [step, h]

variable {sources : List (Reference × Level)}

/-- The last step may be counted first. -/
theorem worklist_succ (n : Nat) :
    φ.worklist b area sources (n + 1) = φ.step b area (φ.worklist b area sources n) :=
  Function.iterate_succ_apply' ..

/-- An empty queue stays empty, and nothing happens any more. -/
theorem worklist_of_le {m n : Nat} (h : (φ.worklist b area sources m).queue = [])
    (hmn : m ≤ n) :
    φ.worklist b area sources n = φ.worklist b area sources m := by
  induction n, hmn using Nat.le_induction with
  | base => rfl
  | succ n _ ih => rw [worklist_succ, ih, step_of_queue_eq_nil h]

/-! ## Rounds of a queue -/

variable (φ b area) in
/-- A round is as many steps as it has arrivals, with the next round behind them in the
    queue. -/
private theorem steps_round {d : Nat} (as : List (Reference × Arrival)) :
    ∀ (next : List (Reference × Arrival)) (f : Fronts) (p a : List (Reference × Arrival)),
      (∀ e ∈ as, e.2.depth = d) →
      ∃ p' a', (φ.step b area)^[as.length] ⟨as ++ next, f, p, a⟩ =
        ⟨(φ.offerAll b area (decide (d < b.maxDepth)) as f next).2,
          (φ.offerAll b area (decide (d < b.maxDepth)) as f next).1, p', a'⟩ := by
  induction as with
  | nil =>
      intro next f p a _
      exact ⟨p, a, rfl⟩
  | cons e rest ih =>
      intro next f p a hdepth
      have hrest : ∀ x ∈ rest, x.2.depth = d :=
        fun x hx => hdepth x (List.mem_cons_of_mem _ hx)
      obtain rfl := hdepth e List.mem_cons_self
      rw [List.length_cons, Function.iterate_succ_apply, List.cons_append, offerAll, step]
      by_cases hskip : (φ.declared e.1).isSome ∨ f.Covers e.1 e.2
      · simp only [if_pos hskip]
        exact ih next f _ a hrest
      · simp only [if_neg hskip]
        -- what is sent on goes behind the round; a round at the bound sends nothing
        have hqueue : rest ++ next ++ φ.sentOn b area e =
            rest ++ if decide (e.2.depth < b.maxDepth) = true then next ++ φ.sent b area e
              else next := by
          rw [List.append_assoc, sentOn]
          by_cases hd : e.2.depth < b.maxDepth
          · simp [hd]
          · simp [hd]
        rw [hqueue]
        exact ih _ _ _ _ hrest

/-- What an arrival sends on is one hop deeper. -/
theorem depth_of_mem_sent {e x : Reference × Arrival} (h : x ∈ φ.sent b area e) :
    x.2.depth = e.2.depth + 1 := by
  obtain ⟨hop, -, -, -, rfl⟩ := mem_arrivals_iff.mp h
  rfl

/-- The last round sends nothing on. -/
private theorem offerAll_last (as : List (Reference × Arrival)) :
    ∀ {f : Fronts} {next : List (Reference × Arrival)},
      (φ.offerAll b area false as f next).2 = next := by
  induction as with
  | nil => intro f next; rfl
  | cons e rest ih =>
      intro f next
      rw [offerAll]
      split
      · exact ih
      · exact ih

variable (φ b area) in
/-- All rounds together empty the queue. -/
private theorem steps_rounds (n : Nat) :
    ∀ {d : Nat} {as : List (Reference × Arrival)} (f : Fronts)
    (p a : List (Reference × Arrival)),
      1 ≤ d → d + n = max b.maxDepth 1 → (∀ e ∈ as, e.2.depth = d) →
      ∃ m p' a', (φ.step b area)^[m] ⟨as, f, p, a⟩ = ⟨[], φ.rounds b area n as f,
        p', a'⟩ := by
  -- on the rounds left: a round is the last one exactly if its depth is the largest
  induction n with
  | zero =>
      intro d as f p a hpos hd hdepth
      obtain ⟨p', a', hround⟩ := steps_round φ b area as [] f p a hdepth
      have hlast : decide (d < b.maxDepth) = false := decide_eq_false (by omega)
      rw [List.append_nil, hlast, offerAll_last] at hround
      exact ⟨as.length, p', a', hround⟩
  | succ n ih =>
      intro d as f p a hpos hd hdepth
      obtain ⟨p₁, a₁, hround⟩ := steps_round φ b area as [] f p a hdepth
      have hmore : decide (d < b.maxDepth) = true := decide_eq_true (by omega)
      rw [List.append_nil, hmore] at hround
      have hnext : ∀ e ∈ (φ.offerAll b area true as f []).2, e.2.depth = d + 1 := by
        intro e he
        rcases (round_offerAll as f []).queue he with hnil | ⟨x, hx, -, he⟩
        · cases hnil
        · rw [depth_of_mem_sent he, hdepth x hx]
      obtain ⟨m, p', a', hrounds⟩ := ih _ p₁ a₁ (Nat.succ_pos d) (by omega) hnext
      refine ⟨m + as.length, p', a', ?_⟩
      rw [Function.iterate_add_apply, hround]
      exact hrounds

/-- What declared objects send has made one hop. -/
theorem depth_of_mem_launch {e : Reference × Arrival} (h : e ∈ φ.launch b area sources) :
    e.2.depth = 1 := by
  obtain ⟨x, -, he⟩ := List.mem_flatMap.mp h
  obtain ⟨hop, -, -, -, rfl⟩ := mem_arrivals_iff.mp he
  rfl

variable (φ b area sources) in
/-- The queue gets empty, with the fronts that rounds leave. -/
theorem exists_worklist_done :
    ∃ n, (φ.worklist b area sources n).queue = [] ∧
      (φ.worklist b area sources n).fronts = φ.spread b area sources := by
  have hlaunch : ∀ e ∈ φ.launch b area sources, e.2.depth = 1 :=
    fun _ => depth_of_mem_launch
  obtain ⟨n, p, a, h⟩ :=
    steps_rounds φ b area (b.maxDepth - 1) Table.empty [] [] (Nat.le_refl 1)
      (by omega) hlaunch
  refine ⟨n, ?_, ?_⟩
  · rw [worklist, h]
  · rw [worklist, h, spread]

/-- Whenever the queue is empty, the fronts are those that rounds leave. -/
theorem worklist_fronts {n : Nat} (h : (φ.worklist b area sources n).queue = []) :
    (φ.worklist b area sources n).fronts = φ.spread b area sources := by
  obtain ⟨m, hm, hfronts⟩ := exists_worklist_done φ b area sources
  rw [← hfronts]
  rcases Nat.le_total m n with hmn | hnm
  · rw [worklist_of_le hm hmn]
  · rw [worklist_of_le h hnm]

/-! ## The pace of a queue -/

/-- The highest of some levels, as a number. -/
def highest (sources : List (Reference × Level)) : Nat :=
  (sources.map (·.2.value)).foldr max 0

theorem le_highest {x : Reference × Level} (h : x ∈ sources) :
    x.2.value ≤ highest sources :=
  List.le_max_of_le (List.mem_map.mpr ⟨x, h, rfl⟩) (Nat.le_refl _)

/-- What holds of every arrival that is ever queued. -/
structure Fit (φ : Flow) (b : Bounds) (sources : List (Reference × Level))
    (e : Reference × Arrival) : Prop where
  isObject : φ.isObject e.1 = true
  depth : e.2.depth ≤ max b.maxDepth 1
  above : b.default < e.2.level
  level : e.2.level.value ≤ highest sources

/-- What a source sends is one hop deep, and no higher than its level. -/
theorem fit_of_mem_launch {e : Reference × Arrival} (h : e ∈ φ.launch b area sources) :
    Fit φ b sources e := by
  obtain ⟨x, hx, he⟩ := List.mem_flatMap.mp h
  obtain ⟨hop, hhop, habove, -, rfl⟩ := mem_arrivals_iff.mp he
  exact ⟨φ.isObject_of_mem_taking hhop, Nat.le_max_right _ _, habove,
    Nat.le_trans (hop.carry_le x.2) (le_highest hx)⟩

/-- What is sent on is one hop deeper, and no higher. -/
theorem Fit.of_mem_sentOn {e x : Reference × Arrival} (he : Fit φ b sources e)
    (hx : x ∈ φ.sentOn b area e) : Fit φ b sources x ∧ x.2.depth = e.2.depth + 1 := by
  rw [sentOn] at hx
  split at hx
  · next hdepth =>
    obtain ⟨hop, hhop, habove, -, rfl⟩ := mem_arrivals_iff.mp hx
    refine ⟨⟨φ.isObject_of_mem_taking hhop, ?_, habove, ?_⟩, rfl⟩
    · exact Nat.le_trans hdepth (Nat.le_max_left _ _)
    · exact Nat.le_trans (hop.carry_le e.2.level) he.level
  · cases hx

/-- An arrival is sent on to the neighbours of its object at most. -/
theorem length_sentOn_le (e : Reference × Arrival) :
    (φ.sentOn b area e).length ≤ (φ.taking e.1).length := by
  rw [sentOn]
  split
  · exact List.length_filterMap_le _ _
  · exact Nat.zero_le _

/-- The order of a queue. Arrivals come off it by ascending depth, and what waits is at
    most one hop apart; so what was kept at an object is covered, and the levels kept
    there rise. -/
structure Paced (φ : Flow) (b : Bounds) (area : Area) (sources : List (Reference × Level))
    (w : Worklist) : Prop where
  fit : ∀ e ∈ w.popped ++ w.queue, Fit φ b sources e
  ascending : (w.popped ++ w.queue).Pairwise fun x y => x.2.depth ≤ y.2.depth
  close : ∀ x ∈ w.queue, ∀ y ∈ w.queue, y.2.depth ≤ x.2.depth + 1
  sublist : w.accepted.Sublist w.popped
  covered : ∀ e ∈ w.accepted, w.fronts.Covers e.1 e.2
  rising : w.accepted.Pairwise fun x y => x.1 = y.1 → x.2.level < y.2.level
  /-- Only what was kept adds to the queue. -/
  count : w.popped.length + w.queue.length ≤ (φ.launch b area sources).length +
    (w.accepted.map fun e => (φ.taking e.1).length).sum

namespace Paced

/-- At the start nothing was popped. -/
theorem start : Paced φ b area sources ⟨φ.launch b area sources, Table.empty, [], []⟩ where
  fit _ he := fit_of_mem_launch he
  ascending := List.pairwise_of_forall_mem_list fun x hx y hy => by
    rw [depth_of_mem_launch hx, depth_of_mem_launch hy]
  close x hx y hy := by
    rw [depth_of_mem_launch hx, depth_of_mem_launch hy]
    exact Nat.le_succ 1
  sublist := List.Sublist.refl _
  covered _ he := by cases he
  rising := .nil
  count := by simp

variable {e : Reference × Arrival} {rest : List (Reference × Arrival)} {f : Fronts}
  {p a : List (Reference × Arrival)}

/-- An arrival may be passed over. -/
theorem pass (h : Paced φ b area sources ⟨e :: rest, f, p, a⟩) :
    Paced φ b area sources ⟨rest, f, p ++ [e], a⟩ where
  fit := by
    show ∀ x ∈ p ++ [e] ++ rest, _
    rw [← List.append_cons]
    exact h.fit
  ascending := by
    show (p ++ [e] ++ rest).Pairwise _
    rw [← List.append_cons]
    exact h.ascending
  close x hx y hy := h.close x (List.mem_cons_of_mem _ hx) y (List.mem_cons_of_mem _ hy)
  sublist := h.sublist.trans (List.sublist_append_left p [e])
  covered := h.covered
  rising := h.rising
  count := by
    have hcount := h.count
    simp only [List.length_cons, List.length_append, List.length_nil] at hcount ⊢
    omega

/-- An arrival that is not covered is kept, and what it sends on queues up at the end. -/
theorem keep (h : Paced φ b area sources ⟨e :: rest, f, p, a⟩) (hnew : ¬ f.Covers e.1 e.2) :
    Paced φ b area sources ⟨rest ++ φ.sentOn b area e, f.keep e.1 e.2, p ++ [e],
      a ++ [e]⟩ := by
  have hfit : Fit φ b sources e := h.fit e (List.mem_append_right _ List.mem_cons_self)
  obtain ⟨-, hqueue, hbefore⟩ := List.pairwise_append.mp h.ascending
  have hpopped : ∀ x ∈ p ++ [e], x.2.depth ≤ e.2.depth := by
    intro x hx
    rcases List.mem_append.mp hx with hx | hx
    · exact hbefore x hx e List.mem_cons_self
    · rw [List.mem_singleton.mp hx]
  have hrest : ∀ x ∈ rest, e.2.depth ≤ x.2.depth := (List.pairwise_cons.mp hqueue).1
  have hclose : ∀ x ∈ rest, x.2.depth ≤ e.2.depth + 1 := fun x hx =>
    h.close e List.mem_cons_self x (List.mem_cons_of_mem _ hx)
  have hsent : ∀ x ∈ φ.sentOn b area e, x.2.depth = e.2.depth + 1 := fun x hx =>
    (hfit.of_mem_sentOn hx).2
  refine ⟨?_, ?_, ?_, h.sublist.append (List.Sublist.refl [e]), ?_, ?_, ?_⟩
  · intro x hx
    rw [← List.append_assoc, ← List.append_cons] at hx
    rcases List.mem_append.mp hx with hx | hx
    · exact h.fit x hx
    · exact (hfit.of_mem_sentOn hx).1
  · show (p ++ [e] ++ (rest ++ φ.sentOn b area e)).Pairwise _
    rw [← List.append_assoc, List.pairwise_append]
    refine ⟨by rw [← List.append_cons]; exact h.ascending, ?_, ?_⟩
    · refine List.pairwise_of_forall_mem_list fun x hx y hy => ?_
      rw [hsent x hx, hsent y hy]
    · intro x hx y hy
      rw [hsent y hy]
      rcases List.mem_append.mp hx with hx | hx
      · exact Nat.le_succ_of_le (hpopped x hx)
      · exact hclose x hx
  · intro x hx y hy
    have hx' : e.2.depth ≤ x.2.depth := by
      rcases List.mem_append.mp hx with hx | hx
      · exact hrest x hx
      · rw [hsent x hx]
        exact Nat.le_succ _
    have hy' : y.2.depth ≤ e.2.depth + 1 := by
      rcases List.mem_append.mp hy with hy | hy
      · exact hclose y hy
      · rw [hsent y hy]
    omega
  · intro x hx
    rcases List.mem_append.mp hx with hx | hx
    · exact (h.covered x hx).keep
    · rw [List.mem_singleton.mp hx]
      exact Fronts.covers_keep_self
  · show (a ++ [e]).Pairwise _
    rw [List.pairwise_append]
    refine ⟨h.rising, List.pairwise_singleton _ _, fun x hx y hy hxy => ?_⟩
    obtain rfl := List.mem_singleton.mp hy
    -- what covers `x` came in as few hops as `y`; were `x` as high, it would cover `y`
    -- too
    by_contra hlevel
    obtain ⟨k, hk, hdom⟩ := h.covered x hx
    refine hnew
      ⟨k, hxy ▸ hk, Arrival.dominatedBy_trans (Arrival.dominatedBy_iff.mpr ?_) hdom⟩
    exact ⟨hbefore x (h.sublist.subset hx) y List.mem_cons_self, Nat.le_of_not_lt hlevel⟩
  · have hcount := h.count
    have hlength : (φ.sentOn b area e).length ≤ (φ.taking e.1).length := length_sentOn_le e
    simp only [List.length_cons, List.length_append, List.length_nil, List.map_append,
      List.map_cons, List.map_nil, List.sum_append, List.sum_cons, List.sum_nil] at hcount ⊢
    omega

/-- A step keeps the pace. -/
theorem step {w : Worklist} (h : Paced φ b area sources w) :
    Paced φ b area sources (φ.step b area w) := by
  obtain ⟨queue, f, p, a⟩ := w
  cases queue with
  | nil => exact h
  | cons e rest =>
      rw [Flow.step]
      by_cases hskip : (φ.declared e.1).isSome ∨ f.Covers e.1 e.2
      · simp only [if_pos hskip]
        exact h.pass
      · simp only [if_neg hskip]
        exact h.keep fun hc => hskip (.inr hc)

/-- **Every worklist is paced**, step by step. -/
theorem worklist (n : Nat) : Paced φ b area sources (φ.worklist b area sources n) := by
  induction n with
  | zero => exact .start
  | succ n ih =>
      rw [worklist_succ]
      exact ih.step

end Paced

/-! ## The length of a run -/

/-- Numbers that rise from above one to another are no more than there are between
    them. -/
private theorem length_le_of_rising {ls : List Nat} {lo hi : Nat} (h : ls.Pairwise (· < ·))
    (hls : ∀ l ∈ ls, lo < l ∧ l ≤ hi) : ls.length ≤ hi - lo := by
  have hnodup : ls.Nodup := h.imp Nat.ne_of_lt
  calc ls.length = ls.toFinset.card := (List.toFinset_card_of_nodup hnodup).symm
    _ ≤ (Finset.Ioc lo hi).card := Finset.card_le_card fun l hl =>
        Finset.mem_Ioc.mpr (hls l (List.mem_toFinset.mp hl))
    _ = hi - lo := Nat.card_Ioc lo hi

/-- At one object so many arrivals are kept at most. -/
theorem Paced.length_accepted_le {w : Worklist} (h : Paced φ b area sources w)
    (r : Reference) :
    (w.accepted.filter (·.1 = r)).length ≤ highest sources - b.default.value := by
  rw [← List.length_map (fun e : Reference × Arrival => e.2.level.value)]
  refine length_le_of_rising (List.pairwise_map.mpr ?_) ?_
  · refine (h.rising.filter _).imp_of_mem fun hx hy hxy => hxy ?_
    have hx' := of_decide_eq_true (List.mem_filter.mp hx).2
    have hy' := of_decide_eq_true (List.mem_filter.mp hy).2
    exact hx'.trans hy'.symm
  · intro l hl
    obtain ⟨e, he, rfl⟩ := List.mem_map.mp hl
    have hpopped := h.sublist.subset (List.mem_filter.mp he).1
    have hfit := h.fit e (List.mem_append_left _ hpopped)
    exact ⟨hfit.above, hfit.level⟩

/-- A sum over a list in which nothing stands too often. -/
private theorem sum_map_le {f : Reference → Nat} {rs : List Reference}
    {objects : Finset Reference}
    {k : Nat} (hmem : ∀ r ∈ rs, r ∈ objects) (hcount : ∀ r, rs.count r ≤ k) :
    (rs.map f).sum ≤ k * ∑ r ∈ objects, f r := by
  calc (rs.map f).sum = ∑ r ∈ rs.toFinset, rs.count r • f r :=
    Finset.sum_list_map_count rs f
    _ ≤ ∑ r ∈ rs.toFinset, k * f r :=
        Finset.sum_le_sum fun r _ => Nat.mul_le_mul_right (f r) (hcount r)
    _ ≤ ∑ r ∈ objects, k * f r :=
        Finset.sum_le_sum_of_subset fun r hr => hmem r (List.mem_toFinset.mp hr)
    _ = k * ∑ r ∈ objects, f r := (Finset.mul_sum objects f k).symm

/-- The sources send to their neighbours at most. -/
theorem length_launch_le : (φ.launch b area sources).length ≤
    (sources.map fun x => (φ.taking x.1).length).sum := by
  rw [launch, List.length_flatMap]
  exact List.sum_le_sum fun x _ => List.length_filterMap_le _ _

/-- So many arrivals are taken off the queue at most, whatever number of hops is
    allowed. -/
theorem Paced.length_popped_le {w : Worklist} (h : Paced φ b area sources w)
    {objects : Finset Reference} (hobjects : ∀ r, φ.isObject r = true → r ∈ objects) :
    w.popped.length ≤ (sources.map fun x => (φ.taking x.1).length).sum +
      (highest sources - b.default.value) * ∑ r ∈ objects, (φ.taking r).length := by
  have hsent : ((w.accepted.map Prod.fst).map fun r => (φ.taking r).length).sum ≤
      (highest sources - b.default.value) * ∑ r ∈ objects, (φ.taking r).length := by
    refine sum_map_le ?_ ?_
    · intro r hr
      obtain ⟨e, he, rfl⟩ := List.mem_map.mp hr
      exact hobjects e.1 (h.fit e (List.mem_append_left _ (h.sublist.subset he))).isObject
    · intro r
      have hcount : (w.accepted.map Prod.fst).count r =
          (w.accepted.filter (·.1 = r)).length := by
        rw [List.count_eq_countP, List.countP_map, List.countP_eq_length_filter]
        rfl
      rw [hcount]
      exact h.length_accepted_le r
  rw [List.map_map] at hsent
  calc w.popped.length ≤ w.popped.length + w.queue.length := Nat.le_add_right _ _
    _ ≤ (φ.launch b area sources).length +
          (w.accepted.map fun e => (φ.taking e.1).length).sum := h.count
    _ ≤ _ := Nat.add_le_add length_launch_le hsent

/-- A step takes one arrival off the queue, as long as there is one. -/
theorem length_popped_step {w : Worklist} (h : w.queue ≠ []) :
    (φ.step b area w).popped.length = w.popped.length + 1 := by
  obtain ⟨queue, f, p, a⟩ := w
  cases queue with
  | nil => exact absurd rfl h
  | cons e rest =>
      rw [step]
      simp only
      split
      · exact List.length_append
      · exact List.length_append

variable (φ b area sources) in
/-- The queue is empty after as many steps as arrivals were taken off it. -/
theorem exists_worklist_empty :
    ∃ n, (φ.worklist b area sources n).queue = [] ∧
      (φ.worklist b area sources n).popped.length = n := by
  have hdone : ∃ n, (φ.worklist b area sources n).queue = [] := by
    obtain ⟨n, hn, -⟩ := exists_worklist_done φ b area sources
    exact ⟨n, hn⟩
  classical
  refine ⟨Nat.find hdone, Nat.find_spec hdone, ?_⟩
  have hbefore : ∀ n ≤ Nat.find hdone, (φ.worklist b area sources n).popped.length = n := by
    intro n
    induction n with
    | zero => intro _; rfl
    | succ n ih =>
        intro hn
        rw [worklist_succ, length_popped_step (Nat.find_min hdone hn),
          ih (Nat.le_of_succ_le hn)]
  exact hbefore _ (Nat.le_refl _)

end Flow

namespace View

/-- A view shows finitely many objects. -/
theorem finite_shown_objects (v : View) (s : Store) :
    {r | (v.shown s).isObject r = true}.Finite := by
  have hnamed : {r | r ∈ v.objects.keys}.Finite := List.finite_toSet _
  have hstored : {r | DocumentKey.fact (.object r) ∈ s.versions.keys}.Finite := by
    refine Set.Finite.preimage (fun q _ r _ hqr => ?_) (List.finite_toSet s.versions.keys)
    cases hqr
    rfl
  refine (hnamed.union hstored).subset fun r hr => ?_
  cases hknown : v.objects.get? r with
  | some b => exact .inl ((Table.mem_keys_iff _).mpr ⟨b, hknown⟩)
  | none =>
      -- what is not known shows in the store
      have hask : (if v.isComplete then false
          else (s.visible v.time (.fact (.object r))).isSome) = true := by
        have hr' : (v.objects.get? r).getD _ = true := hr
        rwa [hknown, Option.getD_none] at hr'
      split at hask
      · cases hask
      · obtain ⟨d, hd⟩ := Option.isSome_iff_exists.mp hask
        exact .inr (Store.mem_keys_of_visible hd)

end View

/-- **The worklist of spreading is bounded**, on every view and whatever number of hops
    is allowed. Arrivals are taken off the queue by ascending depth, and no queued one
    is deeper than allowed. The levels kept at one object rise, so they are no more than
    there are from the default level up to the highest one that starts. The queue gets
    empty after so many steps as its arrivals can cause with that, and then the fronts
    are those that spreading gives. -/
theorem Spread.relax_worklist (v : View) (s : Store) (c : SpreadConfig) (b : Bounds)
    (area : Area) (sources : List (Reference × Level)) :
    ∃ objects : Finset Reference, (∀ r, r ∈ objects ↔ (v.shown s).isObject r = true) ∧
      (∀ n, let w := ((v.shown s).flow c).worklist b area sources n
        (w.popped ++ w.queue).Pairwise (fun x y => x.2.depth ≤ y.2.depth) ∧
        (∀ e ∈ w.popped ++ w.queue, e.2.depth ≤ max b.maxDepth 1) ∧
        w.accepted.Sublist w.popped ∧
        (w.accepted.Pairwise fun x y => x.1 = y.1 → x.2.level < y.2.level) ∧
        ∀ r, (w.accepted.filter (·.1 = r)).length ≤ Flow.highest sources -
          b.default.value) ∧
      ∃ n, let w := ((v.shown s).flow c).worklist b area sources n
        w.queue = [] ∧ w.popped.length = n ∧
        n ≤ (sources.map fun x => ((v.shown s).taking c x.1).length).sum +
          (Flow.highest sources - b.default.value) * ∑ r ∈ objects,
            ((v.shown s).taking c r).length ∧
        ∃ v', ((relax c b area sources).run v).Gives s (w.fronts, v') := by
  obtain ⟨objects, hobjects⟩ := (v.finite_shown_objects s).exists_finset
  refine ⟨objects, hobjects, ?_, ?_⟩
  · intro n
    have h : Flow.Paced ((v.shown s).flow c) b area sources _ := .worklist n
    exact ⟨h.ascending, fun e he => (h.fit e he).depth, h.sublist, h.rising,
      h.length_accepted_le⟩
  · obtain ⟨n, hempty, hlength⟩ :=
      Flow.exists_worklist_empty ((v.shown s).flow c) b area sources
    have h : Flow.Paced ((v.shown s).flow c) b area sources _ := .worklist n
    -- the objects that show are finitely many, so the arrivals are bounded
    have hbound := h.length_popped_le fun r hr => (hobjects r).mpr hr
    rw [hlength] at hbound
    obtain ⟨v', -, hrun⟩ := (relax c b area sources).run_eq (v.shows_shown s)
    rw [answer_relax, ← Flow.worklist_fronts hempty] at hrun
    exact ⟨n, hempty, hlength, hbound, v', hrun⟩

end ClearanceGraph
