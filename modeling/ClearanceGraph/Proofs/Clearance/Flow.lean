import ClearanceGraph.Clearance.Spread
import ClearanceGraph.Proofs.Clearance.Front
import ClearanceGraph.Proofs.Clearance.Snapshot

/-! # Flows — spreading as a function of declared levels and hops

    Spreading asks a graph two things only: which level is declared for an
    object, and where an object passes its level on.  A `Flow` is the pair of
    these answers, and `Flow.spread` is spreading on a flow, without questions.
    It makes every round, also empty ones, which change nothing
    (`answer_relax`).

    What a round does is said once, in `Flow.Round`: which arrivals it covers,
    which it keeps and what it sends on.  Soundness and completeness of
    spreading and its locality are read off that. -/

namespace ClearanceGraph

/-- What spreading sees of a graph. -/
structure Flow where
  /-- Whether an object exists. -/
  isObject : Reference → Bool
  /-- The level that is declared for an object that exists. -/
  declared : Reference → Option Level
  /-- The steps to the objects that take levels from an object. -/
  taking : Reference → List Hop
  /-- Levels are declared for objects that exist. -/
  isObject_of_declared : ∀ {r l}, declared r = some l → isObject r = true
  /-- Steps lead to objects that exist. -/
  isObject_of_mem_taking : ∀ {r h}, h ∈ taking r → isObject h.node = true

/-- Levels are declared for objects that exist. -/
theorem Snapshot.isObject_of_declared {g : Snapshot} {r : Reference} {l : Level}
    (h : g.declared r = some l) : g.isObject r = true := by
  rw [Snapshot.declared] at h
  split at h
  · assumption
  · cases h

/-- What spreading sees of a snapshot. -/
def Snapshot.flow (g : Snapshot) (c : SpreadConfig) : Flow where
  isObject := g.isObject
  declared := g.declared
  taking := g.taking c
  isObject_of_declared := Snapshot.isObject_of_declared
  isObject_of_mem_taking := by
    intro r h hh
    exact (Bool.and_eq_true _ _ ▸ (List.mem_filter.mp hh).2).2

/-! ## Spreading on a flow -/

namespace Flow

open Spread (Bounds Area arrivals)

variable (φ : Flow) (b : Bounds) (area : Area)

/-- The arrivals after one hop from declared objects. -/
def launch (sources : List (Reference × Level)) : List (Reference × Arrival) :=
  sources.flatMap fun s => arrivals b area s.1 s.1 s.2 1 (φ.taking s.1)

/-- The arrivals that a kept arrival sends on. -/
def sent (e : Reference × Arrival) : List (Reference × Arrival) :=
  arrivals b area e.1 e.2.source e.2.level (e.2.depth + 1) (φ.taking e.1)

/-- Offers the arrivals of a round in their order. -/
def offerAll (goesOn : Bool) :
    List (Reference × Arrival) → Fronts → List (Reference × Arrival) →
      Fronts × List (Reference × Arrival)
  | [], f, next => (f, next)
  | e :: rest, f, next =>
    if (φ.declared e.1).isSome ∨ f.Covers e.1 e.2 then offerAll goesOn rest f next
    else offerAll goesOn rest (f.keep e.1 e.2)
      (if goesOn then next ++ φ.sent b area e else next)

/-- Makes rounds, so many after the first. -/
def rounds : Nat → List (Reference × Arrival) → Fronts → Fronts
  | 0, as, f => (φ.offerAll b area false as f []).1
  | more + 1, as, f =>
    rounds more (φ.offerAll b area true as f []).2 (φ.offerAll b area true as f []).1

/-- Spreads levels from declared objects. -/
def spread (sources : List (Reference × Level)) : Fronts :=
  φ.rounds b area (b.maxDepth - 1) (φ.launch b area sources) Table.empty

/-- A round without arrivals changes nothing. -/
theorem rounds_nil (n : Nat) (f : Fronts) : φ.rounds b area n [] f = f := by
  induction n with
  | zero => rfl
  | succ n ih => exact ih

end Flow

namespace Spread

variable (g : Snapshot) (c : SpreadConfig) (b : Bounds) (area : Area)

private theorem answer_launch (sources : List (Reference × Level)) :
    (launch c b area sources).answer g = (g.flow c).launch b area sources := by
  induction sources with
  | nil => rfl
  | cons s rest ih =>
      simp only [launch, Survey.answer_bind, Survey.answer_taking, ih, Survey.answer_pure]
      rfl

private theorem answer_round (goesOn : Bool) (as : List (Reference × Arrival)) :
    ∀ (f : Fronts) (next : List (Reference × Arrival)),
      (round c b area goesOn as f next).answer g =
        (g.flow c).offerAll b area goesOn as f next := by
  induction as with
  | nil => intro f next; rfl
  | cons e rest ih =>
      obtain ⟨r, a⟩ := e
      intro f next
      rw [round, Flow.offerAll, Survey.answer_bind, Survey.answer_declaredLevel]
      cases hd : g.declared r with
      | some l =>
          -- a declared object takes no arrival
          rw [if_pos (.inl (by simp [Snapshot.flow, hd]))]
          exact ih f next
      | none =>
          -- an arrival that is covered is dropped, in the round as in the flow
          by_cases hc : f.Covers r a
          · rw [if_pos (.inr hc)]
            simp only [f.offer_of_covers r a hc]
            exact ih f next
          · rw [if_neg (by simp [Snapshot.flow, hd, hc])]
            simp only [f.offer_of_not_covers r a hc]
            cases goesOn with
            | false => exact ih _ next
            | true =>
                simp only [↓reduceIte, Survey.answer_bind, Survey.answer_taking]
                exact ih _ _

private theorem answer_rounds (n : Nat) : ∀ (as : List (Reference × Arrival)) (f : Fronts),
    (rounds c b area n as f).answer g = (g.flow c).rounds b area n as f := by
  induction n with
  | zero =>
      intro as f
      simp only [rounds, Survey.answer_bind, answer_round, Survey.answer_pure, Flow.rounds]
  | succ n ih =>
      intro as f
      simp only [rounds, Survey.answer_bind, answer_round, Flow.rounds]
      split
      · next hempty =>
        rw [List.isEmpty_iff.mp hempty, Flow.rounds_nil]
        rfl
      · exact ih _ _

/-- **Spreading** answers as spreading on the flow of the snapshot. -/
theorem answer_relax (sources : List (Reference × Level)) :
    (relax c b area sources).answer g = (g.flow c).spread b area sources := by
  simp only [relax, Survey.answer_bind, answer_launch, answer_rounds, Flow.spread]

end Spread

/-! ## What a round does -/

namespace Flow

open Spread (Bounds Area arrivals)

variable {φ : Flow} {b : Bounds} {area : Area} {goesOn : Bool}

/-- What a round does with its arrivals, from the fronts and the queue it finds. -/
structure Round (φ : Flow) (b : Bounds) (area : Area) (goesOn : Bool)
    (as : List (Reference × Arrival)) (f : Fronts) (next : List (Reference × Arrival))
    (f' : Fronts) (next' : List (Reference × Arrival)) : Prop where
  /-- What was covered stays covered. -/
  covers_mono : ∀ {r a}, f.Covers r a → f'.Covers r a
  /-- Every arrival at an object without a declared level is covered. -/
  covers_offered : ∀ {r a}, (r, a) ∈ as → φ.declared r = none → f'.Covers r a
  /-- What is kept was kept before, or arrived at an object without a declared level. -/
  kept : ∀ {r a}, a ∈ f'.front r → a ∈ f.front r ∨ ((r, a) ∈ as ∧ φ.declared r = none)
  /-- The queue only grows. -/
  queued : ∀ {e}, e ∈ next → e ∈ next'
  /-- What is queued was queued before, or sent on by an arrival of the round. -/
  queue : ∀ {e}, e ∈ next' →
    e ∈ next ∨ ∃ d ∈ as, φ.declared d.1 = none ∧ e ∈ φ.sent b area d
  /-- Unless the round is the last one, what is newly kept is sent on. -/
  sends : ∀ {r a}, a ∈ f'.front r → a ∈ f.front r ∨
    (goesOn = true → ∀ e ∈ φ.sent b area (r, a), e ∈ next')
  /-- Fronts stay free of arrivals that another one beats. -/
  antichain : (∀ r, (f.front r).Pairwise fun x y => ¬ x.dominatedBy y ∧ ¬ y.dominatedBy x) →
    ∀ r, (f'.front r).Pairwise fun x y => ¬ x.dominatedBy y ∧ ¬ y.dominatedBy x

namespace Round

variable {as : List (Reference × Arrival)} {f f' : Fronts}
    {next next' : List (Reference × Arrival)}
  {q : Reference} {x : Arrival}

/-- An arrival may be passed over at an object with a declared level, or if it is
    covered. -/
theorem pass (h : Round φ b area goesOn as f next f' next')
    (hskip : (φ.declared q).isSome ∨ f.Covers q x) :
    Round φ b area goesOn ((q, x) :: as) f next f' next' where
  covers_mono := h.covers_mono
  covers_offered := by
    intro r a hmem hnone
    rcases List.mem_cons.mp hmem with heq | hmem
    · obtain ⟨rfl, rfl⟩ := Prod.mk.inj heq
      rcases hskip with hsome | hcov
      · simp [hnone] at hsome
      · exact h.covers_mono hcov
    · exact h.covers_offered hmem hnone
  kept ha := (h.kept ha).imp_right fun hk => ⟨List.mem_cons_of_mem _ hk.1, hk.2⟩
  queued := h.queued
  queue he := by
    refine (h.queue he).imp_right ?_
    rintro ⟨d, hd, hrest⟩
    exact ⟨d, List.mem_cons_of_mem _ hd, hrest⟩
  sends := h.sends
  antichain := h.antichain

/-- An arrival that is neither is kept, and sent on. -/
theorem keep (h : Round φ b area goesOn as (f.keep q x)
      (if goesOn then next ++ φ.sent b area (q, x) else next) f' next')
    (hnone : φ.declared q = none) (hnew : ¬ f.Covers q x) :
    Round φ b area goesOn ((q, x) :: as) f next f' next' where
  covers_mono hc := h.covers_mono hc.keep
  covers_offered := by
    intro r a hmem hn
    rcases List.mem_cons.mp hmem with heq | hmem
    · obtain ⟨rfl, rfl⟩ := Prod.mk.inj heq
      exact h.covers_mono Fronts.covers_keep_self
    · exact h.covers_offered hmem hn
  kept ha := by
    rcases h.kept ha with hk | hk
    · rcases Fronts.mem_front_keep hk with hk | ⟨rfl, rfl⟩
      · exact .inl hk
      · exact .inr ⟨List.mem_cons_self, hnone⟩
    · exact .inr ⟨List.mem_cons_of_mem _ hk.1, hk.2⟩
  queued he := by
    refine h.queued ?_
    split
    · exact List.mem_append_left _ he
    · exact he
  queue he := by
    -- what is queued was queued before, or is what the new arrival sends
    rcases h.queue he with he | ⟨d, hd, hrest⟩
    · split at he
      · rcases List.mem_append.mp he with he | he
        · exact .inl he
        · exact .inr ⟨(q, x), List.mem_cons_self, hnone, he⟩
      · exact .inl he
    · exact .inr ⟨d, List.mem_cons_of_mem _ hd, hrest⟩
  sends ha := by
    rcases h.sends ha with hk | hk
    · rcases Fronts.mem_front_keep hk with hk | ⟨rfl, rfl⟩
      · exact .inl hk
      · refine .inr fun hgo e he => h.queued ?_
        rw [if_pos hgo]
        exact List.mem_append_right _ he
    · exact .inr hk
  antichain hf := h.antichain (Fronts.antichain_keep hnew hf)

end Round

/-- **What a round does**, arrival by arrival. -/
theorem round_offerAll (as : List (Reference × Arrival)) :
    ∀ (f : Fronts) (next : List (Reference × Arrival)),
      Round φ b area goesOn as f next (φ.offerAll b area goesOn as f next).1
        (φ.offerAll b area goesOn as f next).2 := by
  induction as with
  | nil =>
      intro f next
      exact ⟨id, fun h => absurd h List.not_mem_nil, .inl, id, .inl, .inl, id⟩
  | cons e rest ih =>
      obtain ⟨q, x⟩ := e
      intro f next
      rw [offerAll]
      by_cases hskip : (φ.declared q).isSome ∨ f.Covers q x
      · rw [if_pos hskip]
        exact (ih f next).pass hskip
      · rw [if_neg hskip]
        obtain ⟨hdeclared, hnew⟩ := not_or.mp hskip
        exact (ih _ _).keep (by simpa using hdeclared) hnew

end Flow

end ClearanceGraph
