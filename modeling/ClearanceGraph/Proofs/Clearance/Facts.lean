import ClearanceGraph.Proofs.Clearance.Pass
import ClearanceGraph.Proofs.Clearance.Telling

/-! # Facts — what a region is made of

    A region within the budget is computed from objects, declared levels and edges
    alone: no question of the survey is about a stored profile (`Survey.Factual`).
    So stores that show the same facts at an instant have the same region there
    (`Sound.region_eq_of_facts`), whatever profiles a pass has written in between.

    The steps that settle a region do depend on profiles.  Once they were taken,
    settling the same region again takes no step and tells nothing: the instant is
    `Idle` (`Sound.idle_of_wrote`). -/

namespace ClearanceGraph

/-! ## Surveys of facts -/

namespace Survey

variable {α β : Type}

/-- No question is about a stored profile. -/
def Factual : Survey α → Prop
  | done _ => True
  | object _ next => ∀ b, (next b).Factual
  | declaration _ next => ∀ l, (next l).Factual
  | profile _ _ => False
  | edges _ next => ∀ ks, (next ks).Factual

theorem factual_pure (a : α) : (pure a : Survey α).Factual := trivial

/-- One survey after another reads facts if both do. -/
theorem Factual.bind {sv : Survey α} {f : α → Survey β} (h : sv.Factual)
    (hf : ∀ a, (f a).Factual) : (sv >>= f).Factual := by
  show (Survey.bind f sv).Factual
  induction sv with
  | done a => exact hf a
  | object r next ih => exact fun b => ih b (h b)
  | declaration r next ih => exact fun l => ih l (h l)
  | profile r next => exact h.elim
  | edges r next ih => exact fun ks => ih ks (h ks)

/-- The answer to a survey of facts is the same where the facts are. -/
theorem Factual.answer_congr {sv : Survey α} {g g' : Snapshot} (h : sv.Factual)
    (hsame : ∀ r, g.SameAt g' r) : sv.answer g = sv.answer g' := by
  induction sv with
  | done a => rfl
  | object r next ih =>
      rw [answer, answer, (hsame r).isObject]
      exact ih _ (h _)
  | declaration r next ih =>
      rw [answer, answer, (hsame r).declaration]
      exact ih _ (h _)
  | profile r next => exact h.elim
  | edges r next ih =>
      rw [answer, answer, (hsame r).edges]
      exact ih _ (h _)

theorem factual_isObject (r : Reference) : (isObject r).Factual := fun _ => trivial

/-- A declared level is read from facts. -/
theorem factual_declaredLevel (r : Reference) : (declaredLevel r).Factual := by
  intro b
  cases b with
  | true => exact fun _ => trivial
  | false => trivial

theorem factual_existing (r : Reference) (hs : List Hop) : (existing r hs).Factual := by
  induction hs with
  | nil => trivial
  | cons h hs ih =>
      rw [existing]
      split
      · exact ih
      · refine (factual_isObject _).bind fun b => ?_
        cases b with
        | true => exact ih.bind fun _ => trivial
        | false => exact ih

theorem factual_hops (c : SpreadConfig) (outgoing : Bool) (r : Reference) :
    (hops c outgoing r).Factual :=
  Factual.bind (fun _ => trivial) fun _ => factual_existing r _

end Survey

open Survey (Factual factual_pure factual_hops factual_declaredLevel)

/-- **A closure reads facts only**, whatever is declared or inherited. -/
theorem Closure.factual_closure (c : SpreadConfig) (outgoing : Bool)
    (start : KeySet Reference) :
    (closure c outgoing start).Factual := by
  -- from the inside out: one level, all levels, the search
  have hlevel : ∀ budget rs s, (level c outgoing budget rs s).Factual := by
    intro budget rs
    induction rs with
    | nil => exact fun s => factual_pure _
    | cons r rs ih =>
        intro s
        refine (factual_hops c outgoing r).bind fun hs => ?_
        cases meet budget hs s with
        | none => exact factual_pure _
        | some s => exact ih s
  have hlevels : ∀ budget n rs seen, (levels c outgoing budget n rs seen).Factual := by
    intro budget n
    induction n with
    | zero => exact fun rs seen => factual_pure _
    | succ n ih =>
        intro rs seen
        rw [levels]
        split
        · exact factual_pure _
        · refine (hlevel _ _ _).bind fun s => ?_
          cases s with
          | none => exact factual_pure _
          | some s => exact ih _ _
  refine (hlevels _ _ _ _).bind fun seen => ?_
  cases seen with
  | none => exact factual_pure _
  | some seen => exact factual_pure _

/-- **Levels spread over facts**, not over stored profiles. -/
theorem Spread.factual_relax (c : SpreadConfig) (b : Bounds) (area : Area)
    (sources : List (Reference × Level)) : (relax c b area sources).Factual := by
  -- the launch, one round and all rounds ask for hops and declarations only
  have hlaunch : ∀ sources, (launch c b area sources).Factual := by
    intro sources
    induction sources with
    | nil => exact factual_pure _
    | cons x rest ih =>
        exact (factual_hops c true x.1).bind fun _ => ih.bind fun _ => factual_pure _
  have hround : ∀ goesOn as f next, (round c b area goesOn as f next).Factual := by
    intro goesOn as
    induction as with
    | nil => exact fun f next => factual_pure _
    | cons x rest ih =>
        intro f next
        refine (factual_declaredLevel x.1).bind fun l => ?_
        cases l with
        | some l => exact ih _ _
        | none =>
            dsimp only
            rcases f.offer x.1 x.2 with ⟨_ | _, f⟩
            · exact ih _ _
            · cases goesOn with
              | true => exact (factual_hops c true x.1).bind fun _ => ih _ _
              | false => exact ih _ _
  have hrounds : ∀ n as f, (rounds c b area n as f).Factual := by
    intro n
    induction n with
    | zero => exact fun as f => (hround _ _ _ _).bind fun _ => factual_pure _
    | succ n ih =>
        intro as f
        refine (hround _ _ _ _).bind fun x => ?_
        dsimp only
        split
        · exact factual_pure _
        · exact ih _ _
  exact (hlaunch sources).bind fun _ => hrounds _ _ _

/-- **A region within the budget is one of facts.** -/
theorem Region.factual_full (levels : LevelConfig) (c : SpreadConfig)
    (dirty : KeySet Reference) :
    (full levels c dirty).Factual := by
  have hdeclared : ∀ rs, (declaredAmong rs).Factual := by
    intro rs
    induction rs with
    | nil => exact factual_pure _
    | cons r rs ih =>
        refine (factual_declaredLevel r).bind fun l => ?_
        cases l with
        | none => exact ih
        | some l => exact ih.bind fun _ => factual_pure _
  refine (Closure.factual_closure c true dirty).bind fun targets => ?_
  cases targets with
  | none => exact factual_pure _
  | some targets =>
      refine (Closure.factual_closure c false targets).bind fun search => ?_
      cases search with
      | none => exact factual_pure _
      | some search =>
          exact (hdeclared _).bind fun _ =>
            (Spread.factual_relax c _ _ _).bind fun _ => factual_pure _

/-- The region around touched objects is the one within the budget, unless it is
    partial. -/
theorem Region.answer_around (levels : LevelConfig) (c : SpreadConfig)
    (dirty : KeySet Reference) (g : Snapshot) : (around levels c dirty).answer g =
      ((full levels c dirty).answer g).getD ((oneHop levels c dirty).answer g) := by
  rw [around, Survey.answer_bind]
  cases (full levels c dirty).answer g <;> rfl

/-- A region of one hop is partial. -/
theorem Region.isPartial_oneHop (levels : LevelConfig) (c : SpreadConfig)
    (dirty : KeySet Reference) (g : Snapshot) :
      ((oneHop levels c dirty).answer g).isPartial = true := by
  simp only [oneHop, Survey.answer_bind, Survey.answer_pure]

/-! ## Regions of stores -/

namespace Store

variable (levels : LevelConfig) (c : SpreadConfig) (s : Store) (dirty : KeySet Reference)
  (t : Instant)

/-- The region around touched objects at an instant. -/
def region : Region := (Region.around levels c dirty).answer (s.snapshot t)

/-- What an object should have by the region. -/
def wantedAt (r : Reference) : Option Profile :=
  Settle.wanted levels.default (s.region levels c dirty t).inherited (s.snapshot t) r

/-- Settling the region takes no step and tells nothing. -/
def Idle : Prop := ∀ watched, (s.finding levels c dirty watched t).operations = [] ∧
  (s.finding levels c dirty watched t).deltas = []

variable {levels c s dirty t} {s' : Store} {watched : KeySet Reference}

/-- A finding is partial if its region is. -/
theorem isPartial_finding :
    (s.finding levels c dirty watched t).isPartial =
      (s.region levels c dirty t).isPartial := rfl

/-- What is fresh is what was read and not watched before. -/
theorem fresh_finding : (s.finding levels c dirty watched t).fresh =
    KeySet.diff (s.region levels c dirty t).reach watched := rfl

theorem operations_finding : (s.finding levels c dirty watched t).operations =
    ((Settle.settleAll levels.default (s.region levels c dirty t).inherited
      (s.region levels c dirty t).targets.toList).answer (s.snapshot t)).1 := rfl

theorem deltas_finding : (s.finding levels c dirty watched t).deltas =
    ((Settle.settleAll levels.default (s.region levels c dirty t).inherited
      (s.region levels c dirty t).targets.toList).answer (s.snapshot t)).2 := rfl

/-- An instant is idle where every object of the region has what it should have. -/
theorem idle_of_stored (h : ∀ r ∈ (s.region levels c dirty t).targets.toList,
    s.stored t r = s.wantedAt levels c dirty t r) : s.Idle levels c dirty t := by
  intro watched
  rw [operations_finding, deltas_finding]
  have hnil := Settle.settleAll_eq_nil_iff.mpr h
  exact ⟨hnil, Settle.deltas_eq_nil_of_settleAll hnil⟩

/-- The snapshot does not depend on what is noted of commits. -/
theorem Sound.snapshot_congr (hs : s.Sound) (hs' : s'.Sound)
    (h : ∀ k, (∀ u, k ≠ .outbox u) → s'.visible t k = s.visible t k) :
    s'.snapshot t = s.snapshot t := by
  have hfact : ∀ f, s'.visible t (.fact f) = s.visible t (.fact f) := fun f =>
    h _ fun _ => DocumentKey.noConfusion
  have hsame : ∀ r, (s'.snapshot t).SameAt (s.snapshot t) r := fun r =>
    hs'.sameAt hs (hfact _) (hfact _) fun e _ => hfact _
  have hprofile : ∀ r, (s'.snapshot t).profile r = (s.snapshot t).profile r := fun r =>
    congrArg (fun d => d.bind Document.profile?) (h _ fun _ => DocumentKey.noConfusion)
  show Snapshot.mk _ _ _ _ = Snapshot.mk _ _ _ _
  rw [Snapshot.mk.injEq]
  exact ⟨funext fun r => (hsame r).isObject, funext fun r => (hsame r).declaration,
    funext hprofile, funext fun r => (hsame r).edges⟩

/-- Whether there is anything to settle depends on the snapshot. -/
theorem idle_congr (h : s'.snapshot t = s.snapshot t) :
    s'.Idle levels c dirty t ↔ s.Idle levels c dirty t := by
  simp only [Idle, operations_finding, deltas_finding, region, h]

/-- **The same facts make the same region**, within the budget. -/
theorem Sound.region_eq_of_facts (hs : s.Sound) (hs' : s'.Sound)
    (h : ∀ f, s'.visible t (.fact f) = s.visible t (.fact f))
    (hfull : (s.region levels c dirty t).isPartial = false) :
    s'.region levels c dirty t = s.region levels c dirty t := by
  have hsame : ∀ r, (s'.snapshot t).SameAt (s.snapshot t) r := fun r =>
    hs'.sameAt hs (h _) (h _) fun e _ => h _
  have hanswer := (Region.factual_full levels c dirty).answer_congr hsame
  rw [region, Region.answer_around] at hfull
  rw [region, region, Region.answer_around, Region.answer_around, hanswer]
  cases hregion : (Region.full levels c dirty).answer (s.snapshot t) with
  | some region => rfl
  | none =>
      -- one hop is always partial
      rw [hregion, Option.getD_none, Region.isPartial_oneHop] at hfull
      cases hfull

/-! ## After a write -/

/-- At its own instant a write leaves the profile that it writes last, or the old one. -/
theorem Wrote.stored_self {tx : Transaction} (hw : s.Wrote tx s') (hs : s.Sound)
    (r : Reference) :
    s'.stored tx.validTime r =
      (tx.lastWrite? (.profile r)).elim (s.stored tx.validTime r)
        (·.bind Document.profile?) := by
  rcases hw with ⟨hempty, rfl⟩ | ⟨-, id, hsub⟩
  · rw [(Transaction.lastWrite?_eq_none_iff _ _).mpr
      ((Transaction.isEmpty_iff _).mp hempty _)]
    rfl
  · exact stored_submit_self hs hsub r

section Write

variable {note : Option Operation} (hs : s.Sound)
  (hnote : ∀ op, note = some op → ∃ u, op.key = .outbox u)
  (hw : s.Wrote ⟨t, (s.finding levels c dirty watched t).operations ++ note.toList⟩ s')

include hnote

/-- A pass writes profiles, and the box of its commit. -/
theorem key_of_writes_found {k : DocumentKey} (hk : (⟨t,
    (s.finding levels c dirty watched t).operations ++ note.toList⟩ : Transaction).Writes
      k) :
    k.isProfile = true ∨ ∃ op u, note = some op ∧ op.key = .outbox u ∧ k = .outbox u := by
  obtain ⟨op, hop, -, rfl⟩ := hk
  rcases List.mem_append.mp hop with hop | hop
  · exact .inl (mem_finding_operations hop).2
  · obtain ⟨u, hu⟩ := hnote op (Option.mem_toList.mp hop)
    exact .inr ⟨op, u, Option.mem_toList.mp hop, hu, hu⟩

include hw

/-- A pass leaves facts alone. -/
theorem visible_fact_of_wrote (u : Instant) (f : Fact) :
    s'.visible u (.fact f) = s.visible u (.fact f) := by
  rcases hw with ⟨-, rfl⟩ | ⟨-, id, hsub⟩
  · rfl
  · refine visible_submit_of_not_writes hsub (fun hk => ?_) u
    rcases key_of_writes_found hnote hk with hk | ⟨op, v, -, -, hk⟩
    · cases hk
    · cases hk

include hs

/-- At its own instant a pass leaves the objects of its region what they should have. -/
private theorem Sound.stored_of_wrote {r : Reference}
    (hr : r ∈ (s.region levels c dirty t).targets.toList) :
    s'.stored t r = s.wantedAt levels c dirty t r := by
  have hnote' : ∀ op, note = some op → op.key.isProfile = false := by
    intro op hop
    obtain ⟨u, hu⟩ := hnote op hop
    rw [hu]
    rfl
  refine (hw.stored_self hs r).trans ((lastWrite?_settled hnote' (fun _ => rfl) r).trans ?_)
  exact if_pos hr

/-- **A settled instant is idle**, within the budget. -/
theorem Sound.idle_of_wrote (hfull : (s.region levels c dirty t).isPartial = false) :
    s'.Idle levels c dirty t := by
  have hfacts := visible_fact_of_wrote hnote hw t
  have hregion := hs.region_eq_of_facts (hw.sound hs) hfacts hfull
  refine idle_of_stored fun r hr => ?_
  rw [hregion] at hr
  have hsame : (s'.snapshot t).SameAt (s.snapshot t) r :=
    (hw.sound hs).sameAt hs (hfacts _) (hfacts _) fun e _ => hfacts _
  rw [hs.stored_of_wrote hnote hw hr, wantedAt, wantedAt, hregion, Settle.wanted,
    Settle.wanted, hsame.isObject, hsame.declared]

end Write

end Store

end ClearanceGraph
