import ClearanceGraph.Origin.Reconcile
import ClearanceGraph.Proofs.Origin.Plan
import ClearanceGraph.Proofs.World

/-! # Calls — what a run or a retirement does to the store

    Reconciling makes plans and commits one of them, as often as it takes.  From a
    store that nobody else writes a call ends in one of three ways: it fails and
    leaves the store, it finds nothing to do, or it commits a plan
    (`Call.leads_perform`).  Where orphaned edges are retained, that plan is the draft
    of the call with the new record of its origin (`Call.runs_perform_did`).

    This needs no order of valid times between origins.  The times of one origin are
    in order by themselves, since a stale call has no plan. -/

namespace ClearanceGraph

/-- One more operation writes after those before it. -/
theorem Transaction.writesTo_push (tx : Transaction) (op : Operation) (k : DocumentKey) :
    (tx.push op).writesTo k = tx.writesTo k ++ (op.writeTo? k).toList := by
  simp only [writesTo, push, List.filterMap_append]
  cases h : op.writeTo? k with
  | none => simp [h]
  | some d => simp [h]

/-! ## Writing the ledger -/

namespace Store

/-- A transaction writes a draft and the new record of its origin, or the end of the
    record. -/
structure Files (q : Plan) (o : OriginId) (x : Option OriginRecord) (tx : Transaction) :
    Prop where
  validTime : tx.validTime = q.validTime
  own : tx.writesTo (.origin o) = q.transaction.writesTo (.origin o) ++ [x.map .origin]
  others : ∀ k, k ≠ .origin o → tx.writesTo k = q.transaction.writesTo k

/-- Replacing a record files the new one. -/
theorem files_setCurrent (q : Plan) (previous : Option OriginRecord) (r : OriginRecord) :
    Files q r.id (some r) (Ledger.setCurrent q.transaction previous r) := by
  have hwrites : ∀ k, (Ledger.setCurrent q.transaction previous r).writesTo k =
      q.transaction.writesTo k ++
        (if DocumentKey.origin r.id = k then some (some (.origin r)) else none).toList := by
    intro k
    rw [Ledger.setCurrent, Transaction.writesTo_push, Transaction.writesTo_push,
      Operation.writeTo?_expect, Operation.writeTo?_put, Option.toList_none,
        List.append_nil]
    rfl
  refine ⟨rfl, ?_, fun k hk => ?_⟩
  · rw [hwrites, if_pos rfl]
    rfl
  · rw [hwrites, if_neg fun h => hk h.symm, Option.toList_none, List.append_nil]

/-- Retiring an origin files the end of its record. -/
theorem files_retire (q : Plan) (r : OriginRecord) :
    Files q r.id none (Ledger.retire q.transaction r) := by
  have hwrites : ∀ k, (Ledger.retire q.transaction r).writesTo k =
      q.transaction.writesTo k ++
        (if DocumentKey.origin r.id = k then some none else none).toList := by
    intro k
    rw [Ledger.retire, Transaction.writesTo_push, Transaction.writesTo_push,
      Operation.writeTo?_expect, Operation.writeTo?_delete, Option.toList_none,
        List.append_nil]
  refine ⟨rfl, ?_, fun k hk => ?_⟩
  · rw [hwrites, if_pos rfl]
    rfl
  · rw [hwrites, if_neg fun h => hk h.symm, Option.toList_none, List.append_nil]

namespace Files

variable {q : Plan} {o : OriginId} {x : Option OriginRecord} {tx : Transaction}

/-- Of the ledger the last write is what was filed. -/
theorem lastWrite?_own (h : Files q o x tx) :
    tx.lastWrite? (.origin o) = some (x.map .origin) := by
  rw [Transaction.lastWrite?, h.own, List.getLast?_concat]

/-- Of all else it is what the plan wrote. -/
theorem lastWrite?_of_ne (h : Files q o x tx) {k : DocumentKey} (hk : k ≠ .origin o) :
    tx.lastWrite? k = q.transaction.lastWrite? k := by
  rw [Transaction.lastWrite?, h.others k hk, Transaction.lastWrite?]

theorem lastWrite?_fact (h : Files q o x tx) (f : Fact) :
    tx.lastWrite? (.fact f) = q.transaction.lastWrite? (.fact f) :=
  h.lastWrite?_of_ne fun he => by cases he

end Files

end Store

/-! ## Reconciling -/

namespace Reconcile

variable {sky : Weather} {g : Scene}

/-- A submit that succeeds reports the plan and its commit. -/
private theorem leads_submit (o : OriginId) (p : Plan) :
    Leads (World.Shows sky) (submit o p) g
      (fun x g' => ∃ id s, g.store.submit p.transaction = .ok (id, s) ∧
        x = ⟨some id, o, p.validTime, p.changes, p.shared⟩ ∧ g' = { g with store := s })
      (fun _ g' => g' = g) := by
  refine Leads.bind (Leads.lift (ClearanceGraph.leads_submit p.transaction)) ?_
  intro r g' hr
  cases r with
  | ok id =>
      obtain ⟨s, hsub, rfl⟩ := hr
      exact Leads.pure ⟨id, s, hsub, rfl, rfl⟩
  | error e =>
      obtain ⟨-, rfl⟩ := hr
      cases e <;> exact Leads.throw rfl

/-- What reconciling comes to: nothing to do, or the commit of a plan. -/
def Comes (plan : Reading (Option Plan)) (o : OriginId) (t : Instant) (g : Scene)
    (x : Outcome) (g' : Scene) : Prop :=
  (plan.Gives g.store none ∧ x = .unchanged o t ∧ g' = g) ∨
    ∃ p id s, plan.Gives g.store (some p) ∧ g.store.submit p.transaction = .ok (id, s) ∧
      x = ⟨some id, o, p.validTime, p.changes, p.shared⟩ ∧ g' = { g with store := s }

/-- An attempt reads a plan and submits it on the same store. -/
private theorem leads_attempt (o : OriginId) (t : Instant) (plan : Reading (Option Plan)) :
    Leads (World.Shows sky) (attempt o t plan) g (Comes plan o t g)
    (fun _ g' => g' = g) := by
  refine ((leads_read plan).imp (fun _ _ h => h) fun _ _ h => h.2).bind ?_
  rintro x g' ⟨hx, rfl⟩
  cases x with
  | none => exact Leads.pure (.inl ⟨hx, rfl, rfl⟩)
  | some p =>
      refine (leads_submit o p).imp ?_ fun _ _ h => h
      rintro x g'' ⟨id, s, hsub, rfl, rfl⟩
      exact .inr ⟨p, id, s, hx, hsub, rfl, rfl⟩

/-- Attempts that leave what they started from when they fail. The last one decides;
    into its failure goes the number of attempts. -/
theorem leads_commit_of_attempt {τ : Type} {V : τ → World → Prop} {v : τ} {o : OriginId}
    {t : Instant}
    {plan : Reading (Option Plan)} {Q : Outcome → τ → Prop} {E E' : GraphError → Prop}
    (h : Leads V (attempt o t plan) v Q fun e v' => E e ∧ v' = v)
    (he : ∀ n e, E e → E' (withAttempts n e)) (policy : RetryPolicy) :
    Leads V (commit policy o t plan) v Q fun e v' => E' e ∧ v' = v := by
  refine Ends.bind (Ends.retry h policy) ?_
  rintro ⟨r, n⟩ v' hr
  cases r with
  | ok x => exact Ends.pure hr
  | error e => exact Ends.pure ⟨he n e hr.1, hr.2⟩

/-- Attempts until one commits. -/
theorem leads_commit (policy : RetryPolicy) (o : OriginId) (t : Instant)
    (plan : Reading (Option Plan)) :
    Leads (World.Shows sky) (commit policy o t plan) g (Comes plan o t g)
    (fun _ g' => g' = g) := by
  have hattempt : Leads (World.Shows sky) (attempt o t plan) g (Comes plan o t g)
      (fun _ g' => True ∧ g' = g) :=
    (leads_attempt o t plan).imp (fun _ _ h => h) fun _ _ h => ⟨trivial, h⟩
  have hcommit : Leads (World.Shows sky) (commit policy o t plan) g (Comes plan o t g)
      (fun _ g' => True ∧ g' = g) :=
    leads_commit_of_attempt hattempt (fun _ _ _ => trivial) policy
  exact hcommit.imp (fun _ _ h => h) fun _ _ h => h.2

end Reconcile

/-! ## Calls -/

/-- What origins hand in: a run, or that an origin is to end. -/
inductive Call where
  | reconcile (r : Run)
  | retire (o : OriginId) (t : Instant)

namespace Call

variable (levels : LevelConfig) (config : ReconcileConfig)

def origin : Call → OriginId
  | reconcile r => r.origin
  | retire o _ => o

def validTime : Call → Instant
  | reconcile r => r.validTime
  | retire _ t => t

/-- What the origin asserts with the call. -/
def asserted : Call → Table Fact Content
  | reconcile r => r.asserted
  | retire _ _ => Table.empty

def perform : Call → Act Outcome
  | reconcile r => Reconcile.reconcile levels config r
  | retire o t => Reconcile.retire config o t

/-- Calls, one after another; whether one succeeds does not matter to the next. -/
def performAll (cs : List Call) (w : World) : World :=
  cs.foldl (fun w c => (c.perform levels config w).2) w

/-- The last call is made in the world after the others. -/
theorem performAll_concat (cs : List Call) (c : Call) (w : World) :
    performAll levels config (cs ++ [c]) w =
      (c.perform levels config (performAll levels config cs w)).2 := by
  rw [performAll, List.foldl_append]
  rfl

/-- The plan of a call. -/
def plan (policy : CascadePolicy) : Call → Reading (Option Plan)
  | reconcile r => Plan.ofRun policy r
  | retire o t => Plan.ofRetirement policy o t

/-- What a call is checked for before any plan. -/
def Valid (levels : LevelConfig) : Call → Prop
  | reconcile r => r.validate levels.highest = .ok ()
  | retire o _ => o.isEmpty = false

/-- A valid call makes plans and commits one of them. -/
theorem perform_of_valid {levels : LevelConfig} (config : ReconcileConfig) {c : Call}
    (h : c.Valid levels) : c.perform levels config =
      Reconcile.commit config.retry c.origin c.validTime (c.plan config.cascade) := by
  cases c with
  | reconcile r =>
      have hvalid : r.validate levels.highest = .ok () := h
      show Reconcile.reconcile levels config r = _
      rw [Reconcile.reconcile, hvalid]
      rfl
  | retire o t =>
      have hvalid : o.isEmpty = false := h
      show Reconcile.retire config o t = _
      rw [Reconcile.retire, hvalid]
      rfl

/-- A call that is not valid fails at once. -/
theorem perform_of_not_valid {levels : LevelConfig} (config : ReconcileConfig) {c : Call}
    (h : ¬ c.Valid levels) :
    ∃ e, c.perform levels config = (throw (.validation e) : Act Outcome) := by
  cases c with
  | reconcile r =>
      cases hvalid : r.validate levels.highest with
      | ok u => exact absurd hvalid h
      | error e =>
          refine ⟨e, ?_⟩
          show Reconcile.reconcile levels config r = _
          rw [Reconcile.reconcile, hvalid]
  | retire o t =>
      have hempty : o.isEmpty = true := Bool.not_eq_false _ ▸ h
      refine ⟨.emptyOriginId, ?_⟩
      show Reconcile.retire config o t = _
      rw [Reconcile.retire, hempty]
      rfl

/-- A call makes plans and commits one of them, or is not valid. -/
theorem perform_cases (c : Call) :
    (c.Valid levels ∧ c.perform levels config =
        Reconcile.commit config.retry c.origin c.validTime (c.plan config.cascade)) ∨
      (¬ c.Valid levels ∧
        ∃ e, c.perform levels config = (throw (.validation e) : Act Outcome)) := by
  by_cases h : c.Valid levels
  · exact .inl ⟨h, perform_of_valid config h⟩
  · exact .inr ⟨h, perform_of_not_valid config h⟩

/-- **A call** commits a plan, or finds nothing to do, or fails and leaves the scene. -/
theorem leads_perform {sky : Weather} {g : Scene} (c : Call) :
    Leads (World.Shows sky) (c.perform levels config) g
      (Reconcile.Comes (c.plan config.cascade) c.origin c.validTime g)
        (fun _ g' => g' = g) := by
  rcases c.perform_cases levels config with ⟨-, hcommit⟩ | ⟨-, e, hthrow⟩
  · rw [hcommit]
    exact Reconcile.leads_commit _ _ _ _
  · rw [hthrow]
    exact Leads.throw rfl

/-- What a call asserts lies under its own facts. -/
theorem filed_asserted (c : Call) {f : Fact} {k : Content}
    (h : c.asserted.get? f = some k) :
    k.fact = f := by
  cases c with
  | reconcile r => exact r.filed_asserted h
  | retire o t => cases h

/-! ## Calls that retain orphaned edges -/

variable {levels config}

/-- The draft of a call, and that the origin was not seen later. -/
structure Drafts (c : Call) (s : Store) (q : Plan) : Prop where
  drafted : Plan.Drafted s c.validTime c.origin c.asserted
    (Plan.droppedBy (s.lastRecord? c.origin) c.asserted) q
  inOrder : ∀ v ∈ s.versionsOf (.origin c.origin), v.validFrom ≤ c.validTime

/-- The record that a call files; none for the end of the record. -/
structure Records (c : Call) (x : Option OriginRecord) : Prop where
  id : ∀ r, x = some r → r.id = c.origin
  validTime : ∀ r, x = some r → r.validTime = c.validTime
  result : ∀ r, x = some r → r.result = c.asserted
  ended : x = none → c.asserted = Table.empty

/-- What a call does that succeeds. -/
inductive Did (c : Call) (s : Store) : Store → Prop where
  | commit {q : Plan} {x : Option OriginRecord} {tx : Transaction} {id : TransactionId}
      {s' : Store} :
      c.Drafts s q → Store.Files q c.origin x tx → c.Records x →
        s.submit tx = .ok (id, s') →
        c.Did s s'
  | unchanged {q : Plan} :
      c.Drafts s q → q.transaction.isEmpty = true →
        Plan.isUnchanged (s.lastRecord? c.origin) c.asserted = true → c.Did s s
  | unknown : s.lastRecord? c.origin = none → c.asserted = Table.empty → c.Did s s

namespace Drafts

variable {c : Call} {s s' : Store} {q : Plan} {x : Option OriginRecord} {tx : Transaction}
  {id : TransactionId} (h : c.Drafts s q) (hfiles : Store.Files q c.origin x tx)

include h hfiles

theorem validTime_eq : tx.validTime = c.validTime :=
  hfiles.validTime.trans h.drafted.validTime

/-- A call writes the record of its own origin once. -/
theorem writesTo_own : tx.writesTo (.origin c.origin) = [x.map .origin] := by
  have hnone := h.drafted.others (.origin c.origin) fun f hf => by cases hf
  rw [hfiles.own, List.getLast?_eq_none_iff.mp hnone, List.nil_append]

/-- A call leaves the records of other origins. -/
theorem writesTo_other {o : OriginId} (ho : o ≠ c.origin) :
    tx.writesTo (.origin o) = [] := by
  have hnone := h.drafted.others (.origin o) fun f hf => by cases hf
  rw [hfiles.others _ fun he => ho (by cases he; rfl), List.getLast?_eq_none_iff.mp hnone]

/-- After its commit the record that a call filed is the latest of its origin. -/
theorem lastRecord?_own (hs : s.Sound) (hsub : s.submit tx = .ok (id, s')) :
    s'.lastRecord? c.origin = x := by
  have hle : ∀ v ∈ s.versionsOf (.origin c.origin), v.validFrom ≤ tx.validTime := by
    rw [h.validTime_eq hfiles]
    exact h.inOrder
  rw [Store.lastRecord?, Store.newestOf?_submit_of_le hs hsub hfiles.lastWrite?_own hle]
  cases x <;> rfl

/-- A call leaves the records of other origins. -/
theorem lastRecord?_other (hsub : s.submit tx = .ok (id, s')) {o : OriginId}
    (ho : o ≠ c.origin) : s'.lastRecord? o = s.lastRecord? o := by
  have hnone : tx.lastWrite? (.origin o) = none := by
    rw [Transaction.lastWrite?, h.writesTo_other hfiles ho]
    rfl
  rw [Store.lastRecord?, Store.newestOf?, Store.versionsOf_submit_of_not_writes hsub hnone]
  rfl

end Drafts

section Did

variable {s s' : Store} (hs : s.Sound)
  (hfiled : ∀ f, ∀ r ∈ s.owners f, ∀ k, r.content? f = some k → k.fact = f)

include hs hfiled

/-- What a run does, by the plan that is read for it. -/
private theorem did_of_run {r : Run} :
    ((Plan.ofRun .retain r).Gives s none → (reconcile r).Did s s) ∧
      ∀ p id s', (Plan.ofRun .retain r).Gives s (some p) →
        s.submit p.transaction = .ok (id, s') → (reconcile r).Did s s' := by
  constructor
  · intro hplan
    -- the plan is a draft against the latest record of its origin
    obtain ⟨previous, q, hprevious, hdraft, hres⟩ := Plan.ofRun_gives hfiled hplan
    obtain rfl := hprevious.unique (hs.previous_gives_last r.origin)
    rcases hres with ⟨-, hempty, hsame⟩ | ⟨p, hp, -⟩
    · exact .unchanged ⟨hdraft, Plan.not_stale_of_ofRun hplan⟩ hempty hsame
    · cases hp
  · intro p id s' hplan hsub
    obtain ⟨previous, q, hprevious, hdraft, hres⟩ := Plan.ofRun_gives hfiled hplan
    obtain rfl := hprevious.unique (hs.previous_gives_last r.origin)
    rcases hres with ⟨hp, -⟩ | ⟨p', hp, htx⟩
    · cases hp
    · obtain rfl := Option.some.inj hp
      rw [htx] at hsub
      have hfiles := Store.files_setCurrent q (s.lastRecord? r.origin)
        ⟨r.origin, r.method, r.validTime, r.asserted,
          (s.lastRecord? r.origin).elim 1 (·.runs + 1)⟩
      refine .commit ⟨hdraft, Plan.not_stale_of_ofRun hplan⟩ hfiles ?_ hsub
      refine ⟨?_, ?_, ?_, fun h => ?_⟩
      · rintro r' ⟨⟩
        rfl
      · rintro r' ⟨⟩
        rfl
      · rintro r' ⟨⟩
        rfl
      · cases h

/-- What a retirement does, by the plan that is read for it. -/
private theorem did_of_retirement {o : OriginId} {t : Instant} :
    ((Plan.ofRetirement .retain o t).Gives s none → (retire o t).Did s s) ∧
      ∀ p id s', (Plan.ofRetirement .retain o t).Gives s (some p) →
        s.submit p.transaction = .ok (id, s') → (retire o t).Did s s' := by
  constructor
  · intro hplan
    obtain ⟨previous, hprevious, hres⟩ := Plan.ofRetirement_gives hfiled hplan
    obtain rfl := hprevious.unique (hs.previous_gives_last o)
    rcases hres with ⟨-, hno⟩ | ⟨r, p, q, -, hp, -⟩
    · -- there was no record, so there is nothing to retire
      exact .unknown hno rfl
    · cases hp
  · intro p id s' hplan hsub
    obtain ⟨previous, hprevious, hres⟩ := Plan.ofRetirement_gives hfiled hplan
    obtain rfl := hprevious.unique (hs.previous_gives_last o)
    rcases hres with ⟨hp, -⟩ | ⟨r, p', q, hr, hp, hdraft, htx⟩
    · cases hp
    · obtain rfl := Option.some.inj hp
      obtain rfl := hs.id_of_lastRecord? hr
      rw [← hr] at hdraft
      rw [htx] at hsub
      refine .commit ⟨hdraft, Plan.not_stale_of_ofRetirement hplan⟩
        (Store.files_retire q r) ?_ hsub
      refine ⟨?_, ?_, ?_, fun _ => rfl⟩
      · rintro r' ⟨⟩
      · rintro r' ⟨⟩
      · rintro r' ⟨⟩

/-- **A call that retains orphaned edges** commits its draft, or fails and leaves the
    store. -/
theorem runs_perform_did (levels : LevelConfig) (hretain : config.cascade = .retain)
    (c : Call) :
    Act.Runs (c.perform levels config) s (fun _ s' => c.Did s s') (· = s) := by
  have hplan : ((c.plan .retain).Gives s none → c.Did s s) ∧
      ∀ p id s', (c.plan .retain).Gives s (some p) →
        s.submit p.transaction = .ok (id, s') → c.Did s s' := by
    cases c with
    | reconcile r => exact did_of_run hs hfiled
    | retire o t => exact did_of_retirement hs hfiled
  refine Act.runs_of_leads fun topics => (leads_perform levels config c).imp ?_ ?_
  · rintro x g (⟨hnone, -, rfl⟩ | ⟨p, id, s', hsome, hsub, -, rfl⟩)
    · rw [hretain] at hnone
      exact hplan.1 hnone
    · rw [hretain] at hsome
      exact hplan.2 p id s' hsome hsub
  · rintro e g rfl
    rfl

end Did

end Call

end ClearanceGraph
