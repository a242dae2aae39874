import ClearanceGraph.Proofs.Origin.Writes
import ClearanceGraph.Proofs.Store.Log

/-! # The guard of the ledger — two plans from one record

    A plan replaces the record of its origin under a match on the record it was made
    from.  The match looks at the valid time of the transaction.  Before anything was
    committed this is the latest record, since no plan is earlier than its origin was
    last seen (`Sound.visible_of_seen`).

    Once the first of two plans is committed, its own record shows from its valid
    time on.  So a second plan that is not earlier finds the wrong record and is
    refused.  A second plan that is earlier still finds the record before, and is
    committed too (`Ledger.second_refused_iff`). -/

namespace ClearanceGraph

namespace OriginRecord

theorem beq_self (r : OriginRecord) : (r == r) = true := by
  obtain ⟨i, m, t, c, n⟩ := r
  show (i == i && (m == m && (t == t && (c == c && n == n)))) = true
  simp only [beq_self_eq_true, Bool.and_self]

/-- Records that agree count the same runs. -/
theorem runs_eq_of_beq {r r' : OriginRecord} (h : (r == r') = true) : r.runs = r'.runs := by
  obtain ⟨i, m, t, c, n⟩ := r
  obtain ⟨i', m', t', c', n'⟩ := r'
  have hfields : (i == i' && (m == m' && (t == t' && (c == c' && n == n')))) = true := h
  simp only [Bool.and_eq_true, beq_iff_eq] at hfields
  exact hfields.2.2.2.2

end OriginRecord

/-- A transaction that writes facts and nothing else. -/
def Transaction.OnFacts (tx : Transaction) : Prop :=
  ∀ op ∈ tx.operations, op.isWrite = true ∧ ∃ f, op.key = .fact f

namespace Store

variable {s s' : Store} {o : OriginId} {t : Instant}

/-- From when an origin was last seen its latest record shows. -/
theorem Sound.visible_of_seen (hs : s.Sound)
    (h : ∀ v ∈ s.versionsOf (.origin o), v.validFrom ≤ t) :
    s.visible t (.origin o) = (s.lastRecord? o).map .origin := by
  rw [lastRecord?]
  cases hn : s.newestOf? (.origin o) with
  | none => rw [visible_of_versionsOf_eq_nil (newestOf?_eq_none_iff.mp hn)]; rfl
  | some v =>
      have hmem := mem_of_newestOf? hn
      rw [visible_of_newestOf? hn (h v hmem), Option.bind_some]
      cases hd : v.document with
      | none => rfl
      | some d =>
          -- what lies under the key of an origin is a record
          have hkey := hs.filed hmem hd
          rcases d with c | r | p | e
          · simp [Document.key] at hkey
          · rfl
          · simp [Document.key] at hkey
          · simp [Document.key] at hkey

/-- **A match decides**: a transaction that is guarded by one match and writes otherwise
    is committed if the match sees what it expects, and stopped by it if not. -/
theorem submit_guarded {draft : Transaction} {k : DocumentKey} {d : Option Document}
    {op : Operation}
    (hdraft : ∀ op ∈ draft.operations, op.isWrite = true) (hop : op.isWrite = true) :
    ((s.visible draft.validTime k == d) = true →
        ∃ s', s.submit ((draft.push (.expect k d)).push op) = .ok (s.nextId, s')) ∧
      ((s.visible draft.validTime k == d) = false →
        s.submit ((draft.push (.expect k d)).push op) = .error (.matchFailed k)) := by
  -- writes are always accepted, so the expectation decides
  have hwrite : ∀ op : Operation, op.isWrite = true →
      s.accepts draft.validTime op = true := by
    intro op hop
    cases op with
    | put d => rfl
    | delete l => rfl
    | expect l d => cases hop
  constructor
  · intro hsees
    refine submit_of_accepts fun op' hop' => ?_
    simp only [Transaction.push, List.mem_append, List.mem_singleton] at hop'
    rcases hop' with (hop' | rfl) | rfl
    · exact hwrite op' (hdraft op' hop')
    · exact hsees
    · exact hwrite _ hop
  · intro hsees
    have hfind : (((draft.push (.expect k d)).push op).operations.find? fun op' =>
        !s.accepts ((draft.push (.expect k d)).push op).validTime op') =
          some (.expect k d) := by
      have hnone : draft.operations.find? (fun op => !s.accepts draft.validTime op) =
          none := by
        refine List.find?_eq_none.mpr fun op' hop' => ?_
        simp [hwrite op' (hdraft op' hop')]
      have hstops : s.accepts draft.validTime (.expect k d) = false := hsees
      simp only [Transaction.push, List.find?_append, hnone, Option.none_or,
        List.find?_cons, hstops, Bool.not_false, Option.some_or]
    simp only [submit, hfind]
    rfl

end Store

namespace Ledger

variable {s : Store} {o : OriginId} {previous : Option OriginRecord} {draft : Transaction}
  {x : Option OriginRecord} {tx : Transaction}

/-- A transaction that closes a draft with the ledger, as it follows from the record
    before: a new record of the origin with one more run, or the end of its record. -/
inductive Closes (o : OriginId) (previous : Option OriginRecord) (draft : Transaction) :
    Option OriginRecord → Transaction → Prop where
  | record {r : OriginRecord} : r.id = o → r.runs = previous.elim 1 (·.runs + 1) →
      Closes o previous draft (some r) (setCurrent draft previous r)
  | ended {r : OriginRecord} : r.id = o → previous = some r →
      Closes o previous draft none (retire draft r)

namespace Closes

theorem validTime (h : Closes o previous draft x tx) : tx.validTime = draft.validTime := by
  cases h <;> rfl

/-- What is filed is never the record before. -/
theorem beq_eq_false (h : Closes o previous draft x tx) :
    (x.map Document.origin == previous.map Document.origin) = false := by
  cases h with
  | ended _ hprevious => rw [hprevious]; rfl
  | @record r _ hruns =>
      cases previous with
      | none => rfl
      | some r' =>
          -- the records differ in their runs
          refine Bool.eq_false_iff.mpr fun heq => ?_
          have hrecords : (r == r') = true := heq
          have := OriginRecord.runs_eq_of_beq hrecords
          rw [Option.elim_some] at hruns
          omega

/-- The ledger is written last. -/
theorem lastWrite? (h : Closes o previous draft x tx) :
    tx.lastWrite? (.origin o) = some (x.map .origin) := by
  cases h with
  | @record r hid _ =>
      subst hid
      exact (Store.files_setCurrent ⟨draft, [], []⟩ previous r).lastWrite?_own
  | @ended r hid _ =>
      subst hid
      exact (Store.files_retire ⟨draft, [], []⟩ r).lastWrite?_own

/-- The match of the ledger decides. -/
theorem submit (h : Closes o previous draft x tx) (hdraft : draft.OnFacts) :
    ((s.visible draft.validTime (.origin o) == previous.map .origin) = true →
        ∃ s', s.submit tx = .ok (s.nextId, s')) ∧
      ((s.visible draft.validTime (.origin o) == previous.map .origin) = false →
        s.submit tx = .error (.matchFailed (.origin o))) := by
  have hwrites : ∀ op ∈ draft.operations, op.isWrite = true :=
    fun op hop => (hdraft op hop).1
  cases h with
  | record hid _ =>
      subst hid
      exact Store.submit_guarded hwrites rfl
  | ended hid hprevious =>
      subst hid
      rw [hprevious]
      exact Store.submit_guarded hwrites rfl

end Closes

/-- **The second of two plans made from one record**, once the first is committed. -/
theorem Closes.second {b b₁ : Backend} {draft₁ draft₂ tx₁ tx₂ : Transaction}
    {x₁ x₂ : Option OriginRecord} {id : TransactionId} (hs : b.store.Sound)
    (h₁ : Closes o (b.store.lastRecord? o) draft₁ x₁ tx₁)
    (h₂ : Closes o (b.store.lastRecord? o) draft₂ x₂ tx₂) (hdraft₂ : draft₂.OnFacts)
    (hle₁ : ∀ v ∈ b.store.versionsOf (.origin o), v.validFrom ≤ tx₁.validTime)
    (hle₂ : ∀ v ∈ b.store.versionsOf (.origin o), v.validFrom ≤ tx₂.validTime)
    (hfirst : b.submit tx₁ = (.ok id, b₁)) :
    (b₁.submit tx₂ = (.error (.matchFailed (.origin o)), b₁) ↔
      tx₁.validTime ≤ tx₂.validTime) ∧
      (tx₂.validTime < tx₁.validTime → ∃ id₂ b₂, b₁.submit tx₂ = (.ok id₂, b₂)) := by
  rcases b.submit_cases tx₁ with ⟨e, n, hr⟩ | ⟨id', s', hon, hsub, hr⟩
  · rw [hr] at hfirst
    cases hfirst
  obtain rfl : { b with store := s' } = b₁ := by
    rw [hr] at hfirst
    exact congrArg Prod.snd hfirst
  have hsubmit₂ := Backend.submit_of_on (b := { b with store := s' }) hon tx₂
  have hdecides := h₂.submit (s := s') hdraft₂
  rw [← h₂.validTime] at hdecides
  have hcommits : tx₂.validTime < tx₁.validTime →
      ∃ id₂ b₂, Backend.submit { b with store := s' } tx₂ = (.ok id₂, b₂) := by
    intro hlt
    have hvisible : s'.visible tx₂.validTime (.origin o) = (b.store.lastRecord? o).map
      .origin :=
      (Store.visible_submit_of_lt hsub hlt _).trans (hs.visible_of_seen hle₂)
    have hself : ((b.store.lastRecord? o).map Document.origin ==
        (b.store.lastRecord? o).map Document.origin) = true := by
      cases b.store.lastRecord? o with
      | none => rfl
      | some r => exact r.beq_self
    rw [hvisible] at hdecides
    obtain ⟨s'', hok⟩ := hdecides.1 hself
    rw [hok] at hsubmit₂
    exact ⟨_, _, hsubmit₂⟩
  refine ⟨⟨fun href => ?_, fun htimes => ?_⟩, hcommits⟩
  · by_contra hlt
    obtain ⟨id₂, b₂, hok⟩ := hcommits (lt_of_not_ge hlt)
    rw [href] at hok
    cases hok
  · -- the first record is the newest one, and shows from its valid time on
    have hnewest := Store.newestOf?_submit_of_le hs hsub h₁.lastWrite? hle₁
    rw [Store.visible_of_newestOf? hnewest htimes] at hdecides
    rw [hdecides.2 h₁.beq_eq_false] at hsubmit₂
    exact hsubmit₂

/-- What is not earlier than an origin was last seen is not earlier than any version of
    its record. -/
theorem validFrom_le_of_lastSeen {seen : Option Instant}
    (hseen : (Ledger.lastSeen o).Gives s seen)
    {t : Instant} (ht : ∀ t' ∈ seen, t' ≤ t) : ∀ v ∈ s.versionsOf (.origin o),
      v.validFrom ≤ t := by
  obtain ⟨seen', hgives, hlast⟩ := s.lastSeen_gives o
  obtain rfl := hseen.unique hgives
  intro v hv
  obtain ⟨t', rfl, hvt⟩ := hlast v hv
  exact le_trans hvt (ht t' rfl)

/-- **Of two transactions made from one record the second is refused exactly if it is
    not earlier** than the first, once the first is committed, and then it changes
    nothing. An earlier one is committed as well. -/
theorem second_refused_iff {b b₁ : Backend} {seen : Option Instant}
    {draft₁ draft₂ tx₁ tx₂ : Transaction} {x₁ x₂ : Option OriginRecord} {id : TransactionId}
    (hb : b.store.Reachable) (hprevious : (Ledger.previous o).Gives b.store previous)
    (hseen : (Ledger.lastSeen o).Gives b.store seen)
    (h₁ : Closes o previous draft₁ x₁ tx₁) (h₂ : Closes o previous draft₂ x₂ tx₂)
    (hdraft₂ : draft₂.OnFacts) (hseen₁ : ∀ t ∈ seen, t ≤ tx₁.validTime)
    (hseen₂ : ∀ t ∈ seen, t ≤ tx₂.validTime) (hfirst : b.submit tx₁ = (.ok id, b₁)) :
    (b₁.submit tx₂ = (.error (.matchFailed (.origin o)), b₁) ↔
      tx₁.validTime ≤ tx₂.validTime) ∧
      (tx₂.validTime < tx₁.validTime → ∃ id₂ b₂, b₁.submit tx₂ = (.ok id₂, b₂)) := by
  obtain rfl := hprevious.unique (hb.sound.previous_gives_last o)
  exact h₁.second hb.sound h₂ hdraft₂ (validFrom_le_of_lastSeen hseen hseen₁)
    (validFrom_le_of_lastSeen hseen hseen₂) hfirst

/-- A first run that finds a host. -/
def firstRun (t : Instant) (host : String) : Transaction :=
  setCurrent ⟨t, [.put (.content (.object ⟨⟨"Host|" ++ host⟩, "Host", Table.empty⟩))]⟩ none
    ⟨⟨"a"⟩, .observation, t, Table.empty, 1⟩

theorem closes_firstRun (t : Instant) (host : String) : ∃ draft x,
    Closes ⟨"a"⟩ none draft x (firstRun t host) ∧ draft.OnFacts ∧ draft.validTime = t := by
  refine ⟨_, _, .record rfl rfl, ?_, rfl⟩
  intro op hop
  rw [List.mem_singleton.mp hop]
  exact ⟨rfl, _, rfl⟩

/-- Two first runs of an origin, the second one for an earlier time, are both
    committed. -/
theorem second_refused_iff_firstRuns :
    ∃ id₂ b₂, (Backend.empty.submit (firstRun .latest "x")).2.submit
      (firstRun ⟨.origin, .midnight⟩ "y") = (.ok id₂, b₂) := by
  obtain ⟨draft₁, x₁, h₁, -, -⟩ := closes_firstRun .latest "x"
  obtain ⟨draft₂, x₂, h₂, hdraft₂, -⟩ := closes_firstRun ⟨.origin, .midnight⟩ "y"
  have hreach : Backend.empty.store.Reachable := .empty
  have hprevious : (Ledger.previous ⟨"a"⟩).Gives Backend.empty.store none := rfl
  have hseen : (Ledger.lastSeen ⟨"a"⟩).Gives Backend.empty.store none := rfl
  have hfirst : Backend.empty.submit (firstRun .latest "x") =
      (.ok ⟨1⟩, (Backend.empty.submit (firstRun .latest "x")).2) := rfl
  exact (second_refused_iff hreach hprevious hseen h₁ h₂ hdraft₂ (fun _ ht => nomatch ht)
    (fun _ ht => nomatch ht) hfirst).2 (by decide)

end Ledger

namespace Plan.Steps

variable {s : Store} {F : Fact → Content → Prop} {p q : Plan}

/-- A draft has steps on facts and no matches. -/
theorem onFacts (h : p.Steps s F q) (hp : p.transaction.OnFacts) :
    q.transaction.OnFacts := by
  have hpush : ∀ {tx : Transaction} {op : Operation}, tx.OnFacts → op.isWrite = true →
      (∃ f, op.key = .fact f) → (tx.push op).OnFacts := by
    intro tx op htx hwrite hkey op' hop'
    rcases List.mem_append.mp hop' with hop' | hop'
    · exact htx op' hop'
    · rw [List.mem_singleton.mp hop']
      exact ⟨hwrite, hkey⟩
  induction h with
  | refl => exact hp
  | share f _ ih => exact ih
  | @put _ _ c _ _ ih => exact hpush ih rfl ⟨c.fact, rfl⟩
  | delete f _ ih => exact hpush ih rfl ⟨f, rfl⟩

end Plan.Steps

namespace Call

variable {policy : CascadePolicy} {c : Call} {s : Store} {p : Plan}

/-- What a call files: a run its record, with one more run than the record before, a
    retirement the end of the record. -/
def filed (previous : Option OriginRecord) : Call → Option OriginRecord
  | reconcile r =>
    some ⟨r.origin, r.method, r.validTime, r.asserted, previous.elim 1 (·.runs + 1)⟩
  | retire _ _ => none

/-- **A plan closes a draft** of its call with the ledger, and files what the call
    files. -/
theorem plan_files (hs : s.Sound) (h : (c.plan policy).Gives s (some p)) :
    ∃ draft, Ledger.Closes c.origin (s.lastRecord? c.origin) draft
      (c.filed (s.lastRecord? c.origin)) p.transaction ∧
      draft.OnFacts ∧ p.transaction.validTime = c.validTime := by
  have hempty : ∀ t, (Plan.empty t).transaction.OnFacts := fun t op hop => by cases hop
  cases c with
  | reconcile r =>
      obtain ⟨previous, p₁, q, gone, hprevious, hp₁, hq, ⟨hnone, -⟩ | hp⟩ :=
        Plan.ofRun_parts h
      · cases hnone
      obtain rfl := hprevious.unique (hs.previous_gives_last r.origin)
      obtain rfl := Option.some.inj hp
      -- putting and retracting write facts only, and keep the time
      have hsteps :=
        (Plan.putAll_steps (F := fun _ _ => True) _ (fun _ _ => trivial) hp₁).trans
        (Plan.retract_steps (fun _ _ _ _ _ => trivial) hq)
      exact ⟨_, .record rfl rfl, hsteps.onFacts (hempty _), hsteps.validTime⟩
  | retire o t =>
      obtain ⟨previous, hprevious, ⟨hnone, -⟩ | ⟨l, q, gone, hl, hq, hp⟩⟩ :=
        Plan.ofRetirement_parts h
      · cases hnone
      obtain rfl := hprevious.unique (hs.previous_gives_last o)
      obtain rfl := Option.some.inj hp
      have hsteps := Plan.retract_steps (F := fun _ _ => True) (fun _ _ _ _ _ => trivial) hq
      exact ⟨_, .ended (hs.id_of_lastRecord? hl) hl, hsteps.onFacts (hempty _),
        hsteps.validTime⟩

theorem plan_inOrder (h : (c.plan policy).Gives s (some p)) :
    ∀ v ∈ s.versionsOf (.origin c.origin), v.validFrom ≤ c.validTime := by
  cases c with
  | reconcile r => exact Plan.not_stale_of_ofRun h
  | retire o t => exact Plan.not_stale_of_ofRetirement h

/-- After the commit of a call the latest record is what the call filed. -/
theorem lastRecord?_submit {s' : Store} {id : TransactionId} (hs : s.Sound)
    (h : (c.plan policy).Gives s (some p))
    (hsub : s.submit p.transaction = .ok (id, s')) :
    s'.lastRecord? c.origin = c.filed (s.lastRecord? c.origin) := by
  obtain ⟨draft, hcloses, -, htime⟩ := plan_files hs h
  have hle : ∀ v ∈ s.versionsOf (.origin c.origin),
      v.validFrom ≤ p.transaction.validTime := by
    rw [htime]
    exact plan_inOrder h
  rw [Store.lastRecord?, Store.newestOf?_submit_of_le hs hsub hcloses.lastWrite? hle]
  cases c.filed (s.lastRecord? c.origin) <;> rfl

end Call

end ClearanceGraph
