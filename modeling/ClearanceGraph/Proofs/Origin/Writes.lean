import ClearanceGraph.Proofs.Origin.Call

/-! # What calls write — facts, and the record of one origin

    Every step of a plan puts or deletes a fact, whatever is done about orphaned
    edges, and notes it among the changes (`Plan.Steps`); the ledger adds the record of
    one origin (`Plan.Closes`).  `Call.plan_steps` says that every plan of a call is made
    like this.

    So a call commits at its own valid time, its commit can be told by the record, and
    it leaves profiles and outbox alone (`Call.plan_writes`). -/

namespace ClearanceGraph

/-- One more operation writes its own key, if it writes. -/
theorem Transaction.writes_push {tx : Transaction} {op : Operation} {k : DocumentKey} :
    (tx.push op).Writes k ↔ tx.Writes k ∨ op.isWrite = true ∧ op.key = k := by
  simp only [Writes, push, List.mem_append, List.mem_singleton]
  constructor
  · rintro ⟨op', hop | rfl, hw, hk⟩
    · exact .inl ⟨op', hop, hw, hk⟩
    · exact .inr ⟨hw, hk⟩
  · rintro (⟨op', hop, hw, hk⟩ | ⟨hw, hk⟩)
    · exact ⟨op', .inl hop, hw, hk⟩
    · exact ⟨op, .inr rfl, hw, hk⟩

namespace Plan

variable {s : Store} {F : Fact → Content → Prop} {p p' q : Plan} {o : OriginId} {f : Fact}

/-! ## Steps on facts -/

/-- A plan becomes another one by steps on facts. A put is a creation or an update by
    what the store shows at the instant of the plan, and `F` holds of the contents that
    are put for facts. -/
inductive Steps (s : Store) (F : Fact → Content → Prop) (p : Plan) : Plan → Prop where
  | refl : Steps s F p p
  | share {q : Plan} (f : Fact) : Steps s F p q → Steps s F p (q.share f)
  | put {q : Plan} {f : Fact} {c : Content} : F f c → Steps s F p q →
      Steps s F p ((q.push (.put (.content c))).record f
        (if (s.visible q.validTime (.fact c.fact)).isSome then .updated else .created))
  | delete {q : Plan} (f : Fact) : Steps s F p q →
      Steps s F p ((q.push (.delete (.fact f))).record f .retracted)

namespace Steps

/-- Steps after steps are steps. -/
theorem trans (h : p.Steps s F p') (h' : p'.Steps s F q) : p.Steps s F q := by
  induction h' with
  | refl => exact h
  | share f _ ih => exact ih.share f
  | put hc _ ih => exact ih.put hc
  | delete f _ ih => exact ih.delete f

/-- Steps keep the time of the plan. -/
theorem validTime (h : p.Steps s F q) : q.validTime = p.validTime := by
  induction h with
  | refl => rfl
  | share f _ ih => exact ih
  | put hc _ ih => exact ih
  | delete f _ ih => exact ih

/-- Steps write facts only. -/
theorem writes (h : p.Steps s F q) {k : DocumentKey} (hk : q.transaction.Writes k) :
    p.transaction.Writes k ∨ ∃ f, k = .fact f := by
  induction h with
  | refl => exact .inl hk
  | share f _ ih => exact ih hk
  | @put _ _ c _ _ ih =>
      rcases Transaction.writes_push.mp hk with hk | ⟨-, rfl⟩
      · exact ih hk
      · exact .inr ⟨c.fact, rfl⟩
  | delete f _ ih =>
      rcases Transaction.writes_push.mp hk with hk | ⟨-, rfl⟩
      · exact ih hk
      · exact .inr ⟨f, rfl⟩

/-- Steps put contents of facts only. -/
theorem puts (h : p.Steps s F q) {d : Document} (hd : .put d ∈ q.transaction.operations) :
    .put d ∈ p.transaction.operations ∨ ∃ f c, F f c ∧ d = .content c := by
  induction h with
  | refl => exact .inl hd
  | share f _ ih => exact ih hd
  | @put _ f c hc _ ih =>
      rcases List.mem_append.mp hd with hd | hd
      · exact ih hd
      · cases List.mem_singleton.mp hd
        exact .inr ⟨f, c, hc, rfl⟩
  | delete f _ ih =>
      rcases List.mem_append.mp hd with hd | hd
      · exact ih hd
      · cases List.mem_singleton.mp hd

end Steps

/-- A put is one step at most. -/
theorem putIfChanged_steps {c : Content} (hc : F f c) (h : (p.putIfChanged f c).Gives s q) :
    p.Steps s F q := by
  obtain ⟨current, hcurrent, h⟩ := h.of_bind
  have hvisible : s.visible p.validTime (.fact c.fact) = current :=
    (Reading.gives_get _ _ s).unique hcurrent
  have hput := Steps.put hc (Steps.refl (s := s) (p := p))
  rw [hvisible] at hput
  cases current with
  | none =>
      obtain rfl := h.unique (Reading.gives_pure s _)
      exact hput
  | some d =>
      dsimp only at h
      split at h
      · obtain rfl := h.unique (Reading.gives_pure s _)
        exact .refl
      · obtain rfl := h.unique (Reading.gives_pure s _)
        exact hput

theorem putAll_steps (es : List (Fact × Content)) :
    ∀ {p : Plan}, (∀ e ∈ es, F e.1 e.2) → (putAll es p).Gives s q → p.Steps s F q := by
  induction es with
  | nil =>
      intro p _ h
      obtain rfl := h.unique (Reading.gives_pure s _)
      exact .refl
  | cons e es ih =>
      intro p he h
      obtain ⟨p', hp', h⟩ := h.of_bind
      exact (putIfChanged_steps (he e List.mem_cons_self) hp').trans
        (ih (fun e' he' => he e' (List.mem_cons_of_mem _ he')) h)

/-- A drop is one step at most: a put of what an owner has, or a deletion. -/
theorem dropFact_steps {gone gone' : KeySet Reference}
    (howners : ∀ r ∈ s.owners f, ∀ c, r.content? f = some c → F f c)
    (h : (dropFact o f p gone).Gives s (q, gone')) : p.Steps s F q := by
  obtain ⟨rs, hrs, h⟩ := h.of_bind
  obtain rfl := hrs.unique (s.owners_gives f)
  cases hsurv : survivor? o (s.owners f) with
  -- a survivor keeps the fact, with its own content
  | some r =>
      rw [hsurv] at h
      have hshare : p.Steps s F (p.share f) := .share f .refl
      dsimp only at h
      split at h
      · next c hc =>
        have hr : r ∈ s.owners f := (List.mem_filter.mp (mem_of_lastMax? hsurv)).1
        obtain ⟨p', hp', h⟩ := h.of_bind
        obtain ⟨rfl, -⟩ := Prod.mk.inj (h.unique (Reading.gives_pure s _))
        exact hshare.trans (putIfChanged_steps (howners r hr c hc) hp')
      · obtain ⟨rfl, -⟩ := Prod.mk.inj (h.unique (Reading.gives_pure s _))
        exact hshare
  -- nobody keeps it, so it is deleted if it shows
  | none =>
      rw [hsurv] at h
      obtain ⟨current, -, h⟩ := h.of_bind
      cases current with
      | none =>
          obtain ⟨rfl, -⟩ := Prod.mk.inj (h.unique (Reading.gives_pure s _))
          exact .refl
      | some d =>
          have hq : q = (p.push (.delete (.fact f))).record f .retracted := by
            cases f <;> exact (Prod.mk.inj (h.unique (Reading.gives_pure s _))).1
          rw [hq]
          exact .delete f .refl

theorem dropAll_steps (howners : ∀ f, ∀ r ∈ s.owners f, ∀ c, r.content? f = some c → F f c)
    (fs : List Fact) : ∀ {p : Plan} {gone gone' : KeySet Reference},
    (dropAll o fs p gone).Gives s (q, gone') → p.Steps s F q := by
  induction fs with
  | nil =>
      intro p gone gone' h
      obtain ⟨rfl, -⟩ := Prod.mk.inj (h.unique (Reading.gives_pure s _))
      exact .refl
  | cons f fs ih =>
      intro p gone gone' h
      obtain ⟨⟨p', gone₁⟩, hp', h⟩ := h.of_bind
      exact (dropFact_steps (howners f) hp').trans (ih h)

/-- So is the removal of an edge. -/
theorem removeEdge_steps (asserted : Table Fact Content) (p : Plan) (e : Edge) :
    p.Steps s F (removeEdge asserted p e) := by
  rw [removeEdge]
  split
  · exact .refl
  · exact .delete _ .refl

theorem foldl_removeEdge_steps (asserted : Table Fact Content) (es : List Edge) :
    ∀ p : Plan, p.Steps s F (es.foldl (removeEdge asserted) p) := by
  induction es with
  | nil => exact fun p => .refl
  | cons e es ih => exact fun p => (removeEdge_steps asserted p e).trans (ih _)

theorem removeEdges_steps (asserted : Table Fact Content) (rs : List Reference) :
    ∀ {p : Plan}, (removeEdges asserted rs p).Gives s q → p.Steps s F q := by
  induction rs with
  | nil =>
      intro p h
      obtain rfl := h.unique (Reading.gives_pure s _)
      exact .refl
  | cons r rs ih =>
      intro p h
      obtain ⟨ds, -, h⟩ := h.of_bind
      exact (foldl_removeEdge_steps asserted _ p).trans (ih h)

/-- Retracting, whatever is done about orphaned edges. -/
theorem retract_steps {policy : CascadePolicy} {fs : List Fact}
    {asserted : Table Fact Content} {gone : KeySet Reference}
    (howners : ∀ f, ∀ r ∈ s.owners f, ∀ c, r.content? f = some c → F f c)
    (h : (retract policy o fs asserted p).Gives s (q, gone)) : p.Steps s F q := by
  obtain ⟨⟨p', gone'⟩, hp', h⟩ := h.of_bind
  have hdrop := dropAll_steps howners fs hp'
  cases policy with
  | retain =>
      obtain ⟨rfl, -⟩ := Prod.mk.inj (h.unique (Reading.gives_pure s _))
      exact hdrop
  | retractOrphanedEdges =>
      obtain ⟨p'', hp'', h⟩ := h.of_bind
      obtain ⟨rfl, -⟩ := Prod.mk.inj (h.unique (Reading.gives_pure s _))
      exact hdrop.trans (removeEdges_steps asserted _ hp'')

/-! ## The ledger -/

/-- A plan with the ledger written: a new record of an origin, or the end of its
    record. -/
inductive Closes (q : Plan) (o : OriginId) (asserted : Table Fact Content) :
    Plan → Prop where
  | record (previous : Option OriginRecord) {r : OriginRecord} : r.id = o →
      r.result = asserted →
      Closes q o asserted { q with
        transaction := Ledger.setCurrent q.transaction previous r }
  | ended {r : OriginRecord} : r.id = o →
      Closes q o asserted { q with transaction := Ledger.retire q.transaction r }

/-- **The plan of a run** has steps, and closes them with a record. -/
theorem ofRun_steps {policy : CascadePolicy} {r : Run}
    (hasserted : ∀ f c, r.asserted.get? f = some c → F f c)
    (howners : ∀ f, ∀ r ∈ s.owners f, ∀ c, r.content? f = some c → F f c)
    (h : (ofRun policy r).Gives s (some p)) :
    ∃ q, (Plan.empty r.validTime).Steps s F q ∧ q.Closes r.origin r.asserted p := by
  obtain ⟨previous, p₁, q, gone, -, hp₁, hq, ⟨hnone, -⟩ | hp⟩ := ofRun_parts h
  · cases hnone
  · obtain rfl := Option.some.inj hp
    refine ⟨q, (putAll_steps _ (fun e he => ?_) hp₁).trans (retract_steps howners hq),
      .record previous rfl rfl⟩
    exact hasserted _ _ ((r.asserted.mem_entries_iff).mp he)

/-- **The plan of a retirement** has steps, and closes them with the end of a record. -/
theorem ofRetirement_steps {policy : CascadePolicy} {t : Instant} (hs : s.Sound)
    (howners : ∀ f, ∀ r ∈ s.owners f, ∀ c, r.content? f = some c → F f c)
    (h : (ofRetirement policy o t).Gives s (some p)) :
    ∃ q, (Plan.empty t).Steps s F q ∧ q.Closes o Table.empty p := by
  obtain ⟨previous, hprevious, ⟨hnone, -⟩ | ⟨r, q, gone, hr, hq, hp⟩⟩ :=
    ofRetirement_parts h
  · cases hnone
  · obtain rfl := hprevious.unique (hs.previous_gives_last o)
    obtain rfl := Option.some.inj hp
    exact ⟨q, retract_steps howners hq, .ended (hs.id_of_lastRecord? hr)⟩

/-- A transaction at an instant that writes facts and the record of one origin. -/
def WritesRecord (tx : Transaction) (t : Instant) : Prop :=
  tx.validTime = t ∧ ∃ o, tx.Writes (.origin o) ∧
    ∀ k, tx.Writes k → (∃ f, k = .fact f) ∨ k = .origin o

/-- A plan of steps that writes an origin in the end writes facts and that record. -/
private theorem writesRecord_push {t : Instant} {op : Operation} {d : Option Document}
    (h : (Plan.empty t).Steps s F q) (hop : op.isWrite = true ∧ op.key = .origin o) :
    WritesRecord ((q.transaction.push (.expect (.origin o) d)).push op) t := by
  refine ⟨h.validTime, o, Transaction.writes_push.mpr (.inr hop), fun k hk => ?_⟩
  rcases Transaction.writes_push.mp hk with hk | ⟨-, rfl⟩
  · rcases Transaction.writes_push.mp hk with hk | ⟨hno, -⟩
    · refine .inl ((h.writes hk).resolve_left ?_)
      rintro ⟨op', hop', -⟩
      cases hop'
    · cases hno
  · exact .inr hop.2

/-- So every plan does that closes its steps. -/
theorem Closes.writesRecord {asserted : Table Fact Content} {t : Instant}
    (h : (Plan.empty t).Steps s F q) (hp : q.Closes o asserted p) :
    WritesRecord p.transaction t := by
  cases hp with
  | record previous hid _ => exact writesRecord_push h ⟨rfl, rfl⟩
  | ended hid => exact writesRecord_push h ⟨rfl, rfl⟩

/-- The ledger puts one record at most, with what its origin asserts. -/
theorem Closes.puts {asserted : Table Fact Content} (hp : q.Closes o asserted p)
    {d : Document} (hd : .put d ∈ p.transaction.operations) :
    .put d ∈ q.transaction.operations ∨ ∃ r, r.result = asserted ∧ d = .origin r := by
  cases hp with
  | @record previous r _ hresult =>
      rcases List.mem_append.mp hd with hd | hd
      · refine .inl ((List.mem_append.mp hd).resolve_right fun hd => ?_)
        cases List.mem_singleton.mp hd
      · cases List.mem_singleton.mp hd
        exact .inr ⟨r, hresult, rfl⟩
  | ended _ =>
      rcases List.mem_append.mp hd with hd | hd
      · refine .inl ((List.mem_append.mp hd).resolve_right fun hd => ?_)
        cases List.mem_singleton.mp hd
      · cases List.mem_singleton.mp hd

end Plan

namespace Call

variable {s : Store} {p : Plan} {policy : CascadePolicy} {c : Call}

/-- **How the plan of a call is made**: by steps on facts, and then the ledger is
    written. -/
theorem plan_steps {F : Fact → Content → Prop} (hs : s.Sound)
    (hasserted : ∀ f k, c.asserted.get? f = some k → F f k)
    (howners : ∀ f, ∀ r ∈ s.owners f, ∀ k, r.content? f = some k → F f k)
    (h : (c.plan policy).Gives s (some p)) :
    ∃ q, (Plan.empty c.validTime).Steps s F q ∧ q.Closes c.origin c.asserted p := by
  cases c with
  | reconcile r => exact Plan.ofRun_steps hasserted howners h
  | retire o t => exact Plan.ofRetirement_steps hs howners h

/-- **What a call puts**: contents that it asserts or that other origins keep, and a
    record of what it asserts. -/
theorem plan_puts {F : Fact → Content → Prop} (hs : s.Sound)
    (hasserted : ∀ f k, c.asserted.get? f = some k → F f k)
    (howners : ∀ f, ∀ r ∈ s.owners f, ∀ k, r.content? f = some k → F f k)
    (h : (c.plan policy).Gives s (some p)) {d : Document}
    (hd : .put d ∈ p.transaction.operations) :
    (∃ f k, F f k ∧ d = .content k) ∨ ∃ r, r.result = c.asserted ∧ d = .origin r := by
  obtain ⟨q, hsteps, hcloses⟩ := plan_steps hs hasserted howners h
  rcases hcloses.puts hd with hd | hrecord
  · exact .inl ((hsteps.puts hd).resolve_left fun hd => nomatch hd)
  · exact .inr hrecord

/-- **What a call writes**: facts and the record of one origin, at its own valid time. -/
theorem plan_writes (hs : s.Sound) (h : (c.plan policy).Gives s (some p)) :
    Plan.WritesRecord p.transaction c.validTime := by
  obtain ⟨q, hsteps, hp⟩ := plan_steps (F := fun _ _ => True) hs (fun _ _ _ => trivial)
    (fun _ _ _ _ _ => trivial) h
  exact hp.writesRecord hsteps

end Call

end ClearanceGraph
