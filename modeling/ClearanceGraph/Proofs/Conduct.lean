import ClearanceGraph.Clearance.Pass
import ClearanceGraph.Proofs.Comparison
import ClearanceGraph.Proofs.Event.Publisher
import ClearanceGraph.Proofs.Origin.Call

/-! # Conduct — what a program keeps if its basic actions do

    A program acts on the world in four ways: it reads the store, submits a
    transaction, sends a message and looks at the clock.  `World.Conduct I A R` says that
    each of them leads to worlds that `R` relates to the world before, as long as what is
    submitted is of the kind `A`; what is read may be used to show this, and it was read
    in a store of which `I` holds.

    Then publishers, passes and calls lead to such worlds, and the only thing left to
    show is that what they submit is of the kind.  Nothing is said here of rivals or of
    faults: they are a matter of the basic actions. -/

namespace ClearanceGraph

/-- Each basic action leads to worlds that `R` relates to the world before, if
    transactions are of the kind `A`. What was read was read in a store of which `I`
    holds. -/
structure World.Conduct (I : Store → Prop) (A : Transaction → Prop)
    (R : World → World → Prop) :
    Prop extends IsPreorder World R where
  read : ∀ {α β : Type} {r : Reading α} {f : α → Act β},
    (∀ s x, I s → r.Gives s x → Keeps R (f x)) → Keeps R (World.read r >>= f : Act β)
  submit : ∀ {tx}, A tx → Keeps R (World.submit tx)
  publish : ∀ topic text, Keeps R (World.publish topic text)
  now : Keeps R World.now

namespace World.Conduct

variable {I : Store → Prop} {A : Transaction → Prop} {R : World → World → Prop}
  (h : World.Conduct I A R)

include h

/-- Reading, whatever comes of it. -/
theorem look {α : Type} (r : Reading α) : Keeps R (World.read r) := by
  have := h.toIsPreorder
  have hread : Keeps R (World.read r >>= pure : Act α) := h.read fun _ x _ _ => .pure _
  rwa [bind_pure] at hread

section Publisher

variable (c : PublisherConfig)

/-- Messages are sent one after another. -/
theorem sendAll (ms : List (String × String)) : Keeps R (Publisher.sendAll c ms) := by
  have := h.toIsPreorder
  induction ms with
  | nil => exact .pure _
  | cons m ms ih =>
      refine .bind (.retry (h.publish _ _) _ _) fun r => ?_
      obtain ⟨r, n⟩ := r
      cases r with
      | ok u => exact ih
      | error e => exact .pure _

/-- Clearing submits one transaction. -/
theorem clear {e : OutboxEntry} (he : A (Publisher.clearing e)) :
    Keeps R (Publisher.clear e) := by
  have := h.toIsPreorder
  exact .andThen (.lift (h.submit he)) fun _ => .pure _

/-- Parking at an instant submits one transaction. -/
private theorem put {b : Batch} (t : Instant) (hb : A (Publisher.parking b t)) : Keeps R (do
    match ← World.submit (Publisher.parking b t) with
    | .ok _ => return ()
    | .error e => throw (.ofStorage e) : Act Unit) := by
  have := h.toIsPreorder
  refine .andThen (.lift (h.submit hb)) fun r => ?_
  cases r <;> exact .pure _

/-- Parking asks the clock first. -/
theorem park {b : Batch} (hb : ∀ t, A (Publisher.parking b t)) :
    Keeps R (Publisher.park b) := by
  have := h.toIsPreorder
  refine h.read fun _ existing _ _ => ?_
  split
  · exact .pure _
  · cases existing with
    | none => exact .andThen (.lift h.now) fun t => h.put t (hb t)
    | some e => exact .andThen (.pure _) fun t => h.put t (hb t)

/-- **Publishing a batch.** -/
theorem publishBatch {b : Batch}
    (hclear : ∀ s e, I s → (Outbox.entry b.transaction).Gives s (some e) →
      A (Publisher.clearing e))
    (hpark : ∀ t, A (Publisher.parking b t)) : Keeps R (Publisher.publish c b) := by
  have := h.toIsPreorder
  rw [Publisher.publish]
  split
  · exact .pure _
  · refine .andThen (.lift (h.sendAll c _)) fun r => ?_
    cases r with
    | ok u =>
        refine h.read fun s existing hs hgives => ?_
        cases existing with
        | none => exact .pure _
        | some e => exact h.clear (hclear s e hs hgives)
    | error e => exact .andThen (h.park hpark) fun _ => .pure _

/-- Entries are sent, and cleared where that succeeds. -/
theorem republishAll {es : List OutboxEntry} (hclear : ∀ e ∈ es, A (Publisher.clearing e)) :
    Keeps R (Publisher.republishAll c es) := by
  have := h.toIsPreorder
  induction es with
  | nil => exact .pure _
  | cons e es ih =>
      have ih := ih fun e' he' => hclear e' (List.mem_cons_of_mem e he')
      refine .andThen (.lift (h.sendAll c _)) fun r => ?_
      cases r with
      | ok u =>
          exact .andThen (h.clear (hclear e List.mem_cons_self)) fun _ =>
            .andThen ih fun _ => .pure _
      | error x => exact ih

/-- **Publishing what waits.** -/
theorem republishPending
    (hclear : ∀ s es, I s → Publisher.waiting.Gives s es →
      ∀ e ∈ es, A (Publisher.clearing e)) :
    Keeps R (Publisher.republishPending c) :=
  h.read fun s es hs hgives => h.republishAll c (hclear s es hs hgives)

end Publisher

section Pass

variable (levels : LevelConfig) (c : SpreadConfig)

/-- Writing profiles is one commit, tried again. -/
theorem write {tx : Transaction} (htx : A tx) : Keeps R (Pass.write c tx) := by
  have := h.toIsPreorder
  rw [Pass.write]
  show Keeps R (if tx.isEmpty then _ else _ : StateM World _)
  split
  · exact .pure _
  · refine .bind (.retry (h.submit htx) _ _) fun r => ?_
    obtain ⟨r, n⟩ := r
    cases r with
    | ok id => exact .pure _
    | error e => cases e <;> exact .pure _

variable {levels c}

/-- Settling goes from instant to instant, and each is a commit of what was found
    there. -/
private theorem settleFrom {seed : Batch} {recorded : Bool} {start : Instant}
    {dirty : KeySet Reference}
    (hfind : ∀ s watched t f, I s → (Pass.find levels c dirty watched t).Gives s f → ∀ ds p,
      A ⟨t, f.operations ++
        (if recorded then Outbox.note t { seed with deltas := ds } p else none).toList⟩)
          (n : Nat) :
    ∀ p, Keeps R (Pass.settleFrom levels c seed recorded start dirty n p) := by
  have := h.toIsPreorder
  induction n with
  | zero => exact fun p => .pure _
  | succ n ih =>
      intro p
      rw [Pass.settleFrom]
      split
      · exact .pure _
      · refine .andThen (h.read fun s f hs hf => ?_) ih
        exact .andThen (h.write c (hfind s _ _ f hs hf _ _)) fun _ => .pure _

/-- **A pass after a commit.** -/
theorem follow {seed : Batch} {recorded : Bool}
    (hfind : ∀ s dirty watched t f, I s → (Pass.find levels c dirty watched t).Gives s f →
      ∀ ds p, A ⟨t, f.operations ++
        (if recorded then Outbox.note t { seed with deltas := ds } p else none).toList⟩) :
    Keeps R (Pass.follow levels c seed recorded) := by
  have := h.toIsPreorder
  refine h.read fun _ found _ _ => ?_
  cases found with
  | none => exact .pure _
  | some tx =>
      have hhorizon : Keeps R Pass.horizon := fun w => refl w
      exact .andThen hhorizon fun n =>
        .andThen (h.settleFrom (fun s => hfind s _) n _) fun _ => .pure _

/-- **A full pass.** -/
theorem full {t : Instant} (hfind : ∀ s ops deltas, I s →
      (Pass.findAll levels c t).Gives s (ops, deltas) → A ⟨t, ops⟩) :
    Keeps R (Pass.full levels c t) := by
  have := h.toIsPreorder
  refine h.read fun s found hs hfound => ?_
  exact .andThen (h.write c (hfind s _ _ hs hfound)) fun _ => .pure _

end Pass

section Call

/-- A plan is read and submitted, in each attempt anew. -/
private theorem commit (policy : RetryPolicy) (o : OriginId) (t : Instant)
    {plan : Reading (Option Plan)}
    (hplan : ∀ s p, I s → plan.Gives s (some p) → A p.transaction) :
    Keeps R (Reconcile.commit policy o t plan) := by
  have := h.toIsPreorder
  have hattempt : Keeps R (Reconcile.attempt o t plan) := by
    refine h.read fun s found hs hfound => ?_
    cases found with
    | none => exact .pure _
    | some p =>
        refine .andThen (.lift (h.submit (hplan s p hs hfound))) fun r => ?_
        cases r with
        | ok id => exact .pure _
        | error e => cases e <;> exact .pure _
  exact .bind (.retry hattempt _ _) fun _ => .pure _

/-- **A call.** A run makes plans only if it is valid. -/
theorem perform (levels : LevelConfig) (config : ReconcileConfig) {c : Call}
    (hplan : ∀ s p, I s → (∀ r, c = .reconcile r → r.validate levels.highest = .ok ()) →
      (c.plan config.cascade).Gives s (some p) → A p.transaction) :
    Keeps R (c.perform levels config) := by
  have := h.toIsPreorder
  rcases c.perform_cases levels config with ⟨hvalid, hcommit⟩ | ⟨-, e, hthrow⟩
  · rw [hcommit]
    refine h.commit _ _ _ fun s p hs => hplan s p hs fun r hr => ?_
    subst hr
    exact hvalid
  · rw [hthrow]
    exact .pure _

end Call

end World.Conduct

end ClearanceGraph
