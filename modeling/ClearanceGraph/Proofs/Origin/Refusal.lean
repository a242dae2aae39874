import ClearanceGraph.Proofs.Faults
import ClearanceGraph.Proofs.Origin.Exactness
import ClearanceGraph.Proofs.Retry
import ClearanceGraph.Proofs.Store.Log

/-! # Refusals — submits that fail, and are tried again

    A store can refuse a number of submits before it takes one.  A call makes its plan
    anew for every attempt, but over a store that stays as it is, so all attempts are
    about the same plan.  Refused attempts differ from each other in the number of
    refusals that are left, and in nothing else (`Call.Submits.attempt_refused`).

    The headline compares a call that meets refusals with the same call that meets none
    (`Call.perform_bears`): it is not affected if it submits nothing, it comes to the
    same if there are fewer refusals than attempts, and it fails with the number of its
    attempts otherwise.  A call that fails for any other reason leaves the store as
    well, and one that commits commits once. -/

namespace ClearanceGraph

/-- A reading of two parts asks as often as its first part, at least. -/
theorem Reading.asks_le_bind {α β : Type} (r : Reading α) (f : α → Reading β) (s : Store) :
    (r s).2 ≤ ((r >>= f) s).2 := by
  show _ ≤ (Reading.bind r f s).2
  rw [Reading.bind]
  rcases r s with ⟨e | x, n⟩
  · exact Nat.le_refl n
  · exact Nat.le_add_right n _

/-- A store of which so many submits are to fail. -/
def Backend.refusing (b : Backend) (n : Nat) : Backend := { b with failing := n }

/-- A world whose store refuses so many submits. -/
def World.refusing (w : World) (n : Nat) : World :=
  { w with backend := w.backend.refusing n }

namespace Reconcile

variable {b : Backend} {o : OriginId} {t : Instant} {plan : Reading (Option Plan)}
    {p : Plan}

/-- What the submit of a plan comes to for its origin. -/
def concluded (o : OriginId) (p : Plan) :
    Except StorageError TransactionId → Except GraphError Outcome
  | .ok id => .ok ⟨some id, o, p.validTime, p.changes, p.shared⟩
  | .error (.matchFailed _) => .error (.concurrentModification o 1)
  | .error e => .error (.ofStorage e)

private theorem ends_submit (o : OriginId) (p : Plan) :
    Ends World.Bare (submit o p) b fun x b' =>
      x = concluded o p (b.submit p.transaction).1 ∧ b' = (b.submit p.transaction).2 := by
  have hlift : Ends World.Bare (liftM (World.submit p.transaction) : Act _) b fun x b' =>
      x = .ok (b.submit p.transaction).1 ∧ b' = (b.submit p.transaction).2 := by
    refine (Ends.lift (ClearanceGraph.ends_submit p.transaction)).imp ?_
    rintro _ _ ⟨x, rfl, rfl, rfl⟩
    exact ⟨rfl, rfl⟩
  refine hlift.andThen (fun r hr => ?_) fun e he => nomatch he
  obtain rfl := Except.ok.inj hr
  cases (b.submit p.transaction).1 with
  | ok id => exact Ends.pure ⟨rfl, rfl⟩
  | error e => cases e <;> exact Ends.pure ⟨rfl, rfl⟩

/-- An attempt whose plan has something to write. -/
private theorem ends_attempt_of_some (h : b.look plan = .ok (some p)) :
    Ends World.Bare (attempt o t plan) b fun x b' =>
      x = concluded o p (b.submit p.transaction).1 ∧ b' = (b.submit p.transaction).2 := by
  refine (ends_read plan).andThen (fun found hfound => ?_) fun e he => ?_
  · cases h.symm.trans hfound
    exact ends_submit o p
  · cases h.symm.trans he

/-- An attempt without such a plan comes to the same, whatever the store refuses. -/
private theorem ends_attempt_of_not_some (h : ∀ p, b.look plan ≠ .ok (some p)) :
    ∃ x, ∀ n, Ends World.Bare (attempt o t plan) (b.refusing n) fun y b' =>
      y = x ∧ b' = b.refusing n := by
  have hlook : ∀ n, (b.refusing n).look plan = b.look plan := fun n => rfl
  cases hb : b.look plan with
  | error e =>
      refine ⟨.error e, fun n => (ends_read plan).andThen (fun found hfound => ?_)
        fun e' he => ?_⟩
      · cases ((hlook n).trans hb).symm.trans hfound
      · cases ((hlook n).trans hb).symm.trans he
        exact ⟨rfl, rfl⟩
  | ok found =>
      cases found with
      | some p => exact absurd hb (h p)
      | none =>
          refine ⟨.ok (.unchanged o t), fun n => (ends_read plan).andThen
            (fun found hfound => ?_) fun e' he => ?_⟩
          · cases ((hlook n).trans hb).symm.trans hfound
            exact Ends.pure ⟨rfl, rfl⟩
          · cases ((hlook n).trans hb).symm.trans he

/-- An attempt that is refused leaves one refusal less. -/
private theorem ends_attempt_refused (hon : b.isDown = false)
    (h : b.look plan = .ok (some p))
    (n : Nat) : Ends World.Bare (attempt o t plan) (b.refusing (n + 1)) fun x b' =>
      x = .error (.ofStorage submitRefused) ∧ b' = b.refusing n := by
  have hsub : (b.refusing (n + 1)).submit p.transaction = (.error submitRefused,
      b.refusing n) := by
    rw [Backend.submit, if_neg (hon ▸ Bool.false_ne_true)]
    rfl
  have hlook : (b.refusing (n + 1)).look plan = .ok (some p) := h
  refine (ends_attempt_of_some hlook).imp ?_
  rintro _ _ ⟨rfl, rfl⟩
  rw [hsub]
  exact ⟨rfl, rfl⟩

/-- A submit that is not refused and fails leaves the store. -/
private theorem submit_of_concluded {tx : Transaction} (hon : b.isDown = false)
    (hnone : b.failing = 0) {e : GraphError}
    (h : concluded o p (b.submit tx).1 = .error e) :
    (b.submit tx).2 = b := by
  rw [Backend.submit_of_on ⟨hon, hnone⟩] at h ⊢
  cases hsub : b.store.submit tx with
  | ok x =>
      rw [hsub] at h
      cases h
  | error e => rfl

/-! ## All attempts -/

/-- The number of attempts matters to failures that may pass, and to nothing else. -/
theorem mapError_withAttempts {x : Except GraphError Outcome} {m n : Nat}
    (h : ∀ e, x = .error e → mayPass e = true → m = n) :
    x.mapError (withAttempts m) = x.mapError (withAttempts n) := by
  cases x with
  | ok y => rfl
  | error e =>
      cases e with
      | storeUnavailable k text => rw [h _ rfl rfl]
      | concurrentModification o k => rw [h _ rfl rfl]
      | _ => rfl

variable {policy : RetryPolicy}

private theorem ends_commit {Q : Except GraphError Outcome → Backend → Prop}
    (h : Ends World.Bare
      (RetryPolicy.runFrom mayPass (fun _ _ => pure ()) (attempt o t plan)
      (policy.attempts - 1) 1) b fun r b' => Q (r.1.mapError (withAttempts r.2)) b') :
    Ends World.Bare (commit policy o t plan) b Q :=
  Ends.bind h fun _ _ hr => Ends.pure hr

/-- A call whose plan has nothing to write comes to the same, whatever the store
    refuses. -/
private theorem ends_commit_of_not_some (h : ∀ p, b.look plan ≠ .ok (some p)) :
    ∃ x, ∀ n, Ends World.Bare (commit policy o t plan) (b.refusing n) fun y b' =>
      y = x ∧ b' = b.refusing n := by
  obtain ⟨x, hx⟩ := ends_attempt_of_not_some (o := o) (t := t) h
  refine ⟨x.mapError (withAttempts policy.attempts), fun n => ends_commit ?_⟩
  refine ((hx n).runFrom_settled (fun _ _ => rfl) _ 1).imp ?_
  rintro r _ ⟨hr, rfl, hattempts⟩
  rw [hr]
  exact ⟨mapError_withAttempts fun e he hpass =>
    (hattempts e he hpass).trans policy.one_add_attempts, rfl⟩

variable (hon : b.isDown = false) (h : b.look plan = .ok (some p))

include hon h

/-- A call with a plan to write comes to the same while there are fewer refusals than
    attempts. -/
private theorem ends_commit_of_lt (policy : RetryPolicy) (o : OriginId) (t : Instant) :
    ∃ x b₀, ∀ n, n < policy.attempts →
      Ends World.Bare (commit policy o t plan) (b.refusing n) fun y b' => y = x ∧
      b' = b₀ := by
  have hlook : (b.refusing 0).look plan = .ok (some p) := h
  obtain ⟨x, hx⟩ : ∃ x, x = concluded o p ((b.refusing 0).submit p.transaction).1 :=
    ⟨_, rfl⟩
  obtain ⟨b₀, hb₀⟩ : ∃ b₀, b₀ = ((b.refusing 0).submit p.transaction).2 := ⟨_, rfl⟩
  have hlast := ends_attempt_of_some (o := o) (t := t) hlook
  rw [← hx, ← hb₀] at hlast
  have hstays : ∀ e, x = .error e → b₀ = b.refusing 0 := by
    intro e he
    rw [hx] at he
    rw [hb₀]
    exact submit_of_concluded hon rfl he
  refine ⟨x.mapError (withAttempts policy.attempts), b₀, fun n hn => ends_commit ?_⟩
  refine Ends.runFrom_past (fun n => ends_attempt_refused hon h n)
    rfl (fun more attempt hsum => ?_) n _ 1 policy.one_add_attempts (by omega)
  refine (hlast.runFrom_settled hstays more attempt).imp ?_
  rintro r _ ⟨hr, rfl, hattempts⟩
  rw [hr]
  exact ⟨mapError_withAttempts fun e he hpass => (hattempts e he hpass).trans hsum, rfl⟩

/-- It fails if there are as many refusals, and each attempt meets one of them. -/
private theorem ends_commit_of_le {n : Nat} (hn : policy.attempts ≤ n) :
    Ends World.Bare (commit policy o t plan) (b.refusing n) fun x b' =>
      x = .error (.storeUnavailable policy.attempts "injected submit failure") ∧
        b' = b.refusing (n - policy.attempts) := by
  have hattempts := policy.one_add_attempts
  refine ends_commit ?_
  refine (Ends.runFrom_exhausted (fun n => ends_attempt_refused hon h n) rfl _ n 1
    (by omega)).imp ?_
  rintro _ _ ⟨rfl, rfl⟩
  rw [hattempts, show policy.attempts - 1 + 1 = policy.attempts by omega]
  exact ⟨rfl, rfl⟩

end Reconcile

/-! ## Calls -/

namespace Call

variable {levels : LevelConfig} {config : ReconcileConfig} {c : Call}
    {policy : CascadePolicy}

/-- A call has something to submit: it is valid, the store is in reach, and a plan is
    made. -/
structure Submits (levels : LevelConfig) (policy : CascadePolicy) (c : Call)
    (b : Backend) : Prop where
  valid : c.Valid levels
  inReach : b.isDown = false
  planned : ∃ p, (c.plan policy).Gives b.store (some p)

/-- Every plan asks for the history of its origin first. -/
theorem asks_plan (policy : CascadePolicy) (c : Call) (s : Store) :
    (c.plan policy s).2 ≠ 0 := by
  have hcheck : ∀ o t, 1 ≤ (Plan.checkNotStale o t s).2 := by
    intro o t
    have hhistory : 1 = (Reading.history (.origin o) s).2 := rfl
    have hseen : 1 ≤ (Ledger.lastSeen o s).2 := by
      rw [hhistory]
      exact Reading.asks_le_bind _ _ s
    exact Nat.le_trans hseen (Reading.asks_le_bind _ _ s)
  refine Nat.one_le_iff_ne_zero.mp ?_
  cases c with
  | reconcile r =>
      exact Nat.le_trans (hcheck r.origin r.validTime) (Reading.asks_le_bind _ _ s)
  | retire o t => exact Nat.le_trans (hcheck o t) (Reading.asks_le_bind _ _ s)

theorem look_plan_iff {b : Backend} {p : Plan} : b.look (c.plan policy) = .ok (some p) ↔
    b.isDown = false ∧ (c.plan policy).Gives b.store (some p) := by
  rw [Backend.look]
  split
  · next hoff =>
    refine ⟨fun h => (by cases h), fun h => ?_⟩
    cases hoff.1.symm.trans h.1
  · next hon =>
    refine ⟨fun h => ⟨?_, h⟩, fun h => h.2⟩
    exact Bool.eq_false_iff.mpr fun hdown => hon ⟨hdown, asks_plan policy c b.store⟩

/-- How a call bears refusals of the store. -/
structure Bears (levels : LevelConfig) (config : ReconcileConfig) (c : Call)
    (w : World) (n : Nat) :
    Prop where
  /-- Where nothing is submitted nothing is refused. -/
  idle : ¬ c.Submits levels config.cascade w.backend →
    (c.perform levels config (w.refusing n)).1 =
      (c.perform levels config (w.refusing 0)).1 ∧
      (c.perform levels config (w.refusing n)).2.backend = w.backend.refusing n
  /-- Fewer refusals than attempts make no difference. -/
  passes : c.Submits levels config.cascade w.backend → n < config.retry.attempts →
    (c.perform levels config (w.refusing n)).1 =
      (c.perform levels config (w.refusing 0)).1 ∧
      (c.perform levels config (w.refusing n)).2.backend =
        (c.perform levels config (w.refusing 0)).2.backend
  /-- As many refusals use up the attempts, and leave the store. -/
  exhausted : c.Submits levels config.cascade w.backend → config.retry.attempts ≤ n →
    (c.perform levels config (w.refusing n)).1 =
        .error (.storeUnavailable config.retry.attempts "injected submit failure") ∧
      (c.perform levels config (w.refusing n)).2.backend =
        w.backend.refusing (n - config.retry.attempts)

/-- What a call does to the store, whatever fails. -/
structure Leaves (levels : LevelConfig) (config : ReconcileConfig) (c : Call)
    (w : World) : Prop where
  /-- A call that fails leaves the store. -/
  failed : ∀ e, (c.perform levels config w).1 = .error e →
    (c.perform levels config w).2.backend.store = w.backend.store
  /-- A call that commits adds one commit, and says which. -/
  committed : ∀ x id, (c.perform levels config w).1 = .ok x → x.transaction = some id →
    ∃ tx, w.backend.store.submit tx = .ok
      (id, (c.perform levels config w).2.backend.store) ∧
      (c.perform levels config w).2.backend.store.log = w.backend.store.log ++
        [tx.committed id]

variable {w : World}

/-- A call that is alone with the store fails and leaves it, or commits once. -/
theorem leaves_perform (levels : LevelConfig) (config : ReconcileConfig) (c : Call)
    (hrivals : w.rivals = []) : c.Leaves levels config w := by
  obtain ⟨g, hg, hres⟩ := c.leads_perform levels config w (World.Alone.shows ⟨rfl, hrivals⟩)
  refine ⟨fun e he => ?_, fun x id hx hid => ?_⟩
  · rw [he] at hres
    rw [hg.store]
    exact congrArg Scene.store hres
  · rw [hx] at hres
    rw [hg.store]
    rcases hres with ⟨-, rfl, -⟩ | ⟨p, id', s', -, hsub, rfl, rfl⟩
    · cases hid
    · obtain rfl := Option.some.inj hid
      obtain ⟨-, -, hlog, -⟩ := Store.submit_eq_ok hsub
      exact ⟨p.transaction, hsub, hlog⟩

/-- What a call comes to in a world is what it comes to at its store. -/
private theorem of_ends {x : Except GraphError Outcome} {b₀ : Backend} {n : Nat}
    (hw : w.Undisturbed)
    (h : Ends World.Bare (c.perform levels config) (w.backend.refusing n) fun y b' =>
      y = x ∧ b' = b₀) :
    (c.perform levels config (w.refusing n)).1 = x ∧
      (c.perform levels config (w.refusing n)).2.backend = b₀ := by
  obtain ⟨_, hbare, rfl, rfl⟩ := h (w.refusing n) ⟨rfl, hw.submits, hw.calls, hw.rivals⟩
  exact ⟨rfl, hbare.1⟩

theorem bears_of_undisturbed (levels : LevelConfig) (config : ReconcileConfig) (c : Call)
    (hw : w.Undisturbed) (n : Nat) : c.Bears levels config w n := by
  refine ⟨fun hidle => ?_, fun hsubmits hn => ?_, fun hsubmits hn => ?_⟩
  · -- without a transaction the store is read only, whatever it would refuse
    obtain ⟨x, hx⟩ : ∃ x, ∀ n, Ends World.Bare (c.perform levels config)
        (w.backend.refusing n) fun y b' => y = x ∧ b' = w.backend.refusing n := by
      rcases c.perform_cases levels config with ⟨hvalid, hcommit⟩ | ⟨-, e, hthrow⟩
      · rw [hcommit]
        refine Reconcile.ends_commit_of_not_some fun p hp => hidle ?_
        exact ⟨hvalid, (look_plan_iff.mp hp).1, p, (look_plan_iff.mp hp).2⟩
      · rw [hthrow]
        exact ⟨_, fun n => Ends.pure ⟨rfl, rfl⟩⟩
    exact ⟨(of_ends hw (hx n)).1.trans (of_ends hw (hx 0)).1.symm, (of_ends hw (hx n)).2⟩
  · obtain ⟨p, hp⟩ := hsubmits.planned
    have hlook := look_plan_iff.mpr ⟨hsubmits.inReach, hp⟩
    obtain ⟨x, b₀, hx⟩ := Reconcile.ends_commit_of_lt hsubmits.inReach hlook
      config.retry c.origin c.validTime
    rw [← perform_of_valid config hsubmits.valid] at hx
    -- fewer refusals than attempts: one of the attempts gets through
    obtain ⟨hresult, hbackend⟩ := of_ends hw (hx n hn)
    obtain ⟨hresult₀, hbackend₀⟩ := of_ends hw (hx 0 (by omega))
    exact ⟨hresult.trans hresult₀.symm, hbackend.trans hbackend₀.symm⟩
  · obtain ⟨p, hp⟩ := hsubmits.planned
    have hlook := look_plan_iff.mpr ⟨hsubmits.inReach, hp⟩
    have hends := Reconcile.ends_commit_of_le (o := c.origin) (t := c.validTime)
      hsubmits.inReach hlook hn
    rw [← perform_of_valid config hsubmits.valid] at hends
    exact of_ends hw hends

/-- **Refused submits are made up for or leave nothing behind.** Over any store that
    nothing else disturbs, and with any number of attempts, a call bears any number of
    refusals; and whatever else fails, a call that fails leaves the store and one that
    commits adds one commit. -/
theorem perform_bears (levels : LevelConfig) (config : ReconcileConfig) (c : Call)
    (hrivals : w.rivals = []) :
    (w.Undisturbed → ∀ n, c.Bears levels config w n) ∧ c.Leaves levels config w :=
  ⟨fun hw n => bears_of_undisturbed levels config c hw n,
    leaves_perform levels config c hrivals⟩

/-- An origin finds its first host. -/
def firstHost : Call := Engine.found "a" .latest [("x", true)] []

/-- Five attempts get past four refusals and not past five. -/
theorem perform_bears_firstHost : ∃ x s,
    (firstHost.perform .standard Engine.cascading ((World.holding .empty).refusing 4)).1 =
      .ok x ∧
      x.transaction = some ⟨1⟩ ∧
    (firstHost.perform .standard Engine.cascading
      ((World.holding .empty).refusing 4)).2.backend = ⟨s, false, 0⟩ ∧ s.log.length = 1 ∧
    (firstHost.perform .standard Engine.cascading ((World.holding .empty).refusing 5)).1 =
      .error (.storeUnavailable 5 "injected submit failure") ∧
    (firstHost.perform .standard Engine.cascading
      ((World.holding .empty).refusing 5)).2.backend = .empty := by
  obtain ⟨hbears, -⟩ := perform_bears .standard Engine.cascading firstHost
    (w := World.holding .empty) rfl
  have hbears := hbears (World.undisturbed_holding .empty)
  have hplan : ∃ p, (firstHost.plan .retractOrphanedEdges).Gives .empty (some p) := by
    have hsome :
        ((firstHost.plan .retractOrphanedEdges .empty).1.toOption.any Option.isSome) =
        true := by
      decide +kernel
    obtain ⟨found, hfound, hp⟩ := (Option.any_eq_true _ _).mp hsome
    obtain ⟨p, rfl⟩ := Option.isSome_iff_exists.mp hp
    exact ⟨p, Act.toOption_eq_some_iff.mp hfound⟩
  have hsubmits : firstHost.Submits .standard .retractOrphanedEdges Backend.empty :=
    ⟨rfl, rfl, hplan⟩
  have hrun : (firstHost.perform .standard Engine.cascading
      ((World.holding .empty).refusing 0)).1.toOption.any
        (fun x => x.transaction = some ⟨1⟩) = true := by
    decide +kernel
  have hbackend : ∃ s, (firstHost.perform .standard Engine.cascading
      ((World.holding .empty).refusing 0)).2.backend = ⟨s, false, 0⟩ ∧ s.log.length = 1 :=
    ⟨_, rfl, by decide +kernel⟩
  obtain ⟨x, hx, hid⟩ :=
    Act.exists_eq_ok (a := firstHost.perform .standard Engine.cascading)
    (w := (World.holding .empty).refusing 0) _ hrun
  obtain ⟨s, hs, hlog⟩ := hbackend
  obtain ⟨hresult, hstore⟩ := (hbears 4).passes hsubmits (by decide)
  obtain ⟨hfailed, hleft⟩ := (hbears 5).exhausted hsubmits (by decide)
  exact ⟨x, s, hresult.trans (congrArg Prod.fst hx), of_decide_eq_true hid,
    hstore.trans hs, hlog, hfailed, hleft⟩

end Call

end ClearanceGraph
