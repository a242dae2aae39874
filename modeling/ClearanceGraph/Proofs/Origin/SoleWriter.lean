import ClearanceGraph.Proofs.Engine.Rebuilding
import ClearanceGraph.Proofs.Faults
import ClearanceGraph.Proofs.Origin.Guard
import ClearanceGraph.Proofs.Origin.Parts
import ClearanceGraph.Proofs.Origin.Refusal

/-! # Sole writers — who writes alone is not in anyone's way

    The plan of a call is made from the latest record of its origin, which follows from
    all versions; the match that guards it looks at the valid time of the call.  The two
    agree where no version of the record is later than the call.  A plan is given up
    otherwise, so the versions of a record come in the order of their valid times
    whatever is done, also over retirements and runs at equal instants
    (`Store.Served.ledgerInOrder`).

    From this order it follows that the latest record is the one that was written last,
    and that the match of a call sees what it expects.  `Store.Served.unchallenged` puts
    the two together. -/

namespace ClearanceGraph

/-! ## The order of the ledger -/

namespace Ledger.Closes

variable {o : OriginId} {previous x : Option OriginRecord} {draft tx : Transaction}

/-- Of the keys of origins the ledger writes the one, once. -/
theorem writesTo (h : Closes o previous draft x tx) (hdraft : draft.OnFacts)
    (o' : OriginId) :
    tx.writesTo (.origin o') = if o' = o then [x.map .origin] else [] := by
  have hnone : draft.writesTo (.origin o') = [] := by
    refine (draft.writesTo_eq_nil_iff _).mpr ?_
    rintro ⟨op, hop, -, hkey⟩
    obtain ⟨-, f, hf⟩ := hdraft op hop
    cases hf.symm.trans hkey
  have hfiles : Store.Files ⟨draft, [], []⟩ o x tx := by
    cases h with
    | @record r hid _ => exact hid ▸ Store.files_setCurrent ⟨draft, [], []⟩ previous r
    | @ended r hid _ => exact hid ▸ Store.files_retire ⟨draft, [], []⟩ r
  split
  · next heq =>
    subst heq
    rw [hfiles.own, hnone, List.nil_append]
  · next hne => rw [hfiles.others _ fun h => hne (DocumentKey.origin.inj h), hnone]

end Ledger.Closes

namespace Store

variable {s s' : Store}

/-- The versions of every record come in the order of their commits, and of their valid
    times. -/
def LedgerInOrder (s : Store) : Prop :=
  ∀ o, (s.versionsOf (.origin o)).Pairwise fun v w =>
    v.transaction < w.transaction ∧ v.validFrom ≤ w.validFrom

theorem ledgerInOrder_empty : Store.empty.LedgerInOrder := by
  intro o
  simp [versionsOf, Store.empty]

/-- **One more commit of a call** keeps the order. -/
theorem LedgerInOrder.submit {c : Call} {policy : CascadePolicy} {p : Plan}
    {id : TransactionId}
    (h : s.LedgerInOrder) (hs : s.Sound) (hplan : (c.plan policy).Gives s (some p))
    (hsub : s.submit p.transaction = .ok (id, s')) : s'.LedgerInOrder := by
  intro o
  obtain ⟨draft, hcloses, hdraft, htime⟩ := Call.plan_files hs hplan
  obtain ⟨-, rfl, -, hvers, -⟩ := submit_eq_ok hsub
  rw [hvers, hcloses.writesTo hdraft]
  split
  · next heq =>
    subst heq
    refine List.pairwise_append.mpr ⟨h _, List.pairwise_singleton _ _, fun v hv w hw => ?_⟩
    rw [List.mem_singleton.mp hw]
    refine ⟨hs.numbered hv, ?_⟩
    -- the plan was not given up, so the origin was not seen later
    show v.validFrom ≤ p.transaction.validTime
    rw [htime]
    exact Call.plan_inOrder hplan v hv
  · rw [List.map_nil, List.append_nil]
    exact h o

/-- **Records are written in order**, whatever is done to a store one after another. -/
theorem Served.ledgerInOrder (h : s.Served) : s.LedgerInOrder := by
  induction h with
  | empty => exact ledgerInOrder_empty
  | @errand s w e hserved hw ih =>
      have hs := hserved.kept.1
      rcases e.perform_store hs hw with ⟨_, config, c, p, id, -, hplan, hsub⟩ | hquiet
      · exact ih.submit hs hplan hsub
      · refine hquiet.keeps (I := LedgerInOrder) (fun hin htx hsub o => ?_) ih
        rw [versionsOf_submit_of_not_writes hsub
          ((Transaction.lastWrite?_eq_none_iff _ _).mpr (htx o))]
        exact hin o

/-! ## The record that was written last -/

/-- What the last commit that wrote the record of an origin left of it: the record of a
    run, or none after a retirement. -/
def lastFiled? (s : Store) (o : OriginId) : Option OriginRecord :=
  (s.writes (.origin o)).getLast?.bind fun w => w.document.bind Document.origin?

/-- The latest record is the one that was written last. -/
theorem LedgerInOrder.lastRecord?_eq (h : s.LedgerInOrder) (hs : s.Reachable)
    (o : OriginId) :
    s.lastRecord? o = s.lastFiled? o := by
  have hascends : (s.versionsOf (.origin o)).Pairwise fun v w =>
      Version.order v w ≠ .gt := by
    refine (h o).imp fun hvw hgt => ?_
    exact absurd ((order_eq_gt_iff hvw.1).mp hgt) (not_lt.mpr hvw.2)
  rw [lastRecord?, newestOf?, lastMax?_eq_getLast? hascends, ← hs.map_version_writes,
    lastFiled?, List.getLast?_map]
  cases (s.writes (.origin o)).getLast? <;> rfl

end Store

/-! ## Calls are not refused -/

namespace World

/-- The world holds a store that nobody else writes, and no failure that is written down
    says that a match failed. -/
def Unchallenged (s : Store) (w : World) : Prop :=
  w.Alone s ∧ ∀ k, some (.matchFailed k) ∉ w.submitFaults

theorem Unchallenged.of_spent {s : Store} {w w' : World} (h : w.Unchallenged s)
    (hspent : w.Spent w') : w'.Unchallenged s :=
  ⟨⟨(congrArg Backend.store hspent.backend).trans h.1.1, hspent.rivals.trans h.1.2⟩,
    fun k hk => h.2 k (hspent.submits hk)⟩

end World

variable {s : Store}

private theorem leads_read_forGood {α : Type} {r : Reading α} (hr : r.FailsForGood) :
    Leads World.Unchallenged (World.read r) s (fun x s' => r.Gives s x ∧ s' = s)
      (fun e s' => (∀ o n, e ≠ .concurrentModification o n) ∧ s' = s) := by
  intro w hw
  obtain ⟨hspent, hresult⟩ := World.read_spent r w
  refine ⟨s, hw.of_spent hspent, ?_⟩
  rw [hw.1.1] at hresult
  cases hx : (World.read r w).1 with
  | ok x =>
      rw [hx] at hresult
      exact ⟨(hresult.resolve_right fun h => nomatch h.1).symm, rfl⟩
  | error e =>
      rw [hx] at hresult
      refine ⟨fun o n he => ?_, rfl⟩
      subst he
      rcases hresult with hresult | ⟨hdown, -⟩
      · cases hr s _ hresult.symm
      · cases hdown

/-- A transaction that the store would commit is not stopped by its match. -/
private theorem leads_submit_accepted {tx : Transaction} {y : TransactionId × Store}
    (hsub : s.submit tx = .ok y) :
    Leads World.Unchallenged (World.submit tx) s (fun _ _ => True)
      (fun e s' => (∀ k, e ≠ .matchFailed k) ∧ s' = s) := by
  have hno : ∀ text k, StorageError.unavailable text ≠ .matchFailed k := by
    intro text k h
    cases h
  intro w hw
  have hsubmits := World.submit_spent hw.1.2 tx
  revert hsubmits
  rcases World.submit tx w with ⟨x, w'⟩
  intro hsubmits
  -- a fault and an outage are no match that fails, and the store accepts
  cases hsubmits with
  | @fault e _ hf hspent =>
      refine ⟨s, hw.of_spent hspent, fun k hk => ?_, rfl⟩
      exact hw.2 k (hk ▸ hf)
  | outage _ hspent => exact ⟨s, hw.of_spent hspent, hno _, rfl⟩
  | store hspent =>
      have hkept := hw.of_spent hspent
      obtain rfl := hw.1.1
      rw [Backend.submit]
      split
      · exact ⟨_, ⟨⟨rfl, hkept.1.2⟩, hkept.2⟩, hno _, rfl⟩
      · split
        · exact ⟨_, ⟨⟨rfl, hkept.1.2⟩, hkept.2⟩, hno _, rfl⟩
        · rw [hsub]
          exact ⟨y.2, ⟨⟨rfl, hkept.1.2⟩, hkept.2⟩, trivial⟩

namespace Reconcile

/-- A call whose plans the store would commit does not blame anyone else. -/
private theorem leads_commit_accepted {plan : Reading (Option Plan)}
    (hplan : plan.FailsForGood)
    (haccepted : ∀ p, plan.Gives s (some p) → ∃ y, s.submit p.transaction = .ok y)
    (policy : RetryPolicy) (o : OriginId) (t : Instant) :
    Leads World.Unchallenged (commit policy o t plan) s (fun _ _ => True)
      (fun e s' => (∀ o n, e ≠ .concurrentModification o n) ∧ s' = s) := by
  have hattempt : Leads World.Unchallenged (attempt o t plan) s (fun _ _ => True)
      (fun e s' => (∀ o n, e ≠ .concurrentModification o n) ∧ s' = s) := by
    refine (leads_read_forGood hplan).bind ?_
    rintro found s' ⟨hfound, rfl⟩
    cases found with
    | none => exact Leads.pure trivial
    | some p =>
        obtain ⟨y, hsub⟩ := haccepted p hfound
        refine (Leads.lift (leads_submit_accepted hsub)).bind fun r s'' hr => ?_
        cases r with
        | ok id => exact Leads.pure trivial
        | error e =>
            obtain ⟨hmatch, rfl⟩ := hr
            cases e with
            -- a failed match would be blamed on another writer, and there is none
            | matchFailed k => exact absurd rfl (hmatch k)
            | _ => exact Leads.throw ⟨fun o n he => (nomatch he), rfl⟩
  refine leads_commit_of_attempt hattempt (fun n e hblames o m => ?_) policy
  cases e with
  | concurrentModification o' m' => exact absurd rfl (hblames o' m')
  | _ => exact fun he => (nomatch he)

end Reconcile

namespace Call

variable {policy : CascadePolicy} {c : Call} {p : Plan}

/-- The match of a plan sees the record that the plan was made from. -/
private theorem exists_submit (hs : s.Sound) (h : (c.plan policy).Gives s (some p)) :
    ∃ y, s.submit p.transaction = .ok y := by
  obtain ⟨draft, hcloses, hdraft, htime⟩ := plan_files hs h
  have hsees : (s.visible draft.validTime (.origin c.origin) ==
      (s.lastRecord? c.origin).map .origin) = true := by
    rw [← hcloses.validTime, htime, hs.visible_of_seen (plan_inOrder h)]
    cases s.lastRecord? c.origin with
    | none => rfl
    | some r => exact r.beq_self
  obtain ⟨s', hsub⟩ := (hcloses.submit hdraft).1 hsees
  exact ⟨_, hsub⟩

end Call

/-- What a store is like on which nobody gets in anyone's way. -/
structure Store.Orderly (s : Store) : Prop where
  /-- Records are written in the order of valid times. -/
  inOrder : s.LedgerInOrder
  /-- The latest record is the one that was written last. -/
  latest : ∀ o, (Ledger.previous o).Gives s (s.lastFiled? o)
  /-- After one more call that commits, that is the record of its run, or none if the
      call retires the origin. -/
  files : ∀ levels config (c : Call) w x id, w.Alone s →
    (c.perform levels config w).1 = .ok x → x.transaction = some id →
      (Ledger.previous c.origin).Gives (c.perform levels config w).2.backend.store
        (c.filed (s.lastFiled? c.origin))
  /-- No call blames another writer. -/
  unchallenged : ∀ levels config (c : Call) w, w.Unchallenged s → ∀ o n,
    (c.perform levels config w).1 ≠ .error (.concurrentModification o n)

/-- **Who writes alone is never refused.** Whatever was done to a store one after
    another, at whatever valid times and whether it failed or not, the latest record of
    an origin is the one that was written last, and the match that guards a further call
    sees it. -/
theorem Store.Served.orderly (h : s.Served) : s.Orderly := by
  obtain ⟨hs, -⟩ := h.kept
  have hlatest : ∀ o, s.lastRecord? o = s.lastFiled? o :=
    h.ledgerInOrder.lastRecord?_eq h.reachable
  refine ⟨h.ledgerInOrder, fun o => hlatest o ▸ hs.previous_gives_last o, ?_, ?_⟩
  · intro levels config c w x id hw hx hid
    have hok : c.perform levels config w = (.ok x, (c.perform levels config w).2) :=
      Prod.ext hx rfl
    rcases Call.perform_ok hw hok with ⟨-, rfl, -⟩ | ⟨p, id', hplan, hsub, -⟩
    · cases hid
    · -- what was filed is the latest record, since the ledger is in order
      rw [← hlatest, ← Call.lastRecord?_submit hs hplan hsub]
      exact (hs.submit hsub).previous_gives_last c.origin
  · intro levels config c w hw o n hres
    have hends : Leads World.Unchallenged (c.perform levels config) s (fun _ _ => True)
        (fun e s' => (∀ o n, e ≠ .concurrentModification o n) ∧ s' = s) := by
      have hcommit := Reconcile.leads_commit_accepted (s := s)
        (Call.plan_failsForGood config.cascade c) (fun p hp => Call.exists_submit hs hp)
        config.retry c.origin c.validTime
      rcases c.perform_cases levels config with ⟨-, heq⟩ | ⟨-, e, hthrow⟩
      · rw [heq]
        exact hcommit
      · rw [hthrow]
        exact Leads.throw ⟨fun o n h => (nomatch h), rfl⟩
    obtain ⟨s', -, hfailed⟩ := hends w hw
    rw [hres] at hfailed
    exact hfailed.1 o n rfl

/-- An origin reports, is retired and reports again, all for the same instant. -/
def reregistered : Store :=
  Engine.doneTo .empty
    [.call .standard Engine.cascading (Engine.found "a" .latest [("x", true)] []),
      .call .standard Engine.cascading (.retire ⟨"a"⟩ .latest),
      .follow .standard .standard ⟨⟨2⟩, some ⟨"a"⟩, [], []⟩ true,
      .call .standard Engine.cascading (Engine.found "a" .latest [("y", true)] []),
      .republish .standard]

/-- It counts its runs anew, and no further call of any origin is refused. -/
theorem Store.Served.orderly_reregistered : ∃ s, s = reregistered ∧
    (s.versionsOf (.origin ⟨"a"⟩)).map (·.validFrom) = [.latest, .latest, .latest] ∧
    (∃ r, (Ledger.previous ⟨"a"⟩).Gives s (some r) ∧ r.runs = 1) ∧
    ∀ levels config (c : Call) o n, (c.perform levels config (World.holding s)).1 ≠
      .error (.concurrentModification o n) := by
  obtain ⟨s, hs⟩ : ∃ s, s = reregistered := ⟨_, rfl⟩
  have hserved : s.Served := hs ▸ Engine.served_doneTo _ .empty
  have horderly := Store.Served.orderly hserved
  have htimes : (s.versionsOf (.origin ⟨"a"⟩)).map (·.validFrom) =
      [.latest, .latest, .latest] := by
    rw [hs]
    decide +kernel
  have hruns : (s.lastFiled? ⟨"a"⟩).any (fun r => r.runs = 1) = true := by
    rw [hs]
    decide +kernel
  obtain ⟨r, hr, hone⟩ := (Option.any_eq_true _ _).mp hruns
  refine ⟨s, hs, htimes, ⟨r, hr ▸ horderly.latest ⟨"a"⟩, of_decide_eq_true hone⟩, ?_⟩
  exact fun levels config c => horderly.unchallenged levels config c (World.holding s)
    ⟨World.alone_holding s, fun k hk => nomatch hk⟩

end ClearanceGraph
