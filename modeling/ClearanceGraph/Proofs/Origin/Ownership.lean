import ClearanceGraph.Proofs.Origin.Call
import ClearanceGraph.Proofs.Origin.Holdings
import Mathlib.Data.List.Induction

/-! # Ownership — runs and retirements in the order of their valid times

    Calls whose valid times never decrease follow the ownership model: every call
    that succeeds is a step of the model, a call that fails leaves the store, and
    facts and records belong together at every instant from the last call on.

    The owners of a fact are read at the last instant of the calendar that is no
    leap second.  So all this holds of calls up to that instant and of no calls
    beyond it (`ownedUpTo_iff`): the record of a run in the leap second is the
    latest of its origin, but no owner's. -/

namespace ClearanceGraph

namespace Store

variable {s s' : Store} {t u : Instant} {o : OriginId} {asserted : Table Fact Content}
    {q : Plan}

/-- What calls in order maintain, seen from an instant that none of them is later than. -/
structure Kept (s : Store) (t : Instant) : Prop where
  sound : s.Sound
  upto : s.Upto t
  filed : s.RecordsFiled
  owned : ∀ u, t ≤ u → (s.holdings u).Owned

theorem Kept.mono (h : s.Kept t) (htu : t ≤ u) : s.Kept u :=
  ⟨h.sound, h.upto.mono htu, h.filed, fun v hv => h.owned v (le_trans htu hv)⟩

theorem kept_empty (t : Instant) : Store.empty.Kept t := by
  have hledger : ∀ u o, (Store.empty.holdings u).ledger o = none := fun u o => rfl
  refine ⟨sound_empty, upto_empty t, ?_, fun u _ => ⟨fun f => ?_, ?_⟩⟩
  · intro o r f c hr
    cases hr
  · constructor
    · rintro ⟨d, hd⟩
      cases hd
    · rintro ⟨o, r, hr, -⟩
      cases (hledger u o).symm.trans hr
  · intro f d hd
    cases hd

/-! ## One commit -/

/-- The draft of an origin's call on a store. -/
abbrev DraftOf (s : Store) (t : Instant) (o : OriginId) (asserted : Table Fact Content)
    (q : Plan) :
    Prop := Plan.Drafted s t o asserted (Plan.droppedBy (s.record? o) asserted) q

section Commit

variable {x : Option OriginRecord} {tx : Transaction} {id : TransactionId} (hs : s.Sound)
  (hup : s.Upto tx.validTime) (hlatest : tx.validTime ≤ Instant.latest)
    (hfiles : Files q o x tx)
  (hsub : s.submit tx = .ok (id, s'))

include hs hup hlatest hfiles hsub

/-- After a commit the origin has the record that was filed. -/
private theorem record?_commit : s'.record? o = x := by
  rw [record?, hup.visible_submit hs hsub hlatest, hfiles.lastWrite?_own]
  cases x <;> rfl

/-- The other records stay. -/
private theorem record?_commit_of_ne (hdraft : DraftOf s t o asserted q) {o' : OriginId}
    (ho : o' ≠ o) : s'.record? o' = s.record? o' := by
  have hkeep : tx.lastWrite? (.origin o') = none := by
    rw [hfiles.lastWrite?_of_ne fun he => ho (by cases he; rfl)]
    exact hdraft.others _ fun f hf => by cases hf
  rw [record?, hup.visible_submit hs hsub hlatest, hkeep]
  rfl

end Commit

/-- The record that a call files holds what the call asserts. -/
private theorem filed_holds {x : Option OriginRecord}
    (hx : ∀ r, x = some r → r.result = asserted)
    (hnone : x = none → asserted = Table.empty) {f : Fact} {c : Content}
    (hc : asserted.get? f = some c) : ∃ r, x = some r ∧ r.content? f = some c := by
  cases x with
  | none =>
      rw [hnone rfl] at hc
      cases hc
  | some r => exact ⟨r, rfl, by rw [OriginRecord.content?, hx r rfl, hc]⟩

/-- **A commit is a step**, and what calls maintain holds after it. -/
theorem Kept.commit {x : Option OriginRecord} {tx : Transaction} {id : TransactionId}
    (hk : s.Kept t) (hlatest : t ≤ Instant.latest) (hdraft : DraftOf s t o asserted q)
    (hasserted : ∀ f c, asserted.get? f = some c → c.fact = f) (hfiles : Files q o x tx)
    (hx : ∀ r, x = some r → r.result = asserted) (hnone : x = none → asserted = Table.empty)
    (hsub : s.submit tx = .ok (id, s')) :
    s'.Kept t ∧ ∀ u, t ≤ u → (s.holdings u).Step o asserted (s'.holdings u) := by
  obtain rfl : tx.validTime = t := hfiles.validTime.trans hdraft.validTime
  have hs' : s'.Sound := hk.sound.submit hsub
  have hup' : s'.Upto tx.validTime := hk.upto.submit hsub
  -- the ledger afterwards: the own record is `x`, the others are as they were
  have hrecord : s'.record? o = x := record?_commit hk.sound hk.upto hlatest hfiles hsub
  have hothers : ∀ o', o' ≠ o → s'.record? o' = s.record? o' := fun o' ho =>
    record?_commit_of_ne hk.sound hk.upto hlatest hfiles hsub hdraft ho
  have hledger : ∀ u o', (s'.holdings u).ledger o' = s'.record? o' :=
    hs'.holdings_ledger (hup'.mono hlatest)
  have hledgerOld : ∀ u o', (s.holdings u).ledger o' = s.record? o' :=
    hk.sound.holdings_ledger (hk.upto.mono hlatest)
  -- the commit is a step of the holdings at every later time
  have hstep : ∀ u, tx.validTime ≤ u → (s.holdings u).Step o asserted (s'.holdings u) := by
    intro u hu
    refine step_of_drafted hk.sound hk.upto hlatest hu hk.filed hasserted hdraft ?_ ?_ ?_
    · intro f
      rw [hk.upto.visible_submit hk.sound hsub hu, hfiles.lastWrite?_fact,
        hk.upto.visible_eq hu]
    · intro o' ho'
      rw [hledger, hledgerOld, hothers o' ho']
    · intro f
      rw [hledger, hrecord]
      constructor
      · rintro ⟨r, hr, hf⟩
        rw [OriginRecord.asserts, hx r hr] at hf
        exact hf
      · intro hf
        obtain ⟨c, hc⟩ := asserted.contains_iff.mp hf
        obtain ⟨r, hr, hrc⟩ := filed_holds hx hnone hc
        exact ⟨r, hr, r.asserts_iff.mpr ⟨c, hrc⟩⟩
  refine ⟨⟨hs', hup', ?_, fun u hu => ?_⟩, hstep⟩
  · intro o' r f c hr hc
    by_cases ho : o' = o
    · subst ho
      rw [hrecord] at hr
      rw [OriginRecord.content?, hx r hr] at hc
      exact hasserted f c hc
    · rw [hothers o' ho] at hr
      exact hk.filed o' r f c hr hc
  · refine (hstep u hu).owned (hk.owned u hu) ?_ ?_
    · intro f c hc
      rw [hledger, hrecord]
      exact filed_holds hx hnone hc
    · intro o' r hr
      rw [hledgerOld] at hr
      exact hk.sound.id_of_record? hr

/-- A call that changes nothing is a step. -/
theorem Kept.unchanged (hk : s.Kept t) (hlatest : t ≤ Instant.latest)
    (hdraft : DraftOf s t o asserted q) (hasserted : ∀ f c, asserted.get? f = some c →
      c.fact = f)
    (hempty : q.transaction.isEmpty = true)
    (hsame : Plan.isUnchanged (s.record? o) asserted = true) (hu : t ≤ u) :
    (s.holdings u).Step o asserted (s.holdings u) := by
  refine step_of_drafted hk.sound hk.upto hlatest hu hk.filed hasserted hdraft ?_ ?_ ?_
  · intro f
    rw [(Transaction.lastWrite?_eq_none_iff _ _).mpr
      ((Transaction.isEmpty_iff _).mp hempty _)]
    exact hk.upto.visible_eq hu _
  · exact fun _ _ => rfl
  · intro f
    rw [hk.sound.holdings_ledger (hk.upto.mono hlatest)]
    -- an unchanged record asserts what the run asserts
    cases hr : s.record? o with
    | none =>
        rw [hr] at hsame
        obtain rfl : asserted = Table.empty := Table.eq_empty_of_isEmpty hsame
        constructor
        · rintro ⟨r, hr', -⟩
          cases hr'
        · intro hf
          cases hf
    | some r =>
        rw [hr] at hsame
        have hf : r.asserts f = asserted.contains f := Table.contains_eq_of_beq hsame f
        rw [← hf]
        constructor
        · rintro ⟨r', hr', hf'⟩
          rwa [← Option.some.inj hr'] at hf'
        · exact fun hf' => ⟨r, rfl, hf'⟩

/-- A call of an origin that nobody knows, about nothing, is a step. -/
theorem Kept.unknown (hk : s.Kept t) (hlatest : t ≤ Instant.latest)
    (hno : s.record? o = none)
    (u : Instant) : (s.holdings u).Step o Table.empty (s.holdings u) := by
  have hledger : (s.holdings u).ledger o = none := by
    rw [hk.sound.holdings_ledger (hk.upto.mono hlatest), hno]
  refine ⟨?_, ?_, ?_, fun _ _ _ => rfl, fun _ _ => rfl, fun f => ?_⟩
  · intro f c hc
    cases hc
  · intro f p r hp
    cases hledger.symm.trans hp
  · intro f p hp
    cases hledger.symm.trans hp
  · constructor
    · rintro ⟨r, hr, -⟩
      cases hledger.symm.trans hr
    · intro hf
      cases hf

end Store

/-! ## Calls -/

namespace Call

variable {levels : LevelConfig} {config : ReconcileConfig} {s s' : Store}

/-- What a call that succeeds has done: what calls maintain holds, and the call was a
    step. -/
def Took (c : Call) (s s' : Store) : Prop :=
  s'.Kept c.validTime ∧
    ∀ u, c.validTime ≤ u → (s.holdings u).Step c.origin c.asserted (s'.holdings u)

private theorem took_of_did {c : Call} (hk : s.Kept c.validTime)
    (hlatest : c.validTime ≤ Instant.latest) (h : c.Did s s') : c.Took s s' := by
  have hrecord : s.record? c.origin = s.lastRecord? c.origin :=
    Store.record?_eq_lastRecord? fun v hv =>
      le_trans (hk.upto _ v (Store.mem_of_newestOf? hv)) hlatest
  have hasserted : ∀ f k, c.asserted.get? f = some k → k.fact = f :=
    fun _ _ h => c.filed_asserted h
  cases h with
  | commit hdraft hfiles hrecords hsub =>
      have hdrafted := hdraft.drafted
      rw [← hrecord] at hdrafted
      exact hk.commit hlatest hdrafted hasserted hfiles hrecords.result hrecords.ended hsub
  | unchanged hdraft hempty hsame =>
      have hdrafted := hdraft.drafted
      rw [← hrecord] at hdrafted hsame
      exact ⟨hk, fun u hu => hk.unchanged hlatest hdrafted hasserted hempty hsame hu⟩
  | unknown hno hempty =>
      rw [← hrecord] at hno
      rw [Took, hempty]
      exact ⟨hk, fun u _ => hk.unknown hlatest hno u⟩

/-- **A call** that is not too late takes a step of the model, or fails and leaves the
    store. -/
theorem runs_perform (levels : LevelConfig) (hretain : config.cascade = .retain) (c : Call)
    (hk : s.Kept c.validTime) (hlatest : c.validTime ≤ Instant.latest) :
    Act.Runs (c.perform levels config) s (fun _ s' => c.Took s s') (· = s) :=
  (runs_perform_did hk.sound (hk.filed.owners hk.sound) levels hretain c).imp
    (fun _ _ h => took_of_did hk hlatest h) fun _ h => h

/-- Calls in order maintain what belongs together. -/
theorem kept_performAll (levels : LevelConfig) (hretain : config.cascade = .retain)
    {w : World} (hw : w.Alone .empty) {cs : List Call}
    (horder : cs.Pairwise fun a b => a.validTime ≤ b.validTime) {t : Instant}
    (htimes : ∀ c ∈ cs, c.validTime ≤ t) (hlatest : t ≤ Instant.latest) :
    ∃ s, (performAll levels config cs w).Alone s ∧ s.Kept t := by
  -- on the calls made last; what they maintain is only needed up to the next valid time
  induction cs using List.reverseRecOn generalizing t with
  | nil => exact ⟨.empty, hw, Store.kept_empty t⟩
  | append_singleton cs c ih =>
      have hc : c.validTime ≤ t := htimes c (by simp)
      obtain ⟨hcs, -, hbefore⟩ := List.pairwise_append.mp horder
      obtain ⟨s, halone, hkept⟩ := ih hcs (fun a ha => hbefore a ha c List.mem_cons_self)
        (le_trans hc hlatest)
      rw [performAll_concat]
      obtain ⟨s', halone', hres⟩ :=
        runs_perform levels hretain c hkept (le_trans hc hlatest) _ halone
      refine ⟨s', halone', ?_⟩
      rcases hres with ⟨x, -, htook⟩ | ⟨-, rfl⟩
      · exact htook.1.mono hc
      · exact hkept.mono hc

/-- How one more call in order follows the model, seen from an instant. -/
structure Follows (levels : LevelConfig) (config : ReconcileConfig)
    (before : World) (c : Call) (u : Instant) : Prop where
  /-- Facts and records belong together afterwards. -/
  owned : ((c.perform levels config before).2.backend.store.holdings u).Owned
  /-- A call that succeeds is a step. -/
  step : ∀ outcome, (c.perform levels config before).1 = .ok outcome →
    (before.backend.store.holdings u).Step c.origin c.asserted
      ((c.perform levels config before).2.backend.store.holdings u)
  /-- A call that fails leaves the store. -/
  failed : ∀ e, (c.perform levels config before).1 = .error e →
    (c.perform levels config before).2.backend.store = before.backend.store

/-- Calls in the order of their valid times, up to an instant, follow the ownership
    model. -/
def OwnedUpTo (last : Instant) : Prop :=
  ∀ (levels : LevelConfig) (config : ReconcileConfig), config.cascade = .retain →
    ∀ w : World, w.Alone .empty → ∀ (past : List Call) (c : Call),
      (past ++ [c]).Pairwise (fun a b => a.validTime ≤ b.validTime) → c.validTime ≤ last →
        ∀ u, c.validTime ≤ u → Follows levels config (performAll levels config past w) c u

theorem ownedUpTo_latest : OwnedUpTo Instant.latest := by
  intro levels config hretain w hw past c horder hlast u hu
  obtain ⟨hpast, -, hbefore⟩ := List.pairwise_append.mp horder
  obtain ⟨s, halone, hkept⟩ := kept_performAll levels hretain hw hpast
    (fun a ha => hbefore a ha c List.mem_cons_self) hlast
  have hrun := runs_perform levels hretain c hkept hlast
  have hstore : (performAll levels config past w).backend.store = s := halone.1
  refine ⟨?_, fun outcome hok => ?_, fun e herr => ?_⟩
  · obtain ⟨s', halone', hres⟩ := hrun _ halone
    rw [halone'.1]
    rcases hres with ⟨x, -, htook⟩ | ⟨-, rfl⟩
    · exact htook.1.owned u hu
    · exact hkept.owned u hu
  · obtain ⟨s', halone', htook⟩ := hrun.of_ok halone (Prod.ext hok rfl)
    rw [halone'.1, hstore]
    exact htook.2 u hu
  · obtain ⟨s', halone', rfl⟩ := hrun.of_error halone (Prod.ext herr rfl)
    rw [halone'.1, hstore]

/-! ## The leap second at the end of the calendar -/

/-- A run of an origin that finds some hosts at an instant. -/
def hostRun (t : Instant) (origin : String) (hosts : List String) : Call :=
  reconcile ⟨⟨origin⟩, .observation, t,
    hosts.map fun h => ⟨⟨"Host|" ++ h⟩, "Host", Table.empty⟩, [], []⟩

/-- Two origins found the same host, and the first one loses it. -/
def sharedHost (t : Instant) : World :=
  performAll .standard .standard [hostRun t "a" ["x"], hostRun t "b" ["x"],
    hostRun t "a" []] (World.holding .empty)

/-- In the leap second the host goes, while the record of the second origin still
    asserts it. -/
theorem not_decided_sharedHost :
    ¬ ((sharedHost Instant.afterLatest).backend.store.holdings
      Instant.afterLatest).Decided := by
  intro h
  have hasserted : (((sharedHost Instant.afterLatest).backend.store.holdings
      Instant.afterLatest).ledger ⟨"b"⟩).any (·.asserts (.object ⟨"Host|x"⟩)) = true := by
    decide +kernel
  have hgone : ((sharedHost Instant.afterLatest).backend.store.holdings
      Instant.afterLatest).shown (.object ⟨"Host|x"⟩) = none := by
    rfl
  obtain ⟨r, hr, hx⟩ := (Option.any_eq_true _ _).mp hasserted
  obtain ⟨d, hd⟩ := (h (.object ⟨"Host|x"⟩)).mpr ⟨⟨"b"⟩, r, hr, hx⟩
  cases hgone.symm.trans hd

theorem not_ownedUpTo_afterLatest : ¬ OwnedUpTo Instant.afterLatest := by
  intro h
  have hfollows := h .standard .standard rfl (World.holding .empty) ⟨rfl, rfl⟩
    [hostRun Instant.afterLatest "a" ["x"], hostRun Instant.afterLatest "b" ["x"]]
    (hostRun Instant.afterLatest "a" []) (by decide) (by decide) Instant.afterLatest
      (by decide)
  exact not_decided_sharedHost hfollows.owned.shown_iff

/-- **Ownership holds of calls up to an instant exactly if the instant is no leap second
    at the end of the calendar.** -/
theorem ownedUpTo_iff {last : Instant} : OwnedUpTo last ↔ last ≤ Instant.latest := by
  constructor
  · intro h
    by_contra hle
    have hafter := Instant.afterLatest_le_of_latest_lt (lt_of_not_ge hle)
    refine not_ownedUpTo_afterLatest ?_
    intro levels config hretain w hw past c horder hlast
    exact h levels config hretain w hw past c horder (le_trans hlast hafter)
  · intro hle levels config hretain w hw past c horder hlast
    exact ownedUpTo_latest levels config hretain w hw past c horder (le_trans hlast hle)

/-- At the last instant before the leap second the shared host stays. -/
example : (((sharedHost Instant.latest).backend.store.holdings Instant.latest).shown
    (.object ⟨"Host|x"⟩)).isSome = true := by decide +kernel

end Call

end ClearanceGraph
