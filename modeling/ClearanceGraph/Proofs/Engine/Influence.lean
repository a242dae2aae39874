import ClearanceGraph.Proofs.Engine.Conduct
import ClearanceGraph.Proofs.Origin.Ownership
import ClearanceGraph.Proofs.Origin.Sight

/-! # Influence — calls alone make the graph

    Engines with the same configuration of levels and of reconciling take in the same
    calls.  Their brokers fail in different ways, they spread levels and publish by
    different settings, one recalculates where the other does not, and so their commits
    carry different numbers.  As long as their stores do not fail, the calls come to the
    same outcomes but for these numbers, and the same facts and the same records of
    origins show at every instant (`System.outcomes_eq_of_calls`).

    The work after a commit may be done at once or at any later time.  The heart is that
    a run is compared with the calls in it alone: a call keeps two systems alike
    (`Turn.outcome?_eq_of_call`), and whatever else happens leaves the graph
    (`Turn.resembles_perform`). -/

namespace ClearanceGraph

/-! ## Work that leaves the graph -/

namespace System

/-- An engine kept its configuration, and its store says the same of the graph. -/
def Spared (s s' : System) : Prop :=
  s'.engine.config = s.engine.config ∧ s.world.Spared s'.world

instance : IsPreorder System Spared where
  refl s := ⟨rfl, refl s.world⟩
  trans _ _ _ h h' := ⟨h'.1.trans h.1, IsTrans.trans _ _ _ h.2 h'.2⟩

end System

namespace Work

theorem spares_act {α : Type} {a : Act α} (h : Keeps World.Spared a) :
    Keeps System.Spared (act a) := fun s => ⟨rfl, h s.world⟩

private theorem spares_config : Keeps System.Spared config := fun s => refl s

end Work

/-- **What an engine does beside calls** leaves the graph. -/
theorem System.conduct_spared : System.Conduct (fun _ => True) System.Spared where
  toIsPreorder := inferInstance
  config hf := .andThen Work.spares_config fun c => hf c trivial
  memory s _ _ := ⟨rfl, refl s.world⟩
  look r := Work.spares_act (World.spares_read r)
  now := Work.spares_act (.lift World.spares_now)
  publish c _ b := Work.spares_act (World.spares_publish c.publisher b)
  republish c _ := Work.spares_act (World.spares_republishPending c.publisher)
  follow _ _ _ _ := Work.spares_act (World.spares_follow _ _ _ _)
  full _ _ _ := Work.spares_act (World.spares_full _ _ _)

/-! ## Two engines -/

/-- Engines with the same configuration of levels and of reconciling, over stores that
    do not fail and resemble each other. -/
structure System.Resembles (s s' : System) : Prop where
  levels : s.engine.config.levels = s'.engine.config.levels
  reconcile : s.engine.config.reconcile = s'.engine.config.reconcile
  world : s.world.Resembles s'.world

namespace System.Resembles

variable {s s' s₁ s₁' : System}

theorem symm (h : s.Resembles s') : s'.Resembles s :=
  ⟨h.levels.symm, h.reconcile.symm, h.world.right, h.world.left, h.world.store.symm⟩

theorem trans (h : s.Resembles s₁) (h' : s₁.Resembles s') : s.Resembles s' :=
  ⟨h.levels.trans h'.levels, h.reconcile.trans h'.reconcile, h.world.left, h'.world.right,
    h.world.store.trans h'.world.store⟩

/-- Work that leaves the graph on one side. -/
theorem spared (h : s.Resembles s') (hs : s.Spared s₁) : s₁.Resembles s' := by
  obtain ⟨hconfig, hworld⟩ := hs
  obtain ⟨hsteady, hstore⟩ := hworld h.world.left h.world.store.left
  exact ⟨by rw [hconfig]; exact h.levels, by rw [hconfig]; exact h.reconcile,
    hsteady, h.world.right, hstore.symm.trans h.world.store⟩

end System.Resembles

namespace Engine

/-- A call that is reconciled past the barrier, without the work after its commit. -/
def commit (c : Call) : Work Outcome := do
  let config ← Work.config
  Work.act (c.perform config.levels config.reconcile)

private theorem pairs_config :
    Pairs System.Resembles (Accords fun c c' : Config => c.levels = c'.levels ∧
      c.reconcile = c'.reconcile) Work.config Work.config :=
  fun _ _ h => ⟨.ok ⟨h.levels, h.reconcile⟩, h⟩

private theorem pairs_act (levels : LevelConfig) (config : ReconcileConfig) (c : Call) :
    Pairs System.Resembles (Accords fun x y => x.bare = y.bare)
      (Work.act (c.perform levels config)) (Work.act (c.perform levels config)) :=
  fun s s' h =>
    have hcall := Call.pairs_perform levels config c s.world s'.world h.world
    ⟨hcall.1, h.levels, h.reconcile, hcall.2⟩

/-- **A call** comes to the same for both engines but for the number of its commit. -/
theorem pairs_commit (c : Call) :
    Pairs System.Resembles (Accords fun x y => x.bare = y.bare) (commit c) (commit c) := by
  refine .andThen pairs_config ?_
  rintro c₁ c₂ ⟨hlevels, hreconcile⟩
  rw [hlevels, hreconcile]
  exact pairs_act _ _ c

/-- What leaves the graph may be done by one engine only. -/
private theorem pairs_left {α β γ : Type} {R : β → γ → Prop} {a : StateM System α}
    {f : α → StateM System β} {b : StateM System γ} (ha : Keeps System.Spared a)
    (hf : ∀ x, Pairs System.Resembles R (f x) b) : Pairs System.Resembles R (a >>= f) b :=
  .left ha (fun _ _ _ h hs => h.spared hs) hf

/-- **A call with its flush** comes to the same as the call alone. -/
theorem pairs_take (c : Call) :
    Pairs System.Resembles (Accords fun (x : Outcome × Option Flush) y => x.1.bare = y.bare)
      (take c) (commit c) := by
  rw [take_eq]
  refine .andThen pairs_config ?_
  rintro c₁ c₂ ⟨hlevels, hreconcile⟩
  have hright : bind (m := StateM System)
    (Work.act (c.perform c₂.levels c₂.reconcile)) pure =
      Work.act (c.perform c₂.levels c₂.reconcile) := bind_pure _
  rw [hlevels, hreconcile, ← hright]
  refine pairs_left (System.conduct_spared.modifyBarrier Barrier.begin) fun _ => ?_
  refine .bind (pairs_act c₂.levels c₂.reconcile c) fun r r' hr => ?_
  cases hr with
  | error e =>
      exact pairs_left (System.conduct_spared.modifyBarrier _) fun _ => .pure (.error e)
  | @ok x y hxy =>
      dsimp only
      cases x.job? with
      | none =>
          exact pairs_left (System.conduct_spared.modifyBarrier _) fun _ => .pure (.ok hxy)
      | some job =>
          exact pairs_left (System.conduct_spared.modifyBarrier _) fun _ =>
            pairs_left (System.conduct_spared.flush job) fun _ => .pure (.ok hxy)

end Engine

/-! ## Runs -/

/-- What happens in a run of an engine. -/
inductive Turn where
  | call (c : Call)
  /-- A call that is reconciled alone; its flush is left for later. -/
  | commit (c : Call)
  /-- The work after some commit is done, or done again. -/
  | flush (job : Batch)
  | recalculate
  /-- Which commits are deferred is asked for. -/
  | look
  /-- The broker becomes another one, and which messages are to fail is written down
      anew. -/
  | broker (b : Broker) (faults : List (Option BrokerError))
  /-- Another engine takes over, with its own configuration but for levels and
      reconciling. -/
  | restart (c : Config)

namespace Turn

def perform : Turn → System → System
  | call c, s => (Engine.take c s).2
  | commit c, s => (Engine.commit c s).2
  | flush job, s => (Engine.flush job s).2
  | recalculate, s => (Engine.recalculate s).2
  | look, s => (Engine.deferred s).2
  | broker b faults, s =>
      { s with world := { s.world with broker := b, publishFaults := faults } }
  | restart c, s =>
    (Deed.restart { c with
      levels := s.engine.config.levels
      reconcile := s.engine.config.reconcile }).perform s

/-- Turns, one after another; whether one succeeds does not matter to the next. -/
def performAll (ts : List Turn) (s : System) : System := ts.foldl (fun s t => t.perform s) s

/-- What a call comes to. -/
def outcome? : Turn → System → Option (Except GraphError Outcome)
  | call c, s => some ((Engine.take c s).1.map Prod.fst)
  | commit c, s => some (Engine.commit c s).1
  | _, _ => none

/-- What the calls of a run come to, one after another. -/
def outcomes : List Turn → System → List (Except GraphError Outcome)
  | [], _ => []
  | t :: ts, s => (t.outcome? s).toList ++ outcomes ts (t.perform s)

/-- The call of a turn, if it is one. -/
def call? : Turn → Option Call
  | call c => some c
  | commit c => some c
  | _ => none

/-- The calls of a run. -/
def calls (ts : List Turn) : List Call := ts.filterMap call?

variable {s s' : System} {t : Turn}

/-- **Whatever is no call** leaves the graph. -/
theorem resembles_perform (h : s.Resembles s') (ht : t.call? = none) :
    (t.perform s).Resembles s' := by
  cases t with
  | call c => cases ht
  | commit c => cases ht
  | flush job => exact h.spared (System.conduct_spared.flush job s)
  | recalculate => exact h.spared (System.conduct_spared.recalculate s)
  | look => exact h.spared (System.conduct_spared.deferred s)
  | broker b faults =>
      obtain ⟨hlevels, hreconcile, ⟨hleft, hright, hstore⟩⟩ := h
      exact ⟨hlevels, hreconcile, ⟨hleft.store, hleft.submits, hleft.calls, hleft.rivals⟩,
        hright, hstore⟩
  | restart c =>
      rw [perform, Deed.perform]
      split
      · next e he =>
        rw [Engine.start] at he
        split at he
        · obtain rfl := Except.ok.inj he
          exact ⟨h.levels, h.reconcile, h.world⟩
        · cases he
      · exact h

/-- **A turn that is a call** comes to the same as the call alone. -/
theorem outcome?_eq_of_call {c : Call} (h : s.Resembles s') (ht : t.call? = some c) :
    (t.outcome? s).map (Except.map Outcome.bare) =
        ((commit c).outcome? s').map (Except.map Outcome.bare) ∧
      (t.perform s).Resembles ((commit c).perform s') := by
  cases t with
  | call c =>
      obtain rfl := Option.some.inj ht
      obtain ⟨hresult, hs⟩ := Engine.pairs_take c s s' h
      have hmap : ∀ r : Except GraphError (Outcome × Option Flush),
          (r.map Prod.fst).map Outcome.bare = r.map fun x => x.1.bare := fun r => by
        cases r <;> rfl
      simp only [outcome?, Option.map_some, hmap]
      exact ⟨congrArg some (hresult.map_eq fun _ _ hxy => hxy), hs⟩
  | commit c =>
      obtain rfl := Option.some.inj ht
      obtain ⟨hresult, hs⟩ := Engine.pairs_commit c s s' h
      exact ⟨congrArg some (hresult.map_eq fun _ _ hxy => hxy), hs⟩
  | flush job => cases ht
  | recalculate => cases ht
  | look => cases ht
  | broker b faults => cases ht
  | restart c => cases ht

/-- A run comes to the same as the calls in it alone. -/
private theorem outcomes_eq_of_commits (ts : List Turn) :
    ∀ {s s' : System}, s.Resembles s' →
    (outcomes ts s).map (Except.map Outcome.bare) =
        (outcomes ((calls ts).map commit) s').map (Except.map Outcome.bare) ∧
      (performAll ts s).Resembles (performAll ((calls ts).map commit) s') := by
  induction ts with
  | nil => exact fun h => ⟨rfl, h⟩
  | cons t ts ih =>
      intro s s' h
      cases ht : t.call? with
      | none =>
          obtain ⟨hout, hrun⟩ := ih (resembles_perform h ht)
          have hnone : t.outcome? s = none := by
            cases t <;> first | rfl | cases ht
          rw [calls, List.filterMap_cons_none ht, outcomes, hnone]
          exact ⟨hout, hrun⟩
      | some c =>
          obtain ⟨hone, hs⟩ := outcome?_eq_of_call h ht
          obtain ⟨hout, hrun⟩ := ih hs
          rw [calls, List.filterMap_cons_some ht, List.map_cons, outcomes, outcomes,
            List.map_append,
            List.map_append, ← Option.toList_map, ← Option.toList_map, hone]
          exact ⟨congrArg _ hout, hrun⟩

end Turn

namespace System

variable {s s' : System}

/-- **Publishing and recalculating do not influence the graph.** Runs with the same
    calls, over stores that do not fail and resemble each other at first, have the same
    outcomes but for the numbers of commits, and the same facts and records of origins
    show at every instant. -/
theorem outcomes_eq_of_calls (h : s.Resembles s') {ts ts' : List Turn}
    (hcalls : Turn.calls ts = Turn.calls ts') :
    (Turn.outcomes ts s).map (Except.map Outcome.bare) =
        (Turn.outcomes ts' s').map (Except.map Outcome.bare) ∧
      ∀ u k, k.isGraph = true → (Turn.performAll ts s).world.backend.store.visible u k =
        (Turn.performAll ts' s').world.backend.store.visible u k := by
  obtain ⟨hout, hrun⟩ := Turn.outcomes_eq_of_commits ts h
  obtain ⟨hout', hrun'⟩ := Turn.outcomes_eq_of_commits ts' (h.symm.trans h)
  rw [hcalls] at hout hrun
  exact ⟨hout.trans hout'.symm, fun u k hk =>
    (hrun.trans hrun'.symm).world.store.visible_eq hk u⟩

/-- An engine with all defaults, on an empty store. -/
def untroubled : System := ⟨⟨.standard, .empty, 1⟩, World.empty fun _ => Instant.latest⟩

/-- An engine that spreads levels over one hop and publishes facts as well, without a
    broker. -/
def cutOff : System :=
  ⟨⟨{ Config.standard with
      spread := { SpreadConfig.standard with maxDepth := 1 }
      publisher := { PublisherConfig.standard with graphChangesTopic := some "facts" } },
        .empty, 1⟩,
    { World.empty (fun _ => ⟨.origin, .midnight⟩) with broker := ⟨Table.empty, true, 0⟩ }⟩

/-- A host is found, and then its origin ends. -/
def hostLost : List Turn :=
  [.call (Call.hostRun .latest "a" ["x"]), .call (.retire ⟨"a"⟩ .latest)]

/-- The same with recalculations in between. The flush of the second call is left to the
    last one, when the broker is back. -/
def hostLostBetween : List Turn :=
  [.call (Call.hostRun .latest "a" ["x"]), .recalculate, .commit (.retire ⟨"a"⟩ .latest),
    .broker ⟨Table.empty, false, 1⟩ [some brokerDown], .recalculate]

/-- Where nothing is published no entry is deleted, so the second call has another
    number there. Otherwise the outcomes are the same. -/
theorem outcomes_eq_of_calls_hostLost : untroubled.Resembles cutOff ∧
    Turn.calls hostLost = Turn.calls hostLostBetween ∧
    (Turn.outcomes hostLost untroubled).map (fun r => r.toOption.bind (·.transaction)) =
      [some ⟨1⟩, some ⟨4⟩] ∧
    (Turn.outcomes hostLostBetween cutOff).map (fun r => r.toOption.bind (·.transaction)) =
      [some ⟨1⟩, some ⟨3⟩] ∧
    (Turn.outcomes hostLost untroubled).map (Except.map Outcome.bare) =
      (Turn.outcomes hostLostBetween cutOff).map (Except.map Outcome.bare) ∧
    ∀ u k, k.isGraph = true →
      (Turn.performAll hostLost untroubled).world.backend.store.visible u k =
      (Turn.performAll hostLostBetween cutOff).world.backend.store.visible u k := by
  have hresembles : untroubled.Resembles cutOff :=
    ⟨rfl, rfl, .of_nil ⟨rfl, rfl⟩ rfl rfl rfl, .of_nil ⟨rfl, rfl⟩ rfl rfl rfl, .refl .empty⟩
  exact ⟨hresembles, rfl, by decide +kernel, by decide +kernel,
    outcomes_eq_of_calls hresembles rfl⟩

end System

end ClearanceGraph
