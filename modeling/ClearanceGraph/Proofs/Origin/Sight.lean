import ClearanceGraph.Proofs.Origin.Guard
import ClearanceGraph.Proofs.Origin.Parts
import ClearanceGraph.Proofs.Steadiness

/-! # Sight — what a call sees of the store

    Stores that resemble each other answer each of the parts alike that plans are read of
    (`Reading.SeesGraph`), so they give the same plan, or none for the same reason
    (`Call.plan_seesGraph`).

    A plan touches nothing but the graph either.  So a call comes to the same outcome
    over such stores but for the number of its commit, and they resemble each other
    again (`Call.pairs_perform`). -/

namespace ClearanceGraph

/-! ## Readings of the graph -/

namespace Reading

variable {α β : Type}

/-- A reading comes to the same over stores that resemble each other. -/
def SeesGraph (r : Reading α) : Prop := ∀ s s', s.Resembles s' → (r s).1 = (r s').1

theorem seesGraph_pure (x : α) : SeesGraph (Pure.pure x : Reading α) := fun _ _ _ => rfl

theorem seesGraph_throw (e : GraphError) : SeesGraph (throw e : Reading α) :=
  fun _ _ _ => rfl

/-- Readings that see the graph only may be made one after another. -/
theorem SeesGraph.bind {r : Reading α} {f : α → Reading β} (hr : r.SeesGraph)
    (hf : ∀ x, (f x).SeesGraph) : (r >>= f).SeesGraph := by
  intro s s' h
  rw [bind_fst, bind_fst, hr s s' h]
  cases (r s').1 with
  | error e => rfl
  | ok x => exact hf x s s' h

/-- Readings that always give a value, and the same one. -/
theorem seesGraph_of_gives {r : Reading α} (f : Store → α)
    (hgives : ∀ s, s.Sound → r.Gives s (f s))
    (h : ∀ s s', s.Resembles s' → f s = f s') : r.SeesGraph := by
  intro s s' hs
  rw [hgives s hs.left.sound, hgives s' hs.right.sound, h s s' hs]

/-- A look at a document of the graph sees the graph only. -/
theorem get_seesGraph (t : Instant) {k : DocumentKey} (hk : k.isGraph = true) :
    (get t k).SeesGraph :=
  seesGraph_of_gives (fun s => s.visible t k) (fun s _ => gives_get t k s)
    fun _ _ h => h.visible_eq hk t

/-- Which edges are found at an object. -/
theorem touching_seesGraph (t : Instant) (r : Reference) :
    (query t (.touching r)).SeesGraph :=
  seesGraph_of_gives (fun s => s.query t (.touching r)) (fun s _ => gives_query t _ s)
    fun _ _ h => h.left.sound.touching_congr h.right.sound fun _ _ => h.visible_eq rfl t

end Reading

namespace Ledger

/-- The latest record is a part of the graph. -/
theorem previous_seesGraph (o : OriginId) : (previous o).SeesGraph :=
  Reading.seesGraph_of_gives (fun s => s.lastRecord? o)
    (fun _ hs => hs.previous_gives_last o) fun _ _ h => h.lastRecord?_eq o

/-- So are the owners of a fact. -/
theorem owners_seesGraph (f : Fact) : (owners f).SeesGraph :=
  Reading.seesGraph_of_gives (fun s => s.owners f) (fun s _ => s.owners_gives f)
    fun _ _ h => h.owners_eq f

/-- The latest instant of an origin is that of its course. -/
private theorem lastSeen_gives_course (s : Store) (o : OriginId) :
    (lastSeen o).Gives s (lastMax? compare ((s.course (.origin o)).map Prod.fst)) := by
  obtain ⟨ds, hds, hdated⟩ := s.exists_history_gives (.origin o)
  have hlast : lastMax? compare (ds.map (·.valid.start)) =
      lastMax? compare ((s.course (.origin o)).map Prod.fst) := by
    refine lastMax?_congr fun t => ?_
    have hstarts : ds.map (·.valid.start) = (ds.map Dated.version).map (·.validFrom) := by
      rw [List.map_map]
      rfl
    rw [hstarts, hdated, Store.course, List.map_map, List.mem_map, List.mem_map]
    refine exists_congr fun v => ?_
    rw [mem_sortBy]
    rfl
  rw [← hlast]
  exact hds.bind (Reading.gives_pure s _)

/-- So is the time when an origin was last seen. -/
theorem lastSeen_seesGraph (o : OriginId) : (lastSeen o).SeesGraph :=
  Reading.seesGraph_of_gives _ (fun s _ => lastSeen_gives_course s o) fun _ _ h => by
    rw [h.course _ rfl]

end Ledger

/-! ## Plans -/

/-- Seeing the graph only is kept by composition. -/
theorem Reading.composed_seesGraph : Composed SeesGraph where
  pure := seesGraph_pure
  throw _ := seesGraph_throw _
  bind := .bind
  get t _ := get_seesGraph t rfl
  touching := touching_seesGraph
  owners := Ledger.owners_seesGraph
  previous := Ledger.previous_seesGraph
  lastSeen := Ledger.lastSeen_seesGraph

/-- A draft on facts that is closed with the ledger is on the graph. -/
theorem Ledger.Closes.isGraph {o : OriginId} {previous x : Option OriginRecord}
    {draft tx : Transaction} (h : Closes o previous draft x tx) (hdraft : draft.OnFacts) :
    ∀ op ∈ tx.operations, op.key.isGraph = true := by
  have hfacts : ∀ op ∈ draft.operations, op.key.isGraph = true := by
    intro op hop
    obtain ⟨-, f, hf⟩ := hdraft op hop
    rw [hf]
    rfl
  intro op hop
  cases h with
  | record _ _ =>
      simp only [setCurrent, Transaction.push, List.mem_append, List.mem_singleton] at hop
      rcases hop with (hop | rfl) | rfl
      · exact hfacts op hop
      · rfl
      · rfl
  | ended _ _ =>
      simp only [retire, Transaction.push, List.mem_append, List.mem_singleton] at hop
      rcases hop with (hop | rfl) | rfl
      · exact hfacts op hop
      · rfl
      · rfl

namespace Call

/-- **Plans see the graph** and nothing else. -/
theorem plan_seesGraph (policy : CascadePolicy) (c : Call) : (c.plan policy).SeesGraph :=
  Reading.composed_seesGraph.plan policy c

/-- Plans touch the graph and nothing else. -/
theorem plan_isGraph {policy : CascadePolicy} {c : Call} {s : Store} {p : Plan}
    (hs : s.Sound) (h : (c.plan policy).Gives s (some p)) :
    ∀ op ∈ p.transaction.operations, op.key.isGraph = true := by
  obtain ⟨draft, hcloses, hdraft, -⟩ := plan_files hs h
  exact hcloses.isGraph hdraft

end Call

/-! ## Calls over two stores -/

namespace World

/-- Two worlds whose stores do not fail and resemble each other. -/
structure Resembles (w w' : World) : Prop where
  left : w.Steady
  right : w'.Steady
  store : w.backend.store.Resembles w'.backend.store

/-- The same is read of the graph. -/
theorem pairs_read {α : Type} {r : Reading α} (hr : r.SeesGraph) :
    Pairs Resembles (Accords fun x y => x = y ∧ ∃ s : Store, s.Sound ∧ r.Gives s x)
      (World.read r) (World.read r) := by
  intro w w' h
  obtain ⟨hresult, hsteady, hbackend⟩ := h.left.read r
  obtain ⟨hresult', hsteady', hbackend'⟩ := h.right.read r
  refine ⟨?_, hsteady, hsteady', by rw [hbackend, hbackend']; exact h.store⟩
  rw [hresult, hresult', ← hr _ _ h.store]
  cases hx : (r w.backend.store).1 with
  | error e => exact .error e
  | ok x => exact .ok ⟨rfl, _, h.store.left.sound, hx⟩

/-- A transaction on the graph is committed to both, or refused by both in the same
    way. -/
theorem pairs_submit {tx : Transaction}
    (htx : ∀ op ∈ tx.operations, op.key.isGraph = true) :
    Pairs Resembles (Accords fun _ _ => True) (World.submit tx) (World.submit tx) := by
  intro w w' h
  obtain ⟨hresult, hsteady, hbackend⟩ := h.left.submit tx
  obtain ⟨hresult', hsteady', hbackend'⟩ := h.right.submit tx
  rw [Backend.submit_of_on h.left.store] at hresult hbackend
  rw [Backend.submit_of_on h.right.store] at hresult' hbackend'
  have hsub := h.store.submit htx
  generalize w.backend.store.submit tx = r at hsub hresult hbackend
  generalize w'.backend.store.submit tx = r' at hsub hresult' hbackend'
  refine ⟨?_, hsteady, hsteady', ?_⟩
  · rw [hresult, hresult']
    cases hsub with
    | ok _ => exact .ok trivial
    | error e => exact .error e
  · rw [hbackend, hbackend']
    cases hsub with
    | ok hp => exact hp
    | error e => exact h.store

end World

/-- An outcome without the number of its commit, which is never zero. -/
def Outcome.bare (x : Outcome) : Outcome :=
  { x with transaction := x.transaction.map fun _ => ⟨0⟩ }

namespace Reconcile

/-- Outcomes are the same but for the number of the commit. -/
private abbrev Agree : Except GraphError Outcome → Except GraphError Outcome → Prop :=
  Accords fun x y => x.bare = y.bare

/-- Stores with the same graph take the same plan alike. -/
private theorem pairs_submit (o : OriginId) {p : Plan}
    (hp : ∀ op ∈ p.transaction.operations, op.key.isGraph = true) :
    Pairs World.Resembles Agree (submit o p) (submit o p) := by
  refine .andThen (.lift (World.pairs_submit hp)) fun r r' hr => ?_
  cases hr with
  | ok _ => exact .ok rfl
  | error e => cases e <;> exact .throw _

/-- Attempts at a plan that sees and touches the graph only. -/
private theorem pairs_commit (policy : RetryPolicy) (o : OriginId) (t : Instant)
    {plan : Reading (Option Plan)} (hsees : plan.SeesGraph)
    (hgraph : ∀ s p, s.Sound → plan.Gives s (some p) →
      ∀ op ∈ p.transaction.operations, op.key.isGraph = true) :
    Pairs World.Resembles Agree (commit policy o t plan) (commit policy o t plan) := by
  have hattempt : Pairs World.Resembles Agree (attempt o t plan) (attempt o t plan) := by
    refine .andThen (World.pairs_read hsees) ?_
    rintro x _ ⟨rfl, s, hs, hx⟩
    cases x with
    | none => exact .ok rfl
    | some p => exact pairs_submit o (hgraph s p hs hx)
  refine .bind (.retry hattempt policy mayPass) ?_
  rintro ⟨r, n⟩ ⟨r', n'⟩ ⟨hr, rfl⟩
  cases hr with
  | ok h => exact .pure (.ok h)
  | error e => exact .pure (.error _)

end Reconcile

/-- **A call over stores that resemble each other** comes to the same but for the number
    of its commit, and they resemble each other again. -/
theorem Call.pairs_perform (levels : LevelConfig) (config : ReconcileConfig) (c : Call) :
    Pairs World.Resembles (Accords fun x y => x.bare = y.bare) (c.perform levels config)
      (c.perform levels config) := by
  have hgraph : ∀ s p, s.Sound → (c.plan config.cascade).Gives s (some p) →
      ∀ op ∈ p.transaction.operations, op.key.isGraph = true := fun _ _ => plan_isGraph
  have hsees := plan_seesGraph config.cascade c
  rcases c.perform_cases levels config with ⟨-, hcommit⟩ | ⟨-, e, hthrow⟩
  · rw [hcommit]
    exact Reconcile.pairs_commit _ _ _ hsees hgraph
  · rw [hthrow]
    exact .throw _

end ClearanceGraph
