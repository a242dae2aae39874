import ClearanceGraph.Engine.Recalculation
import ClearanceGraph.Proofs.Comparison
import ClearanceGraph.Proofs.Engine.Deed

/-! # Conduct of engines — what an engine keeps if its parts do

    Beside its memory an engine does to the world what readings, the clock, publishers and
    passes do.  `System.Conduct P R` says that these parts lead to systems that `R`
    relates to the system before, under every configuration of which `P` holds; and that
    `R` sees nothing of what an engine remembers.

    Then a flush, a look at what is deferred and a recalculation lead to such systems
    (`flush`, `deferred`, `recalculate`), and a call with its flush does if the call
    alone does (`take`). -/

namespace ClearanceGraph

/-- Each part of an engine leads to systems that `R` relates to the system before, under
    configurations of which `P` holds. -/
structure System.Conduct (P : Config → Prop) (R : System → System → Prop) : Prop
    extends IsPreorder System R where
  config : ∀ {α : Type} {f : Config → Work α}, (∀ c, P c → Keeps R (f c)) →
    Keeps R (Work.config >>= f : Work α)
  memory : ∀ (s : System) b m,
    R s { s with engine := { s.engine with barrier := b, watermark := m } }
  look : ∀ {α : Type} (r : Reading α), Keeps R (Work.act (World.read r))
  now : Keeps R (Work.act (liftM World.now))
  publish : ∀ c, P c → ∀ b, Keeps R (Work.act (Publisher.publish c.publisher b))
  republish : ∀ c, P c → Keeps R (Work.act (Publisher.republishPending c.publisher))
  follow : ∀ c, P c → ∀ seed recorded,
    Keeps R (Work.act (Pass.follow c.levels c.spread seed recorded))
  full : ∀ c, P c → ∀ t, Keeps R (Work.act (Pass.full c.levels c.spread t))

namespace System.Conduct

open Engine

variable {P : Config → Prop} {R : System → System → Prop} (h : System.Conduct P R)

include h

theorem modifyBarrier (f : Barrier → Barrier) : Keeps R (Work.modifyBarrier f) :=
  fun s => h.memory s (f s.engine.barrier) s.engine.watermark

theorem advance (job : Batch) : Keeps R (advance job) := by
  have := h.toIsPreorder
  refine h.config fun c hc => ?_
  have hcarryOn : ∀ seed : Batch, Keeps R (do
      let report ← Work.act (Pass.follow c.levels c.spread seed true)
      Work.act (Publisher.publish c.publisher { seed with deltas := report.deltas }) :
      Work Unit) := fun seed =>
    .andThen (h.follow c hc seed true) fun report => h.publish c hc _
  refine .andThen (h.look _) fun state => ?_
  cases state with
  | unrecorded => exact hcarryOn job
  | stopped b => exact hcarryOn b
  | recorded =>
      refine .andThen (h.look _) fun entry => ?_
      cases entry with
      | none => exact .pure _
      | some e => exact h.publish c hc e.batch

/-- **A flush.** -/
theorem flush (job : Batch) : Keeps R (flush job) := by
  have := h.toIsPreorder
  refine .bind (h.advance job) fun r => ?_
  cases r with
  | ok u => exact .bind (h.modifyBarrier _) fun _ => .pure _
  | error e => cases e <;> exact .pure _

private theorem scan (more : Nat) : ∀ n contiguous, Keeps R (scan more n contiguous) := by
  have := h.toIsPreorder
  induction more with
  | zero => exact fun n contiguous => .pure _
  | succ more ih =>
      intro n contiguous
      refine .andThen (h.look _) fun inspection => ?_
      have hset : ∀ m, Keeps R (modify fun s : System =>
          { s with engine := { s.engine with watermark := m } } : StateM System Unit) :=
        fun m s => h.memory s s.engine.barrier m
      cases inspection with
      | absent => exact ih _ _
      | settled =>
          dsimp only
          split
          · exact .andThen (.lift (hset (n + 1))) fun _ => ih _ _
          · exact ih _ _
      | unfinished u => exact .andThen (ih _ _) fun us => .pure _

private theorem unfinished : Keeps R unfinished := by
  have := h.toIsPreorder
  refine .andThen (h.look _) fun latest => ?_
  cases latest with
  | none => exact .pure _
  | some t =>
      have hget : Keeps R (get : StateM System System) := fun s => refl s
      exact .andThen (.lift hget) fun s => h.scan _ _ _

/-- **A look** at what is deferred. -/
theorem deferred : Keeps R deferred := by
  have := h.toIsPreorder
  exact .andThen h.unfinished fun _ => .pure _

private theorem retryAll (us : List Unfinished) : Keeps R (retryAll us) := by
  have := h.toIsPreorder
  induction us with
  | nil => exact .pure _
  | cons u us ih =>
      refine .andThen (h.look _) fun job => ?_
      exact .andThen (.lift (h.flush job)) fun _ => .andThen ih fun ts => .pure _

/-- **A recalculation.** -/
theorem recalculate : Keeps R recalculate := by
  have := h.toIsPreorder
  refine h.config fun c hc => .andThen (h.republish c hc) fun ts => ?_
  refine .andThen (.lift (h.modifyBarrier _)) fun _ => ?_
  refine .andThen h.unfinished fun us => .andThen (h.retryAll us) fun retried => ?_
  refine .andThen h.now fun t => .andThen (h.full c hc t) fun full => ?_
  cases full.eventTransaction with
  | none => exact .pure _
  | some id => exact .andThen (h.publish c hc _) fun _ => .pure _

/-- **A call** with its flush. -/
theorem take {c : Call} (hcall : ∀ config, P config →
    Keeps R (Work.act (c.perform config.levels config.reconcile))) : Keeps R (take c) := by
  have := h.toIsPreorder
  rw [take_eq]
  refine h.config fun config hconfig => ?_
  refine .bind (h.modifyBarrier _) fun _ => .bind (hcall config hconfig) fun r => ?_
  cases r with
  | error e => exact .bind (h.modifyBarrier _) fun _ => .pure _
  | ok x =>
      dsimp only
      cases x.job? with
      | none => exact .bind (h.modifyBarrier _) fun _ => .pure _
      | some job =>
          exact .bind (h.modifyBarrier _) fun _ => .bind (h.flush job) fun _ => .pure _

end System.Conduct

end ClearanceGraph
