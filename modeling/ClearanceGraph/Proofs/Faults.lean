import ClearanceGraph.Proofs.World

/-! # Faults — what a call of the store uses up

    The faults of a world are written down in advance, and a call of the store uses up
    some of them.  `World.Spent w w'` says that this is all: store, switches, rivals,
    broker and clock are as before.  So a reading gives what it reads or finds the store
    out of reach (`World.read_spent`).  Where nobody else writes, a submit fails as it is
    written down, finds the store out of reach, or comes to what the store makes of it
    (`World.submit_spent`).

    Where no fault is written down the switches of the store decide.  `World.Bare b w`
    shows them and nothing else. -/

namespace ClearanceGraph

namespace World

/-- A world after calls of the store have used up some of its faults. -/
inductive Spent (w : World) : World → Prop where
  | used (i j : Nat) :
      Spent w { w with submitFaults := w.submitFaults.drop i, outages := w.outages.drop j }

namespace Spent

variable {w w' w'' : World}

theorem refl (w : World) : w.Spent w := .used 0 0

/-- Faults and outages are used up in order. -/
theorem trans (h : w.Spent w') (h' : w'.Spent w'') : w.Spent w'' := by
  obtain ⟨i, j⟩ := h
  obtain ⟨i', j'⟩ := h'
  simpa only [List.drop_drop] using Spent.used (w := w) (i + i') (j + j')

/-- Using up faults leaves the store. -/
theorem backend (h : w.Spent w') : w'.backend = w.backend := by
  cases h
  rfl

/-- No rival commits while faults are used up. -/
theorem rivals (h : w.Spent w') : w'.rivals = w.rivals := by
  cases h
  rfl

/-- No fault is added. -/
theorem submits (h : w.Spent w') {f : Option StorageError} (hf : f ∈ w'.submitFaults) :
    f ∈ w.submitFaults := by
  cases h
  exact List.mem_of_mem_drop hf

/-- No new outages come up. -/
theorem calls (h : w.Spent w') {b : Bool} (hb : b ∈ w'.outages) : b ∈ w.outages := by
  cases h
  exact List.mem_of_mem_drop hb

end Spent

variable {w : World}

/-- Calls of the store reach it, or something keeps them from it. -/
theorem reaches_spent (n : Nat) : ∀ w : World, w.Spent (reaches n w).2 ∧
    ((reaches n w).1 = false → w.backend.isDown = true ∨ true ∈ w.outages) := by
  induction n with
  | zero => exact fun w => ⟨.refl w, fun h => by cases h⟩
  | succ n ih =>
      intro w
      rw [reaches]
      split
      · next hdown => exact ⟨.refl w, fun _ => .inl hdown⟩
      · split
        · exact ⟨.refl w, fun h => by cases h⟩
        · next rest hout =>
          refine ⟨?_, fun _ => .inr (hout ▸ List.mem_cons_self)⟩
          simpa only [hout, List.drop_succ_cons, List.drop_zero] using Spent.used
            (w := w) 0 1
        · next rest hout =>
          have hone : w.Spent { w with outages := rest } := by
            simpa only [hout, List.drop_succ_cons, List.drop_zero] using Spent.used
              (w := w) 0 1
          obtain ⟨hspent, hno⟩ := ih { w with outages := rest }
          exact ⟨hone.trans hspent, fun h => (hno h).imp_right hone.calls⟩

/-- A store that is switched off is reached by no call. -/
theorem reaches_of_isDown (hdown : w.backend.isDown = true) {n : Nat} (hn : n ≠ 0) :
    reaches n w = (false, w) := by
  obtain ⟨m, rfl⟩ := Nat.exists_eq_succ_of_ne_zero hn
  rw [reaches, if_pos hdown]

/-- **A reading** gives what it reads, or finds the store out of reach. -/
theorem read_spent {α : Type} (r : Reading α) (w : World) : w.Spent (World.read r w).2 ∧
    ((World.read r w).1 = (r w.backend.store).1 ∨
      (World.read r w).1 = .error (.ofStorage storeDown) ∧
        (w.backend.isDown = true ∨ true ∈ w.outages)) := by
  obtain ⟨hspent, hno⟩ := reaches_spent (r w.backend.store).2 w
  rw [read_apply]
  split
  · exact ⟨hspent, .inl rfl⟩
  · next hout => exact ⟨hspent, .inr ⟨rfl, hno (eq_false_of_ne_true hout)⟩⟩

private theorem bind_apply {α β : Type} (a : StateM World α) (f : α → StateM World β)
    (w : World) :
    (a >>= f) w = f (a w).1 (a w).2 := rfl

/-- How a submit ends where nobody else writes: as written down, out of reach, or as the
    store makes it. -/
inductive Submits (tx : Transaction) (w : World) :
    Except StorageError TransactionId × World → Prop where
  | fault {e : StorageError} {w' : World} : some e ∈ w.submitFaults → w.Spent w' →
      Submits tx w (.error e, w')
  | outage {w' : World} : w.backend.isDown = true ∨ true ∈ w.outages → w.Spent w' →
      Submits tx w (.error storeDown, w')
  | store {w' : World} : w.Spent w' →
      Submits tx w ((w.backend.submit tx).1, { w' with backend := (w.backend.submit tx).2 })

/-- The next failure of a submit is one that is written down. -/
theorem nextSubmitFault_spent (w : World) : w.Spent (nextSubmitFault w).2 ∧
    ∀ e, (nextSubmitFault w).1 = some e → some e ∈ w.submitFaults := by
  rw [nextSubmitFault]
  split
  · exact ⟨.refl w, fun e he => by cases he⟩
  · next f rest hfaults =>
    refine ⟨?_, fun e he => hfaults ▸ he ▸ List.mem_cons_self⟩
    simpa only [hfaults, List.drop_succ_cons, List.drop_zero] using Spent.used (w := w) 1 0

section Submit

variable (hrivals : w.rivals = []) (tx : Transaction) {w₁ : World}

include hrivals

/-- A fault that is written down is how a submit ends. -/
private theorem submit_of_fault {e : StorageError} (h : nextSubmitFault w = (some e, w₁)) :
    World.submit tx w = (.error e, w₁) := by
  have hrace : race w = ((), w) := by rw [race, hrivals]
  rw [World.submit, bind_apply, hrace]
  dsimp only
  rw [bind_apply, h]
  rfl

/-- Without one it depends on the store, if that is in reach. -/
private theorem submit_of_no_fault (h : nextSubmitFault w = (none, w₁)) :
    World.submit tx w = if (reaches 1 w₁).1 then submitRaw tx (reaches 1 w₁).2
      else (.error storeDown, (reaches 1 w₁).2) := by
  have hrace : race w = ((), w) := by rw [race, hrivals]
  rw [World.submit, bind_apply, hrace]
  dsimp only
  rw [bind_apply, h]
  show (if (reaches 1 w₁).1 then submitRaw tx else pure (.error storeDown))
    (reaches 1 w₁).2 = _
  split <;> rfl

/-- **A submit** where nobody else writes. -/
theorem submit_spent : w.Submits tx (World.submit tx w) := by
  obtain ⟨hspent, hf⟩ := nextSubmitFault_spent w
  rcases hnext : nextSubmitFault w with ⟨_ | e, w₁⟩
  · rw [hnext] at hspent
    obtain ⟨hspent₁, hno⟩ := reaches_spent 1 w₁
    rw [submit_of_no_fault hrivals tx hnext]
    split
    · have hraw : submitRaw tx (reaches 1 w₁).2 = ((w.backend.submit tx).1,
          { (reaches 1 w₁).2 with backend := (w.backend.submit tx).2 }) := by
        rw [submitRaw, hspent₁.backend, hspent.backend]
      rw [hraw]
      exact .store (hspent.trans hspent₁)
    · next hout =>
      refine .outage ((hno (eq_false_of_ne_true hout)).imp (fun hdown => ?_) hspent.calls)
        (hspent.trans hspent₁)
      rwa [hspent.backend] at hdown
  · rw [hnext] at hspent hf
    rw [submit_of_fault hrivals tx hnext]
    exact .fault (hf e rfl) hspent

end Submit

/-! ## Where no fault is written down -/

/-- Nobody else writes the store, and no failure of it is written down. It may be
    switched off, and submits may be to fail. -/
structure Undisturbed (w : World) : Prop where
  submits : ∀ f ∈ w.submitFaults, f = none
  calls : ∀ b ∈ w.outages, b = false
  rivals : w.rivals = []

theorem Undisturbed.of_spent {w' : World} (h : w.Undisturbed) (hspent : w.Spent w') :
    w'.Undisturbed :=
  ⟨fun f hf => h.submits f (hspent.submits hf), fun b hb => h.calls b (hspent.calls hb),
    hspent.rivals.trans h.rivals⟩

theorem undisturbed_holding (s : Store) : (World.holding s).Undisturbed :=
  ⟨List.forall_mem_nil _, List.forall_mem_nil _, rfl⟩

/-- The view of the store with its switches, where nothing disturbs it. -/
def Bare (b : Backend) (w : World) : Prop := w.backend = b ∧ w.Undisturbed

end World

/-- What a reading comes to at a store with its switches. -/
def Backend.look {α : Type} (b : Backend) (r : Reading α) : Except GraphError α :=
  if b.isDown = true ∧ (r b.store).2 ≠ 0 then .error (.ofStorage storeDown)
  else (r b.store).1

variable {b : Backend}

/-- A reading comes to what the store gives, unless it is switched off. -/
theorem ends_read {α : Type} (r : Reading α) :
    Ends World.Bare (World.read r) b fun x b' => x = b.look r ∧ b' = b := by
  rintro w ⟨rfl, hw⟩
  obtain ⟨hspent, hresult⟩ := World.read_spent r w
  refine ⟨w.backend, ⟨hspent.backend, hw.of_spent hspent⟩, ?_, rfl⟩
  rw [Backend.look]
  split
  · next hoff =>
      rw [World.read_apply, World.reaches_of_isDown hoff.1 hoff.2,
        if_neg Bool.false_ne_true]
  · next hon =>
    rcases hresult with hresult | ⟨-, hdown | hout⟩
    · exact hresult
    · -- the store is off, but it is not asked
      have hnone : (r w.backend.store).2 = 0 :=
        Decidable.not_not.mp fun hne => hon ⟨hdown, hne⟩
      rw [World.read_apply, hnone]
      rfl
    · cases hw.calls true hout

/-- A submit comes to what the store with its switches makes of it. -/
theorem ends_submit (tx : Transaction) :
    Ends World.Bare (World.submit tx) b fun x b' =>
      x = (b.submit tx).1 ∧ b' = (b.submit tx).2 := by
  rintro w ⟨rfl, hw⟩
  have hsubmits := World.submit_spent hw.rivals tx
  revert hsubmits
  rcases World.submit tx w with ⟨x, w'⟩
  intro hsubmits
  cases hsubmits with
  | fault hf _ => cases hw.submits _ hf
  | outage hout hspent =>
      rcases hout with hdown | hout
      · refine ⟨w.backend, ⟨hspent.backend, hw.of_spent hspent⟩, ?_⟩
        rw [Backend.submit, if_pos hdown]
        exact ⟨rfl, rfl⟩
      · cases hw.calls true hout
  | store hspent =>
      have hkept := hw.of_spent hspent
      exact ⟨_, ⟨rfl, hkept.submits, hkept.calls, hkept.rivals⟩, rfl, rfl⟩

end ClearanceGraph
