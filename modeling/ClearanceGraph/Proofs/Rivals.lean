import ClearanceGraph.Proofs.Faults
import ClearanceGraph.Proofs.Store.Log

/-! # Rivals — what other writers leave alone

    Just before a submit another writer may be faster, and nobody learns of it.  If
    what a rival can submit leaves alone what we know of the store, then we go on
    knowing it: after a reading, after a submit that failed, and just before our own
    transaction comes to the store.

    `World.Amid V A t w` says that the store of the world `w` shows `t`, and that
    rivals only submit transactions of the kind `A`.  The two rules for readings and
    submits take what a view shows across whatever rivals do (`leads_read_amid`,
    `leads_submit_amid`). -/

namespace ClearanceGraph

variable {τ : Type} {V : τ → Store → Prop} {A : Transaction → Prop} {t : τ}

/-- The store of a world shows something, and rivals keep to a kind of transactions. -/
structure World.Amid (V : τ → Store → Prop) (A : Transaction → Prop) (t : τ) (w : World) :
    Prop where
  store : V t w.backend.store
  rivals : ∀ tx, some tx ∈ w.rivals → A tx

/-- Transactions of a kind leave what is shown. -/
def Transaction.Spares (A : Transaction → Prop) (V : τ → Store → Prop) : Prop :=
  ∀ t s tx id s', A tx → V t s → s.submit tx = .ok (id, s') → V t s'

/-- Faults that were used up make no difference. -/
theorem World.Amid.of_spent {w w' : World} (h : w.Amid V A t) (hspent : w.Spent w') :
    w'.Amid V A t :=
  ⟨hspent.backend ▸ h.store, hspent.rivals ▸ h.rivals⟩

/-- What was read was read in a store that shows what is shown. -/
theorem leads_read_amid {α : Type} (r : Reading α) :
    Leads (World.Amid V A) (World.read r) t
      (fun x t' => (∃ s, V t s ∧ r.Gives s x) ∧ t' = t) (fun _ t' => t' = t) := by
  intro w hw
  obtain ⟨hspent, -⟩ := World.read_spent r w
  refine ⟨t, hw.of_spent hspent, ?_⟩
  cases hx : (World.read r w).1 with
  | ok x => exact ⟨⟨_, hw.store, World.gives_of_read hx⟩, rfl⟩
  | error e => exact rfl

section Submit

variable {Q : TransactionId → τ → Prop} {tx : Transaction}
  (h : ∀ s id s', V t s → s.submit tx = .ok (id, s') → ∃ t', V t' s' ∧ Q id t')

include h

private theorem leads_submitRaw_amid :
    Leads (World.Amid V A) (World.submitRaw tx) t Q (fun _ t' => t' = t) := by
  intro w hw
  have hraw : World.submitRaw tx w =
      ((w.backend.submit tx).1, { w with backend := (w.backend.submit tx).2 }) := rfl
  rw [hraw]
  rcases w.backend.submit_cases tx with ⟨e, n, hr⟩ | ⟨id, s', -, hsub, hr⟩
  · rw [hr]
    exact ⟨t, ⟨hw.store, hw.rivals⟩, rfl⟩
  · obtain ⟨t', ht', hq⟩ := h _ _ _ hw.store hsub
    rw [hr]
    exact ⟨t', ⟨ht', hw.rivals⟩, hq⟩

omit h in
/-- A rival that is faster leaves what is shown. -/
private theorem ends_race_amid (hA : Transaction.Spares A V) :
    Ends (World.Amid V A) World.race t fun _ t' => t' = t := by
  intro w hw
  rw [World.race]
  split
  · exact ⟨t, hw, rfl⟩
  · next rest hrivals =>
    exact ⟨t,
      ⟨hw.store, fun tx htx => hw.rivals tx (hrivals ▸ List.mem_cons_of_mem _ htx)⟩, rfl⟩
  · next tx rest hrivals =>
    have htx : A tx := hw.rivals tx (hrivals ▸ List.mem_cons_self)
    have hrest : World.Amid V A t { w with rivals := rest } :=
      ⟨hw.store, fun tx htx => hw.rivals tx (hrivals ▸ List.mem_cons_of_mem _ htx)⟩
    have hraw := leads_submitRaw_amid (V := V) (A := A) (t := t) (Q := fun _ t' => t' = t)
      fun s id s' hs hsub => ⟨t, hA t s tx id s' htx hs hsub, rfl⟩
    obtain ⟨t', ht', hends⟩ := hraw.ends (fun _ _ hx => hx) (fun _ _ he => he) _ hrest
    exact ⟨t', ht', hends⟩

/-- **A submit amid rivals** comes to a store that shows what is shown, or leaves it. -/
theorem leads_submit_amid (hA : Transaction.Spares A V) :
    Leads (World.Amid V A) (World.submit tx) t Q (fun _ t' => t' = t) := by
  refine Ends.bind (ends_race_amid hA) ?_
  rintro - t' rfl
  have hfault : Ends (World.Amid V A) World.nextSubmitFault t' fun _ t₁ => t₁ = t' :=
    fun w hw => ⟨t', hw.of_spent (World.nextSubmitFault_spent w).1, rfl⟩
  refine Ends.bind hfault ?_
  rintro f t₁ rfl
  cases f with
  | some e => exact Ends.pure rfl
  | none =>
      -- the store is reached, or the submit has failed
      have hrun :
        Ends (World.Amid V A) (fun w => (if (World.reaches 1 w).1 then World.submitRaw tx
          else pure (.error storeDown) : StateM World _) (World.reaches 1 w).2) t₁
          (Either Q fun _ t' => t' = t₁) := by
        intro w hw
        have hreached := hw.of_spent (World.reaches_spent 1 w).1
        dsimp only
        split
        · exact leads_submitRaw_amid h _ hreached
        · exact ⟨_, hreached, rfl⟩
      exact hrun

end Submit

end ClearanceGraph
