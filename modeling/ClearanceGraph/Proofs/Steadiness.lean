import ClearanceGraph.Proofs.Conduct
import ClearanceGraph.Proofs.Effects
import ClearanceGraph.Proofs.Faults
import ClearanceGraph.Proofs.Store.Likeness
import ClearanceGraph.Proofs.Store.Log

/-! # Steadiness — what holds whatever the broker does

    A store that does not fail stays like this, since a program only uses up faults and
    adds none.  This has nothing to do with what the program is about: whatever each of
    the four basic actions keeps, publishers and passes keep as well (`World.Basic`),
    which is conduct that asks nothing of what is submitted.

    With what publishers and passes commit it follows that over such a store they leave
    facts and the records of origins as they were (`World.spares_publish`,
    `World.spares_follow`, `World.spares_full`), also where the broker fails. -/

namespace ClearanceGraph

/-! ## What a program keeps -/

/-- Each basic action leads to worlds that `R` relates to the world before. -/
structure World.Basic (R : World → World → Prop) : Prop extends IsPreorder World R where
  read : ∀ {α : Type} (r : Reading α), Keeps R (World.read r)
  submit : ∀ tx, Keeps R (World.submit tx)
  publish : ∀ topic text, Keeps R (World.publish topic text)
  now : Keeps R World.now

namespace World.Basic

variable {R : World → World → Prop} (h : World.Basic R)

include h

/-- What the basic actions keep, every part of a program keeps. -/
theorem conduct : World.Conduct (fun _ => True) (fun _ => True) R where
  toIsPreorder := h.toIsPreorder
  read := by
    have := h.toIsPreorder
    intro α β r f hf w
    have hread := h.read r w
    rw [Act.bind_apply]
    revert hread
    cases hresult : World.read r w with
    | mk result w' =>
        intro hread
        cases result with
        | error e => exact hread
        | ok x =>
            have hgives := World.gives_of_read (congrArg Prod.fst hresult)
            exact IsTrans.trans _ _ _ hread (hf _ x trivial hgives w')
  submit _ := h.submit _
  publish := h.publish
  now := h.now

/-- Publishing keeps what the basic actions keep. -/
theorem publishBatch (c : PublisherConfig) (b : Batch) : Keeps R (Publisher.publish c b) :=
  h.conduct.publishBatch c (fun _ _ _ _ => trivial) fun _ => trivial

/-- Publishing what waits keeps it. -/
theorem republishPending (c : PublisherConfig) : Keeps R (Publisher.republishPending c) :=
  h.conduct.republishPending c fun _ _ _ _ _ _ => trivial

/-- Following a commit keeps it. -/
theorem follow (levels : LevelConfig) (c : SpreadConfig) (seed : Batch) (recorded : Bool) :
    Keeps R (Pass.follow levels c seed recorded) :=
  h.conduct.follow fun _ _ _ _ _ _ _ _ _ => trivial

/-- A full pass keeps it. -/
theorem full (levels : LevelConfig) (c : SpreadConfig) (t : Instant) :
    Keeps R (Pass.full levels c t) :=
  h.conduct.full fun _ _ _ _ _ => trivial

end World.Basic

/-! ## Stores that do not fail -/

namespace World

/-- The store does not fail, and nobody else writes it. -/
structure Steady (w : World) : Prop where
  store : w.backend.isDown = false ∧ w.backend.failing = 0
  submits : ∀ f ∈ w.submitFaults, f = none
  calls : ∀ b ∈ w.outages, b = false
  rivals : w.rivals = []

variable {w : World}

/-- A store with everything switched on and no failure written down does not fail. -/
theorem Steady.of_nil (hstore : w.backend.isDown = false ∧ w.backend.failing = 0)
    (hsubmits : w.submitFaults = []) (hcalls : w.outages = []) (hrivals : w.rivals = []) :
    w.Steady :=
  ⟨hstore, hsubmits ▸ List.forall_mem_nil _, hcalls ▸ List.forall_mem_nil _, hrivals⟩

theorem Steady.undisturbed (h : w.Steady) : w.Undisturbed := ⟨h.submits, h.calls, h.rivals⟩

private theorem Bare.steady {b : Backend} (h : w.Bare b)
    (hstore : b.isDown = false ∧ b.failing = 0) : w.Steady :=
  ⟨h.1.symm ▸ hstore, h.2.submits, h.2.calls, h.2.rivals⟩

/-- A reading gives what it reads in the store. -/
theorem Steady.read (h : w.Steady) {α : Type} (r : Reading α) :
    (World.read r w).1 = (r w.backend.store).1 ∧ (World.read r w).2.Steady ∧
      (World.read r w).2.backend = w.backend := by
  obtain ⟨b, hbare, hx, rfl⟩ := ends_read r w ⟨rfl, h.undisturbed⟩
  have hlook : w.backend.look r = (r w.backend.store).1 := by
    rw [Backend.look, h.store.1, if_neg fun hoff => Bool.false_ne_true hoff.1]
  exact ⟨hx.trans hlook, hbare.steady h.store, hbare.1⟩

/-- A submit reaches the store. -/
theorem Steady.submit (h : w.Steady) (tx : Transaction) :
    (World.submit tx w).1 = (w.backend.submit tx).1 ∧ (World.submit tx w).2.Steady ∧
      (World.submit tx w).2.backend = (w.backend.submit tx).2 := by
  obtain ⟨b, hbare, hx, rfl⟩ := ends_submit tx w ⟨rfl, h.undisturbed⟩
  have hstore : (w.backend.submit tx).2.isDown = false ∧
      (w.backend.submit tx).2.failing = 0 := by
    rw [Backend.submit_of_on h.store]
    cases w.backend.store.submit tx <;> exact h.store
  exact ⟨hx, hbare.steady hstore, hbare.1⟩

/-- Nothing makes such a store fail. -/
theorem basic_steady : Basic fun w w' => w.Steady → w'.Steady where
  refl _ h := h
  trans _ _ _ h h' hw := h' (h hw)
  read r _ h := (h.read r).2.1
  submit tx _ h := (h.submit tx).2.1
  publish topic text := by
    have : IsPreorder World fun w w' => w.Steady → w'.Steady :=
      { refl := fun _ h => h, trans := fun _ _ _ h h' hw => h' (h hw) }
    -- taking a fault from the list keeps the rest of the weather
    have hfault : Keeps (fun w w' : World => w.Steady → w'.Steady) nextPublishFault := by
      intro w h
      rw [nextPublishFault]
      split
      · exact h
      · exact ⟨h.store, h.submits, h.calls, h.rivals⟩
    refine .bind hfault fun f => ?_
    cases f with
    | some e => exact .pure _
    | none =>
        intro w h
        show (deliver topic text w).2.Steady
        rw [deliver]
        split
        · exact h
        · split <;> exact ⟨h.store, h.submits, h.calls, h.rivals⟩
  now _ h := ⟨h.store, h.submits, h.calls, h.rivals⟩

/-! ## The graph is left -/

/-- A store that does not fail stays like this, and says the same of the graph. -/
def Spared (w w' : World) : Prop :=
  w.Steady → w.backend.store.Reachable → w'.Steady ∧
    w.backend.store.Resembles w'.backend.store

instance : IsPreorder World Spared where
  refl _ h hreach := ⟨h, .refl hreach⟩
  trans _ _ _ h h' hw hreach :=
    have h₁ := h hw hreach
    have h₂ := h' h₁.1 h₁.2.right
    ⟨h₂.1, h₁.2.trans h₂.2⟩

/-- An action whose commits leave the graph. -/
private theorem spares_of_commits {α : Type} {A : Transaction → Prop} {a : StateM World α}
    (hsteady : Keeps (fun w w' => w.Steady → w'.Steady) a) (ha : Commits A a)
    (hA : ∀ tx, A tx → ∀ k, tx.Writes k → k.isGraph = false) : Keeps Spared a :=
  fun w hw hreach => ⟨hsteady w hw,
    .of_evolves (ha.evolves hreach.sound ⟨rfl, hw.rivals⟩) hreach hA⟩

/-- Reading spares everything. -/
theorem spares_read {α : Type} (r : Reading α) : Keeps Spared (World.read r) := by
  intro w hw hreach
  obtain ⟨-, hsteady, hbackend⟩ := hw.read r
  rw [hbackend]
  exact ⟨hsteady, .refl hreach⟩

theorem spares_now : Keeps Spared now :=
  fun _ hw hreach => ⟨basic_steady.now _ hw, .refl hreach⟩

/-- What discharges commits writes no graph. -/
private theorem isGraph_of_discharges {tx : Transaction} (htx : tx.Discharges)
    {k : DocumentKey} (hk : tx.Writes k) : k.isGraph = false := by
  obtain ⟨t, rfl⟩ := htx.outbox hk
  rfl

/-- **Publishing a batch** leaves the graph, whatever the broker takes. -/
theorem spares_publish (c : PublisherConfig) (b : Batch) :
    Keeps Spared (Publisher.publish c b) :=
  spares_of_commits (basic_steady.publishBatch c b) (Publisher.commits_publish c b)
    fun _ htx _ hk => isGraph_of_discharges htx hk

/-- **Publishing what waits** leaves the graph. -/
theorem spares_republishPending (c : PublisherConfig) :
    Keeps Spared (Publisher.republishPending c) :=
  spares_of_commits (basic_steady.republishPending c) (Publisher.commits_republishPending c)
    fun _ htx _ hk => isGraph_of_discharges htx hk

/-- **A pass after a commit** leaves the graph. -/
theorem spares_follow (levels : LevelConfig) (c : SpreadConfig) (seed : Batch)
    (recorded : Bool) :
    Keeps Spared (Pass.follow levels c seed recorded) := by
  refine spares_of_commits (basic_steady.follow levels c seed recorded)
    (Pass.commits_follow levels c seed recorded) fun tx htx k hk => ?_
  rcases htx k hk with hprofile | rfl
  · exact DocumentKey.isGraph_of_isProfile hprofile
  · rfl

/-- **A full pass** leaves the graph. -/
theorem spares_full (levels : LevelConfig) (c : SpreadConfig) (t : Instant) :
    Keeps Spared (Pass.full levels c t) :=
  spares_of_commits (basic_steady.full levels c t) (Pass.commits_full levels c t)
    fun _ htx k hk => DocumentKey.isGraph_of_isProfile (htx k hk)

end World

end ClearanceGraph
