import ClearanceGraph.Proofs.Conduct
import ClearanceGraph.Proofs.Store.Growth

/-! # Evolution — which commits an action can make

    Whatever fails, an action changes the store by commits only, and which ones it can
    make is read off its text.  `Store.Evolves A s s'` says that commits of transactions
    of the kind `A` lead from one store to another, and `World.Commits A a` that an
    action makes no others.

    What every commit of the kind keeps, such an action keeps (`Evolves.keeps`).  This
    is enough where it does not matter how far an action gets.  For a program it is a
    matter of conduct (`World.conduct_evolves`). -/

namespace ClearanceGraph

namespace Store

variable {A B : Transaction → Prop} {s s₁ s' : Store} {tx : Transaction}
    {id : TransactionId}

/-- Some commits of transactions of a kind lead from one store to another. -/
inductive Evolves (A : Transaction → Prop) (s : Store) : Store → Prop where
  | refl : Evolves A s s
  | commit {s₁ s' : Store} {tx : Transaction} {id : TransactionId} :
      Evolves A s s₁ → A tx → s₁.submit tx = .ok (id, s') → Evolves A s s'

namespace Evolves

/-- One commit is an evolution. -/
theorem of_submit (htx : A tx) (h : s.submit tx = .ok (id, s')) : s.Evolves A s' :=
  .commit .refl htx h

/-- Commits after commits are commits. -/
theorem trans (h : s.Evolves A s₁) (h' : s₁.Evolves A s') : s.Evolves A s' := by
  induction h' with
  | refl => exact h
  | commit _ htx hsub ih => exact .commit ih htx hsub

/-- What is true of each commit may be weakened. -/
theorem mono (h : s.Evolves A s') (hAB : ∀ tx, A tx → B tx) : s.Evolves B s' := by
  induction h with
  | refl => exact .refl
  | commit _ htx hsub ih => exact .commit ih (hAB _ htx) hsub

/-- What every commit of the kind keeps. -/
theorem keeps {I : Store → Prop}
    (hI : ∀ {s s' tx id}, I s → A tx → s.submit tx = .ok (id, s') → I s')
    (h : s.Evolves A s') (hs : I s) : I s' := by
  induction h with
  | refl => exact hs
  | commit _ htx hsub ih => exact hI ih htx hsub

/-- Commits keep a store sound. -/
theorem sound (h : s.Evolves A s') (hs : s.Sound) : s'.Sound :=
  h.keeps (fun hs _ hsub => hs.submit hsub) hs

/-- Commits keep a store reachable. -/
theorem reachable (h : s.Evolves A s') (hs : s.Reachable) : s'.Reachable :=
  h.keeps (fun hs _ hsub => hs.submit hsub) hs

/-- A store grows by the keys that its commits may write. -/
theorem grows {P : DocumentKey → Prop} (h : s.Evolves A s') (hs : s.Sound)
    (hP : ∀ tx, A tx → ∀ k, tx.Writes k → P k) : s.Grows P s' := by
  induction h with
  | refl => exact .refl _
  | commit h htx hsub ih => exact ih.trans (.of_submit (h.sound hs) hsub (hP _ htx))

end Evolves

end Store

namespace World

variable {α β ε : Type} {A B : Transaction → Prop}

/-- From a sound store an action makes only commits of a kind. -/
def Commits (A : Transaction → Prop) (a : StateM World α) : Prop :=
  ∀ sky g, g.store.Sound → Ends (World.Shows sky) a g fun _ g' => g.store.Evolves A g'.store

namespace Commits

/-- An action that commits leads to a store that has evolved, whether it succeeds or
    fails. -/
theorem leads {a : StateM World (Except ε α)} (h : Commits A a) {sky : Weather} {g : Scene}
    (hs : g.store.Sound) : Leads (World.Shows sky) a g
      (fun _ g' => g.store.Evolves A g'.store)
      (fun _ g' => g.store.Evolves A g'.store) := by
  refine (h sky g hs).imp fun r _ hx => ?_
  cases r with
  | ok x => exact hx
  | error e => exact hx

/-- What an action makes of a store that nobody else writes. -/
theorem evolves {a : StateM World α} (h : Commits A a) {s : Store}
    (hs : s.Sound) {w : World}
    (hw : w.Alone s) : s.Evolves A (a w).2.backend.store := by
  obtain ⟨g, hg, hevolves⟩ := h .any ⟨s, w.broker.topics⟩ hs w
    ⟨hw.1, rfl, hw.2, fun _ => trivial, fun hfair => hfair.elim⟩
  rw [hg.store]
  exact hevolves

theorem mono {a : StateM World α} (h : Commits A a) (hAB : ∀ tx, A tx → B tx) :
    Commits B a :=
  fun sky g hs => (h sky g hs).imp fun _ _ hevolves => hevolves.mono hAB

end Commits

/-! ## Conduct -/

/-- What the one world shows becomes what the other one shows by commits of a kind. -/
def Evolves (A : Transaction → Prop) (w w' : World) : Prop :=
  ∀ sky g, g.store.Sound → w.Shows sky g → ∃ g', w'.Shows sky g' ∧
    g.store.Evolves A g'.store

instance : IsPreorder World (Evolves A) where
  refl _ _ g _ hw := ⟨g, hw, .refl⟩
  trans _ _ _ h h' sky g hs hw := by
    obtain ⟨g₁, hw₁, hevolves⟩ := h sky g hs hw
    obtain ⟨g', hw', hevolves'⟩ := h' sky g₁ (hevolves.sound hs) hw₁
    exact ⟨g', hw', hevolves.trans hevolves'⟩

/-- Committing is keeping the store evolving. -/
theorem Commits.of_keeps {a : StateM World α} (h : Keeps (Evolves A) a) : Commits A a :=
  fun sky g hs w hw => h w sky g hs hw

private theorem Commits.keeps {a : StateM World α} (h : Commits A a) :
    Keeps (Evolves A) a :=
  fun w sky g hs hw => h sky g hs w hw

/-- **A program that submits transactions of a kind** makes no other commits. -/
theorem conduct_evolves (A : Transaction → Prop) : Conduct Store.Sound A (Evolves A) where
  toIsPreorder := inferInstance
  read := by
    intro α β r f hf
    refine Commits.keeps fun sky g hs => ?_
    show Ends _ (StateT.bind (World.read r) (ExceptT.bindCont f)) g _
    refine Ends.bind (leads_read r) fun x g' hx => ?_
    cases x with
    | ok x =>
        -- readings leave the store; it is submits that make it evolve
        obtain ⟨hgives, rfl⟩ := hx
        exact Commits.of_keeps (hf _ x hs hgives) sky _ hs
    | error e =>
        obtain ⟨-, rfl⟩ := hx
        exact Ends.pure .refl
  submit := by
    refine fun htx => Commits.keeps fun sky g _ => Ends.imp (leads_submit _)
      fun r g' hr => ?_
    cases r with
    | ok id =>
        obtain ⟨s, hsub, rfl⟩ := hr
        exact .of_submit htx hsub
    | error e =>
        obtain ⟨-, rfl⟩ := hr
        exact .refl
  publish topic text := by
    refine Commits.keeps fun sky g _ => Ends.imp (leads_publish topic text) fun r g' hr =>
      ?_
    cases r with
    | ok u =>
        obtain rfl : g' = g.take topic text := hr
        exact .refl
    | error e =>
        obtain ⟨-, rfl⟩ := hr
        exact .refl
  now := Commits.keeps fun _ _ _ => ends_now.imp fun _ _ h => h.2 ▸ .refl

end World

end ClearanceGraph
