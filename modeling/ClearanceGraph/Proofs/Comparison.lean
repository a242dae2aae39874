import ClearanceGraph.Retry
import Mathlib.Order.Defs.Unbundled

/-! # Comparisons — an action against its start, and two actions side by side

    `Keeps R a` says that wherever the action `a` starts, `R` relates the state before
    to the state after.  `Pairs L R a b` runs two actions: from states that `L` relates
    they end in such states, and `R` relates their results.

    Both are closed under the steps of an action, so what a program keeps, and what two
    programs have in common, follows from their basic actions. -/

namespace ClearanceGraph

variable {σ α β γ δ ε : Type}

/-- Both are results that `R` relates, or both are the same failure. -/
inductive Accords (R : α → β → Prop) : Except ε α → Except ε β → Prop where
  | ok {x : α} {y : β} : R x y → Accords R (.ok x) (.ok y)
  | error (e : ε) : Accords R (.error e) (.error e)

/-- Related results that are the same under two maps. -/
theorem Accords.map_eq {R : α → β → Prop} {r : Except ε α} {r' : Except ε β}
    {f : α → γ} {g : β → γ}
    (h : Accords R r r') (hfg : ∀ x y, R x y → f x = g y) : r.map f = r'.map g := by
  cases h with
  | ok h => exact congrArg Except.ok (hfg _ _ h)
  | error e => rfl

/-! ## The state before and the state after -/

/-- An action leads from a state to states that `R` relates to it. -/
def Keeps (R : σ → σ → Prop) (a : StateM σ α) : Prop := ∀ w, R w (a w).2

namespace Keeps

variable {R : σ → σ → Prop} [IsPreorder σ R]

theorem pure (x : α) : Keeps R (Pure.pure x : StateM σ α) := fun w => refl w

/-- One action after another. -/
theorem bind {a : StateM σ α} {f : α → StateM σ β} (ha : Keeps R a)
    (hf : ∀ x, Keeps R (f x)) :
    Keeps R (a >>= f) := fun w => IsTrans.trans _ _ _ (ha w) (hf _ _)

/-- One action after another, as long as none fails. -/
theorem andThen {a : ExceptT ε (StateM σ) α} {f : α → ExceptT ε (StateM σ) β}
    (ha : Keeps R a)
    (hf : ∀ x, Keeps R (f x)) : Keeps R (a >>= f : ExceptT ε (StateM σ) β) := by
  show Keeps R (StateT.bind a (ExceptT.bindCont f))
  refine bind ha fun r => ?_
  cases r with
  | ok x => exact hf x
  | error e => exact pure _

/-- An action that cannot fail is one that does not. -/
theorem lift {a : StateM σ α} (ha : Keeps R a) :
    Keeps R (liftM a : ExceptT ε (StateM σ) α) :=
  bind ha fun _ => pure _

/-- An action that is repeated while it fails. -/
theorem retry {a : StateM σ (Except ε α)} (ha : Keeps R a) (p : RetryPolicy)
    (retryable : ε → Bool) : Keeps R (p.run retryable (fun _ _ => Pure.pure ()) a) := by
  have hfrom : ∀ more attempt,
      Keeps R (RetryPolicy.runFrom retryable (fun _ _ => Pure.pure ()) a more attempt) := by
    intro more
    induction more with
    | zero => exact fun attempt => bind ha fun _ => pure _
    | succ more ih =>
        intro attempt
        refine bind ha fun r => ?_
        cases r with
        | ok x => exact pure _
        | error e =>
            dsimp only
            split
            · exact ih (attempt + 1)
            · exact pure _
  exact hfrom _ _

end Keeps

/-! ## Two actions -/

/-- From states that `L` relates two actions lead to such states, with results that `R`
    relates. -/
def Pairs (L : σ → σ → Prop) (R : α → β → Prop) (a : StateM σ α) (b : StateM σ β) : Prop :=
  ∀ w w', L w w' → R (a w).1 (b w').1 ∧ L (a w).2 (b w').2

namespace Pairs

variable {L : σ → σ → Prop} {R : α → β → Prop} {S : γ → δ → Prop}

theorem pure {x : α} {y : β} (h : R x y) :
    Pairs L R (Pure.pure x : StateM σ α) (Pure.pure y) := fun _ _ hw => ⟨h, hw⟩

/-- Two pairs, one after the other. -/
theorem bind {a : StateM σ α} {b : StateM σ β} {f : α → StateM σ γ} {g : β → StateM σ δ}
    (hab : Pairs L R a b) (hfg : ∀ x y, R x y → Pairs L S (f x) (g y)) :
    Pairs L S (a >>= f) (b >>= g) := fun w w' hw =>
  hfg _ _ (hab w w' hw).1 _ _ (hab w w' hw).2

/-- The same failure on both sides. -/
theorem throw (e : ε) : Pairs L (Accords R) (throwThe ε e : ExceptT ε (StateM σ) α)
    (throwThe ε e : ExceptT ε (StateM σ) β) := fun _ _ hw => ⟨.error e, hw⟩

theorem ok {x : α} {y : β} (h : R x y) :
    Pairs L (Accords R) (Pure.pure x : ExceptT ε (StateM σ) α)
      (Pure.pure y : ExceptT ε (StateM σ) β) := fun _ _ hw => ⟨.ok h, hw⟩

/-- One action after another on both sides; both go on or both have failed. -/
theorem andThen {a : ExceptT ε (StateM σ) α} {b : ExceptT ε (StateM σ) β}
    {f : α → ExceptT ε (StateM σ) γ} {g : β → ExceptT ε (StateM σ) δ}
    (hab : Pairs L (Accords R) a b) (hfg : ∀ x y, R x y → Pairs L (Accords S) (f x) (g y)) :
    Pairs L (Accords S) (a >>= f : ExceptT ε (StateM σ) γ)
    (b >>= g : ExceptT ε (StateM σ) δ) := by
  show Pairs L (Accords S) (StateT.bind a (ExceptT.bindCont f))
    (StateT.bind b (ExceptT.bindCont g))
  refine bind hab fun r r' hr => ?_
  cases hr with
  | ok h => exact hfg _ _ h
  | error e => exact pure (.error e)

theorem lift {a : StateM σ α} {b : StateM σ β} (h : Pairs L R a b) :
    Pairs L (Accords R) (liftM a : ExceptT ε (StateM σ) α)
    (liftM b : ExceptT ε (StateM σ) β) :=
  bind h fun _ _ hxy => pure (.ok hxy)

/-- Actions that are repeated while they fail are repeated as often. -/
theorem retry {a : StateM σ (Except ε α)} {b : StateM σ (Except ε β)}
    (h : Pairs L (Accords R) a b) (p : RetryPolicy) (retryable : ε → Bool) :
    Pairs L (fun r r' => Accords R r.1 r'.1 ∧ r.2 = r'.2)
      (p.run retryable (fun _ _ => Pure.pure ()) a)
      (p.run retryable (fun _ _ => Pure.pure ()) b) := by
  have hfrom : ∀ more attempt, Pairs L (fun r r' => Accords R r.1 r'.1 ∧ r.2 = r'.2)
      (RetryPolicy.runFrom retryable (fun _ _ => Pure.pure ()) a more attempt)
      (RetryPolicy.runFrom retryable (fun _ _ => Pure.pure ()) b more attempt) := by
    intro more
    induction more with
    | zero => exact fun attempt => bind h fun r r' hr => pure ⟨hr, rfl⟩
    | succ more ih =>
        intro attempt
        refine bind h fun r r' hr => ?_
        cases hr with
        | ok h => exact pure ⟨.ok h, rfl⟩
        | error e =>
            dsimp only
            split
            · exact ih (attempt + 1)
            · exact pure ⟨.error e, rfl⟩
  exact hfrom _ _

/-- A step on one side only, which `L` does not notice. -/
theorem left {K : σ → σ → Prop} {a : StateM σ α} {f : α → StateM σ γ} {b : StateM σ δ}
    (ha : Keeps K a) (hL : ∀ w w₁ w', L w w' → K w w₁ → L w₁ w')
    (hf : ∀ x, Pairs L S (f x) b) : Pairs L S (a >>= f) b :=
  fun w _ hw => hf _ _ _ (hL _ _ _ hw (ha w))

end Pairs

end ClearanceGraph
