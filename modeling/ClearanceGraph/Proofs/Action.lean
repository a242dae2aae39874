import ClearanceGraph.Retry

/-! # Actions — what an action leads to

    Of a state only some things matter; `V t w` says that the state `w` shows the
    things `t`.  `Ends V a t Q` follows an action by them: from a state that shows
    `t` it ends in a state that shows something, and `Q` says of the result and of
    what is shown then.  `Leads` is the same for an action that can fail, with
    something to be said of either end.

    Each step of an action has its rule; whatever a view leaves out may differ from
    state to state, so faults that come and go are covered by a view that does not
    show them.  Where the states themselves are spoken of, `Exactly V` shows them in
    addition. -/

namespace ClearanceGraph

variable {σ τ α β ε : Type} {V : τ → σ → Prop} {t : τ}

/-- From states that show `t` an action ends as `Q` says. -/
def Ends (V : τ → σ → Prop) (a : StateM σ α) (t : τ) (Q : α → τ → Prop) : Prop :=
  ∀ w, V t w → ∃ t', V t' (a w).2 ∧ Q (a w).1 t'

/-- One thing holds of results, another of failures. -/
def Either (Q : α → τ → Prop) (E : ε → τ → Prop) : Except ε α → τ → Prop
  | .ok x, t => Q x t
  | .error e, t => E e t

/-- From states that show `t` an action gives a result as `Q` says, or fails as `E`
    says. -/
def Leads (V : τ → σ → Prop) (a : StateM σ (Except ε α)) (t : τ) (Q : α → τ → Prop)
    (E : ε → τ → Prop) : Prop :=
  Ends V a t (Either Q E)

namespace Ends

variable {Q Q' : α → τ → Prop} {R : β → τ → Prop}

/-- What holds at the end may be weakened. -/
theorem imp {a : StateM σ α} (h : Ends V a t Q) (hq : ∀ x t', Q x t' → Q' x t') :
    Ends V a t Q' := by
  intro w hw
  obtain ⟨t', ht', hx⟩ := h w hw
  exact ⟨t', ht', hq _ _ hx⟩

/-- Two things that hold in the end, where a view shows one thing only. -/
theorem and {a : StateM σ α} (hV : ∀ t t' w, V t w → V t' w → t = t') (h : Ends V a t Q)
    (h' : Ends V a t Q') : Ends V a t fun x t' => Q x t' ∧ Q' x t' := by
  intro w hw
  obtain ⟨t₁, ht₁, hx⟩ := h w hw
  obtain ⟨t₂, ht₂, hx'⟩ := h' w hw
  exact ⟨t₁, ht₁, hx, hV _ _ _ ht₂ ht₁ ▸ hx'⟩

theorem pure {x : α} (h : Q x t) : Ends V (Pure.pure x : StateM σ α) t Q :=
  fun _ hw => ⟨t, hw, h⟩

/-- One action after another. -/
theorem bind {a : StateM σ α} {f : α → StateM σ β} (ha : Ends V a t Q)
    (hf : ∀ x t', Q x t' → Ends V (f x) t' R) : Ends V (a >>= f) t R := by
  intro w hw
  obtain ⟨t', ht', hx⟩ := ha w hw
  exact hf _ t' hx _ ht'

/-- An action that cannot fail, among others that can. -/
theorem lift {a : StateM σ α} (ha : Ends V a t Q) :
    Ends V (liftM a : ExceptT ε (StateM σ) α) t fun r t' => ∃ x, r = .ok x ∧ Q x t' :=
  Ends.bind ha fun x _ hx => Ends.pure ⟨x, rfl, hx⟩

/-- One action after another, where it is known what the first one comes to. -/
theorem andThen {a : ExceptT ε (StateM σ) α} {f : α → ExceptT ε (StateM σ) β}
    {x : Except ε α}
    {t₁ : τ} {R : Except ε β → τ → Prop} (ha : Ends V a t fun r t' => r = x ∧ t' = t₁)
    (hok : ∀ y, x = .ok y → Ends V (f y) t₁ R) (herr : ∀ e, x = .error e →
      R (.error e) t₁) :
    Ends V (a >>= f : ExceptT ε (StateM σ) β) t R := by
  show Ends V (StateT.bind a (ExceptT.bindCont f)) t R
  refine Ends.bind ha fun r t' hr => ?_
  obtain ⟨rfl, rfl⟩ := hr
  cases r with
  | ok y => exact hok y rfl
  | error e => exact Ends.pure (herr e rfl)

end Ends

namespace Leads

variable {Q Q' : α → τ → Prop} {R : β → τ → Prop} {E E' : ε → τ → Prop}

/-- What holds at the end may be weakened, for results and for failures. -/
theorem imp {a : StateM σ (Except ε α)} (h : Leads V a t Q E)
    (hq : ∀ x t', Q x t' → Q' x t')
    (he : ∀ e t', E e t' → E' e t') : Leads V a t Q' E' := by
  refine Ends.imp h fun r t' hr => ?_
  cases r with
  | ok x => exact hq x t' hr
  | error e => exact he e t' hr

/-- Two views of one action are one view. -/
theorem and {a : StateM σ (Except ε α)} (hV : ∀ t t' w, V t w → V t' w → t = t')
    (h : Leads V a t Q E) (h' : Leads V a t Q' E') :
    Leads V a t (fun x t' => Q x t' ∧ Q' x t') (fun e t' => E e t' ∧ E' e t') := by
  refine (Ends.and hV h h').imp fun r t' hr => ?_
  cases r with
  | ok x => exact hr
  | error e => exact hr

theorem pure {x : α} (h : Q x t) : Leads V (Pure.pure x : ExceptT ε (StateM σ) α) t Q E :=
  fun _ hw => ⟨t, hw, h⟩

theorem throw {e : ε} (h : E e t) :
    Leads V (throwThe ε e : ExceptT ε (StateM σ) α) t Q E := fun _ hw => ⟨t, hw, h⟩

/-- One action after another; nothing follows a failure. -/
theorem bind {a : ExceptT ε (StateM σ) α} {f : α → ExceptT ε (StateM σ) β}
    (ha : Leads V a t Q E) (hf : ∀ x t', Q x t' → Leads V (f x) t' R E) :
    Leads V (a >>= f : ExceptT ε (StateM σ) β) t R E := by
  show Ends V (StateT.bind a (ExceptT.bindCont f)) t (Either R E)
  refine Ends.bind ha fun r t' hr => ?_
  cases r with
  | ok x => exact hf x t' hr
  | error e => exact Ends.pure hr

/-- One action after another, where the first one fails in a way of its own. -/
theorem step {a : ExceptT ε (StateM σ) α} {f : α → ExceptT ε (StateM σ) β}
    (ha : Leads V a t Q E')
    (he : ∀ e t', E' e t' → E e t') (hf : ∀ x t', Q x t' → Leads V (f x) t' R E) :
    Leads V (a >>= f : ExceptT ε (StateM σ) β) t R E :=
  (ha.imp (fun _ _ hx => hx) he).bind hf

/-- An action that cannot fail, among others that can. -/
theorem lift {a : StateM σ α} (ha : Ends V a t Q) :
    Leads V (liftM a : ExceptT ε (StateM σ) α) t Q E :=
  Ends.bind ha fun _ _ hx => Ends.pure hx

/-- What holds of either end. -/
theorem ends {a : StateM σ (Except ε α)} {P : τ → Prop} (h : Leads V a t Q E)
    (hq : ∀ x t', Q x t' → P t') (he : ∀ e t', E e t' → P t') : Ends V a t fun _ t' =>
      P t' := by
  refine Ends.imp h fun r t' hr => ?_
  cases r with
  | ok x => exact hq x t' hr
  | error e => exact he e t' hr

/-- A result of an action is as it should be. -/
theorem of_ok {a : StateM σ (Except ε α)} {w w' : σ} {x : α} (h : Leads V a t Q E)
    (hw : V t w) (ha : a w = (.ok x, w')) : ∃ t', V t' w' ∧ Q x t' := by
  obtain ⟨t', ht', hr⟩ := h w hw
  rw [ha] at ht' hr
  exact ⟨t', ht', hr⟩

/-- An action that cannot fail from where it starts gives a result. -/
theorem exists_ok {a : StateM σ (Except ε α)} {w : σ} (h : Leads V a t Q E) (hw : V t w)
    (he : ∀ e t', ¬ E e t') : ∃ x t', (a w).1 = .ok x ∧ V t' (a w).2 ∧ Q x t' := by
  obtain ⟨t', ht', hr⟩ := h w hw
  cases hx : (a w).1 with
  | ok x =>
      rw [hx] at hr
      exact ⟨x, t', rfl, ht', hr⟩
  | error e =>
      rw [hx] at hr
      exact absurd hr (he e t')

end Leads

/-! ## Views of states -/

/-- The view that shows what `V` shows, and the state itself. -/
def Exactly (V : τ → σ → Prop) (p : τ × σ) (w : σ) : Prop := V p.1 w ∧ w = p.2

/-- What an action ends with is what it gives on that very state. -/
theorem Ends.exactly {a : StateM σ α} {Q : α → τ → Prop} {w : σ} (h : Ends V a t Q) :
    Ends (Exactly V) a (t, w) fun x p => Q x p.1 ∧ a w = (x, p.2) := by
  rintro _ ⟨hw, rfl⟩
  obtain ⟨t', ht', hx⟩ := h _ hw
  exact ⟨(t', _), ⟨ht', rfl⟩, hx, rfl⟩

/-- So it is for results and for failures. -/
theorem Leads.exactly {a : StateM σ (Except ε α)} {Q : α → τ → Prop}
    {E : ε → τ → Prop} {w : σ} (h : Leads V a t Q E) :
    Leads (Exactly V) a (t, w) (fun x p => Q x p.1 ∧ a w = (.ok x, p.2))
      (fun e p => E e p.1 ∧ a w = (.error e, p.2)) := by
  refine (Ends.exactly h).imp fun r p hr => ?_
  cases r with
  | ok x => exact hr
  | error e => exact hr

/-! ## Retrying -/

section Retry

variable {Q : α → τ → Prop} {E : ε → τ → Prop} {retryable : ε → Bool}

/-- Attempts that fail change nothing, so a run ends as one of them does. -/
private theorem ends_runFrom {a : StateM σ (Except ε α)}
    (h : Leads V a t Q fun e t' => E e t' ∧ t' = t) (more : Nat) :
    ∀ attempt,
      Ends V (RetryPolicy.runFrom retryable (fun _ _ => Pure.pure ()) a more attempt) t
      fun r t' => Either Q (fun e t' => E e t' ∧ t' = t) r.1 t' := by
  -- on the attempts left; an attempt that fails leaves what it started from
  induction more with
  | zero => exact fun attempt => Ends.bind h fun r t' hr => Ends.pure hr
  | succ more ih =>
      intro attempt
      refine Ends.bind h fun r t' hr => ?_
      cases r with
      | ok x => exact Ends.pure hr
      | error e =>
          dsimp only
          split
          · obtain ⟨-, rfl⟩ := hr
            exact ih (attempt + 1)
          · exact Ends.pure hr

/-- Attempts that change nothing when they fail may be repeated. -/
theorem Ends.retry {a : StateM σ (Except ε α)}
    (h : Leads V a t Q fun e t' => E e t' ∧ t' = t) (p : RetryPolicy) :
    Ends V (p.run retryable (fun _ _ => Pure.pure ()) a) t
      fun r t' => Either Q (fun e t' => E e t' ∧ t' = t) r.1 t' :=
  ends_runFrom h _ _

end Retry

end ClearanceGraph
