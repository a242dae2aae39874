import ClearanceGraph.Proofs.Action

/-! # Retrying — attempts that come to the same, and failures that pass

    An action that comes to the same in every attempt comes to it in the end, however
    many attempts are left (`Ends.runFrom_settled`).  Where a number of attempts fail in
    a way that may pass, it is decided by that number and the attempts: failures that
    are fewer are passed, and the action goes on from there (`Ends.runFrom_past`); as
    many or more are the end of it (`Ends.runFrom_exhausted`).

    In all three the induction is on the attempts left, and the number of the attempt
    goes up as they go down. -/

namespace ClearanceGraph

variable {σ τ α ε : Type} {V : τ → σ → Prop} {retryable : ε → Bool}
    {a : StateM σ (Except ε α)}

/-- The last attempt is the first one with those that are left added. -/
theorem RetryPolicy.one_add_attempts (p : RetryPolicy) :
    1 + (p.attempts - 1) = p.attempts := by
  rw [attempts]
  omega

namespace Ends

/-- **An action that comes to the same in every attempt**, and stays where it was if it
    fails. -/
theorem runFrom_settled {t t₀ : τ} {x : Except ε α}
    (h : Ends V a t fun r t' => r = x ∧ t' = t₀)
    (hfail : ∀ e, x = .error e → t₀ = t) (more : Nat) :
    ∀ attempt,
      Ends V (RetryPolicy.runFrom retryable (fun _ _ => Pure.pure ()) a more attempt) t
      fun r t' => r.1 = x ∧ t' = t₀ ∧
        ∀ e, x = .error e → retryable e = true → r.2 = attempt + more := by
  -- on the attempts that are left; all of them end alike
  induction more with
  | zero =>
      refine fun attempt => Ends.bind h ?_
      rintro _ _ ⟨rfl, rfl⟩
      exact Ends.pure ⟨rfl, rfl, fun _ _ _ => rfl⟩
  | succ more ih =>
      refine fun attempt => Ends.bind h fun r t' hr => ?_
      obtain ⟨rfl, rfl⟩ := hr
      cases r with
      | ok y => exact Ends.pure ⟨rfl, rfl, fun e he => nomatch he⟩
      | error e =>
          obtain rfl := hfail e rfl
          dsimp only
          split
          · refine (ih (attempt + 1)).imp ?_
            rintro r' t' ⟨hr, ht, hn⟩
            exact ⟨hr, ht, fun e' he' hpass => (hn e' he' hpass).trans (by omega)⟩
          · next hstays =>
            refine Ends.pure ⟨rfl, rfl, fun e' he' hpass => absurd hpass ?_⟩
            cases he'
            exact hstays

section Failures

variable {f : Nat → τ} {e : ε}
  (hstep : ∀ n, Ends V a (f (n + 1)) fun r t' => r = .error e ∧ t' = f n)

include hstep

/-- **Failures that pass** before the attempts run out: what the action comes to from
    there on it comes to from the start. -/
theorem runFrom_past {Q : Except ε α × Nat → τ → Prop} {last : Nat}
    (he : retryable e = true) (hlast : ∀ more attempt, attempt + more = last →
      Ends V (RetryPolicy.runFrom retryable (fun _ _ => Pure.pure ()) a more attempt)
        (f 0) Q)
    (n : Nat) : ∀ more attempt, attempt + more = last → n ≤ more →
      Ends V (RetryPolicy.runFrom retryable (fun _ _ => Pure.pure ()) a more attempt)
        (f n) Q := by
  induction n with
  | zero => exact fun more attempt hsum _ => hlast more attempt hsum
  | succ n ih =>
      intro more attempt hsum hle
      obtain ⟨more, rfl⟩ := Nat.exists_eq_succ_of_ne_zero (show more ≠ 0 by omega)
      refine Ends.bind (hstep n) ?_
      rintro _ _ ⟨rfl, rfl⟩
      dsimp only
      rw [if_pos he]
      exact ih more (attempt + 1) (by omega) (by omega)

/-- **Failures that outlast the attempts**: each attempt meets one of them. -/
theorem runFrom_exhausted (he : retryable e = true) (more : Nat) :
    ∀ n attempt, more < n →
      Ends V (RetryPolicy.runFrom retryable (fun _ _ => Pure.pure ()) a more attempt) (f n)
        fun r t' => r = (.error e, attempt + more) ∧ t' = f (n - (more + 1)) := by
  induction more with
  | zero =>
      intro n attempt hlt
      obtain ⟨n, rfl⟩ := Nat.exists_eq_succ_of_ne_zero (show n ≠ 0 by omega)
      refine Ends.bind (hstep n) ?_
      rintro _ _ ⟨rfl, rfl⟩
      exact Ends.pure ⟨rfl, rfl⟩
  | succ more ih =>
      intro n attempt hlt
      obtain ⟨n, rfl⟩ := Nat.exists_eq_succ_of_ne_zero (show n ≠ 0 by omega)
      refine Ends.bind (hstep n) ?_
      rintro _ _ ⟨rfl, rfl⟩
      dsimp only
      rw [if_pos he]
      refine (ih n (attempt + 1) (by omega)).imp ?_
      rintro _ _ ⟨rfl, rfl⟩
      exact ⟨by rw [show attempt + 1 + more = attempt + (more + 1) by omega],
        by rw [show n.succ - (more + 1 + 1) = n - (more + 1) by omega]⟩

end Failures

end Ends

end ClearanceGraph
