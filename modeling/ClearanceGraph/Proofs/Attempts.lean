import ClearanceGraph.Proofs.Retry
import Mathlib.Algebra.Group.Nat.Defs
import Mathlib.Data.Nat.Basic
import Mathlib.Order.Monotone.Defs

/-! # Attempts — what a policy promises

    A run of an operation is watched from outside: its outcomes are given by a
    sequence, and a `Record` keeps how often it was called and of which failures the
    run has told.  `RetryPolicy.EndsAt` says at which call a run has to end, and with
    which failures before it; that it does end there is an induction on the attempts
    left (`runFrom_record`).

    Delays are numbers without bound here.  `delayWord` computes them in words of 64
    bits, where a shift or a product could lose its upper part, and comes to the same
    (`toNat_delayWord`). -/

namespace ClearanceGraph

namespace RetryPolicy

/-! ## Calls -/

/-- What was seen of a run so far. -/
structure Record (ε : Type) where
  /-- How often the operation was called. -/
  calls : Nat
  /-- The failures that the run has told of, each with the number of its attempt, in
      order. -/
  told : List (Nat × ε)

variable {ε α : Type}

namespace Record

/-- Nothing was seen. -/
def blank : Record ε := ⟨0, []⟩

/-- Calls an operation whose outcomes are those of a sequence, counted from one. -/
def call (outcome : Nat → Except ε α) : StateM (Record ε) (Except ε α) := fun r =>
  (outcome (r.calls + 1), { r with calls := r.calls + 1 })

/-- Keeps what the run tells of a failure. -/
def tell (attempt : Nat) (e : ε) : StateM (Record ε) Unit := fun r =>
  ((), { r with told := r.told ++ [(attempt, e)] })

variable {β : Type}

theorem call_bind (outcome : Nat → Except ε α) (f : Except ε α → StateM (Record ε) β)
    (r : Record ε) :
    (call outcome >>= f) r = f (outcome (r.calls + 1)) { r with calls := r.calls + 1 } :=
  rfl

theorem tell_bind (attempt : Nat) (e : ε) (f : Unit → StateM (Record ε) β) (r : Record ε) :
    (tell attempt e >>= f) r = f () { r with told := r.told ++ [(attempt, e)] } := rfl

end Record

/-- Of the calls from `first` to `last`, the call `k` is the first that succeeds or
    fails for good, or else it is the last one. The calls before it fail with some
    errors. -/
structure EndsAt (retryable : ε → Bool) (outcome : Nat → Except ε α) (first last k : Nat)
    (errors : List ε) : Prop where
  first_le : first ≤ k
  le_last : k ≤ last
  failed : (List.range' first (k - first)).map outcome = errors.map .error
  /-- The failures before it may pass. -/
  passed : ∀ e ∈ errors, retryable e = true
  settled : k < last → ∀ e, outcome k = .error e → retryable e = false

variable {retryable : ε → Bool} {outcome : Nat → Except ε α}

/-- A run ends at once if the first call is the last one, succeeds or fails for good. -/
theorem endsAt_first {first last : Nat} (hle : first ≤ last)
    (h : first < last → ∀ e, outcome first = .error e → retryable e = false) :
    EndsAt retryable outcome first last first [] where
  first_le := Nat.le_refl _
  le_last := hle
  failed := by rw [Nat.sub_self]; rfl
  passed := fun _ hno => nomatch hno
  settled := h

/-- A failure that may pass goes before what follows it. -/
theorem EndsAt.cons {first last k : Nat} {e : ε} {errors : List ε}
    (h : EndsAt retryable outcome (first + 1) last k errors)
    (hfirst : outcome first = .error e)
    (he : retryable e = true) : EndsAt retryable outcome first last k (e :: errors) where
  first_le := Nat.le_of_succ_le h.first_le
  le_last := h.le_last
  failed := by
    have hk : k - first = k - (first + 1) + 1 := by
      have := h.first_le
      omega
    rw [hk, List.range'_succ, List.map_cons, List.map_cons, hfirst, h.failed]
  passed := List.forall_mem_cons.mpr ⟨he, h.passed⟩
  settled := h.settled

/-- **What is seen of a run** from an attempt on, with so many more after it. -/
theorem runFrom_record (retryable : ε → Bool) (outcome : Nat → Except ε α) (more : Nat) :
    ∀ n told, ∃ k errors, EndsAt retryable outcome (n + 1) (n + 1 + more) k errors ∧
      runFrom retryable Record.tell (Record.call outcome) more (n + 1) ⟨n, told⟩ =
        ((outcome k, k), ⟨k, told ++ (List.range' (n + 1) (k - (n + 1))).zip errors⟩) := by
  have hnone : ∀ (told : List (Nat × ε)) n, told ++ (List.range' n (n - n)).zip [] = told :=
    fun told n => by rw [List.zip_nil_right, List.append_nil]
  -- on the attempts that are left; what was told so far stands before
  induction more with
  | zero =>
      intro n told
      refine ⟨n + 1, [], endsAt_first (Nat.le_refl _) fun hlt =>
        absurd hlt (Nat.lt_irrefl _), ?_⟩
      rw [hnone]
      rfl
  | succ more ih =>
      intro n told
      cases hn : outcome (n + 1) with
      | ok a =>
          refine ⟨n + 1, [], endsAt_first (Nat.le_add_right _ _) fun _ e he => ?_, ?_⟩
          · rw [hn] at he
            cases he
          · rw [hnone, runFrom, Record.call_bind, hn]
            rfl
      | error e =>
          rw [runFrom, Record.call_bind, hn]
          dsimp only
          -- an error that may pass is told, and the rest starts one attempt later
          by_cases he : retryable e = true
          · obtain ⟨k, errors, hends, hrun⟩ := ih (n + 1) (told ++ [(n + 1, e)])
            refine ⟨k, e :: errors, ?_, ?_⟩
            · rw [show n + 1 + (more + 1) = n + 1 + 1 + more by omega]
              exact hends.cons hn he
            · have hk : k - (n + 1) = k - (n + 1 + 1) + 1 := by
                have := hends.first_le
                omega
              rw [if_pos he, Record.tell_bind, hrun, hk, List.range'_succ,
                List.zip_cons_cons, List.append_assoc, List.singleton_append]
          · refine ⟨n + 1, [], endsAt_first (Nat.le_add_right _ _) fun _ e' he' => ?_, ?_⟩
            · rw [hn] at he'
              cases he'
              exact Bool.eq_false_iff.mpr he
            · rw [hnone, if_neg he, hn]
              rfl

/-! ## Delays -/

/-- The product of two words; the largest word, if the product does not fit. -/
def saturatingMul (a b : UInt64) : UInt64 :=
  if a.toNat * b.toNat < UInt64.size then a * b else UInt64.ofNat (UInt64.size - 1)

/-- The delay after an attempt in words of 64 bits. -/
def delayWord (p : RetryPolicy) (attempt : Nat) : UInt64 :=
  if attempt = 0 then 0
  else min
    (saturatingMul (UInt64.ofNat p.baseDelay) (1 <<< UInt64.ofNat (min (attempt - 1) 20)))
    (UInt64.ofNat p.maxDelay)

theorem toNat_saturatingMul (a b : UInt64) :
    (saturatingMul a b).toNat = min (a.toNat * b.toNat) (UInt64.size - 1) := by
  rw [saturatingMul]
  split
  · next hfits =>
    rw [UInt64.toNat_mul, Nat.mod_eq_of_lt hfits]
    omega
  · next hlarge =>
    rw [UInt64.toNat_ofNat_of_lt' (by decide)]
    omega

theorem toNat_min (a b : UInt64) : (min a b).toNat = min a.toNat b.toNat := by
  show (if a ≤ b then a else b).toNat = _
  split
  · next hle => exact (Nat.min_eq_left (UInt64.le_iff_toNat_le.mp hle)).symm
  · next hlt =>
    exact (Nat.min_eq_right (Nat.le_of_not_le (mt UInt64.le_iff_toNat_le.mpr hlt))).symm

/-- A one that is shifted by at most 20 bits fits into a word. -/
theorem toNat_one_shiftLeft {n : Nat} (hn : n ≤ 20) :
    ((1 : UInt64) <<< UInt64.ofNat n).toNat = 2 ^ n := by
  have hlt : 2 ^ n < 2 ^ 64 := Nat.pow_lt_pow_right (by decide) (by omega)
  have hword : (UInt64.ofNat n).toNat % 64 = n := by
    rw [UInt64.toNat_ofNat']
    omega
  rw [UInt64.toNat_shiftLeft, hword]
  show 1 <<< n % 2 ^ 64 = 2 ^ n
  rw [Nat.one_shiftLeft, Nat.mod_eq_of_lt hlt]

variable (p : RetryPolicy)

/-- **A delay doubles from one attempt to the next**, up to the cap. That a product
    stays within 64 bits is not seen, as the cap does too. -/
theorem delayAfter_eq {n : Nat} (hn : 1 ≤ n) :
    p.delayAfter n = min (p.baseDelay * 2 ^ min (n - 1) 20) p.maxDelay := by
  have hcap : min (UInt64.size - 1) p.maxDelay = p.maxDelay := by
    have := p.bounded.2.2
    omega
  rw [delayAfter, if_neg (by omega), Nat.shiftLeft_eq, Nat.min_assoc, hcap]

theorem monotone_delayAfter : Monotone p.delayAfter := by
  intro m n hmn
  by_cases hm : 1 ≤ m
  · rw [p.delayAfter_eq hm, p.delayAfter_eq (hm.trans hmn)]
    have hshift : min (m - 1) 20 ≤ min (n - 1) 20 := by omega
    have hproduct : p.baseDelay * 2 ^ min (m - 1) 20 ≤ p.baseDelay * 2 ^ min (n - 1) 20 :=
      Nat.mul_le_mul_left _ (Nat.pow_le_pow_right (by decide) hshift)
    omega
  · obtain rfl : m = 0 := by omega
    exact Nat.zero_le _

/-- **Words are long enough** for the delay after an attempt. -/
theorem toNat_delayWord (n : Nat) : (p.delayWord n).toNat = p.delayAfter n := by
  rw [delayWord, delayAfter]
  split
  · rfl
  · rw [toNat_min, toNat_saturatingMul, toNat_one_shiftLeft (Nat.min_le_right _ _),
      UInt64.toNat_ofNat_of_lt' p.bounded.2.1, UInt64.toNat_ofNat_of_lt' p.bounded.2.2,
      Nat.shiftLeft_eq]

/-- **What a policy promises.** The operation is called until it succeeds, fails for
    good, or was called as often as allowed, at least once; the last outcome is given
    with the number of calls, and the run has told of every failure before it, in order.
    A delay is what it is in numbers without bound, and delays never get shorter. In
    words of 64 bits no shift is too far and nothing is lost. -/
theorem run_promised (p : RetryPolicy) :
    (∀ {ε α : Type} (retryable : ε → Bool) (outcome : Nat → Except ε α),
      ∃ k errors, EndsAt retryable outcome 1 (max 1 p.maxAttempts) k errors ∧
        p.run retryable Record.tell (Record.call outcome) Record.blank =
          ((outcome k, k), ⟨k, (List.range' 1 (k - 1)).zip errors⟩)) ∧
    (∀ n, 1 ≤ n → p.delayAfter n = min (p.baseDelay * 2 ^ min (n - 1) 20) p.maxDelay) ∧
    Monotone p.delayAfter ∧
    ∀ n, min (n - 1) 20 < 64 ∧ (p.delayWord n).toNat = p.delayAfter n := by
  refine ⟨fun retryable outcome => ?_, fun n hn => p.delayAfter_eq hn,
    p.monotone_delayAfter, fun n => ⟨by omega, p.toNat_delayWord n⟩⟩
  obtain ⟨k, errors, hends, hrun⟩ := runFrom_record retryable outcome (p.attempts - 1) 0 []
  rw [Nat.zero_add, p.one_add_attempts, attempts, Nat.max_comm] at hends
  exact ⟨k, errors, hends, hrun⟩

/-- Two failures pass, the third call succeeds. -/
example : (⟨4, 1, 1, by decide⟩ : RetryPolicy).run (fun _ => true) Record.tell
    (Record.call fun n => if n < 3 then .error "busy" else .ok n) Record.blank =
      ((.ok 3, 3), ⟨3, [(1, "busy"), (2, "busy")]⟩) := rfl

end RetryPolicy

end ClearanceGraph
