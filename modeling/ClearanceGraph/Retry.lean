/-!
# Retrying — a bounded number of attempts

  An operation is repeated while it fails with an error that may pass and
  attempts are left. The first attempt is always made. The delay after an
  attempt doubles from one attempt to the next, up to a cap.
-/

namespace ClearanceGraph

/-- How often and at what distance an operation is repeated. -/
structure RetryPolicy where
  /-- The number of attempts with the first one. Zero counts as one. -/
  maxAttempts : Nat
  /-- The delay before the second attempt, in milliseconds. -/
  baseDelay : Nat
  /-- The cap on a delay, in milliseconds. -/
  maxDelay : Nat
  /-- The attempts are a number of 32 bits, the delays of 64. -/
  bounded : maxAttempts < UInt32.size ∧ baseDelay < UInt64.size ∧ maxDelay < UInt64.size
deriving DecidableEq

namespace RetryPolicy

/-- Five attempts, a delay of 50 milliseconds and a cap of five seconds. -/
def standard : RetryPolicy := ⟨5, 50, 5000, by decide⟩

instance : Inhabited RetryPolicy := ⟨standard⟩

/-- The policy of three numbers in their ranges. -/
def make? (maxAttempts baseDelay maxDelay : Nat) : Option RetryPolicy :=
  if h : maxAttempts < UInt32.size ∧ baseDelay < UInt64.size ∧ maxDelay < UInt64.size then
    some ⟨maxAttempts, baseDelay, maxDelay, h⟩
  else none

/-- The number of attempts that are made, one at least. -/
def attempts (p : RetryPolicy) : Nat := max p.maxAttempts 1

/-- The delay after a failed attempt, counted from one. A product beyond 64 bits stays
at the largest number of 64 bits. -/
def delayAfter (p : RetryPolicy) (attempt : Nat) : Nat :=
  if attempt = 0 then 0
  else min (min (p.baseDelay <<< min (attempt - 1) 20) (UInt64.size - 1)) p.maxDelay

variable {m : Type → Type} [Monad m] {α ε : Type}

/-- Makes attempts from a given number on, with some more allowed after it. -/
def runFrom (retryable : ε → Bool) (onRetry : Nat → ε → m Unit) (op : m (Except ε α)) :
    Nat → Nat → m (Except ε α × Nat)
  | 0, attempt => do return (← op, attempt)
  | more + 1, attempt => do
    match ← op with
    | .ok a => return (.ok a, attempt)
    | .error e =>
      if retryable e then do
        onRetry attempt e
        runFrom retryable onRetry op more (attempt + 1)
      else return (.error e, attempt)

/-- Runs an operation until it succeeds, fails for good, or attempts run out. Gives the
last outcome and the number of attempts; `onRetry` sees every failure that is followed
by another attempt. -/
def run (p : RetryPolicy) (retryable : ε → Bool) (onRetry : Nat → ε → m Unit)
    (op : m (Except ε α)) : m (Except ε α × Nat) :=
  runFrom retryable onRetry op (p.attempts - 1) 1

end RetryPolicy

end ClearanceGraph
