import ClearanceGraph.Config.Basic
import ClearanceGraph.Error.Validation
import ClearanceGraph.Store.Key

/-!
# Failures — of the store, the broker and the program

  A failure that may pass when the same is tried later is told apart from one
  that stays.
-/

namespace ClearanceGraph

/-- A failure of the store. -/
inductive StorageError where
  | unavailable (text : String)
  /-- A match saw another document; the transaction was not applied. -/
  | matchFailed (key : DocumentKey)
  /-- A document does not fit its key. -/
  | keyMismatch (text : String)
  | backend (text : String)
  /-- A document could not be written down. -/
  | serialization (text : String)
deriving DecidableEq

namespace StorageError

/-- The wording of a failure. -/
def message : StorageError → String
  | unavailable t => "Store unavailable: " ++ t
  | matchFailed k => "Match failed on " ++ k.display
  | keyMismatch t => "Document key mismatch: " ++ t
  | backend t => "Storage backend error: " ++ t
  | serialization t => "Serialization error: " ++ t

/-- Whether the same request may succeed later. -/
def isRetryable : StorageError → Bool
  | unavailable _ => true
  | _ => false

end StorageError

/-- A failure of the broker. -/
inductive BrokerError where
  | unavailable (text : String)
  /-- The broker does not take the message. -/
  | rejected (text : String)
  /-- A message could not be written down or read. -/
  | serialization (text : String)
deriving DecidableEq

namespace BrokerError

/-- The wording of a failure. -/
def message : BrokerError → String
  | unavailable t => "Broker unavailable: " ++ t
  | rejected t => "Message rejected by broker: " ++ t
  | serialization t => "Message serialization failed: " ++ t

/-- Whether the same message may be taken later. -/
def isRetryable : BrokerError → Bool
  | unavailable _ => true
  | _ => false

end BrokerError

/-- Who needs an object that is not there. -/
inductive Dependent where
  /-- An edge, for one of its ends. -/
  | edge (k : EdgeKey)
  /-- A declared level, for its object. -/
  | declaration (r : Reference)
  | stated (text : String)
deriving DecidableEq

/-- The wording of a dependent. -/
def Dependent.message : Dependent → String
  | edge k => "edge " ++ k.display
  | declaration r => "declaration " ++ r.text
  | stated t => t

/-- A broken assumption of the program. -/
inductive InternalFault where
  /-- The ledger entry of an origin is another document. -/
  | ledgerEntry (origin : OriginId) (found : DocumentKey)
  /-- A commit that the log does not have. -/
  | unknownTransaction (t : TransactionId)
  | stated (text : String)
deriving DecidableEq

/-- The wording of a broken assumption. -/
def InternalFault.message : InternalFault → String
  | ledgerEntry o k => "ledger entry for " ++ o.text ++ " holds a " ++
    k.display ++ " document"
  | unknownTransaction t => "unknown transaction " ++ t.display
  | stated t => t

/-- A failure of an operation on the graph. -/
inductive GraphError where
  /-- The origin has already reported for a later time. -/
  | staleOrigin (origin : OriginId) (submitted recorded : Instant)
  /-- An edge or a declared level needs an object that is not there. -/
  | dependencyMissing (dependent : Dependent) (missing : Reference)
  /-- The store could not be reached in any attempt. -/
  | storeUnavailable (attempts : Nat) (text : String)
  /-- Someone else changed the record of the origin in every attempt. -/
  | concurrentModification (origin : OriginId) (attempts : Nat)
  /-- The messages of a commit could not be sent; they wait. -/
  | publishFailure (transaction : TransactionId) (attempts : Nat) (text : String)
  /-- A fault in what was handed in. -/
  | validation (e : ValidationError)
  /-- A failure of the store that stays. -/
  | storage (e : StorageError)
  | config (e : ConfigError)
  | internal (f : InternalFault)

namespace GraphError

/-- The wording of a failure. -/
def message : GraphError → String
  | staleOrigin o s r =>
    "Stale origin '" ++ o.text ++ "': valid time " ++ s.display ++
      " is older than recorded " ++ r.display
  | dependencyMissing d m => "Dependency missing: " ++ d.message ++
      " references absent object " ++ m.text
  | storeUnavailable a t => "Store unavailable after " ++ toString a ++ " attempt(s): " ++ t
  | concurrentModification o a =>
    "Concurrent modification of origin '" ++ o.text ++ "' after " ++ toString a ++
      " attempt(s)"
  | publishFailure t a m =>
    "Publishing deltas of transaction " ++ t.display ++ " failed after " ++ toString a ++
      " attempt(s): " ++ m
  | validation e => "Validation error: " ++ e.message
  | storage e => "Storage error: " ++ e.message
  | config e => "Configuration error: " ++ e.message
  | internal f => "Internal error: " ++ f.message

/-- Whether what was handed in is at fault. -/
def isValidation : GraphError → Bool
  | validation _ => true
  | _ => false

/-- Whether the same call may succeed later. -/
def isRetryable : GraphError → Bool
  | storeUnavailable _ _ => true
  | concurrentModification _ _ => true
  | publishFailure _ _ _ => true
  | storage e => e.isRetryable
  | _ => false

/-- A failure of the store as that of an operation: one attempt, if it may pass. -/
def ofStorage : StorageError → GraphError
  | .unavailable t => storeUnavailable 1 t
  | e => storage e

end GraphError

end ClearanceGraph
