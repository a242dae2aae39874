import ClearanceGraph.Store.Reading

/-!
# The world — store, broker and clock, with what can go wrong

  The store and the broker can be out of reach, or fail a number of calls. Other
  writers can commit just before a submit. Which faults happen when is written
  down in advance as lists, so a run of the program is a function of them.
-/

namespace ClearanceGraph

/-- The broker keeps every message of each topic, in order. -/
structure Broker where
  topics : Table String (List String)
  isDown : Bool
  failing : Nat

/-- The store with its switches. -/
structure Backend where
  store : Store
  isDown : Bool
  failing : Nat

/-- Everything outside the program. -/
structure World where
  backend : Backend
  broker : Broker
  /-- What other writers submit just before our next submits. -/
  rivals : List (Option Transaction)
  submitFaults : List (Option StorageError)
  publishFaults : List (Option BrokerError)
  /-- Whether our next calls of the store find it out of reach. -/
  outages : List Bool
  /-- What the clock shows, reading by reading. -/
  clock : Nat → Instant
  ticks : Nat

/-- What the program does to the world: a result or a failure. -/
abbrev Act (α : Type) : Type := ExceptT GraphError (StateM World) α

/-- The store is switched off. -/
def storeDown : StorageError := .unavailable "store marked unavailable"

/-- A submit that was to fail. -/
def submitRefused : StorageError := .unavailable "injected submit failure"

/-- The broker is switched off. -/
def brokerDown : BrokerError := .unavailable "broker marked unavailable"

/-- A message that was to fail. -/
def publishRefused : BrokerError := .unavailable "injected publish failure"

/-! ## The store -/

namespace Backend

/-- An empty store in reach. -/
def empty : Backend := ⟨.empty, false, 0⟩

def ask {α : Type} (b : Backend) (f : Store → α) : Except StorageError α :=
  if b.isDown then .error storeDown else .ok (f b.store)

/-- Submits a transaction: the store may be off, the submit may be one of those that
fail, and a match may fail. -/
def submit (b : Backend) (tx : Transaction) : Except StorageError TransactionId × Backend :=
  if b.isDown then (.error storeDown, b)
  else match b.failing with
    | n + 1 => (.error submitRefused, { b with failing := n })
    | 0 =>
      match b.store.submit tx with
      | .ok (id, s) => (.ok id, { b with store := s })
      | .error e => (.error e, b)

end Backend

namespace World

/-- An empty world with a clock. -/
def empty (clock : Nat → Instant) : World :=
  ⟨.empty, ⟨Table.empty, false, 0⟩, [], [], [], [], clock, 0⟩

/-- Whether the next calls of the store, so many, all reach it, and the world after
them. A call that fails is the last one. -/
def reaches : Nat → World → Bool × World
  | 0, w => (true, w)
  | n + 1, w =>
    if w.backend.isDown then (false, w)
    else match w.outages with
      | [] => (true, w)
      | true :: rest => (false, { w with outages := rest })
      | false :: rest => reaches n { w with outages := rest }

/-- Runs a reading on the store. -/
def read {α : Type} (r : Reading α) : Act α := fun w =>
  let (result, asks) := r w.backend.store
  let (reached, w) := reaches asks w
  if reached then (result, w) else (.error (.ofStorage storeDown), w)

/-- Submits past our own faults, as another writer does. -/
def submitRaw (tx : Transaction) : StateM World (Except StorageError TransactionId) :=
  fun w =>
  let (r, b) := w.backend.submit tx
  (r, { w with backend := b })

/-- Lets the next rival submit, if it is its turn. Nobody learns how that ends. -/
def race : StateM World Unit := fun w =>
  match w.rivals with
  | [] => ((), w)
  | none :: rest => ((), { w with rivals := rest })
  | some tx :: rest => ((), (submitRaw tx { w with rivals := rest }).2)

/-- The failure that the next submit is to have, if any. -/
def nextSubmitFault : StateM World (Option StorageError) := fun w =>
  match w.submitFaults with
  | [] => (none, w)
  | f :: rest => (f, { w with submitFaults := rest })

/-- Submits a transaction: first a rival may be faster, then the submit may fail as
written down, then it reaches the store or not. -/
def submit (tx : Transaction) : StateM World (Except StorageError TransactionId) := do
  race
  match ← nextSubmitFault with
  | some e => return .error e
  | none =>
    let w ← get
    let (reached, w) := reaches 1 w
    set w
    if reached then submitRaw tx else return .error storeDown

/-! ## The broker -/

/-- The failure that the next message is to have, if any. -/
def nextPublishFault : StateM World (Option BrokerError) := fun w =>
  match w.publishFaults with
  | [] => (none, w)
  | f :: rest => (f, { w with publishFaults := rest })

/-- Hands a message to the broker: it may be off, or the message one of those that
fail. -/
def deliver (topic text : String) : StateM World (Except BrokerError Unit) := fun w =>
  let b := w.broker
  if b.isDown then (.error brokerDown, w)
  else match b.failing with
    | n + 1 => (.error publishRefused, { w with broker := { b with failing := n } })
    | 0 =>
      (.ok (), { w with broker := { b with
        topics := b.topics.update topic fun ms => ms.getD [] ++ [text] } })

/-- Sends a message: it may fail as written down, else the broker takes it or not. -/
def publish (topic text : String) : StateM World (Except BrokerError Unit) := do
  match ← nextPublishFault with
  | some e => return .error e
  | none => deliver topic text

/-- The messages of a topic. -/
def messages (w : World) (topic : String) : List String :=
  (w.broker.topics.get? topic).getD []

/-! ## The clock -/

def now : StateM World Instant :=
  fun w => (w.clock w.ticks, { w with ticks := w.ticks + 1 })

end World

end ClearanceGraph
