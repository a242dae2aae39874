import ClearanceGraph.Event.Message
import ClearanceGraph.Event.Outbox
import ClearanceGraph.World

/-!
# The publisher — batches become messages

  New levels go to one topic, changed levels to another, changed facts to a third
  if there is one. A batch that could not be sent waits in the outbox. Messages
  can be sent again, always as the same text.
-/

namespace ClearanceGraph

/-- The topic of a kind of change of a level. -/
def PublisherConfig.topicFor (c : PublisherConfig) (k : DeltaKind) : String :=
  if k.isIncrement then c.incrementsTopic else c.mutationsTopic

namespace Publisher

variable (c : PublisherConfig)

/-- The messages about facts of a batch, with their topic. -/
def changeMessages (b : Batch) : List (String × String) :=
  match c.graphChangesTopic, b.origin with
  | some topic, some o =>
    b.changes.map fun ch => (topic, (ChangeMessage.ofChange b.transaction o ch).encode)
  | _, _ => []

/-- The messages about levels of a batch, with their topics. -/
def deltaMessages (b : Batch) : List (String × String) :=
  b.deltas.map fun d => (c.topicFor d.kind, (ProfileMessage.ofDelta b.transaction d).encode)

/-- The messages of a batch, with their topics: facts first. -/
def messages (b : Batch) : List (String × String) := changeMessages c b ++ deltaMessages c b

/-- Sends messages in order, each as often as the policy allows. Gives the attempts and
the failure of the first that could not be sent. -/
def sendAll : List (String × String) → StateM World (Except (Nat × BrokerError) Unit)
  | [] => return .ok ()
  | (topic, text) :: rest => do
    let (r, attempts) ←
      c.retry.run BrokerError.isRetryable (fun _ _ => pure ()) (World.publish topic text)
    match r with
    | .ok _ => sendAll rest
    | .error e => return .error (attempts, e)

/-- Sends the messages of a batch. -/
def send (b : Batch) : StateM World (Except (Nat × BrokerError) Unit) :=
  sendAll c (messages c b)

/-- Deletes the entry of a batch that was sent, unless it has changed. If that fails the
batch will be sent again. -/
def clear (e : OutboxEntry) : Act Unit := do
  let key := (Document.outbox e).key
  let _ ← World.submit ⟨e.validTime, [.expect key (some (.outbox e)), .delete key]⟩

/-- Keeps a batch in the outbox, in the place of the entry that is there, if one is. -/
def park (b : Batch) : Act Unit := do
  let existing ← World.read (Outbox.entry b.transaction)
  if existing.any fun e => e.propagated && e.batch == b then return ()
  let t ← match existing with
    | some e => pure e.validTime
    | none => World.now
  match ← World.submit ⟨t, [.put (.outbox ⟨b, t, true⟩)]⟩ with
  | .ok _ => return ()
  | .error e => throw (.ofStorage e)

/-- Sends a batch and clears its entry, or keeps it in the outbox. -/
def publish (b : Batch) : Act Unit := do
  if b.isEmpty then return ()
  match ← send c b with
  | .ok _ =>
    match ← World.read (Outbox.entry b.transaction) with
    | some e => clear e
    | none => return ()
  | .error (attempts, e) =>
    park b
    throw (.publishFailure b.transaction attempts e.message)

/-- Sends the batches of entries, one after another. Gives the commits of those that
went out. -/
def republishAll : List OutboxEntry → Act (List TransactionId)
  | [] => return []
  | e :: es => do
    match ← send c e.batch with
    | .ok _ =>
      clear e
      return e.batch.transaction :: (← republishAll es)
    | .error _ => republishAll es

/-- The entries that can be sent: those whose levels have followed everywhere. -/
def waiting :
    Reading (List OutboxEntry) := do return (← Outbox.entries).filter (·.propagated)

/-- Sends every batch that waits. Gives the commits of those that went out. -/
def republishPending : Act (List TransactionId) := do republishAll c (← World.read waiting)

/-- The commits whose batches wait. -/
def pending :
    Reading (List TransactionId) := do return (← waiting).map (·.batch.transaction)

end Publisher

end ClearanceGraph
