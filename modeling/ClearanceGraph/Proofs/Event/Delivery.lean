import ClearanceGraph.Proofs.Event.Publisher

/-! # Delivery — what a consumer sees of a batch

    A broker keeps texts, topic by topic; what was sent, in which order over all topics,
    and when the entry of a batch was deleted, is written down beside the run: the trace
    of a publisher is a list of `Publisher.Event`s, and `traceAll` reads it off the
    worlds that the calls pass through.  `Delivers.topics` ties it to the broker.

    Whatever fails, an attempt delivers the first messages of its batch, so on every
    topic a batch appears as a concatenation of prefixes.  Its entry is deleted after an
    attempt that delivered all of them (`Delivers.cleared`).  Hence a receiver that
    drops repeats accepts a prefix of the messages about levels, and all of them once
    the entry is gone (`Seen`). -/

namespace ClearanceGraph

/-! ## Messages before they are written -/

/-- A message of a batch. -/
inductive Message where
  | change (m : ChangeMessage)
  | profile (m : ProfileMessage)

namespace Message

/-- The text on the wire. -/
def text : Message → String
  | change m => m.encode
  | profile m => m.encode

/-- The commit that a message is about. -/
def transaction : Message → TransactionId
  | change m => m.transaction
  | profile m => m.transaction

/-- The message, if it is about a level. -/
def profile? : Message → Option ProfileMessage
  | change _ => none
  | profile m => some m

/-- Of messages with their topics those of one topic. -/
def onTopic (topic : String) (ms : List (String × Message)) : List Message :=
  ms.filterMap fun m => if m.1 = topic then some m.2 else none

theorem onTopic_append (topic : String) (ms ms' : List (String × Message)) :
    onTopic topic (ms ++ ms') = onTopic topic ms ++ onTopic topic ms' :=
  List.filterMap_append

/-- The texts of a topic are those of its messages. -/
theorem map_text_onTopic (topic : String) (ms : List (String × Message)) :
    (onTopic topic ms).map text =
      (ms.map fun m => (m.1, m.2.text)).filterMap fun m => if m.1 = topic then
        some m.2 else none := by
  rw [onTopic, List.map_filterMap, List.filterMap_map]
  refine List.filterMap_congr fun m _ => ?_
  by_cases h : m.1 = topic
  · simp [h]
  · simp [h]

/-- Of messages with their topics those about one commit. -/
def ofCommit (t : TransactionId) (ms : List (String × Message)) : List (String × Message) :=
  ms.filter fun m => m.2.transaction = t

end Message

/-- Where an object has one delta, messages about levels do not repeat one another. -/
theorem ProfileMessage.nodup_repeatKey (t : TransactionId) {ds : List Delta}
    (h : (ds.map (·.reference)).Nodup) : ((ds.map (ofDelta t)).map repeatKey).Nodup := by
  have hmap : (ds.map (ofDelta t)).map repeatKey = (ds.map (·.reference)).map
      (Prod.mk t) := by
    rw [List.map_map, List.map_map]
    rfl
  rw [hmap]
  exact List.Pairwise.map (Prod.mk t) (fun _ _ hne heq => hne (Prod.mk.inj heq).2) h

/-! ## Receivers -/

namespace Deduplicator

/-- Of some messages, one after another, those that a receiver accepts. -/
def accepted : Deduplicator → List ProfileMessage → List ProfileMessage
  | _, [] => []
  | seen, m :: ms =>
    let (isNew, seen) := Deduplicator.accept seen m
    if isNew then m :: accepted seen ms else accepted seen ms

/-- A receiver has taken the messages of a list and no others. -/
def Knows (seen : Deduplicator) (ms : List ProfileMessage) : Prop :=
  ∀ k, k ∈ seen ↔ k ∈ ms.map ProfileMessage.repeatKey

variable {seen : Deduplicator} {got ms all : List ProfileMessage}

/-- Repeats are dropped. -/
private theorem accepted_repeats (hseen : ∀ m ∈ ms, m.repeatKey ∈ seen)
    (rest : List ProfileMessage) : accepted seen (ms ++ rest) = accepted seen rest := by
  induction ms with
  | nil => rfl
  | cons m ms ih =>
      have hm : seen.contains m.repeatKey = true :=
        List.contains_iff_mem.mpr (hseen m List.mem_cons_self)
      rw [List.cons_append, accepted, Deduplicator.accept, if_pos hm]
      exact ih fun m' hm' => hseen m' (List.mem_cons_of_mem _ hm')

/-- What was not seen before is accepted. -/
private theorem accepted_new : ∀ {ms got : List ProfileMessage} {seen : Deduplicator},
    seen.Knows got → ((got ++ ms).map ProfileMessage.repeatKey).Nodup →
    ∃ seen' : Deduplicator, seen'.Knows (got ++ ms) ∧
      ∀ rest, accepted seen (ms ++ rest) = ms ++ accepted seen' rest := by
  intro ms
  -- on the messages; what is known grows by one at each step
  induction ms with
  | nil =>
      intro got seen hseen _
      exact ⟨seen, by rwa [List.append_nil], fun _ => rfl⟩
  | cons m ms ih =>
      intro got seen hseen hnodup
      rw [List.append_cons] at hnodup
      -- a new message repeats none of those that were got
      have hm : ¬ seen.contains m.repeatKey = true := by
        rw [List.contains_iff_mem, hseen]
        rw [List.map_append, List.map_append, List.nodup_append,
          List.nodup_append] at hnodup
        exact fun h => hnodup.1.2.2 _ h _ List.mem_cons_self rfl
      have hknows : Knows (m.repeatKey :: seen) (got ++ [m]) := by
        intro k
        rw [List.mem_cons, hseen, List.map_append, List.mem_append, List.map_singleton,
          List.mem_singleton, or_comm]
      obtain ⟨seen', hseen', hrest⟩ := ih hknows hnodup
      refine ⟨seen', by rwa [List.append_cons], fun rest => ?_⟩
      rw [List.cons_append, accepted, Deduplicator.accept, if_neg hm]
      exact congrArg (m :: ·) (hrest rest)

/-- **Prefixes of one list, one after another**: a receiver goes on where it got to, and
    has the whole list once that was among them. -/
theorem accepted_prefixes (hall : (all.map ProfileMessage.repeatKey).Nodup)
    {ps : List (List ProfileMessage)} (hps : ∀ p ∈ ps, p <+: all) :
    ∀ {got : List ProfileMessage} {seen : Deduplicator}, got <+: all → seen.Knows got →
      got ++ accepted seen ps.flatten <+: all ∧
        (all ∈ ps → got ++ accepted seen ps.flatten = all) := by
  -- on the prefixes that are still to come
  induction ps with
  | nil =>
      intro got seen hgot _
      exact ⟨by rwa [List.flatten_nil, accepted, List.append_nil], fun h => by cases h⟩
  | cons p ps ih =>
      intro got seen hgot hseen
      replace ih := @ih fun q hq => hps q (List.mem_cons_of_mem _ hq)
      have hp := hps p List.mem_cons_self
      rw [List.flatten_cons]
      rcases List.prefix_or_prefix_of_prefix hp hgot with hle | ⟨q, rfl⟩
      · -- nothing new
        have hold : ∀ m ∈ p, m.repeatKey ∈ seen := fun m hm =>
          (hseen _).mpr (List.mem_map_of_mem (hle.subset hm))
        rw [accepted_repeats hold]
        refine ⟨(ih hgot hseen).1, fun h => ?_⟩
        rcases List.mem_cons.mp h with rfl | h
        · obtain rfl := hgot.eq_of_length_le hle.length_le
          exact (ih hgot hseen).1.eq_of_length_le (List.prefix_append _ _).length_le
        · exact (ih hgot hseen).2 h
      · -- the part that was not seen before is new
        obtain ⟨seen', hseen', hrest⟩ :=
          accepted_new hseen (hall.sublist (hp.sublist.map _))
        rw [List.append_assoc, accepted_repeats fun m hm =>
          (hseen _).mpr (List.mem_map_of_mem hm), hrest, ← List.append_assoc]
        refine ⟨(ih hp hseen').1, fun h => ?_⟩
        rcases List.mem_cons.mp h with rfl | h
        · exact (ih hp hseen').1.eq_of_length_le (List.prefix_append _ _).length_le
        · exact (ih hp hseen').2 h

end Deduplicator

/-! ## Sending some messages -/

namespace Scene

/-- The broker takes messages one after another. -/
def takeAll (g : Scene) (ms : List (String × String)) : Scene :=
  ms.foldl (fun g m => g.take m.1 m.2) g

/-- Messages are no part of the store. -/
theorem takeAll_store (g : Scene) (ms : List (String × String)) :
    (g.takeAll ms).store = g.store := by
  induction ms generalizing g with
  | nil => rfl
  | cons m ms ih => exact ih (g.take m.1 m.2)

/-- Each topic takes its messages in order. -/
theorem messages_takeAll (topic : String) (ms : List (String × String)) : ∀ g : Scene,
    (g.takeAll ms).messages topic =
      g.messages topic ++ ms.filterMap fun m => if m.1 = topic then some m.2 else none := by
  induction ms with
  | nil => exact fun g => (List.append_nil _).symm
  | cons m ms ih =>
      intro g
      rw [takeAll, List.foldl_cons, ← takeAll, ih, List.filterMap_cons]
      by_cases h : m.1 = topic
      · rw [if_pos h, ← h, messages_take, List.append_assoc, List.singleton_append]
      · rw [if_neg h, messages_take_of_ne _ _ (Ne.symm h)]

end Scene

namespace Publisher

variable (c : PublisherConfig)

/-- The messages of a batch with their topics, in the order in which they are sent. -/
def outgoing (b : Batch) : List (String × Message) :=
  (match c.graphChangesTopic, b.origin with
    | some topic, some o =>
      b.changes.map fun ch => (topic, .change (.ofChange b.transaction o ch))
    | _, _ => []) ++
  b.deltas.map fun d => (c.topicFor d.kind, .profile (.ofDelta b.transaction d))

/-- What is sent of a batch is the text of its messages. -/
theorem messages_eq (b : Batch) :
    messages c b = (outgoing c b).map fun m => (m.1, m.2.text) := by
  rw [messages, outgoing, List.map_append, deltaMessages, List.map_map, changeMessages]
  cases c.graphChangesTopic with
  | none => rfl
  | some topic =>
      cases b.origin with
      | none => rfl
      | some o =>
          rw [List.map_map]
          rfl

/-- All of them are about the commit of the batch. -/
theorem transaction_of_mem_outgoing {b : Batch} {m : String × Message}
    (hm : m ∈ outgoing c b) :
    m.2.transaction = b.transaction := by
  rcases List.mem_append.mp hm with hm | hm
  · split at hm
    · obtain ⟨ch, -, rfl⟩ := List.mem_map.mp hm
      rfl
    · cases hm
  · obtain ⟨d, -, rfl⟩ := List.mem_map.mp hm
    rfl

/-- The messages of a batch about levels are those of its deltas. -/
theorem profiles_outgoing (b : Batch) : (outgoing c b).filterMap (fun m => m.2.profile?) =
    b.deltas.map (.ofDelta b.transaction) := by
  have hchanges : ∀ (topic : String) (o : OriginId), (b.changes.map fun ch =>
      ((topic, .change (.ofChange b.transaction o ch)) : String × Message)).filterMap
        (fun m => m.2.profile?) = [] := by
    intro topic o
    rw [List.filterMap_map, List.filterMap_eq_nil_iff]
    exact fun _ _ => rfl
  have hdeltas : (b.deltas.map fun d =>
      ((c.topicFor d.kind, .profile (.ofDelta b.transaction d)) :
        String × Message)).filterMap
        (fun m => m.2.profile?) = b.deltas.map (.ofDelta b.transaction) := by
    rw [List.filterMap_map, ← List.filterMap_eq_map]
    rfl
  rw [outgoing, List.filterMap_append, hdeltas]
  split
  · rw [hchanges, List.nil_append]
  · rfl

/-- Sends one message, as often as the policy allows. -/
def sendOne (topic text : String) : StateM World (Except BrokerError Unit × Nat) :=
  c.retry.run BrokerError.isRetryable (fun _ _ => pure ()) (World.publish topic text)

/-- How many of some messages are sent before one fails for good. -/
def taken : List (String × String) → World → Nat
  | [], _ => 0
  | (topic, text) :: rest, w =>
    match sendOne c topic text w with
    | ((.ok _, _), w) => taken rest w + 1
    | ((.error _, _), _) => 0

variable {sky : Weather}

/-- A batch is sent message by message, up to the first that fails. -/
theorem sendAll_cons (topic text : String) (ms : List (String × String)) (w : World) :
    sendAll c ((topic, text) :: ms) w = match sendOne c topic text w with
      | ((.ok _, _), w) => sendAll c ms w
      | ((.error e, n), w) => (.error (n, e), w) := by
  have hbind :
    ∀ f : Except BrokerError Unit × Nat → StateM World (Except (Nat × BrokerError) Unit),
      (sendOne c topic text >>= f) w = f (sendOne c topic text w).1
        (sendOne c topic text w).2 :=
    fun _ => rfl
  rw [sendAll]
  refine (hbind _).trans ?_
  rcases sendOne c topic text w with ⟨⟨_ | _, n⟩, w₁⟩ <;> rfl

/-- **Sending** hands the first messages to the broker; it gives a result when it sent
    them all. -/
theorem shows_sendAll (ms : List (String × String)) :
    ∀ {w : World} {g : Scene}, w.Shows sky g →
    (sendAll c ms w).2.Shows sky (g.takeAll (ms.take (taken c ms w))) ∧
      ((sendAll c ms w).1.isOk = true → taken c ms w = ms.length) := by
  induction ms with
  | nil => exact fun hw => ⟨hw, fun _ => rfl⟩
  | cons m ms ih =>
      obtain ⟨topic, text⟩ := m
      intro w g hw
      have hone : Ends (World.Shows sky) (sendOne c topic text) g _ :=
        Ends.retry (ClearanceGraph.leads_publish topic text) c.retry
      obtain ⟨g₁, hg₁, hr⟩ := hone w hw
      rw [sendAll_cons, taken]
      rcases hrun : sendOne c topic text w with ⟨⟨e | u, n⟩, w₁⟩
      · rw [hrun] at hr hg₁
        obtain ⟨-, rfl⟩ := hr
        exact ⟨hg₁, fun h => by cases h⟩
      · rw [hrun] at hr hg₁
        obtain rfl : g₁ = g.take topic text := hr
        obtain ⟨hshows, hall⟩ := ih hg₁
        exact ⟨hshows, fun h => congrArg (· + 1) (hall h)⟩

/-- Sending fails at a message that was not taken. -/
theorem taken_lt_of_error (ms : List (String × String)) : ∀ {w : World},
    (sendAll c ms w).1.isOk = false → taken c ms w < ms.length := by
  induction ms with
  | nil => exact fun h => by cases h
  | cons m ms ih =>
      obtain ⟨topic, text⟩ := m
      intro w h
      rw [sendAll_cons] at h
      rw [taken]
      rcases hrun : sendOne c topic text w with ⟨⟨e | u, n⟩, w₁⟩
      · exact Nat.succ_pos _
      · rw [hrun] at h
        exact Nat.succ_lt_succ (ih h)

/-! ## Traces -/

/-- What a publisher does that can be seen from outside. -/
inductive Event where
  /-- The broker took the first messages of a batch, so many, one after another. -/
  | sent (b : Batch) (n : Nat)
  /-- The entry of a commit was deleted. -/
  | cleared (t : TransactionId)
deriving DecidableEq

/-- What a call in a world does, event by event. -/
abbrev Trace : Type := World → List Event

def sendTrace (b : Batch) : Trace := fun w => [.sent b (taken c (messages c b) w)]

def clearTrace (e : OutboxEntry) : Trace := fun w =>
  match (World.submit (clearing e) w).1 with
  | .ok _ => [.cleared e.batch.transaction]
  | .error _ => []

def publishTrace (b : Batch) : Trace := fun w =>
  if b.isEmpty then []
  else sendTrace c b w ++ match send c b w with
    | (.ok _, w) =>
      match World.read (Outbox.entry b.transaction) w with
      | (.ok (some e), w) => clearTrace e w
      | _ => []
    | (.error _, _) => []

def republishAllTrace : List OutboxEntry → Trace
  | [], _ => []
  | e :: es, w => sendTrace c e.batch w ++ match send c e.batch w with
    | (.ok _, w) => clearTrace e w ++ republishAllTrace es (clear e w).2
    | (.error _, w) => republishAllTrace es w

def republishTrace : Trace := fun w =>
  match World.read waiting w with
  | (.ok es, w) => republishAllTrace c es w
  | (.error _, _) => []

/-- A call of a publisher: of one batch, or of all that wait. -/
inductive Round where
  | publish
  | republish

/-- The world after a call, whether it gave a result or not. -/
def Round.perform (b : Batch) : Round → World → World
  | publish, w => (Publisher.publish c b w).2
  | republish, w => (republishPending c w).2

def Round.trace (b : Batch) : Round → Trace
  | publish => publishTrace c b
  | republish => republishTrace c

/-- The world after some calls. -/
def performAll (b : Batch) (rounds : List Round) (w : World) : World :=
  rounds.foldl (fun w r => r.perform c b w) w

def traceAll (b : Batch) : List Round → Trace
  | [], _ => []
  | r :: rounds, w => r.trace c b w ++ traceAll b rounds (r.perform c b w)

/-- The messages that the broker took, with their topics, in the order in which it took
    them. -/
def delivered (tr : List Event) : List (String × Message) :=
  tr.flatMap fun
    | .sent b n => (outgoing c b).take n
    | .cleared _ => []

/-! ## What one step keeps -/

/-- An attempt that delivered every message of a batch. -/
def sentAll (b : Batch) : Event := .sent b (outgoing c b).length

/-- A publisher has delivered a batch, as far as the trace between two scenes goes. -/
structure Delivers (b : Batch) (g₀ g : Scene) (tr : List Event) : Prop where
  sound : g.store.Sound
  topics : ∀ topic, g.messages topic =
    g₀.messages topic ++ (Message.onTopic topic (delivered c tr)).map Message.text
  /-- No other batch is sent under the commit. -/
  faithful : ∀ b' n, .sent b' n ∈ tr → b'.transaction = b.transaction → b' = b
  /-- An entry that waits keeps the batch. -/
  kept : ∀ d, g.store.visible Instant.latest (.outbox b.transaction) = some d →
    ∃ t, d = .outbox ⟨b, t, true⟩
  gone : g.store.visible Instant.latest (.outbox b.transaction) = none → sentAll c b ∈ tr
  /-- The entry is deleted after an attempt that delivered every message. -/
  cleared : ∀ i : Nat, tr[i]? = some (.cleared b.transaction) →
    ∃ j < i, tr[j]? = some (sentAll c b)
  /-- Every deletion is in the trace. -/
  deleted : ∀ v ∈ g.store.versionsOf (.outbox b.transaction), v.document = none →
    v ∈ g₀.store.versionsOf (.outbox b.transaction) ∨ .cleared b.transaction ∈ tr

section Steps

variable {c} {b b' : Batch} {g₀ g : Scene} {tr : List Event} {s' : Store}
    {id : TransactionId}

theorem delivered_append (tr tr' : List Event) :
    delivered c (tr ++ tr') = delivered c tr ++ delivered c tr' := List.flatMap_append

/-- What came after something still does when more happens. -/
private theorem after_append {x y : Event} {new : List Event}
    (h : ∀ i : Nat, tr[i]? = some x → ∃ j < i, tr[j]? = some y) (hnew : x ∈ new → y ∈ tr) :
    ∀ i : Nat, (tr ++ new)[i]? = some x → ∃ j < i, (tr ++ new)[j]? = some y := by
  intro i hi
  rcases Nat.lt_or_ge i tr.length with hlt | hge
  · rw [List.getElem?_append_left hlt] at hi
    obtain ⟨j, hj, hy⟩ := h i hi
    exact ⟨j, hj, by rwa [List.getElem?_append_left (Nat.lt_trans hj hlt)]⟩
  · rw [List.getElem?_append_right hge] at hi
    obtain ⟨j, hy⟩ := List.mem_iff_getElem?.mp (hnew (List.mem_of_getElem? hi))
    have hj := (List.getElem?_eq_some_iff.mp hy).1
    exact ⟨j, Nat.lt_of_lt_of_le hj hge, by rwa [List.getElem?_append_left hj]⟩

/-- An attempt to send a batch. -/
theorem Delivers.sent (h : Delivers c b g₀ g tr)
    (hb : b'.transaction = b.transaction → b' = b)
    (n : Nat) : Delivers c b g₀ (g.takeAll ((messages c b').take n))
    (tr ++ [.sent b' n]) := by
  obtain ⟨sound, topics, faithful, kept, gone, cleared, deleted⟩ := h
  rw [← g.takeAll_store ((messages c b').take n)] at sound kept gone deleted
  refine ⟨sound, fun topic => ?_, fun b'' m hmem hid => ?_, kept,
    fun hnone => List.mem_append_left _ (gone hnone), after_append cleared fun hmem => ?_,
    fun v hv hd => (deleted v hv hd).imp_right (List.mem_append_left _)⟩
  · have hone : delivered c [.sent b' n] = (outgoing c b').take n :=
      List.flatMap_singleton _ _
    rw [Scene.messages_takeAll, topics, List.append_assoc, delivered_append, hone,
      Message.onTopic_append, List.map_append, Message.map_text_onTopic, messages_eq,
        ← List.map_take,
      Message.map_text_onTopic]
  · rcases List.mem_append.mp hmem with hmem | hmem
    · exact faithful b'' m hmem hid
    · cases List.mem_singleton.mp hmem
      exact hb hid
  · cases List.mem_singleton.mp hmem

/-- The entry of a commit was deleted. -/
theorem Delivers.clearing (h : Delivers c b g₀ g tr) {e : OutboxEntry}
    (he : e.batch.transaction = b.transaction → sentAll c b ∈ tr)
    (hsub : g.store.submit (clearing e) = .ok (id, s')) :
    Delivers c b g₀ { g with store := s' } (tr ++ [.cleared e.batch.transaction]) := by
  obtain ⟨sound, topics, faithful, kept, gone, cleared, deleted⟩ := h
  have hdelivered : delivered c (tr ++ [.cleared e.batch.transaction]) = delivered c tr :=
    (delivered_append _ _).trans (List.append_nil _)
  have hafter := after_append (y := sentAll c b) cleared fun hmem =>
    he (Event.cleared.inj (List.mem_singleton.mp hmem)).symm
  have hfaithful : ∀ b' n, .sent b' n ∈ tr ++ [.cleared e.batch.transaction] →
      b'.transaction = b.transaction → b' = b := by
    intro b' n hmem hid
    rcases List.mem_append.mp hmem with hmem | hmem
    · exact faithful b' n hmem hid
    · cases List.mem_singleton.mp hmem
  have hfull : sentAll c b ∈ tr → sentAll c b ∈ tr ++ [.cleared e.batch.transaction] :=
    List.mem_append_left _
  -- the commit shows as deleted, or as before
  have hshows : s'.visible Instant.latest (.outbox b.transaction) =
      g.store.visible Instant.latest (.outbox b.transaction) ∨
      e.batch.transaction = b.transaction ∧
        s'.visible Instant.latest (.outbox b.transaction) = none := by
    by_cases hid : e.batch.transaction = b.transaction
    · rw [← hid]
      refine (Store.visible_submit_or sound hsub Instant.latest _).imp_right fun hlast =>
        ⟨rfl, ?_⟩
      rw [Transaction.lastWrite?, writesTo_clearing] at hlast
      exact (Option.some.inj hlast).symm
    · exact .inl (Store.visible_submit_of_not_writes hsub
        (fun hw => hid (DocumentKey.outbox.inj (writes_clearing hw)).symm) _)
  refine ⟨sound.submit hsub, fun topic => ?_, hfaithful, fun d hd => ?_,
    fun hnone => ?_, hafter, fun v hv hdoc => ?_⟩
  · rw [hdelivered]
    exact topics topic
  · rcases hshows with hsame | ⟨-, hnone⟩
    · exact kept d (hsame ▸ hd)
    · cases hnone.symm.trans hd
  · rcases hshows with hsame | ⟨hid, -⟩
    · exact hfull (gone (hsame ▸ hnone))
    · exact hfull (he hid)
  · rcases Store.mem_versionsOf_submit hsub hv with hv | ⟨-, -, hwrote⟩
    · exact (deleted v hv hdoc).imp_right (List.mem_append_left _)
    · have hw : (Publisher.clearing e).Writes (.outbox b.transaction) := by
        by_contra hno
        rw [(Transaction.writesTo_eq_nil_iff _ _).mpr hno] at hwrote
        cases hwrote
      rw [DocumentKey.outbox.inj (writes_clearing hw)]
      exact .inr (List.mem_append_right _ List.mem_cons_self)

/-- A batch was kept. -/
theorem Delivers.parking (h : Delivers c b g₀ g tr) {t : Instant}
    (hsub : g.store.submit (parking b t) = .ok (id, s')) :
    Delivers c b g₀ { g with store := s' } tr := by
  obtain ⟨sound, topics, faithful, kept, gone, cleared, deleted⟩ := h
  have hshows : s'.visible Instant.latest (.outbox b.transaction) =
      g.store.visible Instant.latest (.outbox b.transaction) ∨
      s'.visible Instant.latest (.outbox b.transaction) = some (.outbox ⟨b, t, true⟩) := by
    refine (Store.visible_submit_or sound hsub Instant.latest _).imp_right fun hlast => ?_
    rw [Transaction.lastWrite?, writesTo_parking] at hlast
    exact (Option.some.inj hlast).symm
  refine ⟨sound.submit hsub, topics, faithful, fun d hd => ?_, fun hnone => ?_, cleared,
    fun v hv hdoc => ?_⟩
  · rcases hshows with hsame | hsome
    · exact kept d (hsame ▸ hd)
    · exact ⟨t, Option.some.inj (hd.symm.trans hsome)⟩
  · rcases hshows with hsame | hsome
    · exact gone (hsame ▸ hnone)
    · cases hnone.symm.trans hsome
  · rcases Store.mem_versionsOf_submit hsub hv with hv | ⟨-, -, hwrote⟩
    · exact deleted v hv hdoc
    · rw [writesTo_parking, List.mem_singleton, hdoc] at hwrote
      cases hwrote

end Steps

/-! ## Calls, step by step -/

section Apply

variable {c}

/-- **Publishing**, case by case: what was sent is cleared, and the rest is parked. -/
theorem publish_apply (b : Batch) (w : World) :
    publish c b w = if b.isEmpty then (.ok (), w) else match send c b w with
      | (.ok _, w) => (match World.read (Outbox.entry b.transaction) w with
        | (.ok (some e), w) => clear e w
        | (.ok none, w) => (.ok (), w)
        | (.error x, w) => (.error x, w))
      | (.error (n, x), w) => (match park b w with
        | (.ok _, w) => (.error (.publishFailure b.transaction n x.message), w)
        | (.error y, w) => (.error y, w)) := by
  rw [publish]
  split
  · rfl
  · refine (Act.bind_apply (liftM (send c b)) _ w).trans ?_
    rw [Act.lift_apply]
    rcases send c b w with ⟨⟨n, x⟩ | u, w₁⟩
    · refine (Act.bind_apply (park b) _ w₁).trans ?_
      dsimp only
      rcases park b w₁ with ⟨_ | _, w₂⟩ <;> rfl
    · refine (Act.bind_apply (World.read _) _ w₁).trans ?_
      dsimp only
      rcases World.read (Outbox.entry b.transaction) w₁ with ⟨_ | (_ | e), w₂⟩ <;> rfl

/-- A batch that cannot be sent stays where it is, and the next one is sent. -/
theorem republishAll_apply (e : OutboxEntry) (es : List OutboxEntry) (w : World) :
    (republishAll c (e :: es) w).2 = match send c e.batch w with
      | (.ok _, w) => (republishAll c es (clear e w).2).2
      | (.error _, w) => (republishAll c es w).2 := by
  rw [republishAll]
  refine (congrArg Prod.snd (Act.bind_apply (liftM (send c e.batch)) _ w)).trans ?_
  rw [Act.lift_apply]
  rcases send c e.batch w with ⟨x | u, w₁⟩
  · rfl
  · have hclear : clear e w₁ = (.ok (), (clear e w₁).2) := rfl
    refine (congrArg Prod.snd (Act.bind_apply (clear e) _ w₁)).trans ?_
    rw [hclear]
    refine (congrArg Prod.snd (Act.bind_apply (republishAll c es) _ _)).trans ?_
    dsimp only
    rcases republishAll c es (clear e w₁).2 with ⟨_ | _, w₂⟩ <;> rfl

end Apply

/-! ## Calls -/

/-- A world shows a scene that a trace leads to. -/
def Reached (b : Batch) (g₀ : Scene) (tr : List Event) (w : World) : Prop :=
  ∃ g, w.Shows .any g ∧ Delivers c b g₀ g tr

/-- An entry that waits keeps the batch, if it is one of its commit. -/
private def Keeps (b : Batch) (e : OutboxEntry) : Prop :=
  e.batch.transaction = b.transaction → e.batch = b

section Calls

variable {c} {b : Batch} {g₀ : Scene} {tr : List Event} {w : World}

/-- Sending reaches further, and a batch that was sent is seen as sent. -/
private theorem reached_send (h : Reached c b g₀ tr w) (b' : Batch)
    (hb : b'.transaction = b.transaction → b' = b) :
    Reached c b g₀ (tr ++ sendTrace c b' w) (send c b' w).2 ∧
      ((send c b' w).1.isOk = true → b'.transaction = b.transaction →
        sentAll c b ∈ tr ++ sendTrace c b' w) := by
  obtain ⟨g, hw, hg⟩ := h
  obtain ⟨hshows, hall⟩ := shows_sendAll c (messages c b') hw
  refine ⟨⟨_, hshows, hg.sent hb _⟩, fun hok hid => List.mem_append_right _ ?_⟩
  obtain rfl := hb hid
  rw [sendTrace, hall hok, messages_eq, List.length_map]
  exact List.mem_cons_self

/-- Clearing keeps what was reached, if the batch that goes was sent. -/
private theorem reached_clear (h : Reached c b g₀ tr w) {e : OutboxEntry}
    (he : e.batch.transaction = b.transaction → sentAll c b ∈ tr) :
    Reached c b g₀ (tr ++ clearTrace e w) (clear e w).2 := by
  obtain ⟨g, hw, hg⟩ := h
  obtain ⟨g', hw', hr⟩ := leads_submit (clearing e) w hw
  rw [clearTrace]
  cases hsub : (World.submit (clearing e) w).1 with
  | ok id =>
      rw [hsub] at hr
      obtain ⟨s', hcommit, rfl⟩ := hr
      exact ⟨_, hw', hg.clearing he hcommit⟩
  | error x =>
      rw [hsub] at hr
      obtain ⟨-, rfl⟩ := hr
      exact ⟨_, hw', by rwa [List.append_nil]⟩

/-- Parking keeps what was reached. -/
private theorem reached_park (h : Reached c b g₀ tr w) :
    Reached c b g₀ tr (park b w).2 := by
  obtain ⟨g, hw, hg⟩ := h
  -- with either time, parking is one submit
  have hput : ∀ {g} (t : Instant), Delivers c b g₀ g tr → Leads (World.Shows .any) (do
      match ← World.submit (parking b t) with
      | .ok _ => return ()
      | .error e => throw (.ofStorage e) : Act Unit) g
      (fun _ g' => Delivers c b g₀ g' tr) (fun _ g' => Delivers c b g₀ g' tr) := by
    intro g t hg
    refine Leads.bind (Leads.lift (leads_submit _)) fun r g' hr => ?_
    cases r with
    | ok id =>
        obtain ⟨s', hsub, rfl⟩ := hr
        exact Leads.pure (hg.parking hsub)
    | error x =>
        obtain ⟨-, rfl⟩ := hr
        exact Leads.throw hg
  have hleads : Leads (World.Shows .any) (park b) g (fun _ g' => Delivers c b g₀ g' tr)
      (fun _ g' => Delivers c b g₀ g' tr) := by
    refine Leads.step (leads_read _) (fun _ _ h => h.2 ▸ hg) fun existing g' hread => ?_
    obtain ⟨-, rfl⟩ := hread
    split
    · exact Leads.pure hg
    · cases existing with
      | none =>
          exact Leads.bind (Leads.lift ends_now) fun t g' hnow => hput t (hnow.2 ▸ hg)
      | some e =>
          refine Leads.bind (Leads.pure (Q := fun _ g'' => g'' = g') rfl)
            fun t g'' hsame => ?_
          exact hput t (hsame ▸ hg)
  obtain ⟨g', hw', hg'⟩ := hleads.ends (fun _ _ h => h) (fun _ _ h => h) w hw
  exact ⟨g', hw', hg'⟩

/-- Reading leaves the scene. -/
private theorem reached_read {α : Type} (h : Reached c b g₀ tr w) (r : Reading α) :
    Reached c b g₀ tr (World.read r w).2 ∧ ∀ x, (World.read r w).1 = .ok x →
      ∃ g, Delivers c b g₀ g tr ∧ r.Gives g.store x := by
  obtain ⟨g, hw, hg⟩ := h
  obtain ⟨g', hw', hr⟩ := leads_read r w hw
  cases hx : (World.read r w).1 with
  | ok x =>
      rw [hx] at hr
      obtain ⟨hgives, rfl⟩ := hr
      exact ⟨⟨_, hw', hg⟩, fun y hy => ⟨_, hg, Except.ok.inj hy ▸ hgives⟩⟩
  | error e =>
      rw [hx] at hr
      obtain ⟨-, rfl⟩ := hr
      exact ⟨⟨_, hw', hg⟩, fun y hy => by cases hy⟩

/-- An entry that waits is the one that shows. -/
theorem visible_of_waiting {s : Store} (hs : s.Sound) {es : List OutboxEntry}
    (h : waiting.Gives s es) {e : OutboxEntry} (he : e ∈ es) :
    s.visible Instant.latest (.outbox e.batch.transaction) = some (.outbox e) := by
  have hentries : Outbox.entries.Gives s
      ((s.query Instant.latest .outbox).filterMap Document.outbox?) :=
    (Reading.gives_query _ _ s).bind (Reading.gives_pure s _)
  obtain rfl := h.unique (hentries.bind (Reading.gives_pure s _))
  obtain ⟨d, hd, hout⟩ := List.mem_filterMap.mp (List.mem_filter.mp he).1
  obtain ⟨k, hk, -⟩ := Store.mem_visibleWhere.mp hd
  obtain rfl : d = .outbox e := by
    cases d with
    | outbox e' => exact congrArg Document.outbox (Option.some.inj hout)
    | content c => cases hout
    | origin o => cases hout
    | profile p => cases hout
  obtain rfl := hs.key_of_visible hk
  exact hk

/-- An entry of the commit holds the batch that is to be delivered. -/
private theorem Delivers.keeps {g : Scene} (h : Delivers c b g₀ g tr) {e : OutboxEntry}
    (he : g.store.visible Instant.latest (.outbox e.batch.transaction) = some (.outbox e)) :
    Keeps b e := by
  intro hid
  rw [hid] at he
  obtain ⟨t, ht⟩ := h.kept _ he
  cases ht
  rfl

/-- **Publishing the batch.** -/
private theorem reached_publish (h : Reached c b g₀ tr w) :
    Reached c b g₀ (tr ++ publishTrace c b w) (publish c b w).2 := by
  rw [publishTrace, publish_apply]
  split
  · rwa [List.append_nil]
  · rw [← List.append_assoc]
    obtain ⟨hsend, hfull⟩ := reached_send h b fun _ => rfl
    -- after a failure the batch is parked; after success its entry is cleared
    rcases hs : send c b w with ⟨⟨n, x⟩ | u, w₁⟩
    · rw [hs] at hsend
      have hpark := reached_park hsend
      rw [List.append_nil]
      dsimp only at hpark ⊢
      rcases hp : park b w₁ with ⟨_ | _, w₂⟩
      · rwa [hp] at hpark
      · rwa [hp] at hpark
    · rw [hs] at hsend hfull
      obtain ⟨hread, hgives⟩ := reached_read hsend (Outbox.entry b.transaction)
      dsimp only at hread hgives ⊢
      rcases hr : World.read (Outbox.entry b.transaction) w₁ with ⟨x | (_ | e), w₂⟩
      · rw [hr] at hread
        rwa [List.append_nil]
      · rw [hr] at hread
        rwa [List.append_nil]
      · rw [hr] at hread hgives
        exact reached_clear hread fun _ => hfull rfl rfl

/-- Sending what is kept reaches further, entry by entry. -/
private theorem reached_republishAll (es : List OutboxEntry) :
    ∀ {tr : List Event} {w : World}, Reached c b g₀ tr w → (∀ e ∈ es, Keeps b e) →
    Reached c b g₀ (tr ++ republishAllTrace c es w) (republishAll c es w).2 := by
  induction es with
  | nil =>
      intro tr w h _
      rw [republishAllTrace, List.append_nil]
      exact h
  | cons e es ih =>
      intro tr w h hes
      have hrest : ∀ e' ∈ es, Keeps b e' :=
        fun e' he' => hes e' (List.mem_cons_of_mem _ he')
      obtain ⟨hsend, hfull⟩ := reached_send h _ (hes e List.mem_cons_self)
      rw [republishAllTrace, republishAll_apply, ← List.append_assoc]
      rcases hs : send c e.batch w with ⟨x | u, w₁⟩
      · rw [hs] at hsend
        exact ih hsend hrest
      · rw [hs] at hsend hfull
        rw [← List.append_assoc]
        exact ih (reached_clear hsend (hfull rfl)) hrest

/-- **Publishing what waits.** -/
private theorem reached_republish (h : Reached c b g₀ tr w) :
    Reached c b g₀ (tr ++ republishTrace c w) (republishPending c w).2 := by
  obtain ⟨hread, hgives⟩ := reached_read h waiting
  rw [republishTrace, republishPending, Act.bind_apply]
  rcases hr : World.read waiting w with ⟨x | es, w₁⟩
  · rw [hr] at hread
    rwa [List.append_nil]
  · rw [hr] at hread hgives
    obtain ⟨g, hg, hes⟩ := hgives es rfl
    exact reached_republishAll es hread fun e he =>
      hg.keeps (visible_of_waiting hg.sound hes he)

/-- What any number of calls keeps. -/
theorem reached_performAll (rounds : List Round) : ∀ {tr : List Event} {w : World},
    Reached c b g₀ tr w → Reached c b g₀ (tr ++ traceAll c b rounds w)
    (performAll c b rounds w) := by
  induction rounds with
  | nil =>
      intro tr w h
      rw [traceAll, List.append_nil]
      exact h
  | cons r rounds ih =>
      intro tr w h
      rw [traceAll, ← List.append_assoc]
      refine ih ?_
      cases r with
      | publish => exact reached_publish h
      | republish => exact reached_republish h

end Calls

/-! ## What a consumer sees -/

section Consumer

variable {c} {b : Batch}

/-- The messages of a commit are those of the attempts to send its batch. -/
private theorem exists_attempts (tr : List Event)
    (h : ∀ b' n, .sent b' n ∈ tr → b'.transaction = b.transaction → b' = b) :
    ∃ ps : List (List (String × Message)), (∀ p ∈ ps, p <+: outgoing c b) ∧
      (sentAll c b ∈ tr → outgoing c b ∈ ps) ∧
      Message.ofCommit b.transaction (delivered c tr) = ps.flatten := by
  induction tr with
  | nil => exact ⟨[], List.forall_mem_nil _, (fun h => by cases h), rfl⟩
  | cons x tr ih =>
      obtain ⟨ps, hps, hfull, heq⟩ := ih fun b' n hmem =>
        h b' n (List.mem_cons_of_mem _ hmem)
      cases x with
      | cleared t =>
          exact ⟨ps, hps, fun hmem =>
            hfull ((List.mem_cons.mp hmem).resolve_left Event.noConfusion), heq⟩
      | sent b' n =>
          have hsplit : Message.ofCommit b.transaction (delivered c (.sent b' n :: tr)) =
              Message.ofCommit b.transaction ((outgoing c b').take n) ++ ps.flatten := by
            rw [← heq]
            exact List.filter_append _ _
          have htransaction : ∀ m ∈ (outgoing c b').take n,
            m.2.transaction = b'.transaction :=
            fun m hm => transaction_of_mem_outgoing c (List.mem_of_mem_take hm)
          -- a batch of another commit sends nothing about this one
          by_cases hid : b'.transaction = b.transaction
          · obtain rfl := h b' n List.mem_cons_self hid
            refine ⟨(outgoing c b').take n :: ps, ?_, fun hmem => ?_, ?_⟩
            · intro p hp
              rcases List.mem_cons.mp hp with rfl | hp
              · exact List.take_prefix _ _
              · exact hps p hp
            · rcases List.mem_cons.mp hmem with heq | hmem
              · obtain ⟨-, rfl⟩ := Event.sent.inj heq
                rw [List.take_length]
                exact List.mem_cons_self
              · exact List.mem_cons_of_mem _ (hfull hmem)
            · rw [hsplit, List.flatten_cons, Message.ofCommit, List.filter_eq_self.mpr]
              exact fun m hm => decide_eq_true (htransaction m hm)
          · refine ⟨ps, hps, fun hmem =>
              hfull ((List.mem_cons.mp hmem).resolve_left fun heq => ?_), ?_⟩
            · obtain ⟨rfl, -⟩ := Event.sent.inj heq
              exact hid rfl
            · rw [hsplit, Message.ofCommit, List.filter_eq_nil_iff.mpr, List.nil_append]
              exact fun m hm => by rw [htransaction m hm, decide_eq_true_iff]; exact hid

/-- The messages about levels of a commit, in the order in which the broker took them. -/
def profilesDelivered (c : PublisherConfig) (t : TransactionId) (tr : List Event) :
    List ProfileMessage :=
  (Message.ofCommit t (delivered c tr)).filterMap fun m => m.2.profile?

/-- What a consumer sees of a batch, if the trace `tr` leads from one world to another. -/
structure Seen (c : PublisherConfig) (b : Batch) (w w' : World) (tr : List Event) :
    Prop where
  /-- The broker took what the trace says. -/
  topics : ∀ topic, w'.messages topic =
    w.messages topic ++ (Message.onTopic topic (delivered c tr)).map Message.text
  /-- On each topic the commit has prefixes of the messages of its batch, one after
      another. -/
  prefixes : ∀ topic, ∃ ps : List (List Message),
    (∀ p ∈ ps, p <+: Message.onTopic topic (outgoing c b)) ∧
      Message.onTopic topic (Message.ofCommit b.transaction (delivered c tr)) = ps.flatten
  /-- The entry is deleted after an attempt that delivered every message. -/
  cleared : ∀ i : Nat, tr[i]? = some (.cleared b.transaction) →
    ∃ j < i, tr[j]? = some (.sent b (outgoing c b).length)
  /-- Every deletion of the entry is in the trace. -/
  deleted : ∀ v ∈ w'.backend.store.versionsOf (.outbox b.transaction), v.document = none →
    v ∈ w.backend.store.versionsOf (.outbox b.transaction) ∨ .cleared b.transaction ∈ tr
  /-- A receiver accepts a prefix of the messages about levels. -/
  accepted : Deduplicator.accepted [] (profilesDelivered c b.transaction tr) <+:
    b.deltas.map (.ofDelta b.transaction)
  /-- Once the entry is gone it has accepted all of them, in order. -/
  complete : w'.backend.store.visible Instant.latest (.outbox b.transaction) = none →
    Deduplicator.accepted [] (profilesDelivered c b.transaction tr) =
      b.deltas.map (.ofDelta b.transaction)

/-- **At least once, in order, and exactly once after repeats are dropped.** A
    propagated entry waits, and its batch has at most one delta for an object. Then the
    batch is published and what waits is published, any number of times and whatever
    fails. -/
theorem performAll_seen (c : PublisherConfig) {b : Batch} {t : Instant} {w : World}
    (hs : w.backend.store.Sound) (hrivals : w.rivals = [])
    (hlive : w.backend.store.visible Instant.latest (.outbox b.transaction) =
      some (.outbox ⟨b, t, true⟩))
    (hdeltas : (b.deltas.map (·.reference)).Nodup) (rounds : List Round) :
    Seen c b w (performAll c b rounds w) (traceAll c b rounds w) := by
  have hshows : w.Shows .any ⟨w.backend.store, w.broker.topics⟩ :=
    ⟨rfl, rfl, hrivals, fun _ => trivial, fun hfair => hfair.elim⟩
  have hstart : Delivers c b ⟨w.backend.store, w.broker.topics⟩
    ⟨w.backend.store, w.broker.topics⟩ [] := by
    refine ⟨hs, fun _ => (List.append_nil _).symm, (fun _ _ h => by cases h),
      fun d hd => ⟨t, Option.some.inj (hd.symm.trans hlive)⟩, fun hnone => ?_,
        fun i hi => ?_,
      fun v hv _ => .inl hv⟩
    · cases hnone.symm.trans hlive
    · cases hi
  obtain ⟨g, hg, hdelivers⟩ := reached_performAll rounds ⟨_, hshows, hstart⟩
  rw [List.nil_append] at hdelivers
  obtain ⟨ps, hps, hfull, hofCommit⟩ := exists_attempts (c := c) _ hdelivers.faithful
  -- the receiver is fed with the messages about levels of each attempt
  have hprofiles : profilesDelivered c b.transaction (traceAll c b rounds w) =
      (ps.map (List.filterMap fun m => m.2.profile?)).flatten := by
    rw [profilesDelivered, hofCommit, List.filterMap_flatten]
  have hprefixes : ∀ p ∈ ps.map (List.filterMap fun m => m.2.profile?),
      p <+: b.deltas.map (ProfileMessage.ofDelta b.transaction) := by
    intro p hp
    obtain ⟨q, hq, rfl⟩ := List.mem_map.mp hp
    rw [← profiles_outgoing c]
    exact (hps q hq).filterMap _
  have hknows : Deduplicator.Knows [] [] := fun k => Iff.rfl
  obtain ⟨haccepted, hcomplete⟩ := Deduplicator.accepted_prefixes
    (ProfileMessage.nodup_repeatKey b.transaction hdeltas) hprefixes List.nil_prefix hknows
  rw [← hprofiles, List.nil_append] at haccepted hcomplete
  refine ⟨fun topic => ?_, fun topic => ⟨ps.map (Message.onTopic topic), ?_, ?_⟩,
    hdelivers.cleared, ?_, haccepted, fun hgone => hcomplete ?_⟩
  · rw [hg.messages, hdelivers.topics]
    rfl
  · intro p hp
    obtain ⟨q, hq, rfl⟩ := List.mem_map.mp hp
    exact (hps q hq).filterMap _
  · rw [hofCommit]
    exact List.filterMap_flatten
  · rw [hg.store]
    exact hdelivers.deleted
  · rw [hg.store] at hgone
    rw [← profiles_outgoing c]
    exact List.mem_map_of_mem (hfull (hdelivers.gone hgone))

/-! ### A batch that is sent three times -/

/-- Two hosts were found and one of them was declared. -/
def hostsBatch : Batch :=
  ⟨⟨1⟩, some ⟨"a"⟩, [⟨.object ⟨"Host|x"⟩, .created⟩],
    [⟨⟨"Host|x"⟩, none, .zero, .created⟩,
      ⟨⟨"Host|y"⟩, some .zero, LevelConfig.standard.highest, .declared⟩]⟩

/-- Facts have a topic of their own, and a message is sent twice before it fails. -/
def threeTopics : PublisherConfig := ⟨"new", "changed", some "facts", ⟨2, 0, 0, by decide⟩⟩

/-- The batch waits, its second message cannot be sent at first, and then its entry
    cannot be deleted. -/
def hostsWaiting : World :=
  { World.holding
    (Store.ofTransactions [⟨Instant.latest, [.put (.outbox ⟨hostsBatch, .latest, true⟩)]⟩])
      with
    publishFaults := [none, some brokerDown, some brokerDown]
    submitFaults := [some submitRefused] }

/-- Four calls: the batch is kept after its first message, sent without its entry being
    deleted, sent once more, and there is nothing left to send. -/
def fourCalls : List Round := [.publish, .republish, .republish, .republish]

/-- The receiver got the second message after a repeat of the first one. -/
theorem performAll_seen_hostsWaiting :
    traceAll threeTopics hostsBatch fourCalls hostsWaiting =
      [.sent hostsBatch 1, .sent hostsBatch 3, .sent hostsBatch 3, .cleared ⟨1⟩] ∧
    Deduplicator.accepted [] (profilesDelivered threeTopics ⟨1⟩
      (traceAll threeTopics hostsBatch fourCalls hostsWaiting)) =
      hostsBatch.deltas.map (.ofDelta ⟨1⟩) := by
  have hsound := (Store.reachable_ofTransactions
    [⟨Instant.latest, [.put (.outbox ⟨hostsBatch, .latest, true⟩)]⟩]).sound
  have hseen := performAll_seen threeTopics (b := hostsBatch) (t := .latest)
    (w := hostsWaiting) hsound rfl rfl (by decide +kernel) fourCalls
  exact ⟨by decide +kernel, hseen.complete (by decide +kernel)⟩

end Consumer

end Publisher

end ClearanceGraph
