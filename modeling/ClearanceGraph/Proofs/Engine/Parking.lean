import ClearanceGraph.Proofs.Engine.Aftermath

/-! # Parking — what becomes of what a full pass tells

    A full pass commits its profiles first, and what it has to tell is kept nowhere
    then.  Publishing sends it, and what could not be sent is put into the outbox by a
    commit of its own, which can fail as well.

    So what a full pass tells is kept exactly if the broker took all of it or the
    recalculation fails as a failure to publish (`Publisher.Parked`).  Otherwise the
    store stays as the pass left it: the profiles are settled and the box is empty.

    The heart is the box of the commit of the pass: it is empty until something is
    parked (`Engine.leads_untilPass`). -/

namespace ClearanceGraph

namespace Publisher

variable {c : PublisherConfig} {b : Batch} {d : Delta} {w : World} {n : Nat}

/-- The broker took the message about a delta of a commit. -/
def Took (c : PublisherConfig) (tr : List Event) (t : TransactionId) (d : Delta) : Prop :=
  (c.topicFor d.kind, .profile (.ofDelta t d)) ∈ delivered c tr

/-- A delta of a commit is in an entry that is sent when what waits is published next. -/
def Waits (s : Store) (t : TransactionId) (d : Delta) : Prop :=
  ∃ es, waiting.Gives s es ∧ ∃ e ∈ es, e.batch.transaction = t ∧ d ∈ e.batch.deltas

/-- What becomes of the deltas of a batch that is published from one world to another,
    with this result. -/
structure Parked {α : Type} (c : PublisherConfig) (b : Batch) (w : World)
    (r : Except GraphError α) (w' : World) : Prop where
  /-- The broker took what the trace says. -/
  topics : ∀ topic, w'.messages topic = w.messages topic ++
    (Message.onTopic topic (delivered c (publishTrace c b w))).map Message.text
  /-- All deltas are kept if the broker took all of them, or if publishing is said to
      have failed. -/
  kept_iff : (∀ d ∈ b.deltas, Took c (publishTrace c b w) b.transaction d ∨
      Waits w'.backend.store b.transaction d) ↔
    (∀ d ∈ b.deltas, Took c (publishTrace c b w) b.transaction d) ∨
      ∃ attempts text, r = .error (.publishFailure b.transaction attempts text)
  took_of_ok : r.isOk = true → ∀ d ∈ b.deltas, Took c (publishTrace c b w) b.transaction d
  /-- If one is not kept, nothing was written. -/
  lost : ∀ d ∈ b.deltas, ¬ Took c (publishTrace c b w) b.transaction d →
    ¬ Waits w'.backend.store b.transaction d → w'.backend.store = w.backend.store

section Ends

variable {α : Type} {r : Except GraphError α} {w' : World}
  (htopics : ∀ topic, w'.messages topic = w.messages topic ++
    (Message.onTopic topic (delivered c (publishTrace c b w))).map Message.text)

include htopics

/-- The broker took all of them. -/
private theorem Parked.of_took
    (htook : ∀ d ∈ b.deltas, Took c (publishTrace c b w) b.transaction d) :
      Parked c b w r w' :=
  ⟨htopics, ⟨fun _ => .inl htook, fun _ d hd => .inl (htook d hd)⟩, fun _ => htook,
    fun d hd hno => absurd (htook d hd) hno⟩

/-- The batch was parked. -/
private theorem Parked.of_waits (attempts : Nat) (text : String)
    (hwaits : ∀ d ∈ b.deltas, Waits w'.backend.store b.transaction d) :
    Parked c b w (.error (.publishFailure b.transaction attempts text) :
      Except GraphError α) w' :=
  ⟨htopics, ⟨fun _ => .inr ⟨_, _, rfl⟩, fun _ d hd => .inr (hwaits d hd)⟩,
    fun h => (nomatch h), fun d hd _ hno => absurd (hwaits d hd) hno⟩

/-- The broker did not take all of them, and the batch could not be parked. -/
private theorem Parked.of_lost (x : StorageError)
    (htook : ¬ ∀ d ∈ b.deltas, Took c (publishTrace c b w) b.transaction d)
    (hwaits : ∀ d, ¬ Waits w'.backend.store b.transaction d)
    (hstore : w'.backend.store = w.backend.store) :
    Parked c b w (.error (.ofStorage x) : Except GraphError α) w' := by
  refine ⟨htopics, ⟨fun h => ?_, ?_⟩, fun h => (nomatch h), fun _ _ _ _ => hstore⟩
  · exact absurd (fun d hd => (h d hd).resolve_right (hwaits d)) htook
  · rintro (h | ⟨attempts, text, heq⟩)
    · exact absurd h htook
    · cases x <;> cases heq

end Ends

theorem Parked.map {α β : Type} {r : Except GraphError α} {w' : World} (f : α → β)
    (h : Parked c b w r w') : Parked c b w (r.map f) w' := by
  cases r with
  | error e => exact ⟨h.topics, h.kept_iff.trans (or_congr_right (by simp [Except.map])),
      (nomatch ·), h.lost⟩
  | ok x => exact .of_took h.topics (h.took_of_ok rfl)

/-! ## The messages of deltas -/

private theorem took_of_length_le {tr : List Event}
    (htr : delivered c tr = (outgoing c b).take n) (hall : (outgoing c b).length ≤ n)
    (hd : d ∈ b.deltas) : Took c tr b.transaction d := by
  rw [Took, htr, List.take_of_length_le hall]
  exact List.mem_append_right _ (List.mem_map_of_mem hd)

/-- Where an object has one delta, the broker took the messages about all of them if it
    took all messages. -/
private theorem took_all_iff {tr : List Event}
    (htr : delivered c tr = (outgoing c b).take n)
    (hdeltas : (b.deltas.map (·.reference)).Nodup) (hne : b.deltas ≠ []) :
    (∀ d ∈ b.deltas, Took c tr b.transaction d) ↔ (outgoing c b).length ≤ n := by
  constructor
  · intro h
    by_contra hlt
    -- the last message is not among the first ones
    obtain ⟨ds, d, hds⟩ := (List.eq_nil_or_concat' b.deltas).resolve_left hne
    have hd := h d (hds ▸ List.mem_append_right _ List.mem_cons_self)
    rw [hds, List.map_append, List.map_singleton] at hdeltas
    rw [Took, htr, outgoing, hds, List.map_append, ← List.append_assoc] at hd
    rw [outgoing, hds, List.map_append, ← List.append_assoc, List.length_append] at hlt
    rw [List.take_append_of_le_length
      (by simp only [List.length_map, List.length_singleton] at hlt; omega)] at hd
    rcases List.mem_append.mp (List.mem_of_mem_take hd) with hd | hd
    · split at hd
      · obtain ⟨ch, -, heq⟩ := List.mem_map.mp hd
        cases (Prod.mk.inj heq).2
      · cases hd
    · obtain ⟨d', hd', heq⟩ := List.mem_map.mp hd
      have href : d'.reference = d.reference :=
        congrArg ProfileMessage.object (Message.profile.inj (Prod.mk.inj heq).2)
      exact (List.nodup_append.mp hdeltas).2.2 _ (List.mem_map_of_mem hd') _
        List.mem_cons_self href
  · exact fun hall d hd => took_of_length_le htr hall hd

/-- The messages that the broker took of a batch that is published. -/
private theorem delivered_publishTrace (h : b.isEmpty = false) :
    delivered c (publishTrace c b w) = (outgoing c b).take (taken c (messages c b) w) := by
  have hnone : ∀ tr : List Event, (∀ x ∈ tr, ∃ t, x = .cleared t) →
      delivered c tr = [] := by
    intro tr htr
    refine List.flatMap_eq_nil_iff.mpr fun x hx => ?_
    obtain ⟨t, rfl⟩ := htr x hx
    rfl
  rw [publishTrace, h, if_neg Bool.false_ne_true]
  refine (delivered_append _ _).trans ((congrArg₂ (· ++ ·) (List.flatMap_singleton _ _)
    (hnone _ fun x hx => ?_)).trans (List.append_nil _))
  split at hx
  · split at hx
    · rw [clearTrace] at hx
      split at hx
      · exact ⟨_, List.mem_singleton.mp hx⟩
      · cases hx
    · cases hx
  · cases hx

/-! ## An empty box -/

section Fresh

variable {sky : Weather} {g : Scene} {s : Store} {t : TransactionId}

/-- What waits of a commit is what shows at the end of the calendar. -/
private theorem waits_iff (hs : s.Sound) : Waits s t d ↔
    ∃ e, s.visible Instant.latest (.outbox t) = some (.outbox e) ∧ e.propagated = true ∧
      d ∈ e.batch.deltas := by
  constructor
  · rintro ⟨es, hes, e, he, rfl, hd⟩
    have hentries : Outbox.entries.Gives s
        ((s.query Instant.latest .outbox).filterMap Document.outbox?) :=
      (Reading.gives_query _ _ s).bind (Reading.gives_pure s _)
    refine ⟨e, visible_of_waiting hs hes he, ?_, hd⟩
    obtain rfl := hes.unique (hentries.bind (Reading.gives_pure s _))
    exact (List.mem_filter.mp he).2
  · rintro ⟨e, he, hpropagated, hd⟩
    have hentries : Outbox.entries.Gives s
        ((s.query Instant.latest .outbox).filterMap Document.outbox?) :=
      (Reading.gives_query _ _ s).bind (Reading.gives_pure s _)
    refine ⟨_, hentries.bind (Reading.gives_pure s _), e,
      List.mem_filter.mpr ⟨?_, hpropagated⟩,
      DocumentKey.outbox.inj (hs.key_of_visible he), hd⟩
    exact List.mem_filterMap.mpr ⟨_, Store.mem_visibleWhere.mpr ⟨_, he, rfl⟩, rfl⟩

/-- Of a commit with an empty box nothing waits. -/
private theorem not_waits (hs : s.Sound) (hempty : s.versionsOf (.outbox t) = []) :
    ¬ Waits s t d := by
  rw [waits_iff hs, Store.visible_of_versionsOf_eq_nil hempty]
  rintro ⟨e, he, -⟩
  cases he

private theorem entry_gives_none (hempty : s.versionsOf (.outbox t) = []) :
    (Outbox.entry t).Gives s none := by
  have hentry : (Outbox.entry t).Gives s ((s.visible Instant.latest (.outbox t)).bind
      Document.outbox?) := (Reading.gives_get _ _ s).bind (Reading.gives_pure s _)
  rwa [Store.visible_of_versionsOf_eq_nil hempty] at hentry

/-- **Parking** a batch in an empty box: its deltas wait, or nothing is written. -/
private theorem leads_park_fresh (hclock : ∀ t, sky.clock t → t ≤ Instant.latest)
    (hs : g.store.Sound) (hempty : g.store.versionsOf (.outbox b.transaction) = []) :
    Leads (World.Shows sky) (park b) g
      (fun _ g' => g'.topics = g.topics ∧ ∀ d ∈ b.deltas, Waits g'.store b.transaction d)
      (fun e g' => (∃ x, e = .ofStorage x) ∧ g' = g) := by
  refine Leads.step (leads_read_or_down (entry_gives_none hempty))
    (fun _ _ h => ⟨⟨_, h.1⟩, h.2⟩) ?_
  rintro existing g' ⟨rfl, rfl⟩
  refine Leads.bind (Leads.lift ends_now) ?_
  rintro u g'' ⟨hnow, rfl⟩
  refine Leads.bind (Leads.lift (leads_submit (parking b u))) ?_
  intro r g' hr
  cases r with
  | error e =>
      obtain ⟨-, rfl⟩ := hr
      exact Leads.throw ⟨⟨e, rfl⟩, rfl⟩
  | ok id =>
      obtain ⟨s', hsub, rfl⟩ := hr
      have hlast : (parking b u).lastWrite? (.outbox b.transaction) =
          some (some (.outbox ⟨b, u, true⟩)) := by
        rw [Transaction.lastWrite?, writesTo_parking]
        rfl
      -- no note was there, so the parked one is the newest
      have hnewest := Store.newestOf?_submit_of_le hs hsub hlast fun v hv => by
        rw [hempty] at hv
        cases hv
      have hvisible := Store.visible_of_newestOf? hnewest (hclock u hnow)
      exact Leads.pure
        ⟨rfl, fun d hd => (waits_iff (hs.submit hsub)).mpr ⟨_, hvisible, rfl, hd⟩⟩

/-- **Publishing** the batch of a commit with an empty box. -/
theorem publish_parked (hw : w.Shows sky g) (hclock : ∀ t, sky.clock t → t ≤ Instant.latest)
    (hs : g.store.Sound) (hempty : g.store.versionsOf (.outbox b.transaction) = [])
    (hdeltas : (b.deltas.map (·.reference)).Nodup) :
    Parked c b w (publish c b w).1 (publish c b w).2 := by
  cases hne : b.isEmpty with
  | true =>
      have hnil : b.deltas = [] := List.isEmpty_iff.mp ((Bool.and_eq_true _ _).mp hne).2
      have htrace : publishTrace c b w = [] := by rw [publishTrace, if_pos hne]
      rw [publish_apply, if_pos hne]
      refine .of_took (fun topic => ?_) fun d hd => ?_
      · rw [htrace]
        exact (List.append_nil _).symm
      · rw [hnil] at hd
        cases hd
  | false =>
      obtain ⟨hshows, hall⟩ := shows_sendAll c (messages c b) hw
      have htaken := delivered_publishTrace (c := c) (w := w) hne
      have hlength : (messages c b).length = (outgoing c b).length := by
        rw [messages_eq, List.length_map]
      -- what is done after sending leaves the broker alone
      have htopics : ∀ {g' : Scene} {w' : World}, w'.Shows sky g' →
          g'.topics = (g.takeAll ((messages c b).take (taken c (messages c b) w))).topics →
          ∀ topic, w'.messages topic = w.messages topic ++
            (Message.onTopic topic (delivered c (publishTrace c b w))).map
              Message.text := by
        intro g' w' hw' hsame topic
        rw [hw'.messages, Scene.messages, hsame, ← Scene.messages, Scene.messages_takeAll,
          hw.messages, htaken, Message.map_text_onTopic, List.map_take, ← messages_eq]
      have hstore := g.takeAll_store ((messages c b).take (taken c (messages c b) w))
      have hgone := hempty
      rw [← hstore] at hgone hs
      rw [publish_apply, hne, if_neg Bool.false_ne_true]
      change (send c b w).2.Shows sky _ at hshows
      change (send c b w).1.isOk = true → _ at hall
      have hlt : (send c b w).1.isOk = false → _ := taken_lt_of_error c (messages c b)
      rcases hsend : send c b w with ⟨⟨attempts, x⟩ | u, w₁⟩
      · rw [hsend] at hshows hlt
        have hlt := hlt rfl
        obtain ⟨g', hw₂, hpark⟩ := leads_park_fresh hclock hs hgone w₁ hshows
        dsimp only
        rcases hrun : park b w₁ with ⟨e | u, w₂⟩
        · rw [hrun] at hw₂ hpark
          obtain ⟨⟨y, rfl⟩, rfl⟩ := hpark
          by_cases hds : b.deltas = []
          · exact .of_took (htopics hw₂ rfl) fun d hd => by rw [hds] at hd; cases hd
          have hnot : ¬ ∀ d ∈ b.deltas, Took c (publishTrace c b w) b.transaction d :=
            fun h =>
            absurd ((took_all_iff htaken hdeltas hds).mp h) (by omega)
          refine .of_lost (htopics hw₂ rfl) y hnot (fun d => ?_) ?_
          · rw [hw₂.store]
            exact not_waits hs hgone
          · rw [hw₂.store, hstore, hw.store]
        · rw [hrun] at hw₂ hpark
          obtain ⟨hsame, hwaits⟩ := hpark
          rw [← hw₂.store] at hwaits
          exact .of_waits (htopics hw₂ hsame) attempts _ hwaits
      · rw [hsend] at hshows hall
        have htook : ∀ d ∈ b.deltas, Took c (publishTrace c b w) b.transaction d :=
          fun d hd =>
          took_of_length_le htaken (Nat.le_of_eq (hlength.symm.trans (hall rfl).symm)) hd
        obtain ⟨g', hw₂, hread⟩ := leads_read_or_down (entry_gives_none hgone) w₁ hshows
        dsimp only
        rcases hrun : World.read (Outbox.entry b.transaction) w₁ with ⟨e | existing, w₂⟩
        · rw [hrun] at hw₂ hread
          obtain ⟨-, rfl⟩ := hread
          exact .of_took (htopics hw₂ rfl) htook
        · rw [hrun] at hw₂ hread
          obtain ⟨rfl, rfl⟩ := hread
          exact .of_took (htopics hw₂ rfl) htook

end Fresh

end Publisher

namespace System

/-- **What becomes of the deltas of a full pass**, in any run of engines from an empty
    store that nobody else writes, whatever fails. Up to its full pass a recalculation
    gave a result, and that pass committed. -/
theorem recalculate_parked {s : System} (h : s.Starts .latest) (ds : List Deed)
    {r : RecalculationReport} {s₁ : System} {t : TransactionId}
    (hpass : Engine.untilPass (Deed.performAll ds s).engine.config (Deed.performAll ds s) =
      (.ok r, s₁)) (ht : r.full.eventTransaction = some t) :
    Publisher.Parked (Deed.performAll ds s).engine.config.publisher
      ⟨t, none, [], r.full.deltas⟩
      s₁.world (Engine.recalculate (Deed.performAll ds s)).1
      (Engine.recalculate (Deed.performAll ds s)).2.world := by
  obtain ⟨a₀, hs₀, hnumbered₀⟩ := Stage.Numbered.of_starts h
  obtain ⟨a, hs, hnumbered⟩ := hnumbered₀.performAll ds hs₀
  obtain ⟨a₁, hs₁, hr⟩ := Engine.leads_untilPass (Deed.performAll ds s).engine.config
    (.refl hnumbered.sound hnumbered.issued) hnumbered.marks _ hs
  rw [hpass] at hs₁ hr
  obtain ⟨hfollows, hdeltas, hfresh⟩ := hr
  rw [Engine.recalculate_eq_of_pass hpass ht]
  exact (Publisher.publish_parked (b := ⟨t, none, [], r.full.deltas⟩) hs₁.world
    (fun _ ht => ht) hfollows.sound (hfresh t ht).2 hdeltas).map _

/-- An engine whose broker takes one message only, and whose fifth submit finds the
    store out of reach. -/
def shut : System :=
  ⟨⟨.standard, .empty, 1⟩,
    { World.empty (fun _ => Instant.latest) with
      publishFaults := none :: List.replicate 5 (some brokerDown)
      submitFaults := [none, none, none, none, some storeDown] }⟩

/-- The default level is the highest one. -/
def highDefault : Config :=
  { Config.standard with
    levels := ⟨LevelConfig.standard.highest, LevelConfig.standard.highest⟩ }

/-- A host is found, and then an engine with another default level takes over. -/
def oneHost : List Deed :=
  [.call (.reconcile ⟨⟨"a"⟩, .observation, .latest, [⟨⟨"Host|a"⟩, "Host", Table.empty⟩],
    [], []⟩), .restart highDefault]

/-- What the full pass tells then: the level of the host rises. -/
def raised : Delta := ⟨⟨"Host|a"⟩, some .zero, LevelConfig.standard.highest, .inherited⟩

/-- The broker does not take the message, and the batch cannot be parked. The
    recalculation fails, but not as a failure to publish, and nothing waits. -/
theorem recalculate_parked_oneHost : shut.Starts .latest ∧ ∃ r s₁,
    Engine.untilPass (Deed.performAll oneHost shut).engine.config
      (Deed.performAll oneHost shut) =
      (.ok r, s₁) ∧ r.full.eventTransaction = some ⟨4⟩ ∧ r.full.deltas = [raised] ∧
    ¬ Publisher.Took highDefault.publisher
      (Publisher.publishTrace highDefault.publisher ⟨⟨4⟩, none, [], [raised]⟩ s₁.world)
        ⟨4⟩ raised ∧
    ¬ Publisher.Waits
      (Engine.recalculate (Deed.performAll oneHost shut)).2.world.backend.store ⟨4⟩
      raised ∧
    (Engine.recalculate (Deed.performAll oneHost shut)).2.world.backend.store =
      s₁.world.backend.store ∧
    (Engine.recalculate (Deed.performAll oneHost shut)).1.isOk = false ∧
    ∀ attempts text, (Engine.recalculate (Deed.performAll oneHost shut)).1 ≠
      .error (.publishFailure ⟨4⟩ attempts text) := by
  have hstarts : shut.Starts .latest := ⟨⟨.standard, rfl⟩, ⟨rfl, rfl⟩, fun _ => le_refl _⟩
  have hpass : ((Engine.untilPass (Deed.performAll oneHost shut).engine.config
      (Deed.performAll oneHost shut)).1.toOption.map fun r =>
        (r.full.eventTransaction, r.full.deltas)) = some (some ⟨4⟩, [raised]) := by
          decide +kernel
  -- the queue is down, so none of the messages was taken
  have htrace : Publisher.publishTrace highDefault.publisher ⟨⟨4⟩, none, [], [raised]⟩
      (Engine.untilPass (Deed.performAll oneHost shut).engine.config
        (Deed.performAll oneHost shut)).2.world = [.sent ⟨⟨4⟩, none, [], [raised]⟩ 0] := by
    decide +kernel
  -- the submit that would have parked the batch fails as well
  have hwaiting : (Publisher.waiting
      (Engine.recalculate
        (Deed.performAll oneHost shut)).2.world.backend.store).1.toOption =
        some [] := by decide +kernel
  obtain ⟨r, hr, heq⟩ := Option.map_eq_some_iff.mp hpass
  obtain ⟨hevent, hdeltas⟩ := Prod.mk.inj heq
  have hok : ∀ p : Except GraphError RecalculationReport × System, p.1.toOption = some r →
      p = (.ok r, p.2) := fun p hp => Prod.ext (Act.toOption_eq_some_iff.mp hp) rfl
  have hrun := hok _ hr
  have hparked := recalculate_parked hstarts oneHost hrun hevent
  rw [hdeltas] at hparked
  have htook : ¬ Publisher.Took highDefault.publisher
      (Publisher.publishTrace highDefault.publisher ⟨⟨4⟩, none, [], [raised]⟩
        (Engine.untilPass (Deed.performAll oneHost shut).engine.config
          (Deed.performAll oneHost shut)).2.world) ⟨4⟩ raised := by
    rw [htrace]
    exact List.not_mem_nil
  have hwaits : ¬ Publisher.Waits
      (Engine.recalculate (Deed.performAll oneHost shut)).2.world.backend.store
        ⟨4⟩ raised := by
    rintro ⟨es, hes, e, he, -⟩
    obtain rfl := hes.unique (Act.toOption_eq_some_iff.mp hwaiting)
    cases he
  refine ⟨hstarts, r, _, hrun, hevent, hdeltas, htook, hwaits,
    hparked.lost raised List.mem_cons_self htook hwaits, ?_,
      fun attempts text hfailed => ?_⟩
  · refine Bool.eq_false_iff.mpr fun hok => ?_
    exact htook (hparked.took_of_ok hok raised List.mem_cons_self)
  · have hkept := hparked.kept_iff.mpr (.inr ⟨attempts, text, hfailed⟩) raised
        List.mem_cons_self
    exact hkept.elim htook hwaits

end System

end ClearanceGraph
