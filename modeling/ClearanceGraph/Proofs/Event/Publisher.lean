import ClearanceGraph.Proofs.Event.Outbox
import ClearanceGraph.Proofs.World

/-! # The publisher — what sending a batch leads to

    Sending hands messages to the broker one after another, so a batch that was
    sent as a whole is told, and one that was not may be told in part.  What the
    broker took it keeps, hence nothing that was told is lost by sending again.

    To the store the publisher posts only, on top of what its box holds
    (`Store.Topped`): the batch itself if it could not be sent, else that there is
    none.  It posts nothing else, and so changes no level.

    `leads_publish` is this for one batch, `leads_republishAll` for the waiting
    list. -/

namespace ClearanceGraph

/-! ## Messages -/

namespace Scene

variable {g g₁ g' : Scene}

/-- Every message that a broker took is still there. -/
def Within (g g' : Scene) : Prop := ∀ topic, g.messages topic ⊆ g'.messages topic

/-- The broker took a message about a level of an object, of a commit. -/
def Told (g : Scene) (t : TransactionId) (r : Reference) : Prop :=
  ∃ topic, ∃ m : ProfileMessage, m.transaction = t ∧ m.object = r ∧
    m.encode ∈ g.messages topic

theorem Within.refl (g : Scene) : g.Within g := fun _ => List.Subset.refl _

theorem Within.of_topics (h : g'.topics = g.topics) : g.Within g' := by
  intro topic
  rw [messages, messages, h]
  exact List.Subset.refl _

theorem Within.trans (h : g.Within g₁) (h' : g₁.Within g') : g.Within g' :=
  fun topic => List.Subset.trans (h topic) (h' topic)

/-- What was told stays told. -/
theorem Told.of_within {t : TransactionId} {r : Reference} (ht : g.Told t r)
    (h : g.Within g') :
    g'.Told t r := by
  obtain ⟨topic, m, hm, hr, hmem⟩ := ht
  exact ⟨topic, m, hm, hr, h topic hmem⟩

/-- A message that is taken comes last in its topic. -/
theorem messages_take (g : Scene) (topic text : String) :
    (g.take topic text).messages topic = g.messages topic ++ [text] := by
  rw [messages, take, Table.get?_update_self, Option.getD_some, messages]

/-- The other topics stay. -/
theorem messages_take_of_ne (g : Scene) {topic other : String} (text : String)
    (h : other ≠ topic) : (g.take topic text).messages other = g.messages other := by
  rw [messages, take, Table.get?_update_of_ne _ _ h, messages]

theorem within_take (g : Scene) (topic text : String) : g.Within (g.take topic text) := by
  intro other
  by_cases h : other = topic
  · subst h
    rw [messages_take]
    exact List.subset_append_left _ _
  · rw [messages_take_of_ne g text h]
    exact List.Subset.refl _

end Scene

namespace Publisher

variable {c : PublisherConfig} {sky : Weather} {g : Scene}

/-- Sending leaves the store. -/
theorem leads_sendAll (c : PublisherConfig) (ms : List (String × String)) :
    ∀ g, Leads (World.Shows sky) (sendAll c ms) g
      (fun _ g' => (g'.store = g.store ∧ g.Within g') ∧ ∀ m ∈ ms, m.2 ∈ g'.messages m.1)
      (fun _ g' => (g'.store = g.store ∧ g.Within g') ∧ ¬ sky.fair) := by
  -- on the messages: the first that fails ends the sending
  induction ms with
  | nil => exact fun g => Ends.pure ⟨⟨rfl, .refl g⟩, fun _ h => by cases h⟩
  | cons m ms ih =>
      obtain ⟨topic, text⟩ := m
      intro g
      refine Ends.bind (Ends.retry (ClearanceGraph.leads_publish topic text) c.retry) ?_
      rintro ⟨r, n⟩ g₁ hr
      cases r with
      | error e =>
          obtain ⟨hfair, rfl⟩ := hr
          exact Ends.pure ⟨⟨rfl, .refl _⟩, hfair⟩
      | ok u =>
          obtain rfl : g₁ = g.take topic text := hr
          have hwithin := g.within_take topic text
          refine (ih _).imp ?_ ?_
          · rintro - g' ⟨⟨hstore, hw⟩, hms⟩
            refine ⟨⟨hstore, hwithin.trans hw⟩, fun m hm => ?_⟩
            rcases List.mem_cons.mp hm with rfl | hm
            · exact hw topic
                (g.messages_take topic text ▸ List.mem_append_right _ List.mem_cons_self)
            · exact hms m hm
          · rintro e g' ⟨⟨hstore, hw⟩, hfair⟩
            exact ⟨⟨hstore, hwithin.trans hw⟩, hfair⟩

/-- A batch that was sent is told. -/
theorem leads_send (c : PublisherConfig) (b : Batch) (g : Scene) :
    Leads (World.Shows sky) (send c b) g
      (fun _ g' => (g'.store = g.store ∧ g.Within g') ∧ ∀ r, b.Names r →
        g'.Told b.transaction r)
      (fun _ g' => (g'.store = g.store ∧ g.Within g') ∧ ¬ sky.fair) := by
  refine (leads_sendAll c (messages c b) g).imp ?_ fun _ _ h => h
  rintro - g' ⟨hg, hms⟩
  refine ⟨hg, ?_⟩
  rintro r ⟨d, hd, rfl⟩
  refine ⟨c.topicFor d.kind, .ofDelta b.transaction d, rfl, rfl, ?_⟩
  exact hms (_, _) (List.mem_append_right _ (List.mem_map_of_mem hd))

end Publisher

/-! ## Posting on top -/

theorem Document.outbox_beq_self (e : OutboxEntry) :
    (Document.outbox e == Document.outbox e) = true := beq_self_eq_true e

namespace Store

/-- The box of a commit was posted to on top of what it held. -/
structure Topped (s : Store) (t : TransactionId) (e : Option OutboxEntry) (s' : Store) :
    Prop where
  boxed : s'.Boxed
  grows : s.Grows (· = .outbox t) s'
  box : s'.box t = e.elim .cleared .entry
  inStep : s'.InStep (.outbox t)
  unchanged : ∀ r, ¬ s.Changed s' r

variable {P : DocumentKey → Prop} {s s' : Store} {t : TransactionId} {tx : Transaction}
  {id : TransactionId} {e : Option OutboxEntry}

theorem Grows.box_eq (h : s.Grows P s') (ht : ¬ P (.outbox t)) : s'.box t = s.box t :=
  box_congr (h.kept _ ht)

/-- A commit that posts nothing but one entry puts it on top. -/
theorem topped_submit (h : s.Boxed) (hsub : s.submit tx = .ok (id, s')) (hp : tx.Posts t e)
    (honly : ∀ k, tx.Writes k → k = .outbox t) (hle : tx.validTime ≤ Instant.latest)
    (ht : t.value ≤ s.log.length)
    (he : ∀ x, e = some x → x.validTime = tx.validTime ∧ x.batch.isEmpty = false)
    (htop : ∀ v ∈ s.versionsOf (.outbox t), v.validFrom ≤ tx.validTime) :
      s.Topped t e s' := by
  obtain ⟨hbox, hstep⟩ := box_of_posts_top hp h hsub htop
  refine ⟨h.submit hp hsub hle ht he (.inl htop), .of_submit h.sound hsub honly,
    hbox, hstep, fun r => not_changed_submit h.sound hsub fun hw => ?_⟩
  cases honly _ hw

end Store

namespace Publisher

variable {c : PublisherConfig} {sky : Weather} {g : Scene}

/-- The transaction that deletes an entry. -/
def clearing (e : OutboxEntry) : Transaction :=
  ⟨e.validTime,
    [.expect (Document.outbox e).key (some (.outbox e)), .delete (Document.outbox e).key]⟩

/-- The transaction that keeps a batch in the outbox. -/
def parking (b : Batch) (t : Instant) : Transaction := ⟨t, [.put (.outbox ⟨b, t, true⟩)]⟩

/-- A clearing deletes the entry. -/
theorem writesTo_clearing (e : OutboxEntry) :
    (clearing e).writesTo (.outbox e.batch.transaction) = [none] := by
  simp [clearing, Transaction.writesTo, List.filterMap_cons, Operation.writeTo?_expect,
    Operation.writeTo?_delete, Document.key]

/-- Parking writes an entry of which levels have followed. -/
theorem writesTo_parking (b : Batch) (t : Instant) :
    (parking b t).writesTo (.outbox b.transaction) = [some (.outbox ⟨b, t, true⟩)] := by
  simp [parking, Transaction.writesTo, Operation.writeTo?_put, Document.key]

/-- A clearing writes nothing else. -/
theorem writes_clearing {e : OutboxEntry} {k : DocumentKey} (h : (clearing e).Writes k) :
    k = .outbox e.batch.transaction := by
  obtain ⟨op, hop, hw, rfl⟩ := h
  simp only [clearing, List.mem_cons, List.not_mem_nil, or_false] at hop
  rcases hop with rfl | rfl
  · cases hw
  · rfl

/-- Nor does parking. -/
theorem writes_parking {b : Batch} {t : Instant} {k : DocumentKey}
    (h : (parking b t).Writes k) :
    k = .outbox b.transaction := by
  obtain ⟨op, hop, -, rfl⟩ := h
  obtain rfl := List.mem_singleton.mp hop
  rfl

/-- Clearing an entry never fails; the entry may stay, which does not happen in fair
    weather. -/
theorem leads_clear {e : OutboxEntry} (h : g.store.Boxed)
    (hbox : g.store.box e.batch.transaction = .entry e) :
    Leads (World.Shows sky) (clear e) g
      (fun _ g' => g'.topics = g.topics ∧ ((¬ sky.fair ∧ g'.store = g.store) ∨
        g.store.Topped e.batch.transaction none g'.store))
      (fun _ _ => False) := by
  obtain ⟨hvisible, htop, hle⟩ := h.visible_validTime hbox
  refine Leads.bind (Leads.lift (leads_submit _)) ?_
  intro r g' hr
  cases r with
  | ok id =>
      obtain ⟨s, hsub, rfl⟩ := hr
      refine Leads.pure ⟨rfl, .inr ?_⟩
      refine Store.topped_submit h hsub ⟨writesTo_clearing e, fun u hu hw => hu ?_⟩
        (fun k => writes_clearing) hle (h.issued _ fun habsent => ?_)
          (fun x hx => by cases hx) htop
      · exact DocumentKey.outbox.inj (writes_clearing hw)
      · cases hbox.symm.trans habsent
  | error x =>
      obtain ⟨hfair, rfl⟩ := hr
      refine Leads.pure ⟨rfl, .inl ⟨fun hf => ?_, rfl⟩⟩
      -- the entry shows as it was read, so the match holds
      have hok : ∃ s', g'.store.submit (clearing e) = .ok (g'.store.nextId, s') := by
        refine Store.submit_of_accepts fun op hop => ?_
        simp only [clearing, List.mem_cons, List.not_mem_nil, or_false] at hop
        rcases hop with rfl | rfl
        · show (g'.store.visible e.validTime (.outbox e.batch.transaction) ==
            some (.outbox e)) = true
          rw [hvisible]
          exact Document.outbox_beq_self e
        · rfl
      obtain ⟨s', hs'⟩ := hok
      cases hs'.symm.trans (hfair hf)

/-- The put of a parked batch, at an instant on top of all versions of its entry. -/
private theorem leads_put {b : Batch} {t : Instant} (h : g.store.Boxed)
    (hne : b.isEmpty = false)
    (ht : b.transaction.value ≤ g.store.log.length) (hle : t ≤ Instant.latest)
    (htop : ∀ v ∈ g.store.versionsOf (.outbox b.transaction), v.validFrom ≤ t) :
    Leads (World.Shows sky) (do
        match ← World.submit (parking b t) with
        | .ok _ => return ()
        | .error e => throw (.ofStorage e) : Act Unit) g
      (fun _ g' => g'.topics = g.topics ∧
        g.store.Topped b.transaction (some ⟨b, t, true⟩) g'.store)
      (fun _ g' => g' = g) := by
  refine Leads.bind (Leads.lift (leads_submit _)) ?_
  intro r g' hr
  cases r with
  | ok id =>
      obtain ⟨s, hsub, rfl⟩ := hr
      -- the commit posts the batch, and nothing is noted later than it
      have hposts : (parking b t).Posts b.transaction (some ⟨b, t, true⟩) :=
        ⟨writesTo_parking b t, fun u hu hw =>
          hu (DocumentKey.outbox.inj (writes_parking hw))⟩
      refine Leads.pure ⟨rfl,
        Store.topped_submit h hsub hposts (fun k => writes_parking) hle ht ?_ htop⟩
      rintro x ⟨⟩
      exact ⟨rfl, hne⟩
  | error x =>
      obtain ⟨-, rfl⟩ := hr
      exact Leads.throw rfl

/-- Parking a batch keeps it in its box, or fails and leaves the scene. -/
theorem leads_park {b : Batch} (h : g.store.Boxed)
    (hclock : ∀ t, sky.clock t → t ≤ Instant.latest)
    (hne : b.isEmpty = false) (ht : b.transaction.value ≤ g.store.log.length)
    (hbox : g.store.box b.transaction ≠ .cleared) :
    Leads (World.Shows sky) (park b) g
      (fun _ g' => g'.topics = g.topics ∧
        (g'.store = g.store ∨ ∃ t, g.store.Topped b.transaction
          (some ⟨b, t, true⟩) g'.store))
      (fun _ g' => g' = g) := by
  refine Leads.step (leads_read_of_gives (h.entry_gives b.transaction))
    (fun _ _ h => h.2) ?_
  rintro existing g' ⟨rfl, rfl⟩
  split
  · exact Leads.pure ⟨rfl, .inl rfl⟩
  · cases hb : g'.store.box b.transaction with
    | cleared => exact absurd hb hbox
    | entry e =>
        -- an entry that is there keeps its valid time
        obtain ⟨-, htop, hle⟩ := h.visible_validTime hb
        refine Leads.bind (Leads.pure (Q := fun t g'' => t = e.validTime ∧ g'' = g')
          ⟨rfl, rfl⟩) ?_
        rintro t g'' ⟨rfl, rfl⟩
        refine (leads_put h hne ht hle htop).imp ?_ fun _ _ h => h
        rintro - g'' ⟨htopics, htopped⟩
        exact ⟨htopics, .inr ⟨_, htopped⟩⟩
    | absent =>
        refine Leads.bind (Leads.lift ends_now) ?_
        rintro t g'' ⟨hnow, rfl⟩
        -- a new entry is written now, and there is no other one
        have htop : ∀ v ∈ g''.store.versionsOf (.outbox b.transaction),
            v.validFrom ≤ t := by
          rw [Store.box_eq_absent_iff.mp hb]
          exact List.forall_mem_nil _
        refine (leads_put h hne ht (hclock t hnow) htop).imp ?_ fun _ _ h => h
        rintro - g'' ⟨htopics, htopped⟩
        exact ⟨htopics, .inr ⟨_, htopped⟩⟩

/-! ## Publishing -/

/-- A batch was published: it is told, and its box was cleared, or left. -/
structure Published (sky : Weather) (b : Batch) (g g' : Scene) : Prop where
  within : g.Within g'
  told : ∀ r, b.Names r → g'.Told b.transaction r
  store : (g'.store = g.store ∧
      (sky.fair → b.isEmpty = true ∨ g.store.box b.transaction = .absent)) ∨
    g.store.Topped b.transaction none g'.store

/-- A batch could not be published: its box was left, or holds the batch. -/
structure Unpublished (sky : Weather) (b : Batch) (g g' : Scene) : Prop where
  unfair : ¬ sky.fair
  nonempty : b.isEmpty = false
  within : g.Within g'
  store : g'.store = g.store ∨ ∃ t, g.store.Topped b.transaction
    (some ⟨b, t, true⟩) g'.store

/-- **Publishing a batch** whose box was not cleared before. -/
theorem leads_publish (c : PublisherConfig) {b : Batch} (h : g.store.Boxed)
    (hclock : ∀ t, sky.clock t → t ≤ Instant.latest)
    (ht : b.transaction.value ≤ g.store.log.length)
    (hbox : b.isEmpty = false → g.store.box b.transaction ≠ .cleared) :
    Leads (World.Shows sky) (publish c b) g (fun _ => Published sky b g)
      (fun _ => Unpublished sky b g) := by
  rw [publish]
  split
  · next hempty =>
    refine Leads.pure ⟨.refl g, ?_, .inl ⟨rfl, fun _ => .inl hempty⟩⟩
    rintro r ⟨d, hd, -⟩
    have hnil : b.deltas = [] := List.isEmpty_iff.mp ((Bool.and_eq_true _ _).mp hempty).2
    -- an empty batch tells nothing, so nothing is left to tell
    rw [hnil] at hd
    cases hd
  · next hne =>
    have hne := Bool.eq_false_iff.mpr hne
    refine Leads.bind (Leads.lift (leads_send c b g)) ?_
    intro r g₁ hr
    cases r with
    | ok u =>
        -- all was sent: the entry is cleared, if there is one
        obtain ⟨⟨hstore, hwithin⟩, htold⟩ := hr
        rw [← hstore] at h hbox
        refine Leads.step (leads_read_of_gives (h.entry_gives b.transaction)) ?_ ?_
        · rintro e g' ⟨hfair, rfl⟩
          exact ⟨hfair, hne, hwithin, .inl hstore⟩
        · rintro existing g' ⟨rfl, rfl⟩
          cases hb : g'.store.box b.transaction with
          | cleared => exact absurd hb (hbox hne)
          | absent =>
              rw [hstore] at hb
              exact Leads.pure ⟨hwithin, htold, .inl ⟨hstore, fun _ => .inr hb⟩⟩
          | entry e =>
              have hid := h.transaction_of_box hb
              refine (leads_clear h (hid.symm ▸ hb)).imp ?_ fun _ _ hf => hf.elim
              rintro - g'' ⟨htopics, hg''⟩
              have hw := hwithin.trans (.of_topics htopics)
              refine ⟨hw, fun r hr => (htold r hr).of_within (.of_topics htopics), ?_⟩
              rcases hg'' with ⟨hfair, hsame⟩ | htopped
              · exact .inl ⟨hsame.trans hstore, fun hf => absurd hf hfair⟩
              · rw [hid, hstore] at htopped
                exact .inr htopped
    | error e =>
        -- something was not sent: the batch is parked
        obtain ⟨⟨hstore, hwithin⟩, hfair⟩ := hr
        obtain ⟨n, x⟩ := e
        rw [← hstore] at h hbox ht
        refine Leads.step (leads_park h hclock hne ht (hbox hne)) ?_ ?_
        · rintro e g' rfl
          exact ⟨hfair, hne, hwithin, .inl hstore⟩
        · rintro - g' ⟨htopics, hg'⟩
          refine Leads.throw ⟨hfair, hne, hwithin.trans (.of_topics htopics), ?_⟩
          rw [← hstore]
          exact hg'

/-! ## The waiting list -/

/-- Of some entries those of these commits were published. -/
structure Republished (sky : Weather) (es : List OutboxEntry) (ts : List TransactionId)
    (g g' : Scene) : Prop where
  boxed : g'.store.Boxed
  within : g.Within g'
  grows : g.store.Grows (fun k => ∃ t ∈ ts, k = .outbox t) g'.store
  unchanged : ∀ r, ¬ g.store.Changed g'.store r
  listed : ∀ t ∈ ts, t ∈ es.map (·.batch.transaction)
  told : ∀ e ∈ es, e.batch.transaction ∈ ts → ∀ r, e.batch.Names r →
    g'.Told e.batch.transaction r
  box : ∀ t ∈ ts, g'.store.box t = g.store.box t ∨ g'.store.box t = .cleared
  fair : sky.fair → ∀ e ∈ es, e.batch.transaction ∈ ts ∧
    g'.store.box e.batch.transaction = .cleared

private theorem Republished.nil (h : g.store.Boxed) : Republished sky [] [] g g where
  boxed := h
  within := .refl g
  grows := .refl _
  unchanged := g.store.not_changed_self
  listed := fun _ h => by cases h
  told := fun _ h => by cases h
  box := fun _ h => by cases h
  fair := fun _ _ h => by cases h

section Step

variable {g₁ g' : Scene} {e : OutboxEntry} {es : List OutboxEntry} {ts : List TransactionId}
  (hnot : e.batch.transaction ∉ es.map (·.batch.transaction))

include hnot

/-- An entry that was not published is left. -/
private theorem Republished.skip (hstore : g₁.store = g.store) (hwithin : g.Within g₁)
    (hfair : ¬ sky.fair) (h : Republished sky es ts g₁ g') :
    Republished sky (e :: es) ts g g' := by
  obtain ⟨hboxed, hw, hgrows, hunchanged, hlisted, htold, hbox, -⟩ := h
  rw [hstore] at hgrows hunchanged hbox
  refine ⟨hboxed, hwithin.trans hw, hgrows, hunchanged,
    fun t ht => List.mem_cons_of_mem _ (hlisted t ht), ?_, hbox, fun hf => absurd hf hfair⟩
  intro e' he' ht
  rcases List.mem_cons.mp he' with rfl | he'
  · exact absurd (hlisted _ ht) hnot
  · exact htold e' he' ht

/-- An entry that was published, and then the others. -/
private theorem Republished.cons (hboxed : g₁.store.Boxed) (hwithin : g.Within g₁)
    (hgrows : g.store.Grows (· = .outbox e.batch.transaction) g₁.store)
    (hunchanged : ∀ r, ¬ g.store.Changed g₁.store r)
    (htold : ∀ r, e.batch.Names r → g₁.Told e.batch.transaction r)
    (hbox : g₁.store.box e.batch.transaction = .cleared ∨
      ¬ sky.fair ∧ g₁.store.box e.batch.transaction = g.store.box e.batch.transaction)
    (h : Republished sky es ts g₁ g') :
    Republished sky (e :: es) (e.batch.transaction :: ts) g g' := by
  -- every commit is listed once, so its box is cleared by its own entry only
  have hfirst : e.batch.transaction ∉ ts := fun ht => hnot (h.listed _ ht)
  have hown : g'.store.box e.batch.transaction = g₁.store.box e.batch.transaction := by
    refine h.grows.box_eq ?_
    rintro ⟨t, ht, heq⟩
    exact hfirst (DocumentKey.outbox.inj heq ▸ ht)
  have hother : ∀ t ∈ ts, g₁.store.box t = g.store.box t := by
    intro t ht
    refine hgrows.box_eq fun heq => ?_
    exact hfirst (DocumentKey.outbox.inj heq ▸ ht)
  refine ⟨h.boxed, hwithin.trans h.within, ?_, ?_, ?_, ?_, ?_, ?_⟩
  · refine (hgrows.mono fun k hk => ?_).trans (h.grows.mono fun k hk => ?_)
    · exact ⟨_, List.mem_cons_self, hk⟩
    · obtain ⟨t, ht, hk⟩ := hk
      exact ⟨t, List.mem_cons_of_mem _ ht, hk⟩
  · intro r hr
    rcases hr.of_grows hboxed.sound hgrows h.grows with hr | hr
    · exact hunchanged r hr
    · exact h.unchanged r hr
  · intro t ht
    rcases List.mem_cons.mp ht with rfl | ht
    · exact List.mem_cons_self
    · exact List.mem_cons_of_mem _ (h.listed t ht)
  · intro e' he' ht r hr
    rcases List.mem_cons.mp he' with rfl | he'
    · exact (htold r hr).of_within h.within
    · have hne : e'.batch.transaction ≠ e.batch.transaction := fun heq =>
        hnot (heq ▸ List.mem_map_of_mem he')
      exact h.told e' he' ((List.mem_cons.mp ht).resolve_left hne) r hr
  · intro t ht
    rcases List.mem_cons.mp ht with rfl | ht
    · rw [hown]
      exact (hbox.imp id And.right).symm
    · rw [← hother t ht]
      exact h.box t ht
  · intro hf e' he'
    rcases List.mem_cons.mp he' with rfl | he'
    · exact ⟨List.mem_cons_self, hown.trans (hbox.resolve_right fun hno => hno.1 hf)⟩
    · obtain ⟨ht, hcleared⟩ := h.fair hf e' he'
      exact ⟨List.mem_cons_of_mem _ ht, hcleared⟩

end Step

/-- **Publishing the waiting list** never fails. -/
theorem leads_republishAll (c : PublisherConfig) (es : List OutboxEntry) :
    ∀ g : Scene, g.store.Boxed → (∀ e ∈ es, g.store.box e.batch.transaction = .entry e) →
      (es.map (·.batch.transaction)).Nodup →
      Leads (World.Shows sky) (republishAll c es) g (fun ts => Republished sky es ts g)
        (fun _ _ => False) := by
  induction es with
  | nil => exact fun g h _ _ => Leads.pure (.nil h)
  | cons e es ih =>
      intro g h hbox hnodup
      obtain ⟨hnot, hnodup⟩ := List.nodup_cons.mp hnodup
      refine Leads.bind (Leads.lift (leads_send c e.batch g)) ?_
      intro r g₁ hr
      cases r with
      | error x =>
          obtain ⟨⟨hstore, hwithin⟩, hfair⟩ := hr
          rw [← hstore] at h hbox
          refine (ih g₁ h (fun e' he' => hbox e' (List.mem_cons_of_mem _ he')) hnodup).imp
            ?_ fun _ _ hf => hf
          exact fun ts g' hg' => hg'.skip hnot hstore hwithin hfair
      | ok u =>
          obtain ⟨⟨hstore, hwithin⟩, htold⟩ := hr
          rw [← hstore] at h hbox
          have hown := hbox e List.mem_cons_self
          refine Leads.bind (leads_clear h hown) ?_
          rintro - g₂ ⟨htopics, hg₂⟩
          have hw : g.Within g₂ := hwithin.trans (.of_topics htopics)
          -- whether or not the entry was cleared, the other boxes are as they were
          obtain ⟨hboxed, hgrows, hunchanged, hcleared⟩ : g₂.store.Boxed ∧
              g.store.Grows (· = .outbox e.batch.transaction) g₂.store ∧
              (∀ r, ¬ g.store.Changed g₂.store r) ∧
              (g₂.store.box e.batch.transaction = .cleared ∨ ¬ sky.fair ∧
                g₂.store.box e.batch.transaction = g.store.box e.batch.transaction) := by
            rw [← hstore]
            rcases hg₂ with ⟨hfair, hsame⟩ | htopped
            · rw [hsame]
              exact ⟨h, .refl _, Store.not_changed_self _, .inr ⟨hfair, rfl⟩⟩
            · exact ⟨htopped.boxed, htopped.grows, htopped.unchanged, .inl htopped.box⟩
          have hboxes : ∀ e' ∈ es, g₂.store.box e'.batch.transaction = .entry e' := by
            intro e' he'
            rw [hgrows.box_eq fun heq => ?_, ← hstore]
            · exact hbox e' (List.mem_cons_of_mem _ he')
            · exact hnot (List.mem_map.mpr ⟨e', he', DocumentKey.outbox.inj heq⟩)
          refine Leads.bind (ih g₂ hboxed hboxes hnodup) fun ts g' hg' => ?_
          refine Leads.pure (hg'.cons hnot hboxed hw hgrows hunchanged ?_ hcleared)
          exact fun r hr => (htold r hr).of_within (.of_topics htopics)

/-- Publishing what waits fails only if the waiting list cannot be read. -/
theorem leads_republishPending (c : PublisherConfig) (h : g.store.Boxed) :
    Leads (World.Shows sky) (republishPending c) g
      (fun ts g' => ∃ es : List OutboxEntry,
        (∀ e, e ∈ es ↔ g.store.box e.batch.transaction = .entry e ∧ e.propagated = true) ∧
          Republished sky es ts g g')
      (fun _ g' => ¬ sky.fair ∧ g' = g) := by
  obtain ⟨es, hes, hmem, hnodup⟩ := h.waiting_gives
  refine (leads_read_of_gives hes).bind ?_
  rintro es' g' ⟨rfl, rfl⟩
  refine (leads_republishAll c es' g' h (fun e he => ((hmem e).mp he).1) hnodup).imp ?_
    fun _ _ hf => hf.elim
  exact fun ts g'' hts => ⟨es', hmem, hts⟩

end Publisher

end ClearanceGraph
