import ClearanceGraph.Event.Publisher
import ClearanceGraph.Proofs.Origin.Ledger
import ClearanceGraph.Proofs.Store.Growth

/-! # The outbox — what is kept of a batch

    Of all versions under the outbox key of a commit only the newest one matters to
    the program: it is read as the state of a flush, as the entry that waits, and in
    the list of waiting entries.  `Store.box` is that newest version, and the
    readings give what it says (`flushState_gives`, `entry_gives`, `waiting_gives`).

    An entry is read at the last instant of the calendar, a flush state from the
    whole history; the two agree as long as nothing starts in the leap second behind
    it, which `Store.Boxed` asks for.  A commit posts to one box at most
    (`Transaction.Posts`), and this keeps stores boxed (`Boxed.submit`). -/

namespace ClearanceGraph

/-- What is kept of the batch of a commit. -/
inductive Box where
  | absent
  | entry (e : OutboxEntry)
  /-- The entry was deleted, or there was nothing to tell. -/
  | cleared

namespace Box

/-- What a version under an outbox key keeps. -/
def ofDocument : Option Document → Box
  | some (.outbox e) => .entry e
  | _ => .cleared

/-- How far the levels have followed a commit. -/
def state : Box → Outbox.FlushState
  | absent => .unrecorded
  | entry e => if e.propagated then .recorded else .stopped e.batch
  | cleared => .recorded

/-- The entry that waits, if one does. -/
def held? : Box → Option OutboxEntry
  | entry e => some e
  | _ => none

/-- A written entry is an entry, and a deletion clears. -/
theorem ofDocument_map (e : Option OutboxEntry) :
    ofDocument (e.map .outbox) = e.elim .cleared .entry := by
  cases e <;> rfl

/-- Only an entry is read as an entry. -/
theorem ofDocument_eq_entry_iff {d : Option Document} {e : OutboxEntry} :
    ofDocument d = .entry e ↔ d = some (.outbox e) := by
  constructor
  · intro h
    unfold ofDocument at h
    split at h
    · cases h
      rfl
    · cases h
  · rintro rfl
    rfl

theorem ofDocument_ne_absent (d : Option Document) : ofDocument d ≠ .absent := by
  unfold ofDocument
  split <;> exact fun h => by cases h

/-- What is held is the entry. -/
theorem held?_eq_some_iff {b : Box} {e : OutboxEntry} :
    b.held? = some e ↔ b = .entry e := by
  cases b with
  | entry e' => simp [held?]
  | absent => simp [held?]
  | cleared => simp [held?]

/-- Where levels have not followed everywhere, the flush was not noted or has stopped. -/
theorem state_ne_recorded_iff {b : Box} :
    b.state ≠ .recorded ↔ b = .absent ∨ ∃ e, b = .entry e ∧ e.propagated = false := by
  cases b with
  | absent => simp [state]
  | cleared => simp [state]
  | entry e => cases h : e.propagated <;> simp [state, h]

end Box

/-- A batch has a delta of an object. -/
def Batch.Names (b : Batch) (r : Reference) : Prop := ∃ d ∈ b.deltas, d.reference = r

namespace Store

variable {s s' : Store} {t u : TransactionId} {k : DocumentKey} {r : Reference}

/-- What is kept of the batch of a commit: the newest version under its key. -/
def box (s : Store) (t : TransactionId) : Box :=
  (s.newestOf? (.outbox t)).elim .absent fun v => .ofDocument v.document

/-- The version of a key that was written last. -/
def lastOf? (s : Store) (k : DocumentKey) : Option Version := (s.versionsOf k).getLast?

/-- The newest version of a key is the one that was written last. -/
def InStep (s : Store) (k : DocumentKey) : Prop := s.newestOf? k = s.lastOf? k

/-- The entry that was written last for a commit names an object. -/
def LastNames (s : Store) (t : TransactionId) (r : Reference) : Prop :=
  ∃ v e, s.lastOf? (.outbox t) = some v ∧ v.document = some (.outbox e) ∧ e.batch.Names r

theorem box_of_newestOf? {v : Version} (h : s.newestOf? (.outbox t) = some v) :
    s.box t = .ofDocument v.document := by
  rw [box, h]
  rfl

/-- There is no entry exactly if nothing was ever noted. -/
theorem box_eq_absent_iff : s.box t = .absent ↔ s.versionsOf (.outbox t) = [] := by
  rw [← newestOf?_eq_none_iff, box]
  cases s.newestOf? (.outbox t) with
  | none => simp
  | some v => simp [Box.ofDocument_ne_absent]

/-- The entry is the document of the newest version. -/
theorem box_eq_entry_iff {e : OutboxEntry} : s.box t = .entry e ↔
    ∃ v, s.newestOf? (.outbox t) = some v ∧ v.document = some (.outbox e) := by
  rw [box]
  cases s.newestOf? (.outbox t) with
  | none => simp
  | some v => simp [Box.ofDocument_eq_entry_iff]

/-- What was written last and is the newest names what the entry names. -/
theorem InStep.names (h : s.InStep (.outbox t)) {e : OutboxEntry}
    (hbox : s.box t = .entry e) :
    s.LastNames t r ↔ e.batch.Names r := by
  obtain ⟨v, hv, hdoc⟩ := box_eq_entry_iff.mp hbox
  rw [InStep, hv] at h
  constructor
  · rintro ⟨w, e', hw, hdoc', hr⟩
    obtain rfl := Option.some.inj (h.trans hw)
    rw [hdoc] at hdoc'
    cases hdoc'
    exact hr
  · intro hr
    exact ⟨v, e, h.symm, hdoc, hr⟩

/-- What has the same versions keeps the same. -/
theorem box_congr (h : s'.versionsOf (.outbox t) = s.versionsOf (.outbox t)) :
    s'.box t = s.box t := by
  rw [box, newestOf?, h, box, newestOf?]

theorem inStep_congr (h : s'.versionsOf k = s.versionsOf k) : s'.InStep k ↔ s.InStep k := by
  rw [InStep, newestOf?, lastOf?, h, InStep, newestOf?, lastOf?]

/-- What the last note names depends on the versions of the entry only. -/
theorem lastNames_congr (h : s'.versionsOf (.outbox t) = s.versionsOf (.outbox t)) :
    s'.LastNames t r ↔ s.LastNames t r := by
  rw [LastNames, lastOf?, h, LastNames, lastOf?]

/-- Without versions the newest one is trivially the last. -/
theorem inStep_of_nil (h : s.versionsOf k = []) : s.InStep k := by
  rw [InStep, newestOf?_eq_none_iff.mpr h, lastOf?, h]
  rfl

/-! ## Boxed stores -/

/-- What holds of the store of engines: nothing starts behind the last instant of the
    calendar, and boxes are used as they should be. -/
structure Boxed (s : Store) : Prop where
  sound : s.Sound
  upto : s.Upto Instant.latest
  timely : ∀ c ∈ s.log, c.validTime ≤ Instant.latest
  /-- Batches are kept of commits that were made. -/
  issued : ∀ t, s.box t ≠ .absent → t.value ≤ s.log.length
  /-- An entry is filed at its own valid time. -/
  dated : ∀ t v e, s.newestOf? (.outbox t) = some v → v.document = some (.outbox e) →
    e.validTime = v.validFrom
  nonempty : ∀ t e, s.box t = .entry e → e.batch.isEmpty = false
  /-- When levels have followed everywhere, the last word about it is the newest one. -/
  settled : ∀ t, (s.box t).state = .recorded → s.InStep (.outbox t)

theorem boxed_empty : Store.empty.Boxed := by
  have habsent : ∀ t, Store.empty.box t = .absent := fun _ => rfl
  refine ⟨sound_empty, upto_empty _, fun _ h => (nomatch h), fun t h =>
    absurd (habsent t) h, ?_, ?_, ?_⟩
  · intro t v e hv
    cases hv
  · intro t e h
    rw [habsent] at h
    cases h
  · intro t _
    exact inStep_of_nil rfl

namespace Boxed

variable (h : s.Boxed)

include h

/-- The batch of an entry is that of its commit. -/
theorem transaction_of_box {e : OutboxEntry} (hbox : s.box t = .entry e) :
    e.batch.transaction = t := by
  obtain ⟨v, hv, hdoc⟩ := box_eq_entry_iff.mp hbox
  have hkey := h.sound.filed (mem_of_newestOf? hv) hdoc
  exact DocumentKey.outbox.inj hkey

/-- At the end of the calendar the entry shows, since no note is later. -/
theorem visible_latest :
    s.visible Instant.latest (.outbox t) = (s.box t).held?.map .outbox := by
  cases hv : s.newestOf? (.outbox t) with
  | none =>
      rw [visible_of_versionsOf_eq_nil (newestOf?_eq_none_iff.mp hv), box, hv]
      rfl
  | some v =>
      have hmem := mem_of_newestOf? hv
      rw [visible_of_newestOf? hv (h.upto _ v hmem), box_of_newestOf? hv]
      cases hdoc : v.document with
      | none => rfl
      | some d =>
          have hkey := h.sound.filed hmem hdoc
          cases d with
          | outbox e => rfl
          | content c => cases hkey
          | origin o => cases hkey
          | profile p => cases hkey

/-- An entry shows at its own valid time, and no version of it starts later. -/
theorem visible_validTime {e : OutboxEntry} (hbox : s.box t = .entry e) :
    s.visible e.validTime (.outbox t) = some (.outbox e) ∧
      (∀ v ∈ s.versionsOf (.outbox t), v.validFrom ≤ e.validTime) ∧
      e.validTime ≤ Instant.latest := by
  obtain ⟨v, hv, hdoc⟩ := box_eq_entry_iff.mp hbox
  have hdated := h.dated t v e hv hdoc
  refine ⟨?_, fun w hw => ?_, ?_⟩
  · rw [visible_of_newestOf? hv (le_of_eq hdated.symm), hdoc]
  · rw [hdated]
    exact le_of_newestOf? hv hw
  · rw [hdated]
    exact h.upto _ v (mem_of_newestOf? hv)

/-- Nothing is kept of commits that are still to come. -/
theorem versionsOf_eq_nil (ht : s.log.length < t.value) :
    s.versionsOf (.outbox t) = [] := by
  by_contra hne
  have := h.issued t fun habsent => hne (box_eq_absent_iff.mp habsent)
  omega

end Boxed

/-- A commit that can be looked up was made in time. -/
theorem Boxed.le_of_transaction? (h : s.Boxed) {c : Committed}
    (hc : s.transaction? t = some c) :
    t.value ≤ s.log.length ∧ c.validTime ≤ Instant.latest := by
  rw [transaction?] at hc
  split at hc
  · cases hc
  · have hlt := (List.getElem?_eq_some_iff.mp hc).1
    exact ⟨by omega, h.timely c (List.mem_of_getElem? hc)⟩

/-! ## Readings -/

/-- **How far a flush has come** is read off the entry. -/
theorem flushState_gives (s : Store) (t : TransactionId) :
    (Outbox.flushState t).Gives s (s.box t).state := by
  obtain ⟨ds, hds, hmap⟩ := s.exists_history_gives (.outbox t)
  have hstate : Outbox.stateOf (newest? ds) = (s.box t).state := by
    rw [box, ← newest?_of_dated hmap]
    cases newest? ds with
    | none => rfl
    | some d =>
        show _ = (Box.ofDocument d.document).state
        rw [Outbox.stateOf]
        cases d.document with
        | none => rfl
        | some x => cases x <;> rfl
  rw [← hstate]
  exact hds.bind (Reading.gives_pure s _)

/-- Where entries are boxed, what is held of a commit is found. -/
theorem Boxed.entry_gives (h : s.Boxed) (t : TransactionId) :
    (Outbox.entry t).Gives s (s.box t).held? := by
  have hvisible : (s.visible Instant.latest (.outbox t)).bind Document.outbox? =
      (s.box t).held? := by
    rw [h.visible_latest]
    cases (s.box t).held? <;> rfl
  rw [← hvisible]
  exact (Reading.gives_get _ _ s).bind (Reading.gives_pure s _)

/-- **The waiting list**: the entries of all boxes whose levels have followed
    everywhere, each once. -/
theorem Boxed.waiting_gives (h : s.Boxed) : ∃ es, Publisher.waiting.Gives s es ∧
    (∀ e, e ∈ es ↔ s.box e.batch.transaction = .entry e ∧ e.propagated = true) ∧
    (es.map (·.batch.transaction)).Nodup := by
  have hentries : Outbox.entries.Gives s
      ((s.query Instant.latest .outbox).filterMap Document.outbox?) :=
    (Reading.gives_query _ _ s).bind (Reading.gives_pure s _)
  refine ⟨_, hentries.bind (Reading.gives_pure s _), fun e => ?_, ?_⟩
  · rw [List.mem_filter]
    refine and_congr_left fun _ => ?_
    rw [List.mem_filterMap]
    constructor
    · rintro ⟨d, hd, he⟩
      obtain ⟨k, hk, hbox⟩ := mem_visibleWhere.mp hd
      cases d with
      | outbox e' =>
          obtain rfl := Option.some.inj he
          obtain rfl := h.sound.key_of_visible hk
          have hkey : (Document.outbox e').key = .outbox e'.batch.transaction := rfl
          rw [hkey, h.visible_latest, Option.map_eq_some_iff] at hk
          obtain ⟨e, he, heq⟩ := hk
          cases heq
          exact Box.held?_eq_some_iff.mp he
      | content c => cases he
      | origin o => cases he
      | profile p => cases he
    · intro hbox
      refine ⟨.outbox e, mem_visibleWhere.mpr ⟨.outbox e.batch.transaction, ?_, rfl⟩, rfl⟩
      rw [h.visible_latest, hbox]
      rfl
  · -- the documents of a query have different keys
    have hpairs := h.sound.pairwise_visibleWhere Instant.latest fun k _ => k.isOutbox
    refine List.Nodup.sublist (List.Sublist.map _ List.filter_sublist) ?_
    rw [List.nodup_iff_pairwise_ne, List.pairwise_map, List.pairwise_filterMap]
    refine hpairs.imp ?_
    intro a b hab x hx y hy heq
    cases a with
    | outbox e =>
        cases b with
        | outbox e' =>
            obtain rfl := Option.some.inj hx
            obtain rfl := Option.some.inj hy
            have hkey : (Document.outbox e).key = (Document.outbox e').key :=
              congrArg DocumentKey.outbox heq
            have hself : compare (Document.outbox e').key (Document.outbox e').key = .eq :=
              Std.ReflCmp.compare_self
            rw [hkey, hself] at hab
            cases hab
        | content c => cases hy
        | origin o => cases hy
        | profile p => cases hy
    | content c => cases hx
    | origin o => cases hx
    | profile p => cases hx

end Store

/-! ## Commits -/

/-- A transaction posts to one box: an entry, or that there is none. -/
structure Transaction.Posts (tx : Transaction) (t : TransactionId)
    (e : Option OutboxEntry) :
    Prop where
  own : tx.writesTo (.outbox t) = [e.map .outbox]
  others : ∀ u, u ≠ t → ¬ tx.Writes (.outbox u)

namespace Store

variable {s s' : Store} {t : TransactionId} {tx : Transaction} {id : TransactionId}
  {e : Option OutboxEntry}

private theorem timely_submit (h : s.Boxed) (hsub : s.submit tx = .ok (id, s'))
    (hle : tx.validTime ≤ Instant.latest) : ∀ c ∈ s'.log, c.validTime ≤ Instant.latest := by
  obtain ⟨-, -, hlog, -, -⟩ := submit_eq_ok hsub
  intro c hc
  rw [hlog, List.mem_append] at hc
  rcases hc with hc | hc
  · exact h.timely c hc
  · exact List.mem_singleton.mp hc ▸ hle

section Silent

variable (h : s.Boxed) (hsub : s.submit tx = .ok (id, s'))
    (hno : ∀ t, ¬ tx.Writes (.outbox t))

include hsub hno

/-- A silent commit notes nothing. -/
theorem versionsOf_of_silent (t : TransactionId) :
    s'.versionsOf (.outbox t) = s.versionsOf (.outbox t) :=
  versionsOf_submit_of_not_writes hsub ((tx.lastWrite?_eq_none_iff _).mpr (hno t))

/-- So it leaves every entry. -/
theorem box_of_silent (t : TransactionId) : s'.box t = s.box t :=
  box_congr (versionsOf_of_silent hsub hno t)

include h

/-- A commit that writes to no box has nothing in its own. -/
theorem Boxed.box_id_of_silent : s'.box id = .absent := by
  rw [box_of_silent hsub hno]
  obtain ⟨-, rfl, -⟩ := submit_eq_ok hsub
  have hnext := h.sound.nextId_value
  exact box_eq_absent_iff.mpr (h.versionsOf_eq_nil (by omega))

/-- A commit that writes to no box keeps a store boxed. -/
theorem Boxed.submit_of_silent (hle : tx.validTime ≤ Instant.latest) : s'.Boxed := by
  have hvers := versionsOf_of_silent hsub hno
  have hbox := box_of_silent hsub hno
  have hlog :=
    (Grows.of_submit (P := fun _ => True) h.sound hsub fun _ _ => trivial).log.length_le
  refine ⟨h.sound.submit hsub, h.upto.submit_of_le hle hsub, timely_submit h hsub hle, ?_,
    ?_, ?_, ?_⟩
  · intro t ht
    exact Nat.le_trans (h.issued t (hbox t ▸ ht)) hlog
  · intro t v e hv
    rw [newestOf?, hvers] at hv
    exact h.dated t v e hv
  · intro t e ht
    exact h.nonempty t e (hbox t ▸ ht)
  · intro t ht
    rw [inStep_congr (hvers t)]
    exact h.settled t (hbox t ▸ ht)

end Silent

section Posts

variable (hp : tx.Posts t e) (h : s.Boxed) (hsub : s.submit tx = .ok (id, s'))

include hp hsub

/-- A post is about one commit only. -/
theorem versionsOf_of_posts {u : TransactionId} (hu : u ≠ t) :
    s'.versionsOf (.outbox u) = s.versionsOf (.outbox u) :=
  versionsOf_submit_of_not_writes hsub ((tx.lastWrite?_eq_none_iff _).mpr (hp.others u hu))

/-- What was posted was written last. -/
theorem lastOf?_of_posts :
    s'.lastOf? (.outbox t) = some ⟨tx.validTime, id, e.map .outbox⟩ := by
  obtain ⟨-, -, -, hvers, -⟩ := submit_eq_ok hsub
  rw [lastOf?, hvers, hp.own, List.map_cons, List.map_nil, List.getLast?_concat]

include h

/-- What was posted is the newest version, or a later one stays it. -/
theorem newestOf?_of_posts :
    s'.newestOf? (.outbox t) = some ⟨tx.validTime, id, e.map .outbox⟩ ∨
      s'.newestOf? (.outbox t) = s.newestOf? (.outbox t) ∧
        ∃ v ∈ s.versionsOf (.outbox t), tx.validTime < v.validFrom := by
  have hlast : tx.lastWrite? (.outbox t) = some (e.map .outbox) := by
    rw [Transaction.lastWrite?, hp.own]
    rfl
  rw [newestOf?_submit h.sound hsub hlast]
  cases hx : s.newestOf? (.outbox t) with
  | none => exact .inl rfl
  | some x =>
      dsimp only
      split
      · next hlt => exact .inr ⟨rfl, x, mem_of_newestOf? hx, hlt⟩
      · exact .inl rfl

/-- The box holds what was posted, or what it held. -/
theorem box_of_posts : s'.box t = e.elim .cleared .entry ∨
    s'.box t = s.box t ∧ ∃ v ∈ s.versionsOf (.outbox t), tx.validTime < v.validFrom := by
  rcases newestOf?_of_posts hp h hsub with hnew | ⟨hold, hlater⟩
  · refine .inl ?_
    rw [box_of_newestOf? hnew, Box.ofDocument_map]
  · exact .inr ⟨by rw [box, hold, box], hlater⟩

/-- What is posted on top of all versions is in the box, and in step. -/
theorem box_of_posts_top
    (htop : ∀ v ∈ s.versionsOf (.outbox t), v.validFrom ≤ tx.validTime) :
    s'.box t = e.elim .cleared .entry ∧ s'.InStep (.outbox t) := by
  rcases newestOf?_of_posts hp h hsub with hnew | ⟨-, v, hv, hlt⟩
  · refine ⟨by rw [box_of_newestOf? hnew, Box.ofDocument_map], ?_⟩
    rw [InStep, hnew, lastOf?_of_posts hp hsub]
  · exact absurd hlt (not_lt.mpr (htop v hv))

/-- **A commit that posts** keeps a store boxed, if it posts an entry of its own valid
    time with something to tell, on top of all versions or where levels have not
    followed everywhere. -/
theorem Boxed.submit (hle : tx.validTime ≤ Instant.latest) (ht : t.value ≤ s.log.length)
    (he : ∀ x, e = some x → x.validTime = tx.validTime ∧ x.batch.isEmpty = false)
    (htop : (∀ v ∈ s.versionsOf (.outbox t), v.validFrom ≤ tx.validTime) ∨
      (s.box t).state ≠ .recorded) : s'.Boxed := by
  have hlog :=
    (Grows.of_submit (P := fun _ => True) h.sound hsub fun _ _ => trivial).log.length_le
  have hbox : ∀ u, u ≠ t → s'.box u = s.box u := fun u hu =>
    box_congr (versionsOf_of_posts hp hsub hu)
  refine ⟨h.sound.submit hsub, h.upto.submit_of_le hle hsub, timely_submit h hsub hle, ?_,
    ?_, ?_, ?_⟩
  · intro u hu
    by_cases hut : u = t
    · exact hut ▸ Nat.le_trans ht hlog
    · exact Nat.le_trans (h.issued u (hbox u hut ▸ hu)) hlog
  · intro u v x hv hx
    by_cases hut : u = t
    · subst hut
      rcases newestOf?_of_posts hp h hsub with hnew | ⟨hold, -⟩
      · obtain rfl := Option.some.inj (hnew.symm.trans hv)
        obtain ⟨y, hy, heq⟩ := Option.map_eq_some_iff.mp hx
        cases heq
        exact (he x hy).1
      · exact h.dated u v x (hold ▸ hv) hx
    · rw [newestOf?, versionsOf_of_posts hp hsub hut] at hv
      exact h.dated u v x hv hx
  · intro u x hx
    by_cases hut : u = t
    · subst hut
      rcases box_of_posts hp h hsub with hnew | ⟨hold, -⟩
      · cases e with
        | none => cases hnew.symm.trans hx
        | some y =>
            cases hnew.symm.trans hx
            exact (he _ rfl).2
      · exact h.nonempty u x (hold ▸ hx)
    · exact h.nonempty u x (hbox u hut ▸ hx)
  · intro u hu
    by_cases hut : u = t
    · subst hut
      rcases newestOf?_of_posts hp h hsub with hnew | ⟨hold, v, hv, hlt⟩
      · rw [InStep, hnew, lastOf?_of_posts hp hsub]
      · -- a later version stands only where levels have not followed everywhere
        rcases htop with hall | hopen
        · exact absurd hlt (not_lt.mpr (hall v hv))
        · rw [box, hold] at hu
          exact absurd hu hopen
    · rw [inStep_congr (versionsOf_of_posts hp hsub hut)]
      exact h.settled u (hbox u hut ▸ hu)

end Posts

end Store

end ClearanceGraph
