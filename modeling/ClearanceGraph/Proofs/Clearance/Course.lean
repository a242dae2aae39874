import ClearanceGraph.Proofs.Clearance.Facts
import ClearanceGraph.Proofs.Clearance.Notes
import ClearanceGraph.Proofs.Clearance.Trail

/-! # Courses — a recorded pass, instant by instant

    Where nobody else writes, a recorded pass is a sequence of points that the store
    determines: `Point.next` settles the earliest instant that is still to come.
    Faults only decide how many points the pass gets to (`leads_follow_points`).

    `Point.OnCourse` is what holds at every point: the instants that were visited
    ascend and are behind those to come, each of them is idle now, and versions start
    at them or were there before.  `Point.Onward` says what later points keep.

    The newest note of the box is the one of the last instant, and it names all
    deltas so far (`Point.stamped_after`). -/

namespace ClearanceGraph

/-! ## Commits that succeed -/

namespace Store

variable {s s' : Store} {tx : Transaction}

/-- The store after a transaction without matches, which is not committed if it writes
    nothing. -/
def committing (s : Store) (tx : Transaction) : Store :=
  if tx.isEmpty then s else (s.submit tx).toOption.elim s Prod.snd

/-- The number of its commit. -/
def committedAs (s : Store) (tx : Transaction) : Option TransactionId :=
  if tx.isEmpty then none else some s.nextId

theorem wrote_committing (h : ∀ op ∈ tx.operations, op.isWrite = true) :
    s.Wrote tx (s.committing tx) := by
  rw [committing]
  cases hempty : tx.isEmpty with
  | true => exact .inl ⟨hempty, rfl⟩
  | false =>
      obtain ⟨s', hs'⟩ := submit_of_isWrite (s := s) h
      refine .inr ⟨hempty, s.nextId, ?_⟩
      rw [hs']
      rfl

/-! ## Stamps -/

/-- The newest version of a box: since when it holds, and what it keeps. -/
def stamp (s : Store) (t : TransactionId) : Option (Instant × Option Document) :=
  (s.newestOf? (.outbox t)).map fun v => (v.validFrom, v.document)

/-- The newest version of a box after something was posted to it, or nothing. -/
def stampedBy (u : Instant) (posted : Option (Option OutboxEntry))
    (old : Option (Instant × Option Document)) : Option (Instant × Option Document) :=
  match posted, old with
  | none, old => old
  | some e, none => some (u, e.map .outbox)
  | some e, some (v, d) => if u < v then some (v, d) else some (u, e.map .outbox)

/-- The entry of a commit is read off what was noted for it last. -/
theorem box_eq_of_stamp (s : Store) (t : TransactionId) :
    s.box t = (s.stamp t).elim .absent fun p => .ofDocument p.2 := by
  rw [box, stamp]
  cases s.newestOf? (.outbox t) <;> rfl

/-- What was noted of a commit depends on the versions of its entry only. -/
theorem stamp_congr {t : TransactionId}
    (h : s'.versionsOf (.outbox t) = s.versionsOf (.outbox t)) :
    s'.stamp t = s.stamp t := by
  rw [stamp, newestOf?, h, stamp, newestOf?]

/-- Profiles that are written, and what is posted. -/
theorem stamp_of_wrote {t : TransactionId} {u : Instant} {ops : List Operation}
    {posted : Option (Option OutboxEntry)} (hs : s.Sound)
    (hops : ∀ op ∈ ops, op.key.isProfile = true)
    (hposted : ∀ x, posted = some (some x) → x.batch.transaction = t)
    (hw : s.Wrote ⟨u, ops ++ (posted.map (.posting t)).toList⟩ s') :
    s'.stamp t = stampedBy u posted (s.stamp t) := by
  cases posted with
  | none =>
      rcases hw with ⟨-, rfl⟩ | ⟨-, id, hsub⟩
      · rfl
      · -- the operations go to profiles, so no note was written
        refine stamp_congr (versionsOf_submit_of_not_writes hsub ?_)
        rw [Transaction.lastWrite?_eq_none_iff]
        rintro ⟨op, hop, -, hk⟩
        rw [Option.map_none, Option.toList_none, List.append_nil] at hop
        have hprofile := hops op hop
        rw [hk] at hprofile
        cases hprofile
  | some e =>
      have hposts : Transaction.Posts ⟨u, ops ++ [.posting t e]⟩ t e :=
        Transaction.posts_append hops fun x hx => hposted x (congrArg some hx)
      have hlast : Transaction.lastWrite? ⟨u, ops ++ [.posting t e]⟩ (.outbox t) =
          some (e.map .outbox) := by
        rw [Transaction.lastWrite?, hposts.own]
        rfl
      rcases hw with ⟨hempty, -⟩ | ⟨-, id, hsub⟩
      · -- a note is a write, so the commit was not empty
        rw [Transaction.isEmpty_iff] at hempty
        have hnone := (Transaction.lastWrite?_eq_none_iff _ _).mpr (hempty (.outbox t))
        cases hnone.symm.trans hlast
      · rw [stamp, newestOf?_submit hs hsub hlast, stamp]
        cases s.newestOf? (.outbox t) with
        | none => rfl
        | some v =>
            dsimp only [stampedBy, Option.map_some]
            split <;> rfl

end Store

namespace Pass

/-! ## Points -/

/-- Where a recorded pass is. -/
structure Point where
  /-- The instants that it has visited, one after another. -/
  visited : List Instant
  store : Store
  progress : Progress

namespace Point

/-- A pass that has not started. -/
def start (s : Store) (t : TransactionId) (u : Instant) (deltas : Settle.Summary) : Point :=
  ⟨[], s, ⟨KeySet.ofList [u], Table.empty, deltas, .empty (some t) u⟩⟩

/-- The pass visits no more instants. -/
def Ended (x : Point) : Prop := KeySet.popMin? x.progress.checkpoints = none

theorem not_ended_start (s : Store) (t : TransactionId) (u : Instant)
    (deltas : Settle.Summary) :
    ¬ (start s t u deltas).Ended := by
  intro hended
  have hfirst := KeySet.popMin?_eq_none hended u
  cases (KeySet.contains_ofList_iff.mpr List.mem_cons_self).symm.trans hfirst

section Next

variable (levels : LevelConfig) (c : SpreadConfig) (seed : Batch) (start : Instant)
  (dirty : KeySet Reference)

/-- What is known after an instant. -/
def known (t : Instant) (rest : KeySet Instant) (x : Point) : Progress :=
  let p := x.progress
  let f := x.store.finding levels c dirty p.watched t
  { checkpoints := rest.union f.later
    watched := p.watched.union f.fresh
    deltas := Settle.fold p.deltas f.deltas
    report := { p.report with
      laterTimes := p.report.laterTimes ++ (if start < t then [t] else [])
      isPartial := p.report.isPartial || f.isPartial } }

/-- What is posted at an instant. -/
def posting? (t : Instant) (rest : KeySet Instant) (x : Point) :
    Option (Option OutboxEntry) :=
  let p := x.known levels c start dirty t rest
  Outbox.posted? t (p.batch seed) p.checkpoints.isEmpty

/-- What is written at an instant. -/
def writing (t : Instant) (rest : KeySet Instant) (x : Point) : Transaction :=
  ⟨t, (x.store.finding levels c dirty x.progress.watched t).operations ++
    ((x.posting? levels c seed start dirty t rest).map (.posting seed.transaction)).toList⟩

/-- An instant is settled. -/
def visit (t : Instant) (rest : KeySet Instant) (x : Point) : Point :=
  let tx := x.writing levels c seed start dirty t rest
  let p := x.known levels c start dirty t rest
  { visited := x.visited ++ [t]
    store := x.store.committing tx
    progress := { p with report := { p.report with
      profileTransaction :=
        x.store.committedAs tx <|> x.progress.report.profileTransaction } } }

/-- The earliest instant is settled, if there is one. -/
def next (x : Point) : Point :=
  match KeySet.popMin? x.progress.checkpoints with
  | none => x
  | some (t, rest) => x.visit levels c seed start dirty t rest

/-- The pass after so many instants. -/
def after : Nat → Point → Point
  | 0, x => x
  | n + 1, x => (after n x).next levels c seed start dirty

end Next

end Point

section Steps

variable {levels : LevelConfig} {c : SpreadConfig} {seed : Batch} {start : Instant}
  {dirty : KeySet Reference} {x : Point} {t : Instant} {rest : KeySet Instant}

namespace Point

/-- A point at the end stays. -/
theorem next_of_ended (h : x.Ended) : x.next levels c seed start dirty = x := by
  rw [next, h]

/-- Before the end the earliest checkpoint is visited. -/
theorem next_of_popMin? (h : KeySet.popMin? x.progress.checkpoints = some (t, rest)) :
    x.next levels c seed start dirty = x.visit levels c seed start dirty t rest := by
  rw [next, h]

theorem isEmpty_of_popMin? (h : KeySet.popMin? x.progress.checkpoints = some (t, rest)) :
    x.progress.checkpoints.isEmpty = false := by
  refine Bool.eq_false_iff.mpr fun hempty => ?_
  have ht := KeySet.contains_of_popMin? h
  rw [(KeySet.isEmpty_iff _).mp hempty t] at ht
  cases ht

/-- Steps may be counted from the second point on. -/
theorem after_next (n : Nat) :
    ((x.next levels c seed start dirty).after levels c seed start dirty n) =
    x.after levels c seed start dirty (n + 1) := by
  induction n with
  | zero => rfl
  | succ n ih => exact congrArg (Point.next levels c seed start dirty) ih

theorem after_of_ended (h : x.Ended) (n : Nat) :
    x.after levels c seed start dirty n = x := by
  induction n with
  | zero => rfl
  | succ n ih => rw [after, ih, next_of_ended h]

/-- Steps add up. -/
theorem after_add (n k : Nat) : x.after levels c seed start dirty (n + k) =
    (x.after levels c seed start dirty n).after levels c seed start dirty k := by
  induction k with
  | zero => rfl
  | succ k ih => exact congrArg (Point.next levels c seed start dirty) ih

/-- What is written can always be committed. -/
theorem isWrite_of_mem_writing {op : Operation}
    (h : op ∈ (x.writing levels c seed start dirty t rest).operations) :
      op.isWrite = true := by
  rcases List.mem_append.mp h with h | h
  · exact (Store.mem_finding_operations h).1
  · obtain ⟨e, -, rfl⟩ := Option.map_eq_some_iff.mp (Option.mem_toList.mp h)
    cases e <;> rfl

theorem wrote_visit : x.store.Wrote (x.writing levels c seed start dirty t rest)
    (x.visit levels c seed start dirty t rest).store :=
  Store.wrote_committing fun _ => isWrite_of_mem_writing

end Point

/-! ## What a pass does in its world -/

variable {sky : Weather} {g : Scene}

/-- The bound of a pass counts the versions that are there, since nobody else writes. -/
theorem leads_horizon :
    Leads (World.Shows sky) horizon g (fun n g' => n = g.store.versionCount + 1 ∧ g' = g)
      (fun _ _ => False) := by
  intro w hw
  refine ⟨g, hw, ?_, rfl⟩
  show w.backend.store.versionCount + w.rivals.length + 1 = _
  rw [hw.store, hw.rivals]
  rfl

private theorem leads_write_committing (tx : Transaction)
    (hw : ∀ op ∈ tx.operations, op.isWrite = true)
    (g : Scene) : Leads (World.Shows sky) (write c tx) g
      (fun r g' => r = g.store.committedAs tx ∧
        g' = { g with store := g.store.committing tx })
      (fun _ g' => ¬ sky.fair ∧ g' = g) := by
  refine (leads_write c tx g).imp ?_ ?_
  · rw [Store.committedAs, Store.committing]
    rintro r g' (⟨hempty, rfl, rfl⟩ | ⟨hempty, id, s, rfl, hsub, rfl⟩)
    · rw [if_pos hempty, if_pos hempty]
      exact ⟨rfl, rfl⟩
    · rw [hempty, hsub, (Store.submit_eq_ok hsub).2.1]
      exact ⟨rfl, rfl⟩
  · rintro e g' ⟨hfair, rfl⟩
    refine ⟨fun hf => ?_, rfl⟩
    obtain ⟨y, hy⟩ := hfair hf
    obtain ⟨s', hs'⟩ := Store.submit_of_isWrite (s := g'.store) hw
    cases hs'.symm.trans hy

/-- Where nobody else writes, settling an instant comes to the visit of it. -/
private theorem leads_visit (hs : x.store.Sound) (hg : g.store = x.store) :
    Leads (World.Shows sky)
      (settleAt levels c seed true start dirty t { x.progress with checkpoints := rest }) g
      (fun p g' => p = (x.visit levels c seed start dirty t rest).progress ∧
        g' = { g with store := (x.visit levels c seed start dirty t rest).store })
      (fun _ g' => ¬ sky.fair ∧ g' = g) := by
  have hgives : (find levels c dirty x.progress.watched t).Gives g.store
      (x.store.finding levels c dirty x.progress.watched t) := by
    rw [hg]
    exact hs.find_gives levels c dirty x.progress.watched
  refine (leads_read_of_gives hgives).bind ?_
  rintro f g' ⟨rfl, rfl⟩
  -- what the program notes is what the point says that it posts
  have hnote : Outbox.note t { seed with deltas := (Settle.fold x.progress.deltas
      (x.store.finding levels c dirty x.progress.watched t).deltas).values }
      (rest.union (x.store.finding levels c dirty x.progress.watched t).later).isEmpty =
      (x.posting? levels c seed start dirty t rest).map (.posting seed.transaction) :=
    Outbox.note_eq _ _ _
  dsimp only
  simp only [↓reduceIte, hnote]
  refine Leads.bind (leads_write_committing (x.writing levels c seed start dirty t rest)
    (fun _ => Point.isWrite_of_mem_writing) g') ?_
  rintro written g'' ⟨rfl, rfl⟩
  rw [hg]
  exact Leads.pure ⟨rfl, rfl⟩

/-- **A recorded pass goes from point to point**, as far as it gets. -/
private theorem leads_settleFrom_points (n : Nat) :
    ∀ {x : Point} {g : Scene}, (∀ k, (x.after levels c seed start dirty k).store.Sound) →
      g.store = x.store →
      Leads (World.Shows sky) (settleFrom levels c seed true start dirty n x.progress) g
        (fun p g' => p = (x.after levels c seed start dirty n).progress ∧
          g' = { g with store := (x.after levels c seed start dirty n).store })
        (fun _ g' => ¬ sky.fair ∧ ∃ k, ¬ (x.after levels c seed start dirty k).Ended ∧
          g' = { g with store := (x.after levels c seed start dirty k).store }) := by
  -- on the instants that are still allowed
  induction n with
  | zero =>
      intro x g _ hg
      refine Leads.pure ⟨rfl, ?_⟩
      show g = { g with store := x.store }
      rw [← hg]
  | succ n ih =>
      intro x g hs hg
      rw [settleFrom]
      split
      · next hnone =>
        rw [Point.after_of_ended hnone]
        refine Leads.pure ⟨rfl, ?_⟩
        rw [← hg]
      · next t rest hpop =>
        refine Leads.step (leads_visit (hs 0) hg) ?_ ?_
        · rintro e g' ⟨hfair, rfl⟩
          refine ⟨hfair, 0, fun hended => ?_, ?_⟩
          · cases hended.symm.trans hpop
          · show g' = { g' with store := x.store }
            rw [← hg]
        · rintro p g' ⟨rfl, rfl⟩
          rw [← Point.next_of_popMin? hpop]
          refine (ih (x := x.next levels c seed start dirty) (fun k => ?_) rfl).imp ?_ ?_
          · rw [Point.after_next]
            exact hs (k + 1)
          · rintro p g' ⟨rfl, rfl⟩
            rw [Point.after_next]
            exact ⟨rfl, rfl⟩
          · rintro e g' ⟨hfair, k, hended, rfl⟩
            rw [Point.after_next] at hended ⊢
            exact ⟨hfair, k + 1, hended, rfl⟩

/-! ## What holds at every point -/

namespace Point

variable {s : Store} {y z : Point} {n : Nat}

/-- A pass that started on the store `s`, wherever it is. -/
structure OnCourse (levels : LevelConfig) (c : SpreadConfig) (dirty : KeySet Reference)
    (s : Store) (start : Instant) (x : Point) : Prop where
  sound : x.store.Sound
  ascends : x.visited.Pairwise (· < ·)
  ahead : ∀ u ∈ x.visited, ∀ v, x.progress.checkpoints.contains v = true → u < v
  starts : ∀ v, v ∈ x.visited ∨ x.progress.checkpoints.contains v = true →
    v = start ∨ v ∈ s.starts
  new : ∀ k, ∀ v ∈ x.store.versionsOf k, v ∈ s.versionsOf k ∨ v.validFrom ∈ x.visited
  filed : Settle.Filed x.progress.deltas
  /-- Visited instants are settled, unless some region was partial. -/
  idle : x.progress.report.isPartial = false →
    ∀ u ∈ x.visited, x.store.Idle levels c dirty u
  laterTimes : x.progress.report.laterTimes = x.visited.filter (start < ·)

/-- What a later point keeps of an earlier one. -/
structure Onward (x y : Point) : Prop where
  visited : x.visited <+: y.visited
  facts : ∀ u f, y.store.visible u (.fact f) = x.store.visible u (.fact f)
  grown : ∀ k, ∀ v ∈ x.store.versionsOf k, v ∈ y.store.versionsOf k
  new : ∀ k, ∀ v ∈ y.store.versionsOf k, v ∈ x.store.versionsOf k ∨ v.validFrom ∈ y.visited
  told : ∀ r, x.progress.deltas.contains r = true → y.progress.deltas.contains r = true
  full : y.progress.report.isPartial = false → x.progress.report.isPartial = false
  logged : ∀ id tx, x.store.transaction? id = some tx → y.store.transaction? id = some tx

theorem Onward.refl (x : Point) : x.Onward x :=
  ⟨List.prefix_rfl, fun _ _ => rfl, fun _ _ h => h, fun _ _ h => .inl h, fun _ h =>
    h, fun h => h, fun _ _ h => h⟩

theorem Onward.trans (h : x.Onward y) (h' : y.Onward z) : x.Onward z where
  visited := h.visited.trans h'.visited
  facts u f := (h'.facts u f).trans (h.facts u f)
  grown k v hv := h'.grown k v (h.grown k v hv)
  new k v hv := by
    rcases h'.new k v hv with hv | hv
    · exact (h.new k v hv).imp_right fun hv => h'.visited.subset hv
    · exact .inr hv
  told r hr := h'.told r (h.told r hr)
  full hz := h.full (h'.full hz)
  logged id tx htx := h'.logged id tx (h.logged id tx htx)

/-- A pass is on its course from the start. -/
theorem onCourse_start {deltas : Settle.Summary} (hs : s.Sound)
    (hfiled : Settle.Filed deltas)
    (id : TransactionId) : (Point.start s id start deltas).OnCourse levels c dirty
      s start := by
  have h : Forward s start [] (KeySet.ofList [start]) s := .first hs start
  refine ⟨h.sound, h.ascends, h.ahead, h.starts, h.new, hfiled, ?_, rfl⟩
  intro _ u hu
  cases hu

/-- **A pass goes forward.** -/
theorem OnCourse.forward (h : x.OnCourse levels c dirty s start) :
    Forward s start x.visited x.progress.checkpoints x.store :=
  ⟨h.sound, h.ascends, h.ahead, h.starts, h.new⟩

section Visit

variable (h : x.OnCourse levels c dirty s start)
  (hpop : KeySet.popMin? x.progress.checkpoints = some (t, rest))

/-- What is noted lies under the key of the commit of the seed. -/
theorem key_of_note {op : Operation}
    (h : (x.posting? levels c seed start dirty t rest).map
      (.posting seed.transaction) = some op) :
    op.key = .outbox seed.transaction :=
  Outbox.key_of_note (b := (x.known levels c start dirty t rest).batch seed)
    ((Outbox.note_eq _ _ _).trans h)

/-- A visit goes onward. -/
private theorem onward_visit :
    x.Onward (x.visit levels c seed start dirty t rest) where
  visited := List.prefix_append _ _
  facts u f := Store.visible_fact_of_wrote (fun _ hop => ⟨_, key_of_note hop⟩)
    wrote_visit u f
  grown _ _ hv := wrote_visit.grown hv
  new _ _ hv := (wrote_visit.new hv).imp_right fun heq =>
    List.mem_append_right _ (List.mem_singleton.mpr heq)
  told _ hr := (Settle.contains_fold_iff _).mpr (.inl hr)
  full hfull := (Bool.or_eq_false_iff.mp hfull).1
  logged _ _ htx := wrote_visit.transaction? htx

include h hpop

/-- **A visit stays on the course.** -/
theorem OnCourse.visit :
    (x.visit levels c seed start dirty t rest).OnCourse levels c dirty s start := by
  have hforward : Forward s start (x.visited ++ [t])
      (x.visit levels c seed start dirty t rest).progress.checkpoints
      (x.visit levels c seed start dirty t rest).store := h.forward.turn hpop wrote_visit
  have hnote : ∀ op, (x.posting? levels c seed start dirty t rest).map
      (Operation.posting seed.transaction) = some op → ∃ u, op.key = .outbox u :=
    fun _ hop => ⟨_, key_of_note hop⟩
  refine ⟨hforward.sound, hforward.ascends, hforward.ahead, hforward.starts, hforward.new,
    h.filed.fold _, ?_, ?_⟩
  · intro hfull u hu
    obtain ⟨hfull, hregion⟩ := Bool.or_eq_false_iff.mp hfull
    rcases List.mem_append.mp hu with hu | hu
    · -- what is written later does not matter there
      have hpast : u < t := h.ahead u hu t (KeySet.contains_of_popMin? hpop)
      refine (Store.idle_congr (h.sound.snapshot_congr hforward.sound fun k _ => ?_)).mpr
        (h.idle hfull u hu)
      exact wrote_visit.visible_of_lt hpast k
    · rw [List.mem_singleton.mp hu]
      exact h.sound.idle_of_wrote hnote wrote_visit hregion
  · show x.progress.report.laterTimes ++ _ = (x.visited ++ [t]).filter _
    rw [h.laterTimes, List.filter_append, filter_later_cons, List.filter_nil,
      List.append_nil]

end Visit

theorem onward_next : x.Onward (x.next levels c seed start dirty) := by
  cases hpop : KeySet.popMin? x.progress.checkpoints with
  | none =>
      rw [next_of_ended hpop]
      exact .refl x
  | some q =>
      obtain ⟨t, rest⟩ := q
      rw [next_of_popMin? hpop]
      exact onward_visit

/-- **Every point of a pass is on its course.** -/
theorem OnCourse.after (h : x.OnCourse levels c dirty s start) (n : Nat) :
    (x.after levels c seed start dirty n).OnCourse levels c dirty s start := by
  induction n with
  | zero => exact h
  | succ n ih =>
      rw [Point.after]
      cases hpop : KeySet.popMin?
        (x.after levels c seed start dirty n).progress.checkpoints with
      | none => rwa [next_of_ended hpop]
      | some q =>
          obtain ⟨t, rest⟩ := q
          rw [next_of_popMin? hpop]
          exact ih.visit hpop

/-- Later points have come further. -/
theorem onward_after {n k : Nat} (hnk : n ≤ k) :
    (x.after levels c seed start dirty n).Onward (x.after levels c seed start dirty k) := by
  induction hnk with
  | refl => exact .refl _
  | step _ ih => exact ih.trans onward_next

/-- A pass that has not ended later has not ended before. -/
theorem not_ended_of_le {n k : Nat} (hk : ¬ (x.after levels c seed start dirty k).Ended)
    (hnk : n ≤ k) : ¬ (x.after levels c seed start dirty n).Ended := by
  intro hn
  obtain ⟨d, rfl⟩ := Nat.exists_eq_add_of_le hnk
  rw [after_add, after_of_ended hn] at hk
  exact hk hn

/-- What is visited from now on is the next instant, and later ones. -/
theorem OnCourse.mem_visited_after (h : x.OnCourse levels c dirty s start) {n k : Nat}
    (hnk : n < k)
    (hpop : KeySet.popMin? (x.after levels c seed start dirty n).progress.checkpoints =
      some (t, rest)) :
    t ∈ (x.after levels c seed start dirty k).visited ∧
      ∀ v ∈ (x.after levels c seed start dirty k).visited,
        v ∈ (x.after levels c seed start dirty n).visited ∨ t ≤ v := by
  obtain ⟨us, hus⟩ : (x.after levels c seed start dirty n).visited ++ [t] <+:
      (x.after levels c seed start dirty k).visited := by
    have honward : (x.after levels c seed start dirty (n + 1)).Onward
        (x.after levels c seed start dirty k) := onward_after hnk
    rw [Point.after, next_of_popMin? hpop] at honward
    exact honward.visited
  have hasc : (x.after levels c seed start dirty k).visited.Pairwise (· < ·) :=
    (h.after k).ascends
  rw [← hus] at hasc ⊢
  refine ⟨List.mem_append_left _ (List.mem_append_right _ List.mem_cons_self),
    fun v hv => ?_⟩
  rcases List.mem_append.mp hv with hv | hv
  · exact (List.mem_append.mp hv).imp_right fun hv =>
      le_of_eq (List.mem_singleton.mp hv).symm
  · exact .inr (le_of_lt ((List.pairwise_append.mp hasc).2.2 t
      (List.mem_append_right _ List.mem_cons_self) v hv))

/-- A pass that has not ended visits an instant after another. -/
theorem length_visited_after (hn : ∀ k < n, ¬ (x.after levels c seed start dirty k).Ended) :
    (x.after levels c seed start dirty n).visited.length = x.visited.length + n := by
  induction n with
  | zero => rfl
  | succ n ih =>
      rw [Point.after]
      cases hpop : KeySet.popMin?
        (x.after levels c seed start dirty n).progress.checkpoints with
      | none => exact absurd hpop (hn n (Nat.lt_succ_self n))
      | some q =>
          obtain ⟨t, rest⟩ := q
          rw [next_of_popMin? hpop]
          show (_ ++ [t]).length = _
          rw [List.length_append, ih fun k hk => hn k (Nat.lt_succ_of_lt hk),
            List.length_singleton]
          omega

/-- **A pass ends** after no more instants than there were versions, and the first one. -/
theorem OnCourse.ended_after (h : x.OnCourse levels c dirty s start) (hx : x.visited = []) :
    (x.after levels c seed start dirty (s.versionCount + 1)).Ended := by
  by_contra hno
  have hbefore : ∀ k < s.versionCount + 1, ¬ (x.after levels c seed start dirty k).Ended :=
    fun k hk => not_ended_of_le hno (Nat.le_of_lt hk)
  have hlen := length_visited_after hbefore
  rw [hx, List.length_nil, Nat.zero_add] at hlen
  obtain ⟨⟨v, rest⟩, hpop⟩ := Option.ne_none_iff_exists'.mp hno
  have hcourse : (x.after levels c seed start dirty (s.versionCount + 1)).OnCourse
    levels c dirty s start := h.after _
  have hlt := hcourse.forward.length_lt hpop
  rw [hlen] at hlt
  exact lt_irrefl _ hlt

/-! ## Notes -/

/-- The newest note is the one of the last instant. -/
def Stamped (seed : Batch) (x : Point) : Prop :=
  x.store.stamp seed.transaction = x.visited.getLast?.bind fun t =>
    (Outbox.posted? t (x.progress.batch seed) x.progress.checkpoints.isEmpty).map fun e =>
      (t, e.map .outbox)

/-- An entry that is posted is about the commit of the seed. -/
theorem transaction_of_posting? {e : OutboxEntry}
    (h : x.posting? levels c seed start dirty t rest = some (some e)) :
    e.batch.transaction = seed.transaction := by
  obtain ⟨rfl, -⟩ := Outbox.eq_of_posted? h
  rfl

/-- What a pass has to tell it goes on having to tell. -/
theorem Onward.isEmpty_batch (h : x.Onward y)
    (hy : (y.progress.batch seed).isEmpty = true) :
    (x.progress.batch seed).isEmpty = true := by
  by_contra hno
  rw [Bool.not_eq_true, isEmpty_batch_eq_false_iff] at hno
  have hne : (y.progress.batch seed).isEmpty = false :=
    isEmpty_batch_eq_false_iff.mpr (hno.imp_right fun ⟨r, hr⟩ => ⟨r, h.told r hr⟩)
  cases hy.symm.trans hne

/-- A visit leaves the stamp of its own instant. -/
private theorem Stamped.visit (hx : Stamped seed x) (h : x.OnCourse levels c dirty s start)
    (hpop : KeySet.popMin? x.progress.checkpoints = some (t, rest)) :
    Stamped seed (x.visit levels c seed start dirty t rest) := by
  have hstamp : (x.visit levels c seed start dirty t rest).store.stamp seed.transaction =
      Store.stampedBy t (x.posting? levels c seed start dirty t rest)
        (x.store.stamp seed.transaction) :=
    Store.stamp_of_wrote h.sound (fun _ hop => (Store.mem_finding_operations hop).2)
      (fun _ => transaction_of_posting?) wrote_visit
  have hlast : (x.visit levels c seed start dirty t rest).visited.getLast? = some t :=
    List.getLast?_concat
  rw [Stamped, isEmpty_of_popMin? hpop] at hx
  rw [Stamped, hstamp, hlast, Option.bind_some]
  show _ = (x.posting? levels c seed start dirty t rest).map _
  cases hposted : x.posting? levels c seed start dirty t rest with
  | none =>
      -- there is nothing to tell yet, so nothing was noted before
      have hempty : (x.progress.batch seed).isEmpty = true := by
        have honward : x.Onward (x.visit levels c seed start dirty t rest) := onward_visit
        exact honward.isEmpty_batch (Outbox.posted?_eq_none_iff.mp hposted).1
      rw [hx]
      cases x.visited.getLast? with
      | none => rfl
      | some u =>
          rw [Option.bind_some, Outbox.posted?_eq_none_iff.mpr ⟨hempty, rfl⟩]
          rfl
  | some e =>
      cases hold : x.store.stamp seed.transaction with
      | none => rfl
      | some q =>
          obtain ⟨u, d⟩ := q
          -- what was noted before is of an earlier instant
          obtain ⟨v, hv, hnote⟩ := Option.bind_eq_some_iff.mp (hx.symm.trans hold)
          obtain ⟨e', -, heq⟩ := Option.map_eq_some_iff.mp hnote
          obtain ⟨rfl, -⟩ := Prod.mk.inj heq
          exact if_neg (not_lt.mpr (le_of_lt (h.ahead v (List.mem_of_getLast? hv) t
            (KeySet.contains_of_popMin? hpop))))

/-- **The box of the commit**, at any point of a pass that found none. -/
theorem stamped_after {deltas : Settle.Summary} (hs : s.Sound)
    (hfiled : Settle.Filed deltas)
    (hfirst : s.stamp seed.transaction = none) (n : Nat) :
    Stamped seed ((Point.start s seed.transaction start deltas).after levels c seed start
      dirty n) := by
  have hcourse : (Point.start s seed.transaction start deltas).OnCourse levels c
    dirty s start :=
    onCourse_start hs hfiled _
  induction n with
  | zero => exact hfirst
  | succ n ih =>
      rw [Point.after]
      cases hpop : KeySet.popMin?
        ((Point.start s seed.transaction start deltas).after levels c seed
          start dirty n).progress.checkpoints with
      | none => rwa [next_of_ended hpop]
      | some q =>
          obtain ⟨t, rest⟩ := q
          rw [next_of_popMin? hpop]
          exact ih.visit (hcourse.after n) hpop

/-- What a pass reports that ends here. -/
def report (x : Point) : Report :=
  { x.progress.report with deltas := x.progress.deltas.values }

/-- Two points at which a pass has ended are the same. -/
theorem after_eq_of_ended {n k : Nat} (hn : (x.after levels c seed start dirty n).Ended)
    (hk : (x.after levels c seed start dirty k).Ended) :
    x.after levels c seed start dirty n = x.after levels c seed start dirty k := by
  rcases Nat.le_total n k with hle | hle
  · obtain ⟨d, rfl⟩ := Nat.exists_eq_add_of_le hle
    rw [after_add, after_of_ended hn]
  · obtain ⟨d, rfl⟩ := Nat.exists_eq_add_of_le hle
    rw [after_add, after_of_ended hk]

/-- The deltas of the seed matter at the start only. -/
theorem after_withDeltas (ds : List Delta) (n : Nat) :
    x.after levels c { seed with deltas := ds } start dirty n =
      x.after levels c seed start dirty n := by
  induction n with
  | zero => rfl
  | succ n ih =>
      rw [after, ih]
      rfl

end Point

end Steps

/-! ## Passes -/

section Follow

variable (levels : LevelConfig) (c : SpreadConfig) (seed : Batch) (s : Store)
    (tx : Committed)

/-- A pass that follows a commit, after so many instants. -/
def point (n : Nat) : Point :=
  (Point.start s seed.transaction tx.validTime
    (Settle.fold Table.empty seed.deltas)).after levels c seed tx.validTime tx.touched n

variable {levels c seed s tx}

/-- Every point of a pass is on its course. -/
theorem onCourse_point (hs : s.Sound) (n : Nat) :
    (point levels c seed s tx n).OnCourse levels c tx.touched s tx.validTime :=
  (Point.onCourse_start hs (Settle.filed_empty.fold _) _).after n

/-- A pass that ends within the budget has been within it all the time. -/
theorem isPartial_point {n : Nat} (hn : (point levels c seed s tx n).Ended)
    (hwhole : (point levels c seed s tx n).report.isPartial = false) (k : Nat) :
    (point levels c seed s tx k).progress.report.isPartial = false := by
  rcases Nat.le_total k n with hkn | hnk
  · have honward : (point levels c seed s tx k).Onward (point levels c seed s tx n) :=
      Point.onward_after hkn
    exact honward.full hwhole
  · obtain ⟨d, rfl⟩ := Nat.exists_eq_add_of_le hnk
    have hsame : point levels c seed s tx (n + d) = point levels c seed s tx n := by
      rw [point, Point.after_add]
      exact Point.after_of_ended hn d
    rw [hsame]
    exact hwhole

/-- **Where a pass gets to**: to its end, or to some point before it. -/
theorem leads_follow_points {sky : Weather} {g : Scene} (hs : g.store.Sound)
    (htx : g.store.transaction? seed.transaction = some tx) :
    Leads (World.Shows sky) (follow levels c seed true) g
      (fun r g' => ∃ n, (point levels c seed g.store tx n).Ended ∧
        r = (point levels c seed g.store tx n).report ∧
        g' = { g with store := (point levels c seed g.store tx n).store })
      (fun _ g' => ¬ sky.fair ∧ ∃ n, ¬ (point levels c seed g.store tx n).Ended ∧
        g' = { g with store := (point levels c seed g.store tx n).store }) := by
  -- a turn for each version is enough to reach the end
  have hended : (point levels c seed g.store tx (g.store.versionCount + 1)).Ended :=
    (onCourse_point hs 0).ended_after rfl
  have hgives : (Reading.transaction seed.transaction).Gives g.store (some tx) :=
    htx ▸ Reading.gives_ask _ g.store
  refine Leads.step (leads_read_of_gives hgives) ?_ ?_
  · rintro e g' ⟨hfair, rfl⟩
    -- nothing was visited yet
    exact ⟨hfair, 0, Point.not_ended_start _ _ _ _, rfl⟩
  · rintro found g' ⟨rfl, rfl⟩
    refine Leads.step leads_horizon (fun _ _ hf => hf.elim) ?_
    rintro n g₁ ⟨rfl, rfl⟩
    refine Leads.step
      (leads_settleFrom_points _ (fun k => (onCourse_point hs k).sound) rfl) ?_ ?_
    · rintro e g₂ ⟨hfair, k, hk, rfl⟩
      exact ⟨hfair, k, hk, rfl⟩
    · rintro p g₂ ⟨rfl, rfl⟩
      exact Leads.pure ⟨_, hended, rfl, rfl⟩

/-- Only a commit can be followed. -/
theorem leads_follow_unknown {sky : Weather} {g : Scene}
    (htx : g.store.transaction? seed.transaction = none) :
    Leads (World.Shows sky) (follow levels c seed true) g (fun _ _ => False)
    (fun _ _ => True) := by
  have hgives : (Reading.transaction seed.transaction).Gives g.store none :=
    htx ▸ Reading.gives_ask _ g.store
  refine Leads.step (leads_read_of_gives hgives) (fun _ _ _ => trivial) ?_
  rintro found g' ⟨rfl, rfl⟩
  exact Leads.throw trivial

end Follow

end Pass

end ClearanceGraph
