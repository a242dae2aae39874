import ClearanceGraph.Proofs.Clearance.Pass
import ClearanceGraph.Proofs.Clearance.Telling
import ClearanceGraph.Proofs.Event.Outbox

/-! # Notes — what a recorded pass posts with its profiles

    A recorded pass after a commit notes, with the profiles of every instant, all
    that it has to tell so far: an entry with the batch, or, at the end, that there
    was nothing to tell (`Outbox.posted?`).

    `Store.Notes` is what one such write does to a store: the levels that it changes
    are among the deltas that were found, and the note is the one that was written
    last. -/

namespace ClearanceGraph

/-! ## Summaries -/

namespace Settle

/-- Every delta of a summary is filed under its own object. -/
def Filed (s : Summary) : Prop := ∀ r d, s.get? r = some d → d.reference = r

variable {s : Summary} {d : Delta} {r : Reference}

/-- A delta gives its object an entry. -/
theorem contains_addDelta_iff :
    (addDelta s d).contains r = true ↔ s.contains r = true ∨ d.reference = r := by
  rw [addDelta, Table.contains_iff, Table.contains_iff]
  by_cases h : r = d.reference
  · subst h
    simp only [Table.get?_insert_self, or_true, iff_true]
    exact ⟨_, rfl⟩
  · rw [Table.get?_insert_of_ne _ _ h]
    exact ⟨.inl, fun hor => hor.resolve_right fun heq => h heq.symm⟩

/-- Deltas stay filed under their objects. -/
theorem Filed.addDelta (h : Filed s) : Filed (addDelta s d) := by
  intro r x hx
  rw [Settle.addDelta] at hx
  by_cases hr : r = d.reference
  · subst hr
    rw [Table.get?_insert_self] at hx
    obtain rfl := Option.some.inj hx
    cases hs : s.get? d.reference with
    | none => rfl
    | some first => exact h _ first hs
  · rw [Table.get?_insert_of_ne _ _ hr] at hx
    exact h r x hx

theorem filed_empty : Filed Table.empty := by
  intro r d h
  cases h

/-- A summary has a delta of an object if one was added. -/
theorem contains_fold_iff (ds : List Delta) : ∀ {s : Summary},
    (fold s ds).contains r = true ↔ s.contains r = true ∨ ∃ d ∈ ds, d.reference = r := by
  induction ds with
  | nil => simp [fold]
  | cons d ds ih =>
      intro s
      have hih := ih (s := addDelta s d)
      rw [contains_addDelta_iff] at hih
      show (fold (addDelta s d) ds).contains r = true ↔ _
      rw [hih]
      simp only [List.mem_cons, exists_eq_or_imp, or_assoc]

/-- So they do however many are added. -/
theorem Filed.fold (ds : List Delta) : ∀ {s : Summary}, Filed s → Filed (fold s ds) := by
  induction ds with
  | nil => exact fun h => h
  | cons d ds ih => exact fun h => ih h.addDelta

/-- Folding deltas of objects that are new to a summary adds just these deltas. -/
theorem get?_fold_of_fresh {r : Reference} {x : Delta} {ds : List Delta} :
    ∀ {s : Summary}, (ds.map (·.reference)).Nodup → (∀ d ∈ ds, s.get? d.reference = none) →
      ((fold s ds).get? r = some x ↔ s.get? r = some x ∨ x ∈ ds ∧ x.reference = r) := by
  induction ds with
  | nil => simp [fold]
  | cons d ds ih =>
      intro s hnodup hfresh
      rw [List.map_cons, List.nodup_cons] at hnodup
      have hd : s.get? d.reference = none := hfresh d List.mem_cons_self
      -- an object without an entry gets the delta as it is
      have hadd : addDelta s d = s.insert d.reference d := by
        rw [addDelta, hd]
      show (fold (addDelta s d) ds).get? r = some x ↔ _
      rw [hadd, ih hnodup.2 fun d' hd' => ?_]
      · by_cases hr : r = d.reference
        · subst hr
          rw [Table.get?_insert_self, hd, List.mem_cons]
          constructor
          · rintro (heq | ⟨hx, hr⟩)
            · obtain rfl := Option.some.inj heq
              exact .inr ⟨.inl rfl, rfl⟩
            · exact .inr ⟨.inr hx, hr⟩
          · rintro (hno | ⟨rfl | hx, hr⟩)
            · cases hno
            · exact .inl rfl
            · exact .inr ⟨hx, hr⟩
        · rw [Table.get?_insert_of_ne _ _ hr, List.mem_cons]
          refine or_congr_right (and_congr_left fun heq => (or_iff_right ?_).symm)
          rintro rfl
          exact hr heq.symm
      · -- the objects of the others are different, so they are still without entries
        rw [Table.get?_insert_of_ne _ _ fun heq => ?_]
        · exact hfresh d' (List.mem_cons_of_mem _ hd')
        · exact hnodup.1 (heq ▸ List.mem_map_of_mem hd')

/-- The objects of filed deltas are the keys. -/
theorem Filed.references_values {s : Summary} (h : Filed s) :
    s.values.map (·.reference) = s.keys := by
  rw [Table.values, Table.keys, List.map_map]
  refine List.map_congr_left fun e he => ?_
  exact h e.1 e.2 (s.mem_entries_iff.mp he)

/-- The deltas of a summary are sorted by object. -/
theorem Filed.pairwise_values {s : Summary} (h : Filed s) :
    s.values.Pairwise fun d e => compare d.reference e.reference = .lt := by
  have hkeys := s.pairwise_keys
  rw [← h.references_values] at hkeys
  exact List.pairwise_map.mp hkeys

/-- **The deltas of a summary make the same summary again.** -/
theorem Filed.fold_values {s : Summary} (h : Filed s) :
    Settle.fold Table.empty s.values = s := by
  refine Table.ext_get? fun r => Option.ext fun x => ?_
  rw [get?_fold_of_fresh (h.references_values ▸ s.nodup_keys) fun _ _ => rfl]
  constructor
  · rintro (hno | ⟨hx, rfl⟩)
    · cases hno
    · obtain ⟨k, hk⟩ := s.mem_values_iff.mp hx
      rwa [h k x hk]
  · intro hx
    exact .inr ⟨s.mem_values_iff.mpr ⟨r, hx⟩, h r x hx⟩

/-- **Sorted deltas make a summary that holds just them.** -/
theorem values_fold {ds : List Delta}
    (h : ds.Pairwise fun d e => compare d.reference e.reference = .lt) :
    (Settle.fold Table.empty ds).values = ds := by
  have hfiled : Filed (Settle.fold Table.empty ds) := filed_empty.fold ds
  refine Table.ascending_ext (f := Delta.reference) hfiled.pairwise_values h fun d => ?_
  have hget : ∀ r, (Settle.fold Table.empty ds).get? r = some d ↔ d ∈ ds ∧
      d.reference = r := by
    intro r
    rw [get?_fold_of_fresh (Table.nodup_of_ascending h) fun _ _ => rfl]
    exact or_iff_right fun hno => nomatch hno
  rw [Table.mem_values_iff]
  constructor
  · rintro ⟨r, hr⟩
    exact ((hget r).mp hr).1
  · intro hd
    exact ⟨d.reference, (hget _).mpr ⟨hd, rfl⟩⟩

end Settle

namespace Pass

/-- The batch of a pass so far. -/
def Progress.batch (p : Progress) (seed : Batch) : Batch :=
  { seed with deltas := p.deltas.values }

/-- A batch names the objects that have an entry so far. -/
theorem names_batch_iff {p : Progress} {seed : Batch} (h : Settle.Filed p.deltas)
    {r : Reference} :
    (p.batch seed).Names r ↔ p.deltas.contains r = true := by
  rw [Table.contains_iff]
  constructor
  · rintro ⟨d, hd, rfl⟩
    obtain ⟨q, hq⟩ := (Table.mem_values_iff _).mp hd
    exact ⟨d, h q d hq ▸ hq⟩
  · rintro ⟨d, hd⟩
    exact ⟨d, (Table.mem_values_iff _).mpr ⟨r, hd⟩, h r d hd⟩

/-- A batch has something to tell from its seed, or from a delta. -/
theorem isEmpty_batch_eq_false_iff {p : Progress} {seed : Batch} :
    (p.batch seed).isEmpty = false ↔
      seed.changes ≠ [] ∨ ∃ r, p.deltas.contains r = true := by
  have hvalues : p.deltas.values = [] ↔ ¬ ∃ r, p.deltas.contains r = true := by
    rw [List.eq_nil_iff_forall_not_mem]
    simp only [Table.mem_values_iff, Table.contains_iff]
    grind
  show (seed.changes.isEmpty && p.deltas.values.isEmpty) = false ↔ _
  rw [Bool.and_eq_false_iff, List.isEmpty_eq_false_iff, List.isEmpty_eq_false_iff,
    ne_eq, ne_eq, hvalues, not_not]

end Pass

/-! ## Notes -/

/-- The step that posts to the box of a commit. -/
def Operation.posting (t : TransactionId) : Option OutboxEntry → Operation
  | some e => .put (.outbox e)
  | none => .delete (.outbox t)

namespace Outbox

/-- What a note posts, if there is one. -/
def posted? (t : Instant) (b : Batch) (propagated : Bool) : Option (Option OutboxEntry) :=
  if b.isEmpty then if propagated then some none else none
  else some (some ⟨b, t, propagated⟩)

/-- A note posts what is to be noted, if anything is. -/
theorem note_eq (t : Instant) (b : Batch) (propagated : Bool) :
    note t b propagated = (posted? t b propagated).map (.posting b.transaction) := by
  unfold note posted?
  cases b.isEmpty <;> cases propagated <;> rfl

/-- A note is about the box of its commit. -/
theorem key_of_note {t : Instant} {b : Batch} {propagated : Bool} {op : Operation}
    (h : note t b propagated = some op) : op.key = .outbox b.transaction := by
  rw [note] at h
  split at h
  · cases h
    rfl
  · split at h
    · cases h
      rfl
    · cases h

/-- Nothing is posted as long as there is nothing to tell and instants are still to
    come. -/
theorem posted?_eq_none_iff {t : Instant} {b : Batch} {propagated : Bool} :
    posted? t b propagated = none ↔ b.isEmpty = true ∧ propagated = false := by
  unfold posted?
  cases b.isEmpty <;> cases propagated <;> simp

/-- What is posted is the batch, if there is something to tell. -/
theorem eq_of_posted? {t : Instant} {b : Batch} {propagated : Bool} {e : OutboxEntry}
    (h : posted? t b propagated = some (some e)) : e = ⟨b, t, propagated⟩ ∧
    b.isEmpty = false := by
  unfold posted? at h
  cases hb : b.isEmpty with
  | true =>
      rw [hb] at h
      cases propagated <;> cases h
  | false =>
      rw [hb] at h
      cases h
      exact ⟨rfl, rfl⟩

end Outbox

/-- Profiles with one post at the end post that. -/
theorem Transaction.posts_append {ops : List Operation} {t : TransactionId} {u : Instant}
    {e : Option OutboxEntry} (hops : ∀ op ∈ ops, op.key.isProfile = true)
    (he : ∀ x, e = some x → x.batch.transaction = t) :
    (⟨u, ops ++ [.posting t e]⟩ : Transaction).Posts t e := by
  have hkey : (Operation.posting t e).key = .outbox t := by
    cases e with
    | none => rfl
    | some x => exact congrArg DocumentKey.outbox (he x rfl)
  refine ⟨?_, ?_⟩
  · -- what is before the note goes to profiles, so nothing else goes to its box
    have hnone : ops.filterMap (Operation.writeTo? (.outbox t)) = [] := by
      refine List.filterMap_eq_nil_iff.mpr fun op hop => ?_
      by_contra hne
      obtain ⟨w, hw⟩ := Option.ne_none_iff_exists'.mp hne
      have hprofile := hops op hop
      rw [(Operation.key_of_writeTo? hw).2] at hprofile
      cases hprofile
    rw [writesTo, List.filterMap_append, hnone, List.nil_append]
    cases e with
    | none => simp [Operation.posting, Operation.writeTo?_delete]
    | some x =>
        simp [Operation.posting, Operation.writeTo?_put, Document.key, he x rfl]
  · rintro v hv ⟨op, hop, -, hk⟩
    rcases List.mem_append.mp hop with hop | hop
    · have hprofile := hops op hop
      rw [hk] at hprofile
      cases hprofile
    · rw [List.mem_singleton.mp hop, hkey] at hk
      exact hv (DocumentKey.outbox.inj hk).symm

/-! ## One write -/

namespace Store

variable {s s' : Store} {t : TransactionId} {u : Instant}
    {posted : Option (Option OutboxEntry)}

/-- What a pass writes: profiles, and to the box of its commit. -/
def Noted (t : TransactionId) (k : DocumentKey) : Prop := k.isProfile = true ∨ k = .outbox t

/-- One write of a recorded pass at an instant, with the deltas that were found and what
    was posted, if something was. -/
structure Notes (t : TransactionId) (u : Instant) (ds : List Delta)
    (posted : Option (Option OutboxEntry)) (s s' : Store) : Prop where
  boxed : s'.Boxed
  grows : s.Grows (Noted t) s'
  told : ∀ r, s.Changed s' r → ∃ d ∈ ds, d.reference = r
  starts : ∀ k, ∀ v ∈ s'.versionsOf k, v ∈ s.versionsOf k ∨ v.validFrom = u
  silent : posted = none → s'.versionsOf (.outbox t) = s.versionsOf (.outbox t)
  last : ∀ e, posted = some e → ∃ id, s'.lastOf? (.outbox t) = some ⟨u, id, e.map .outbox⟩
  box : ∀ e, posted = some e → s'.box t = e.elim .cleared .entry ∨
    s'.box t = s.box t ∧ s.box t ≠ .absent

/-- What a pass writes is a step in the notes. -/
theorem notes_of_write (levels : LevelConfig) (c : SpreadConfig)
    (dirty watched : KeySet Reference) (h : s.Boxed) (ht : t.value ≤ s.log.length)
    (hopen : (s.box t).state ≠ .recorded) (hu : u ≤ Instant.latest)
    (hposted : ∀ e x, posted = some e → e = some x →
      x.batch.transaction = t ∧ x.validTime = u ∧ x.batch.isEmpty = false)
    (hwrite : s.Wrote ⟨u, (s.finding levels c dirty watched u).operations ++
      (posted.map (.posting t)).toList⟩ s') :
    s.Notes t u (s.finding levels c dirty watched u).deltas posted s' := by
  have hops : ∀ op ∈ (s.finding levels c dirty watched u).operations,
    op.key.isProfile = true :=
    fun op hop => (mem_finding_operations hop).2
  rcases hwrite with ⟨hempty, rfl⟩ | ⟨-, id, hsub⟩
  · -- a note is a write, so there was none
    have hnone : posted = none := by
      cases posted with
      | none => rfl
      | some e =>
          rw [Transaction.isEmpty_iff] at hempty
          refine absurd ⟨.posting t e, List.mem_append_right _ List.mem_cons_self, ?_,
            rfl⟩ (hempty _)
          cases e <;> rfl
    subst hnone
    exact ⟨h, .refl _, fun r hr => absurd hr (s'.not_changed_self r), fun _ _ hv => .inl hv,
      fun _ => rfl, fun _ he => (nomatch he), fun _ he => (nomatch he)⟩
  · have hnote : ∀ op, posted.map (Operation.posting t) = some op →
        op.key.isProfile = false := by
      intro op hop
      obtain ⟨e, -, rfl⟩ := Option.map_eq_some_iff.mp hop
      cases e <;> rfl
    have htold : ∀ r, s.Changed s' r →
        ∃ d ∈ (s.finding levels c dirty watched u).deltas, d.reference = r :=
      fun r hr => told_of_changed h.sound hsub hnote hr
    have hstarts : ∀ k, ∀ v ∈ s'.versionsOf k, v ∈ s.versionsOf k ∨ v.validFrom = u :=
      fun k v hv => (mem_versionsOf_submit hsub hv).imp_right And.left
    cases posted with
    | none =>
        have honly :
          ∀ k, Transaction.Writes ⟨u, (s.finding levels c dirty watched u).operations ++
            (none : Option Operation).toList⟩ k → k.isProfile = true := by
          rintro k ⟨op, hop, -, rfl⟩
          rw [Option.toList_none, List.append_nil] at hop
          exact hops op hop
        have hno : ∀ t, ¬ Transaction.Writes
          ⟨u, (s.finding levels c dirty watched u).operations ++
            (none : Option Operation).toList⟩ (.outbox t) := fun t hw => nomatch honly _ hw
        exact ⟨h.submit_of_silent hsub hno hu,
          .of_submit h.sound hsub fun k hk => .inl (honly k hk), htold, hstarts,
          fun _ => versionsOf_of_silent hsub hno t,
          fun _ he => (nomatch he), fun _ he => (nomatch he)⟩
    | some e =>
        have hp : Transaction.Posts ⟨u, (s.finding levels c dirty watched u).operations ++
            [.posting t e]⟩ t e :=
          Transaction.posts_append hops fun x hx => (hposted e x rfl hx).1
        have honly :
          ∀ k, Transaction.Writes ⟨u, (s.finding levels c dirty watched u).operations ++
            [.posting t e]⟩ k → Noted t k := by
          rintro k ⟨op, hop, hw, rfl⟩
          rcases List.mem_append.mp hop with hop' | hop'
          · exact .inl (hops op hop')
          · obtain rfl := List.mem_singleton.mp hop'
            cases e with
            | none => exact .inr rfl
            | some x => exact .inr (congrArg DocumentKey.outbox (hposted _ x rfl rfl).1)
        refine ⟨h.submit hp hsub hu ht (fun x hx => (hposted e x rfl hx).2) (.inr hopen),
          .of_submit h.sound hsub honly, htold, hstarts, nofun, ?_, ?_⟩
        · rintro e' ⟨⟩
          exact ⟨id, lastOf?_of_posts hp hsub⟩
        · rintro e' ⟨⟩
          refine (box_of_posts hp h hsub).imp_right ?_
          rintro ⟨hold, v, hv, -⟩
          refine ⟨hold, fun habsent => ?_⟩
          rw [box_eq_absent_iff.mp habsent] at hv
          cases hv

end Store

end ClearanceGraph
