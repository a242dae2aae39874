import ClearanceGraph.Proofs.Clearance.Notes
import ClearanceGraph.Proofs.Event.Delivery
import ClearanceGraph.Proofs.Evolution
import ClearanceGraph.Proofs.Origin.Writes

/-! # Effects — what each part of the program commits

    A publisher deletes entries of the outbox or puts propagated ones
    (`Transaction.Discharges`), each in the box of the batch that it sends; a pass after
    a commit writes profiles and the box of its commit, a full pass profiles only.
    Nothing is asked of the store but that it is sound, and of faults nothing at all. -/

namespace ClearanceGraph

open World (Commits)

/-! ## Publishers -/

/-- A transaction leaves nothing, or propagated entries, under keys of the outbox, and
    writes no other keys. -/
def Transaction.Discharges (tx : Transaction) : Prop :=
  ∀ k, ∀ d ∈ tx.writesTo k, (∃ t, k = .outbox t) ∧ (Box.ofDocument d).state = .recorded

/-- A transaction that discharges, in the box of one commit. -/
structure Transaction.DischargesBox (t : TransactionId) (tx : Transaction) : Prop where
  discharges : tx.Discharges
  own : ∀ k, tx.Writes k → k = .outbox t

theorem Transaction.Discharges.outbox {tx : Transaction} (h : tx.Discharges)
    {k : DocumentKey} (hk : tx.Writes k) : ∃ t, k = .outbox t := by
  have hne : tx.writesTo k ≠ [] := fun hnil => (tx.writesTo_eq_nil_iff k).mp hnil hk
  obtain ⟨d, hd⟩ := List.exists_mem_of_ne_nil _ hne
  exact (h k d hd).1

/-- A box that levels are known to have followed stays like this. -/
theorem Store.recorded_submit {s s' : Store} {tx : Transaction} {id t : TransactionId}
    (hs : s.Sound) (htx : tx.Discharges) (hsub : s.submit tx = .ok (id, s'))
    (h : (s.box t).state = .recorded) : (s'.box t).state = .recorded := by
  cases hlast : tx.lastWrite? (.outbox t) with
  | none => rwa [box_congr (versionsOf_submit_of_not_writes hsub hlast)]
  | some d =>
      have hd := (htx _ d (List.mem_of_getLast? hlast)).2
      have hnew := newestOf?_submit hs hsub hlast
      cases hx : s.newestOf? (.outbox t) with
      | none =>
          rw [hx] at hnew
          rw [box_of_newestOf? hnew]
          exact hd
      | some x =>
          rw [hx] at hnew
          dsimp only at hnew
          split at hnew
          · rwa [box_of_newestOf? hnew, ← box_of_newestOf? hx]
          · rw [box_of_newestOf? hnew]
            exact hd

namespace Publisher

private theorem discharges_clearing (e : OutboxEntry) : (clearing e).Discharges := by
  intro k d hd
  obtain ⟨op, hop, hw⟩ := List.mem_filterMap.mp hd
  simp only [clearing, List.mem_cons, List.not_mem_nil, or_false] at hop
  rcases hop with rfl | rfl
  · cases hw
  · rw [Operation.writeTo?_delete] at hw
    split at hw
    · next hk =>
      obtain rfl := Option.some.inj hw
      exact ⟨⟨_, hk.symm⟩, rfl⟩
    · cases hw

private theorem discharges_parking (b : Batch) (t : Instant) :
    (parking b t).Discharges := by
  intro k d hd
  obtain ⟨op, hop, hw⟩ := List.mem_filterMap.mp hd
  obtain rfl := List.mem_singleton.mp hop
  rw [Operation.writeTo?_put] at hw
  split at hw
  · next hk =>
    obtain rfl := Option.some.inj hw
    exact ⟨⟨_, hk.symm⟩, rfl⟩
  · cases hw

/-- The entry that is read for a commit is its own. -/
theorem transaction_of_entry {s : Store} (hs : s.Sound) {t : TransactionId}
    {e : OutboxEntry}
    (h : (Outbox.entry t).Gives s (some e)) : e.batch.transaction = t := by
  have hentry : (Outbox.entry t).Gives s ((s.visible Instant.latest (.outbox t)).bind
      Document.outbox?) := (Reading.gives_get _ _ s).bind (Reading.gives_pure s _)
  obtain ⟨d, hd, hout⟩ := Option.bind_eq_some_iff.mp (hentry.unique h)
  have hkey := hs.key_of_visible hd
  cases d with
  | outbox e' =>
      obtain rfl := Option.some.inj hout
      exact DocumentKey.outbox.inj hkey
  | content c => cases hout
  | origin r => cases hout
  | profile p => cases hout

private theorem dischargesBox_clearing (e : OutboxEntry) :
    (clearing e).DischargesBox e.batch.transaction :=
  ⟨discharges_clearing e, fun _ hk => writes_clearing hk⟩

private theorem dischargesBox_parking (b : Batch) (t : Instant) :
    (parking b t).DischargesBox b.transaction :=
  ⟨discharges_parking b t, fun _ hk => writes_parking hk⟩

/-- **Publishing a batch** deletes its entry, or puts it as a propagated one. -/
theorem commits_publish_own (c : PublisherConfig) (b : Batch) :
    Commits (Transaction.DischargesBox b.transaction) (publish c b) :=
  .of_keeps <| (World.conduct_evolves _).publishBatch c
    (fun _ e hs hgives => transaction_of_entry hs hgives ▸ dischargesBox_clearing e)
    (dischargesBox_parking b)

theorem commits_publish (c : PublisherConfig) (b : Batch) :
    Commits Transaction.Discharges (publish c b) :=
  (commits_publish_own c b).mono fun _ htx => htx.discharges

theorem commits_republishAll (c : PublisherConfig) (es : List OutboxEntry) :
    Commits (fun tx => ∃ e ∈ es, tx.DischargesBox e.batch.transaction)
    (republishAll c es) :=
  .of_keeps <| (World.conduct_evolves _).republishAll c fun e he =>
    ⟨e, he, dischargesBox_clearing e⟩

/-- **Publishing what waits** deletes entries. -/
theorem commits_republishPending (c : PublisherConfig) :
    Commits Transaction.Discharges (republishPending c) :=
  .of_keeps <| (World.conduct_evolves _).republishPending c fun _ _ _ _ e _ =>
    discharges_clearing e

end Publisher

/-! ## Passes -/

namespace Pass

variable (levels : LevelConfig) (c : SpreadConfig)

/-- What a pass after a commit writes. -/
private theorem noted_of_writes {s : Store} (b : Batch) (recorded propagated : Bool)
    {dirty watched : KeySet Reference} {t : Instant} {k : DocumentKey}
    (hk : (⟨t, (s.finding levels c dirty watched t).operations ++
      (if recorded then Outbox.note t b propagated else none).toList⟩ :
        Transaction).Writes k) :
    Store.Noted b.transaction k := by
  obtain ⟨op, hop, -, rfl⟩ := hk
  rcases List.mem_append.mp hop with hop | hop
  · exact .inl (Store.mem_finding_operations hop).2
  · refine .inr ?_
    split at hop
    · exact Outbox.key_of_note (Option.mem_toList.mp hop)
    · cases hop

/-- **A pass after a commit** writes profiles and the box of the commit. -/
theorem commits_follow (seed : Batch) (recorded : Bool) :
    Commits (fun tx => ∀ k, tx.Writes k → Store.Noted seed.transaction k)
      (follow levels c seed recorded) := by
  refine .of_keeps <| (World.conduct_evolves _).follow
    fun s dirty watched t f hs hf ds p k hk => ?_
  obtain rfl := hf.unique (hs.find_gives levels c dirty watched)
  exact noted_of_writes levels c { seed with deltas := ds } recorded p hk

/-- **A full pass** writes profiles. -/
theorem commits_full (t : Instant) :
    Commits (fun tx => ∀ k, tx.Writes k → k.isProfile = true) (full levels c t) := by
  refine .of_keeps <| (World.conduct_evolves _).full fun s ops deltas hs hfound k hk => ?_
  obtain ⟨op, hop, -, rfl⟩ := hk
  exact (hs.mem_findAll_operations hfound hop).2

end Pass

end ClearanceGraph
