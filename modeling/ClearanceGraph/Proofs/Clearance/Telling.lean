import ClearanceGraph.Proofs.Clearance.Region
import ClearanceGraph.Proofs.Store.Growth

/-! # Telling — every level that changes has a delta

    Settling writes the profile of an object if it is not the wanted one, and tells
    the object if the levels differ.  So whatever it computed, within the budget or
    not, a commit of what was found changes the levels of told objects only
    (`Store.told_of_changed`). -/

namespace ClearanceGraph

namespace Settle

variable {default : Level} {inherited : Inherited} {g : Snapshot} {r : Reference}

theorem reference_of_between? {old new : Option Profile} {d : Delta}
    (h : Delta.between? default r old new = some d) : d.reference = r := by
  rw [Delta.between?] at h
  split at h
  · cases h
  · cases h
    rfl

/-- The told objects are some of those that were settled, in order. -/
theorem references_settleAll_sublist (rs : List Reference) :
    (((settleAll default inherited rs).answer g).2.map (·.reference)).Sublist rs := by
  rw [answer_settleAll, List.map_filterMap]
  induction rs with
  | nil => exact .slnil
  | cons r rs ih =>
      rw [List.filterMap_cons]
      cases hd : Delta.between? default r (g.profile r) (wanted default inherited g r) with
      | none => exact ih.cons r
      | some d =>
          rw [Option.map_some, reference_of_between? hd]
          exact ih.cons_cons _

end Settle

namespace Store

variable {levels : LevelConfig} {c : SpreadConfig} {s s' : Store} {t : Instant}
  {dirty watched : KeySet Reference}

/-- What is found at an instant are writes of profiles. -/
theorem mem_finding_operations {op : Operation}
    (h : op ∈ (s.finding levels c dirty watched t).operations) :
    op.isWrite = true ∧ op.key.isProfile = true := by
  obtain ⟨r, -, -, rfl⟩ := mem_settleAll_iff.mp h
  cases Settle.wanted _ _ _ r <;> exact ⟨rfl, rfl⟩

/-- **The steps of a full pass** leave objects what they are due. -/
theorem Sound.exists_due_of_mem_findAll (hs : s.Sound) {ops : List Operation}
    {deltas : List Delta}
    (h : (Pass.findAll levels c t).Gives s (ops, deltas)) {op : Operation}
    (hop : op ∈ ops) :
    ∃ r, op = Settle.leave r (s.due levels c t r) := by
  obtain ⟨rs, -, -, hgives⟩ := hs.exists_findAll_gives levels c t
  obtain rfl : ops = _ := congrArg Prod.fst (h.unique hgives)
  obtain ⟨r, hr, -, rfl⟩ := mem_settleAll_iff.mp hop
  exact ⟨r, by rw [wanted_eq_due hr rfl]⟩

/-- What a full pass finds are writes of profiles. -/
theorem Sound.mem_findAll_operations (hs : s.Sound) {ops : List Operation}
    {deltas : List Delta}
    (h : (Pass.findAll levels c t).Gives s (ops, deltas)) {op : Operation}
    (hop : op ∈ ops) :
    op.isWrite = true ∧ op.key.isProfile = true := by
  obtain ⟨r, rfl⟩ := hs.exists_due_of_mem_findAll h hop
  cases s.due levels c t r <;> exact ⟨rfl, rfl⟩

/-- A full pass tells an object once. -/
theorem Sound.nodup_findAll_deltas (hs : s.Sound) {ops : List Operation}
    {deltas : List Delta} (h : (Pass.findAll levels c t).Gives s (ops, deltas)) :
    (deltas.map (·.reference)).Nodup := by
  obtain ⟨rs, hrs, -, hgives⟩ := hs.exists_findAll_gives levels c t
  obtain rfl : deltas = _ := congrArg Prod.snd (h.unique hgives)
  have hnodup : rs.Nodup := List.map_id rs ▸ Table.nodup_of_ascending (f := id) hrs
  exact hnodup.sublist (Settle.references_settleAll_sublist rs)

/-! ## What a commit of settling leaves -/

/-- A step that writes no profile changes nothing of what is left of profiles. -/
theorem lastWrite?_append_note {ops : List Operation} {note : Option Operation}
    (hnote : ∀ op, note = some op → op.key.isProfile = false) (r : Reference) :
    (⟨t, ops ++ note.toList⟩ : Transaction).lastWrite? (.profile r) =
      (⟨t, ops⟩ : Transaction).lastWrite? (.profile r) := by
  cases note with
  | none => rw [Option.toList_none, List.append_nil]
  | some op =>
      have hnone : op.writeTo? (.profile r) = none := by
        by_contra hne
        obtain ⟨w, hw⟩ := Option.ne_none_iff_exists'.mp hne
        have hkey := hnote op rfl
        rw [(Operation.key_of_writeTo? hw).2] at hkey
        cases hkey
      have hpush := Transaction.lastWrite?_push ⟨t, ops⟩ op (.profile r)
      rw [hnone, Option.none_or] at hpush
      exact hpush

section Settled

variable {inherited : Inherited} {rs : List Reference} {g : Snapshot}
    {note : Option Operation}
  (hnote : ∀ op, note = some op → op.key.isProfile = false)

include hnote

/-- What settling leaves of the profiles that a store shows, with whatever is noted
    beside it. -/
theorem lastWrite?_settled {p : Reference → Option Profile} (hg : ∀ r, g.profile r = p r)
    (r : Reference) :
    ((⟨t, ((Settle.settleAll levels.default inherited rs).answer g).1 ++ note.toList⟩ :
        Transaction).lastWrite? (.profile r)).elim (p r) (·.bind Document.profile?) =
      if r ∈ rs then Settle.wanted levels.default inherited g r else p r := by
  rw [lastWrite?_append_note hnote, lastWrite?_settleAll, hg]
  by_cases hr : r ∈ rs
  · rw [if_pos hr]
    by_cases heq : p r = Settle.wanted levels.default inherited g r
    · rw [if_neg fun h => h.2 heq]
      exact heq
    · rw [if_pos ⟨hr, heq⟩]
      show ((Settle.wanted levels.default inherited g r).map _).bind _ = _
      cases Settle.wanted levels.default inherited g r <;> rfl
  · rw [if_neg hr, if_neg fun h => hr h.1]
    rfl

end Settled

/-- **At its own instant a commit** leaves the profile that it writes last, or the old
    one. -/
theorem stored_submit_self (hs : s.Sound) {tx : Transaction} {id : TransactionId}
    (hsub : s.submit tx = .ok (id, s')) (r : Reference) :
    s'.stored tx.validTime r =
      (tx.lastWrite? (.profile r)).elim (s.stored tx.validTime r)
        (·.bind Document.profile?) := by
  show (s'.visible tx.validTime (.profile r)).bind Document.profile? = _
  rw [visible_submit_self hs hsub]
  cases tx.lastWrite? (.profile r) <;> rfl

/-- **Every level that changes is told**: a commit of what was found at an instant
    changes the levels of objects with deltas only. -/
theorem told_of_changed (hs : s.Sound) {id : TransactionId} {note : Option Operation}
    (hsub : s.submit ⟨t, (s.finding levels c dirty watched t).operations ++ note.toList⟩ =
      .ok (id, s'))
    (hnote : ∀ op, note = some op → op.key.isProfile = false) {r : Reference}
    (hr : s.Changed s' r) :
    ∃ d ∈ (s.finding levels c dirty watched t).deltas, d.reference = r := by
  let region := (Region.around levels c dirty).answer (s.snapshot t)
  have hstored : s'.stored t r = if r ∈ region.targets.toList then
      Settle.wanted levels.default region.inherited (s.snapshot t) r else s.stored t r :=
    (stored_submit_self hs hsub r).trans (lastWrite?_settled hnote (fun _ => rfl) r)
  have hne : (s.stored t r).map Profile.level ≠ (s'.stored t r).map Profile.level :=
    (changed_submit_iff hs hsub).mp hr
  rw [hstored] at hne
  by_cases hmem : r ∈ region.targets.toList
  · rw [if_pos hmem] at hne
    show ∃ d ∈
      ((Settle.settleAll levels.default region.inherited region.targets.toList).answer
      (s.snapshot t)).2, _
    rw [Settle.answer_settleAll]
    exact ⟨_, List.mem_filterMap.mpr ⟨r, hmem, if_neg hne⟩, rfl⟩
  · rw [if_neg hmem] at hne
    exact absurd rfl hne

end Store

end ClearanceGraph
