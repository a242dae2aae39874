import ClearanceGraph.Proofs.Store.History

/-! # Growth — what stays when more is committed

    Commits append, to the log and to the versions of the keys that they write.
    `Store.Grows P s s'` says this of any number of commits that write keys of `P`
    only.

    So what showed up to some commit can still be read from a store that has grown
    (`Grows.visibleAsOf_eq`), and every commit of the log can be asked which levels
    it changed (`Committed.Changes`).  Of the commits by which a store grew these
    are the levels in `Store.Changed`. -/

namespace ClearanceGraph

namespace Store

variable {P Q : DocumentKey → Prop} {s s₁ s' : Store} {tx : Transaction}
    {id : TransactionId}

/-- A store after some more commits, which wrote keys of `P` only. -/
structure Grows (P : DocumentKey → Prop) (s s' : Store) : Prop where
  log : s.log <+: s'.log
  wrote : ∀ c ∈ s'.log.drop s.log.length, ∀ op ∈ c.operations, op.isWrite = true → P op.key
  versions : ∀ k, ∃ vs, s'.versionsOf k = s.versionsOf k ++ vs ∧
    ∀ v ∈ vs, s.log.length < v.transaction.value
  kept : ∀ k, ¬ P k → s'.versionsOf k = s.versionsOf k

namespace Grows

theorem refl (s : Store) : s.Grows P s where
  log := List.prefix_rfl
  wrote := by
    rw [List.drop_length]
    exact fun _ hc => by cases hc
  versions := fun _ => ⟨[], (List.append_nil _).symm, fun _ h => by cases h⟩
  kept := fun _ _ => rfl

/-- The later commits of a log that has grown twice. -/
theorem mem_drop (h : s.Grows P s₁) (h' : s₁.Grows Q s') {c : Committed}
    (hc : c ∈ s'.log.drop s.log.length) :
    c ∈ s₁.log.drop s.log.length ∨ c ∈ s'.log.drop s₁.log.length := by
  obtain ⟨cs, hcs⟩ := h'.log
  rw [← hcs, List.drop_append_of_le_length h.log.length_le, List.mem_append] at hc
  rwa [← hcs, List.drop_left]

theorem trans (h : s.Grows P s₁) (h' : s₁.Grows P s') : s.Grows P s' := by
  refine ⟨h.log.trans h'.log, fun c hc => ?_, fun k => ?_,
    fun k hk => (h'.kept k hk).trans (h.kept k hk)⟩
  · rcases h.mem_drop h' hc with hc | hc
    · exact h.wrote c hc
    · exact h'.wrote c hc
  obtain ⟨vs, hvs, hnew⟩ := h.versions k
  obtain ⟨vs', hvs', hnew'⟩ := h'.versions k
  refine ⟨vs ++ vs', by rw [hvs', hvs, List.append_assoc], fun v hv => ?_⟩
  rcases List.mem_append.mp hv with hv | hv
  · exact hnew v hv
  · exact Nat.lt_of_le_of_lt h.log.length_le (hnew' v hv)

theorem mono (h : s.Grows P s') (hPQ : ∀ k, P k → Q k) : s.Grows Q s' :=
  ⟨h.log, fun c hc op hop hw => hPQ _ (h.wrote c hc op hop hw), h.versions,
    fun k hk => h.kept k fun hP => hk (hPQ k hP)⟩

/-- One commit. -/
theorem of_submit (hs : s.Sound) (h : s.submit tx = .ok (id, s'))
    (hP : ∀ k, tx.Writes k → P k) :
    s.Grows P s' := by
  obtain ⟨-, rfl, hlog, hvers, -⟩ := submit_eq_ok h
  refine ⟨hlog ▸ List.prefix_append _ _, fun c hc op hop hw => ?_,
    fun k => ⟨_, hvers k, fun v hv => ?_⟩, fun k hk => ?_⟩
  · rw [hlog, List.drop_left] at hc
    rw [List.mem_singleton.mp hc] at hop
    exact hP _ ⟨op, hop, hw, rfl⟩
  · obtain ⟨d, -, rfl⟩ := List.mem_map.mp hv
    have hnext := hs.nextId_value
    show s.log.length < s.nextId.value
    omega
  · have hnone := (tx.lastWrite?_eq_none_iff k).mpr fun hw => hk (hP k hw)
    exact versionsOf_submit_of_not_writes h hnone

variable (h : s.Grows P s')

include h

/-- Earlier commits stay in the log. -/
theorem transaction? {i : TransactionId} {c : Committed} (hc : s.transaction? i = some c) :
    s'.transaction? i = some c := by
  rw [Store.transaction?] at hc ⊢
  split at hc
  · cases hc
  · next h0 =>
    obtain ⟨cs, hcs⟩ := h.log
    rw [if_neg h0, ← hcs, List.getElem?_append_left (List.getElem?_eq_some_iff.mp hc).1, hc]

end Grows

/-! ## Levels up to a commit -/

/-- The document of a key that shows at an instant, by the commits up to a number. -/
def visibleAsOf (s : Store) (n : Nat) (t : Instant) (k : DocumentKey) : Option Document :=
  (showing t ((s.versionsOf k).filter fun v => v.transaction.value ≤ n)).bind (·.document)

/-- The level of an object that shows at an instant, by the commits up to a number. -/
def levelAsOf (s : Store) (n : Nat) (t : Instant) (r : Reference) : Option Level :=
  ((s.visibleAsOf n t (.profile r)).bind Document.profile?).map Profile.level

/-- The level of an object that shows at an instant; none if it has no profile. -/
def level? (s : Store) (t : Instant) (r : Reference) : Option Level :=
  ((s.visible t (.profile r)).bind Document.profile?).map Profile.level

theorem Grows.visibleAsOf_eq (h : s.Grows P s') {n : Nat} (hn : n ≤ s.log.length)
    (t : Instant) (k : DocumentKey) : s'.visibleAsOf n t k = s.visibleAsOf n t k := by
  obtain ⟨vs, hvs, hnew⟩ := h.versions k
  have hnone : vs.filter (fun v => v.transaction.value ≤ n) = [] := by
    refine List.filter_eq_nil_iff.mpr fun v hv => ?_
    have := hnew v hv
    simp only [decide_eq_true_eq]
    omega
  rw [visibleAsOf, hvs, List.filter_append, hnone, List.append_nil, visibleAsOf]

/-- All commits count by the number of the last one. -/
theorem Sound.visibleAsOf_length (hs : s.Sound) (t : Instant) (k : DocumentKey) :
    s.visibleAsOf s.log.length t k = s.visible t k := by
  have hall : (s.versionsOf k).filter (fun v => v.transaction.value ≤ s.log.length) =
      s.versionsOf k := by
    refine List.filter_eq_self.mpr fun v hv => ?_
    have := hs.numbered hv
    have := hs.nextId_value
    simp only [decide_eq_true_eq]
    omega
  rw [visibleAsOf, hall, visible]

end Store

/-- A commit changes the level of an object that shows at its valid time, or whether it
    has one. -/
def Committed.Changes (c : Committed) (s : Store) (r : Reference) : Prop :=
  s.levelAsOf (c.id.value - 1) c.validTime r ≠ s.levelAsOf c.id.value c.validTime r

instance (c : Committed) (s : Store) (r : Reference) : Decidable (c.Changes s r) :=
  inferInstanceAs (Decidable (_ ≠ _))

namespace Store

variable {P Q : DocumentKey → Prop} {s s₁ s' : Store} {tx : Transaction}
    {id : TransactionId}
  {r : Reference}

/-- The objects whose levels were changed by the commits that a store has more than
    another. -/
def Changed (s s' : Store) (r : Reference) : Prop :=
  ∃ c ∈ s'.log.drop s.log.length, c.Changes s' r

instance : Decidable (s.Changed s' r) :=
  inferInstanceAs (Decidable (∃ c ∈ s'.log.drop s.log.length, c.Changes s' r))

theorem not_changed_self (s : Store) (r : Reference) : ¬ s.Changed s r := by
  rintro ⟨c, hc, -⟩
  rw [List.drop_length] at hc
  cases hc

theorem Grows.changes_iff (h : s.Grows P s') (hs : s.Sound) {c : Committed}
    (hc : c ∈ s.log) :
    c.Changes s' r ↔ c.Changes s r := by
  obtain ⟨i, hi⟩ := List.mem_iff_getElem?.mp hc
  have hid := hs.logged hi
  have hlt := (List.getElem?_eq_some_iff.mp hi).1
  rw [Committed.Changes, Committed.Changes, levelAsOf, levelAsOf, levelAsOf, levelAsOf,
    h.visibleAsOf_eq (by omega), h.visibleAsOf_eq (by omega)]

/-- What was changed on the way was changed before or after. -/
theorem Changed.of_grows (hs₁ : s₁.Sound) (h : s.Grows P s₁) (h' : s₁.Grows Q s')
    (hr : s.Changed s' r) : s.Changed s₁ r ∨ s₁.Changed s' r := by
  obtain ⟨c, hc, hchanges⟩ := hr
  rcases h.mem_drop h' hc with hc | hc
  · exact .inl ⟨c, hc, (h'.changes_iff hs₁ (List.mem_of_mem_drop hc)).mp hchanges⟩
  · exact .inr ⟨c, hc, hchanges⟩

/-- **One commit** changes the levels that show at its valid time then and did not
    before. -/
theorem changed_submit_iff (hs : s.Sound) (h : s.submit tx = .ok (id, s')) :
    s.Changed s' r ↔ s.level? tx.validTime r ≠ s'.level? tx.validTime r := by
  have hs' := hs.submit h
  have hgrows : s.Grows (fun _ => True) s' := .of_submit hs h fun _ _ => trivial
  obtain ⟨-, rfl, hlog, -, -⟩ := submit_eq_ok h
  have hnext := hs.nextId_value
  have hlen : s'.log.length = s.nextId.value := by
    rw [hlog, List.length_append, List.length_singleton, hnext]
  have hbefore : s'.levelAsOf (s.nextId.value - 1) tx.validTime r = s.level?
      tx.validTime r := by
    rw [levelAsOf, hnext, Nat.add_sub_cancel, hgrows.visibleAsOf_eq (Nat.le_refl _),
      hs.visibleAsOf_length, level?]
  have hafter : s'.levelAsOf s.nextId.value tx.validTime r = s'.level? tx.validTime r := by
    rw [levelAsOf, ← hlen, hs'.visibleAsOf_length, level?]
  rw [Changed, hlog, List.drop_left]
  simp only [List.mem_singleton, exists_eq_left, Committed.Changes, Transaction.committed,
    hbefore, hafter]

/-- A commit that writes no profile changes no level. -/
theorem not_changed_submit (hs : s.Sound) (h : s.submit tx = .ok (id, s'))
    (hno : ¬ tx.Writes (.profile r)) : ¬ s.Changed s' r := by
  rw [changed_submit_iff hs h, level?, level?, visible_submit_of_not_writes h hno]
  exact fun hne => hne rfl

end Store

end ClearanceGraph
