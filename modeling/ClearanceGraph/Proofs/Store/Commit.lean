import ClearanceGraph.Proofs.Order.Choice
import ClearanceGraph.Proofs.Order.Table
import ClearanceGraph.Proofs.Time.Order
import ClearanceGraph.Store.Query

/-! # Commits — what a transaction does to what shows

    A commit appends versions, all of one valid time and under a number greater
    than every number before.  So it shows from its valid time up to the next
    later version of the same document, and nowhere else.

    `Store.Sound` collects what commits maintain: documents lie under their own
    keys, versions carry numbers that were given out, every edge ever written is
    noted at its ends, and the log numbers its commits from one.
    `Store.visible_submit` is the one lemma about commits that later files use. -/

open Std (TransCmp OrientedCmp ReflCmp)

namespace ClearanceGraph

instance : TransCmp Version.order :=
  inferInstanceAs
    (TransCmp (compareLex (compareOn Version.validFrom) (compareOn Version.transaction)))

/-- A document under the key of an edge is that edge. -/
theorem Document.edge?_of_key {d : Document} {e : EdgeKey} (h : d.key = .fact (.edge e)) :
    ∃ x, d.edge? = some x ∧ x.key = e := by
  rcases d with (o | x | l) | r | p | b
  · simp [Document.key, Content.fact] at h
  · exact ⟨x, rfl, by simpa [Document.key, Content.fact] using h⟩
  · simp [Document.key, Content.fact] at h
  · simp [Document.key] at h
  · simp [Document.key] at h
  · simp [Document.key] at h

namespace Operation

/-- What a step leaves under a key, if it writes the key. -/
def writeTo? (k : DocumentKey) (op : Operation) : Option (Option Document) :=
  op.written?.bind fun e => if e.1 = k then some e.2 else none

theorem writeTo?_put (d : Document) (k : DocumentKey) :
    (put d).writeTo? k = if d.key = k then some (some d) else none := rfl

theorem writeTo?_delete (l k : DocumentKey) :
    (delete l).writeTo? k = if l = k then some none else none := rfl

theorem writeTo?_expect (l k : DocumentKey) (d : Option Document) :
    (expect l d).writeTo? k = none := rfl

/-- A step that leaves something under a key writes that key. -/
theorem key_of_writeTo? {op : Operation} {k : DocumentKey} {w : Option Document}
    (h : op.writeTo? k = some w) : op.isWrite = true ∧ op.key = k := by
  cases op with
  | put d =>
      rw [writeTo?_put] at h
      split at h
      · next hk => exact ⟨rfl, hk⟩
      · cases h
  | delete l =>
      rw [writeTo?_delete] at h
      split at h
      · next hk => exact ⟨rfl, hk⟩
      · cases h
  | expect l d => cases h

end Operation

namespace Transaction

/-- What the steps of a transaction leave under a key, one write after another. -/
def writesTo (tx : Transaction) (k : DocumentKey) : List (Option Document) :=
  tx.operations.filterMap (Operation.writeTo? k)

/-- What a transaction leaves under a key in the end, if it writes the key. -/
def lastWrite? (tx : Transaction) (k : DocumentKey) : Option (Option Document) :=
  (tx.writesTo k).getLast?

/-- The entry of a transaction in the log. -/
abbrev committed (tx : Transaction) (id : TransactionId) : Committed :=
  ⟨id, tx.validTime, tx.operations⟩

/-- Whether a transaction writes a key. -/
def Writes (tx : Transaction) (k : DocumentKey) : Prop :=
  ∃ op ∈ tx.operations, op.isWrite = true ∧ op.key = k

/-- Nothing is written to a key exactly if no operation writes it. -/
theorem writesTo_eq_nil_iff (tx : Transaction) (k : DocumentKey) :
    tx.writesTo k = [] ↔ ¬ tx.Writes k := by
  simp only [writesTo, Writes, List.filterMap_eq_nil_iff, not_exists, not_and]
  refine forall₂_congr fun op _ => ?_
  cases op with
  | put d => simp [Operation.writeTo?, Operation.written?, Operation.isWrite, Operation.key]
  | delete l =>
      simp [Operation.writeTo?, Operation.written?, Operation.isWrite, Operation.key]
  | expect l d => simp [Operation.writeTo?, Operation.written?, Operation.isWrite]

theorem lastWrite?_eq_none_iff (tx : Transaction) (k : DocumentKey) :
    tx.lastWrite? k = none ↔ ¬ tx.Writes k := by
  rw [lastWrite?, List.getLast?_eq_none_iff, writesTo_eq_nil_iff]

/-- The last step that writes a key counts. -/
theorem lastWrite?_push (tx : Transaction) (op : Operation) (k : DocumentKey) :
    (tx.push op).lastWrite? k = (op.writeTo? k).or (tx.lastWrite? k) := by
  simp only [lastWrite?, writesTo, push, List.filterMap_append, List.getLast?_append]
  cases h : op.writeTo? k with
  | none => simp [h]
  | some d => simp [h]

/-- A transaction is empty if it writes no key. -/
theorem isEmpty_iff (tx : Transaction) : tx.isEmpty = true ↔ ∀ k, ¬ tx.Writes k := by
  rw [isEmpty, Bool.not_eq_true', List.any_eq_false]
  constructor
  · rintro h k ⟨op, hop, hw, -⟩
    exact h op hop hw
  · intro h op hop hw
    exact h op.key ⟨op, hop, hw, rfl⟩

end Transaction

namespace Store

/-! ## Versions after a commit -/

/-- A write adds a version to its key, at the end. -/
theorem versionsOf_write_self (s : Store) (k : DocumentKey) (v : Version) :
    (s.write k v).versionsOf k = s.versionsOf k ++ [v] := by
  simp only [versionsOf, write, Table.get?_update_self, Option.getD_some]

/-- A write leaves the versions of the other keys. -/
theorem versionsOf_write_of_ne (s : Store) {k l : DocumentKey} (v : Version) (h : l ≠ k) :
    (s.write k v).versionsOf l = s.versionsOf l := by
  simp only [versionsOf, write, Table.get?_update_of_ne _ _ h]

/-- An operation adds the version that it writes to a key, if any. -/
private theorem versionsOf_apply (id : TransactionId) (t : Instant) (s : Store)
    (op : Operation) (k : DocumentKey) :
    (s.apply id t op).versionsOf k =
      s.versionsOf k ++ (op.writeTo? k).toList.map (⟨t, id, ·⟩) := by
  simp only [apply, Operation.writeTo?]
  cases op.written? with
  | none => simp
  | some e =>
      obtain ⟨l, d⟩ := e
      by_cases h : l = k
      · subst h
        simp [versionsOf_write_self]
      · simp [versionsOf_write_of_ne s _ (Ne.symm h), h]

/-- Operations add their versions in order. -/
private theorem versionsOf_applyAll (id : TransactionId) (t : Instant) (k : DocumentKey)
    (ops : List Operation) : ∀ s : Store,
    (ops.foldl (apply id t) s).versionsOf k =
      s.versionsOf k ++ (ops.filterMap (Operation.writeTo? k)).map (⟨t, id, ·⟩) := by
  induction ops with
  | nil => intro s; simp
  | cons op ops ih =>
      intro s
      rw [List.foldl_cons, ih, versionsOf_apply]
      cases h : op.writeTo? k with
      | none => simp [h]
      | some d => simp [h]

/-- A successful commit: every match was fine, and the log and the versions grew. -/
theorem submit_eq_ok {s s' : Store} {tx : Transaction} {id : TransactionId}
    (h : s.submit tx = .ok (id, s')) :
    (∀ op ∈ tx.operations, s.accepts tx.validTime op = true) ∧ id = s.nextId ∧
      s'.log = s.log ++ [tx.committed id] ∧
      (∀ k, s'.versionsOf k = s.versionsOf k ++ (tx.writesTo k).map
        (⟨tx.validTime, id, ·⟩)) ∧
      s'.endpoints = (tx.operations.foldl (apply id tx.validTime) s).endpoints := by
  simp only [submit] at h
  split at h
  · cases h
  · next hfind =>
    simp only [Except.ok.injEq, Prod.mk.injEq] at h
    obtain ⟨rfl, rfl⟩ := h
    refine ⟨?_, rfl, rfl, fun k => ?_, rfl⟩
    · intro op hop
      simpa using List.find?_eq_none.mp hfind op hop
    · exact versionsOf_applyAll s.nextId tx.validTime k tx.operations s

/-- A transaction whose steps all see what they expect is committed. -/
theorem submit_of_accepts {s : Store} {tx : Transaction}
    (h : ∀ op ∈ tx.operations, s.accepts tx.validTime op = true) :
    ∃ s', s.submit tx = .ok (s.nextId, s') := by
  have hfind : (tx.operations.find? fun op => !s.accepts tx.validTime op) = none := by
    refine List.find?_eq_none.mpr fun op hop => ?_
    simp [h op hop]
  simp only [submit, hfind]
  exact ⟨_, rfl⟩

/-- A transaction without matches is committed. -/
theorem submit_of_isWrite {s : Store} {tx : Transaction}
    (h : ∀ op ∈ tx.operations, op.isWrite = true) : ∃ s', s.submit tx = .ok
      (s.nextId, s') := by
  refine submit_of_accepts fun op hop => ?_
  have hwrite := h op hop
  cases op with
  | put d => rfl
  | delete k => rfl
  | expect k d => cases hwrite

/-! ## What commits maintain -/

/-- Stores that commits build up from the empty one. -/
inductive Reachable : Store → Prop where
  | empty : Reachable .empty
  | submit {s s' : Store} {tx : Transaction} {id : TransactionId} :
      Reachable s → s.submit tx = .ok (id, s') → Reachable s'

/-- What holds of every store that commits built. -/
structure Sound (s : Store) : Prop where
  /-- Documents lie under their own keys. -/
  filed : ∀ {k v d}, v ∈ s.versionsOf k → v.document = some d → d.key = k
  /-- Versions carry numbers that were given out. -/
  numbered : ∀ {k v}, v ∈ s.versionsOf k → v.transaction.value < s.nextId.value
  /-- The edges noted at an object are those ever written at it. -/
  indexed : ∀ {e r}, e ∈ s.edgesAt r ↔ e.touches r = true ∧
    s.versionsOf (.fact (.edge e)) ≠ []
  /-- The log numbers its commits from one. -/
  logged : ∀ {i c}, s.log[i]? = some c → c.id.value = i + 1

private def noted (t : Table Reference (KeySet EdgeKey)) (r : Reference) (e : EdgeKey) :
    Bool :=
  Table.contains ((t.get? r).getD Table.empty) e

private theorem mem_edgesAt_iff (s : Store) (r : Reference) (e : EdgeKey) :
    e ∈ s.edgesAt r ↔ noted s.endpoints r e = true := by
  simp only [edgesAt, noted]
  cases s.endpoints.get? r with
  | none => simp
  | some ks => exact KeySet.mem_toList ks

/-- An edge is noted at its ends, and what was noted stays. -/
private theorem noted_noteEdge (t : Table Reference (KeySet EdgeKey)) (k e : EdgeKey)
    (r : Reference) :
    noted (noteEdge t k) r e = true ↔ noted t r e = true ∨
    (e = k ∧ k.touches r = true) := by
  have hone : ∀ (t : Table Reference (KeySet EdgeKey)) (q : Reference),
      noted (t.update q fun ks => KeySet.add (ks.getD Table.empty) k) r e = true ↔
        noted t r e = true ∨ (e = k ∧ q = r) := by
    intro t q
    by_cases hq : r = q
    · subst hq
      simp only [noted, Table.get?_update_self, Option.getD_some, KeySet.contains_add_iff,
        and_true]
      exact or_comm
    · simp only [noted, Table.get?_update_of_ne _ _ hq]
      simp [Ne.symm hq]
  show noted (Table.update (Table.update t _ _) _ _) r e = true ↔ _
  rw [hone, hone]
  simp only [EdgeKey.touches, Bool.or_eq_true, beq_iff_eq]
  grind

/-- A write notes its edge at its ends, and nothing else. -/
private theorem mem_edgesAt_write (s : Store) (k : DocumentKey) (v : Version)
    (r : Reference) (e : EdgeKey) :
    e ∈ (s.write k v).edgesAt r ↔
      e ∈ s.edgesAt r ∨ (k = .fact (.edge e) ∧ e.touches r = true) := by
  rw [mem_edgesAt_iff, mem_edgesAt_iff]
  cases k with
  | fact f =>
      cases f with
      | edge k =>
          show noted (noteEdge s.endpoints k) r e = true ↔ _
          rw [noted_noteEdge]
          grind
      | object q => simp [write]
      | declaration q => simp [write]
  | origin o => simp [write]
  | profile q => simp [write]
  | outbox t => simp [write]

/-- An index that names the edges with versions keeps naming them. -/
private theorem indexed_applyAll (id : TransactionId) (t : Instant) (ops : List Operation) :
    ∀ s : Store,
    (∀ e r, e ∈ s.edgesAt r ↔ e.touches r = true ∧ s.versionsOf (.fact (.edge e)) ≠ []) →
    ∀ e r, e ∈ (ops.foldl (apply id t) s).edgesAt r ↔
      e.touches r = true ∧ (ops.foldl (apply id t) s).versionsOf
        (.fact (.edge e)) ≠ [] := by
  induction ops with
  | nil => intro s h; exact h
  | cons op ops ih =>
      intro s h
      refine ih _ fun e r => ?_
      simp only [apply]
      cases op.written? with
      | none => exact h e r
      | some w =>
          obtain ⟨k, d⟩ := w
          show e ∈ (s.write k ⟨t, id, d⟩).edgesAt r ↔ _
          rw [mem_edgesAt_write, h]
          -- a write of an edge enters it at both ends, whatever it writes
          by_cases hk : .fact (.edge e) = k
          · subst hk
            have hne : s.versionsOf (.fact (.edge e)) ++ [⟨t, id, d⟩] ≠ [] := by simp
            rw [versionsOf_write_self]
            grind
          · rw [versionsOf_write_of_ne _ _ hk]
            simp [Ne.symm hk]

/-- The empty store is sound. -/
theorem sound_empty : Sound .empty where
  filed := by intro k v d h; simp [versionsOf, Store.empty] at h
  numbered := by intro k v h; simp [versionsOf, Store.empty] at h
  indexed := by intro e r; simp [versionsOf, edgesAt, Store.empty]
  logged := by intro i c h; simp [Store.empty] at h

/-- Commits are numbered as they are logged, from one. -/
theorem Sound.nextId_value {s : Store} (h : s.Sound) :
    s.nextId.value = s.log.length + 1 := by
  simp only [nextId, lastId]
  cases hl : s.log.getLast? with
  | none =>
      have hnil := List.getLast?_eq_none_iff.mp hl
      simp [hnil]
  | some c =>
      rw [List.getLast?_eq_getElem?] at hl
      have hid := h.logged hl
      have hlt : s.log.length - 1 < s.log.length := (List.getElem?_eq_some_iff.mp hl).1
      simp only [Option.map_some, Option.elim_some, hid]
      omega

/-- A document is written under its own key. -/
private theorem documentKey_of_writeTo? {op : Operation} {k : DocumentKey} {d : Document}
    (h : op.writeTo? k = some (some d)) : d.key = k := by
  cases op with
  | put e =>
      simp only [Operation.writeTo?, Operation.written?, Option.bind_some] at h
      split at h
      · next hk =>
        obtain rfl := Option.some.inj (Option.some.inj h)
        exact hk
      · cases h
  | delete l => simp [Operation.writeTo?, Operation.written?] at h
  | expect l e => simp [Operation.writeTo?, Operation.written?] at h

/-- A commit keeps a store sound. -/
theorem Sound.submit {s s' : Store} {tx : Transaction} {id : TransactionId} (hs : s.Sound)
    (h : s.submit tx = .ok (id, s')) : s'.Sound := by
  obtain ⟨-, rfl, hlog, hvers, hends⟩ := submit_eq_ok h
  have hnext : s'.nextId.value = s.nextId.value + 1 := by
    simp [nextId, lastId, hlog]
  refine ⟨?_, ?_, ?_, ?_⟩
  · intro k v d hv hd
    rw [hvers, List.mem_append] at hv
    rcases hv with hv | hv
    · exact hs.filed hv hd
    -- a new version holds what some operation wrote to its key
    · obtain ⟨d', hd', rfl⟩ := List.mem_map.mp hv
      obtain ⟨op, -, hop⟩ := List.mem_filterMap.mp hd'
      obtain rfl : d' = some d := hd
      exact documentKey_of_writeTo? hop
  · intro k v hv
    rw [hvers, List.mem_append] at hv
    rcases hv with hv | hv
    · have := hs.numbered hv
      omega
    · obtain ⟨d', -, rfl⟩ := List.mem_map.mp hv
      show s.nextId.value < s'.nextId.value
      omega
  · intro e r
    have hfold := indexed_applyAll s.nextId tx.validTime tx.operations s
      (fun e r => hs.indexed) e r
    rw [versionsOf_applyAll] at hfold
    rw [hvers]
    simpa only [edgesAt, hends, Transaction.writesTo] using hfold
  · intro i c hc
    rw [hlog] at hc
    -- the log grew by one entry, numbered by its place
    by_cases hi : i < s.log.length
    · rw [List.getElem?_append_left hi] at hc
      exact hs.logged hc
    · obtain ⟨hlt, rfl⟩ := List.getElem?_eq_some_iff.mp hc
      have hi' : i = s.log.length := by simp at hlt; omega
      subst hi'
      simpa using hs.nextId_value

/-- **Whatever was submitted**, the store is sound. -/
theorem Reachable.sound {s : Store} (h : s.Reachable) : s.Sound := by
  induction h with
  | empty => exact sound_empty
  | submit _ hsub ih => exact ih.submit hsub

/-- The store after some transactions; one that is refused changes nothing. -/
def ofTransactions (txs : List Transaction) : Store :=
  txs.foldl (fun s tx => (s.submit tx).toOption.elim s Prod.snd) .empty

theorem reachable_ofTransactions (txs : List Transaction) :
    (ofTransactions txs).Reachable := by
  -- from any reachable store, since the fold moves its start
  suffices h : ∀ s : Store, s.Reachable →
      (txs.foldl (fun s tx => (s.submit tx).toOption.elim s Prod.snd) s).Reachable from
    h .empty .empty
  induction txs with
  | nil => intro s hs; exact hs
  | cons tx txs ih =>
      intro s hs
      have hnext : ((s.submit tx).toOption.elim s Prod.snd).Reachable := by
        cases hsub : s.submit tx with
        | error e => exact hs
        | ok p => exact .submit hs hsub
      exact ih _ hnext

/-! ## The log after a commit -/

/-- A commit can be looked up by its number. -/
theorem transaction?_submit {s s' : Store} {tx : Transaction} {id : TransactionId}
    (hs : s.Sound) (h : s.submit tx = .ok (id, s')) :
    s'.transaction? id = some (tx.committed id) := by
  obtain ⟨-, rfl, hlog, -, -⟩ := submit_eq_ok h
  have hv := hs.nextId_value
  simp only [transaction?, hlog]
  rw [if_neg (by omega), hv]
  simp

/-- Earlier commits stay in the log. -/
theorem transaction?_submit_of_some {s s' : Store} {tx : Transaction} {id i : TransactionId}
    {c : Committed} (h : s.submit tx = .ok (id, s')) (hc : s.transaction? i = some c) :
    s'.transaction? i = some c := by
  obtain ⟨-, -, hlog, -, -⟩ := submit_eq_ok h
  simp only [transaction?, hlog] at hc ⊢
  split at hc
  · cases hc
  · next h0 =>
    rw [if_neg h0, List.getElem?_append_left (List.getElem?_eq_some_iff.mp hc).1]
    exact hc

/-! ## Documents that show -/

/-- A visible document lies under its own key. -/
theorem Sound.key_of_visible {s : Store} (hs : s.Sound) {t : Instant} {k : DocumentKey}
    {d : Document} (h : s.visible t k = some d) : d.key = k := by
  obtain ⟨v, hv, hd⟩ := Option.bind_eq_some_iff.mp h
  exact hs.filed (List.mem_filter.mp (mem_of_lastMax? hv)).1 hd

/-- A key under which something shows has versions. -/
theorem mem_keys_of_visible {s : Store} {t : Instant} {k : DocumentKey} {d : Document}
    (h : s.visible t k = some d) : k ∈ s.versions.keys := by
  rw [Table.mem_keys_iff]
  cases hv : s.versions.get? k with
  | some vs => exact ⟨vs, rfl⟩
  | none => simp [visible, versionsOf, hv, showing, lastMax?] at h

/-- A query gives the visible documents that it asks for. -/
theorem mem_visibleWhere {s : Store} {t : Instant} {p : DocumentKey → Document → Bool}
    {d : Document} :
    d ∈ s.visibleWhere t p ↔ ∃ k, s.visible t k = some d ∧ p k d = true := by
  simp only [visibleWhere, List.mem_filterMap, Option.filter_eq_some_iff]
  constructor
  · rintro ⟨k, -, hk⟩
    exact ⟨k, hk⟩
  · rintro ⟨k, hk, hp⟩
    exact ⟨k, mem_keys_of_visible hk, hk, hp⟩

/-- Documents that show are found by ascending key. -/
theorem Sound.pairwise_visibleWhere {s : Store} (hs : s.Sound) (t : Instant)
    (p : DocumentKey → Document → Bool) :
    (s.visibleWhere t p).Pairwise fun a b => compare a.key b.key = .lt := by
  rw [visibleWhere, List.pairwise_filterMap]
  refine s.versions.pairwise_keys.imp ?_
  intro k l hkl a ha b hb
  rw [hs.key_of_visible (Option.filter_eq_some_iff.mp ha).1,
    hs.key_of_visible (Option.filter_eq_some_iff.mp hb).1]
  exact hkl

/-! ## What shows after a commit -/

/-- Whether a version of a key starts after one instant, and not after another. -/
def StartsWithin (s : Store) (k : DocumentKey) (t u : Instant) : Prop :=
  ∃ v ∈ s.versionsOf k, t < v.validFrom ∧ v.validFrom ≤ u

theorem compare_validFrom_isLE {v w : Version} (h : (Version.order v w).isLE = true) :
    v.validFrom ≤ w.validFrom := by
  rw [Instant.le_iff_compare]
  intro hgt
  simp [Version.order, hgt] at h

/-- A version with a greater number wins exactly when no later valid time stands against
    it. -/
theorem order_eq_gt_iff {v w : Version} (h : v.transaction.value < w.transaction.value) :
    Version.order v w = .gt ↔ w.validFrom < v.validFrom := by
  have ht : compare v.transaction w.transaction = .lt := by
    show compare v.transaction.value w.transaction.value = .lt
    exact Nat.compare_eq_lt.mpr h
  have hswap : compare w.validFrom v.validFrom = (compare v.validFrom w.validFrom).swap :=
    OrientedCmp.eq_swap
  rw [Instant.lt_iff_compare, hswap]
  simp only [Version.order, ht]
  cases compare v.validFrom w.validFrom <;> decide

/-- Versions that start later do not matter. -/
private theorem showing_append_of_lt {vs : List Version} {t : Instant} {id : TransactionId}
    (ds : List (Option Document)) {u : Instant} (hu : u < t) :
    showing u (vs ++ ds.map (⟨t, id, ·⟩)) = showing u vs := by
  have hnew : (ds.map fun d => (⟨t, id, d⟩ : Version)).filter
      (fun v => v.validFrom ≤ u) = [] := by
    refine List.filter_eq_nil_iff.mpr fun v hv => ?_
    obtain ⟨d, -, rfl⟩ := List.mem_map.mp hv
    simpa using hu
  rw [showing, List.filter_append, hnew, List.append_nil, showing]

/-- The last of the versions a commit appends stands against the newest one before. -/
theorem lastMax?_append_versions {vs : List Version} {t : Instant} {id : TransactionId}
    (hid : ∀ v ∈ vs, v.transaction.value < id.value) {ds : List (Option Document)}
    {d : Option Document} (hd : ds.getLast? = some d) :
    lastMax? Version.order (vs ++ ds.map (⟨t, id, ·⟩)) =
      (match lastMax? Version.order vs with
      | none => some ⟨t, id, d⟩
      | some x => if t < x.validFrom then some x else some ⟨t, id, d⟩) := by
  have hlast : lastMax? Version.order (ds.map fun d => (⟨t, id, d⟩ : Version)) =
      some ⟨t, id, d⟩ := by
    have hequal : (ds.map fun d => (⟨t, id, d⟩ : Version)).Pairwise
        fun v w => Version.order v w ≠ .gt := by
      refine List.pairwise_map.mpr (List.pairwise_of_forall fun a b => ?_)
      have hself : Version.order ⟨t, id, a⟩ ⟨t, id, a⟩ = .eq := ReflCmp.compare_self
      exact fun hgt => nomatch hself.symm.trans hgt
    rw [lastMax?_eq_getLast? hequal, List.getLast?_map, hd]
    rfl
  rw [lastMax?_append, hlast]
  cases hx : lastMax? Version.order vs with
  | none => rfl
  | some x => simp only [order_eq_gt_iff (w := ⟨t, id, d⟩) (hid x (mem_of_lastMax? hx))]

/-- From its valid time on, the last of the versions a commit appends stands against the
    version that showed before. -/
private theorem showing_append_of_le {vs : List Version} {t : Instant} {id : TransactionId}
    (hid : ∀ v ∈ vs, v.transaction.value < id.value) (ds : List (Option Document))
    {u : Instant} (hu : t ≤ u) {d : Option Document} (hd : ds.getLast? = some d) :
    showing u (vs ++ ds.map (⟨t, id, ·⟩)) = (match showing u vs with
      | none => some ⟨t, id, d⟩
      | some x => if t < x.validFrom then some x else some ⟨t, id, d⟩) := by
  have hnew : (ds.map fun d => (⟨t, id, d⟩ : Version)).filter (fun v => v.validFrom ≤ u) =
      ds.map (⟨t, id, ·⟩) := by
    refine List.filter_eq_self.mpr fun v hv => ?_
    obtain ⟨d, -, rfl⟩ := List.mem_map.mp hv
    exact decide_eq_true hu
  rw [showing, List.filter_append, hnew]
  exact lastMax?_append_versions (fun v hv => hid v (List.mem_filter.mp hv).1) hd

/-- The version that shows starts later than `t` exactly when some version does. -/
private theorem lt_showing_iff {vs : List Version} {u : Instant} {x : Version}
    (hx : showing u vs = some x) (t : Instant) :
    t < x.validFrom ↔ ∃ v ∈ vs, t < v.validFrom ∧ v.validFrom ≤ u := by
  have hxm := List.mem_filter.mp (mem_of_lastMax? hx)
  constructor
  · intro htx
    exact ⟨x, hxm.1, htx, of_decide_eq_true hxm.2⟩
  · rintro ⟨v, hv, htv, hvu⟩
    have hle := isLE_of_lastMax? hx v (List.mem_filter.mpr ⟨hv, decide_eq_true hvu⟩)
    exact lt_of_lt_of_le htv (compare_validFrom_isLE hle)

/-- Where no version shows, none starts by then. -/
private theorem showing_eq_none {vs : List Version} {u : Instant} (h : showing u vs = none)
    {v : Version} (hv : v ∈ vs) : ¬ v.validFrom ≤ u := by
  intro hvu
  have hmem : v ∈ vs.filter fun v => v.validFrom ≤ u :=
    List.mem_filter.mpr ⟨hv, decide_eq_true hvu⟩
  rw [lastMax?_eq_none_iff.mp h] at hmem
  cases hmem

section Commit

variable {s s' : Store} {tx : Transaction} {id : TransactionId} (hs : s.Sound)
  (h : s.submit tx = .ok (id, s'))

include h in
/-- A commit does not change what shows before its valid time. -/
theorem visible_submit_of_lt {u : Instant} (hu : u < tx.validTime) (k : DocumentKey) :
    s'.visible u k = s.visible u k := by
  obtain ⟨-, rfl, -, hvers, -⟩ := submit_eq_ok h
  rw [visible, hvers, showing_append_of_lt _ hu, visible]

include h in
/-- A commit does not change the documents it does not write. -/
theorem visible_submit_of_not_writes {k : DocumentKey} (hk : ¬ tx.Writes k) (u : Instant) :
    s'.visible u k = s.visible u k := by
  obtain ⟨-, rfl, -, hvers, -⟩ := submit_eq_ok h
  rw [visible, hvers, (tx.writesTo_eq_nil_iff k).mpr hk, List.map_nil,
    List.append_nil, visible]

include hs h

/-- **What shows after a commit**: what it left under a key, from its valid time on as
    long as no version that was there starts. -/
theorem visible_submit {u : Instant} (hu : tx.validTime ≤ u) {k : DocumentKey}
    (hk : ¬ s.StartsWithin k tx.validTime u) :
    s'.visible u k = (tx.lastWrite? k).getD (s.visible u k) := by
  obtain ⟨-, rfl, -, hvers, -⟩ := submit_eq_ok h
  rw [visible, hvers, Transaction.lastWrite?]
  cases hd : (tx.writesTo k).getLast? with
  | none =>
      rw [List.getLast?_eq_none_iff.mp hd, List.map_nil, List.append_nil,
        Option.getD_none, visible]
  | some d =>
      rw [showing_append_of_le (fun v hv => hs.numbered hv) _ hu hd, Option.getD_some]
      cases hx : showing u (s.versionsOf k) with
      | none => rfl
      | some x =>
          have hno : ¬ tx.validTime < x.validFrom :=
            fun hlt => hk ((lt_showing_iff hx _).mp hlt)
          simp only [if_neg hno, Option.bind_some]

/-- Where a version that was there starts later, it goes on showing. -/
theorem visible_submit_of_startsWithin {u : Instant} {k : DocumentKey}
    (hk : s.StartsWithin k tx.validTime u) : s'.visible u k = s.visible u k := by
  obtain ⟨-, rfl, -, hvers, -⟩ := submit_eq_ok h
  have hu : tx.validTime ≤ u := by
    obtain ⟨v, -, hlt, hle⟩ := hk
    exact le_of_lt (lt_of_lt_of_le hlt hle)
  rw [visible, hvers]
  cases hd : (tx.writesTo k).getLast? with
  | none => rw [List.getLast?_eq_none_iff.mp hd, List.map_nil, List.append_nil, visible]
  | some d =>
      rw [showing_append_of_le (fun v hv => hs.numbered hv) _ hu hd, visible]
      cases hx : showing u (s.versionsOf k) with
      | none =>
          obtain ⟨v, hv, -, hle⟩ := hk
          exact absurd hle (showing_eq_none hx hv)
      | some x => simp only [if_pos ((lt_showing_iff hx _).mpr hk)]

/-- At any instant the same shows after a commit as before, or what the commit left. -/
theorem visible_submit_or (u : Instant) (k : DocumentKey) :
    s'.visible u k = s.visible u k ∨ tx.lastWrite? k = some (s'.visible u k) := by
  rcases lt_or_ge u tx.validTime with hlt | hle
  · exact .inl (visible_submit_of_lt h hlt k)
  · by_cases hk : s.StartsWithin k tx.validTime u
    · exact .inl (visible_submit_of_startsWithin hs h hk)
    · rw [visible_submit hs h hle hk]
      cases tx.lastWrite? k with
      | none => exact .inl rfl
      | some d => exact .inr rfl

/-- A commit shows at its own valid time. -/
theorem visible_submit_self (k : DocumentKey) :
    s'.visible tx.validTime k = (tx.lastWrite? k).getD (s.visible tx.validTime k) := by
  refine visible_submit hs h (le_refl _) ?_
  rintro ⟨v, -, hlt, hle⟩
  exact absurd hlt (not_lt.mpr hle)

end Commit

/-- Where no version starts in between, the same document shows. -/
theorem visible_eq_of_not_startsWithin {s : Store} {k : DocumentKey} {t u : Instant}
    (htu : t ≤ u) (hk : ¬ s.StartsWithin k t u) : s.visible u k = s.visible t k := by
  have hfilter : (s.versionsOf k).filter (fun v => v.validFrom ≤ u) =
      (s.versionsOf k).filter (fun v => v.validFrom ≤ t) := by
    refine List.filter_congr fun v hv => ?_
    rw [decide_eq_decide]
    constructor
    · intro hvu
      exact not_lt.mp fun hlt => hk ⟨v, hv, hlt, hvu⟩
    · intro hvt
      exact le_trans hvt htu
  simp only [visible, showing, hfilter]

end Store

end ClearanceGraph
