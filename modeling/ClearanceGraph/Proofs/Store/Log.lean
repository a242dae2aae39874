import ClearanceGraph.Proofs.Store.Query
import ClearanceGraph.World

/-! # The log — a store is what was committed to it

    Whatever calls are made of a store, with matches that fail, failures injected
    and the store switched off in between, its answers are those of the committed
    transactions, applied one after another to an empty store
    (`Backend.built_after`).  A call that fails commits nothing.

    What shows is read off the log: of the writes to a key up to an instant the
    greatest by valid time, then by commit, then by place in the commit.  Versions
    are chosen by valid time and commit only, the last of several; the place comes
    in because versions are kept in the order of the log
    (`Store.visible_eq_or_none`). -/

open Std (TransCmp ReflCmp OrientedCmp LawfulEqCmp)

namespace ClearanceGraph

/-! ## Writes -/

/-- A write of a key, with its place in the log. -/
structure Write where
  validFrom : Instant
  transaction : TransactionId
  /-- The place among the steps of the commit. -/
  position : Nat
  /-- What the write left; none after a delete. -/
  document : Option Document

namespace Write

/-- What the store keeps of a write. -/
def version (w : Write) : Version := ⟨w.validFrom, w.transaction, w.document⟩

/-- Writes are ordered by valid time, then by commit, then by place. -/
def order (v w : Write) : Ordering :=
  (compare v.validFrom w.validFrom).then
    ((compare v.transaction w.transaction).then (compare v.position w.position))

end Write

namespace Committed

/-- A commit wrote a key. -/
structure Wrote (c : Committed) (k : DocumentKey) (w : Write) : Prop where
  validFrom : w.validFrom = c.validTime
  transaction : w.transaction = c.id
  step : ∃ op, c.operations[w.position]? = some op ∧ op.writeTo? k = some w.document

/-- The writes of a key, in the order of the steps. -/
def writes (c : Committed) (k : DocumentKey) : List Write :=
  c.operations.zipIdx.filterMap fun p => (p.1.writeTo? k).map (⟨c.validTime, c.id, p.2, ·⟩)

/-- A write of a commit to a key. -/
theorem mem_writes_iff {c : Committed} {k : DocumentKey} {w : Write} :
    w ∈ c.writes k ↔ c.Wrote k w := by
  simp only [writes, List.mem_filterMap, Prod.exists, List.mem_zipIdx_iff_getElem?,
    Option.map_eq_some_iff]
  constructor
  · rintro ⟨op, i, hi, d, hd, rfl⟩
    exact ⟨rfl, rfl, op, hi, hd⟩
  · rintro ⟨hfrom, hid, op, hi, hd⟩
    refine ⟨op, w.position, hi, w.document, hd, ?_⟩
    rw [← hfrom, ← hid]

/-- The writes of a commit stand in the order of their places. -/
theorem pairwise_writes (c : Committed) (k : DocumentKey) :
    (c.writes k).Pairwise fun v w => v.position < w.position := by
  have hplaces : c.operations.zipIdx.Pairwise fun p q => p.2 < q.2 := by
    rw [← List.pairwise_map, List.zipIdx_map_snd]
    exact List.pairwise_lt_range'
  rw [writes, List.pairwise_filterMap]
  refine hplaces.imp fun {p q} hpq v hv w hw => ?_
  obtain ⟨d, -, rfl⟩ := Option.map_eq_some_iff.mp hv
  obtain ⟨e, -, rfl⟩ := Option.map_eq_some_iff.mp hw
  exact hpq

/-- The writes of a commit are its versions. -/
theorem map_version_writes (tx : Transaction) (id : TransactionId) (k : DocumentKey) :
    ((tx.committed id).writes k).map Write.version =
      (tx.writesTo k).map (⟨tx.validTime, id, ·⟩) := by
  have hplaces : tx.operations = tx.operations.zipIdx.map Prod.fst :=
    (List.zipIdx_map_fst 0 _).symm
  rw [Transaction.writesTo, hplaces, List.filterMap_map, writes, List.map_filterMap,
    List.map_filterMap]
  refine List.filterMap_congr fun p _ => ?_
  simp only [Option.map_map, Function.comp_def, Write.version]

end Committed

namespace Store

variable {s : Store} {k : DocumentKey} {u : Instant}

/-- The writes of a key, in the order of the log. -/
def writes (s : Store) (k : DocumentKey) : List Write := s.log.flatMap fun c => c.writes k

/-- A write is the greatest one of a key up to an instant. -/
structure Decides (s : Store) (u : Instant) (k : DocumentKey) (w : Write) : Prop where
  wrote : ∃ c ∈ s.log, c.Wrote k w
  started : w.validFrom ≤ u
  greatest : ∀ c ∈ s.log, ∀ v, c.Wrote k v → v.validFrom ≤ u → (Write.order v w).isLE = true

/-- A write of a store is one of a commit in its log. -/
theorem mem_writes_iff {w : Write} : w ∈ s.writes k ↔ ∃ c ∈ s.log, c.Wrote k w := by
  simp only [writes, List.mem_flatMap, Committed.mem_writes_iff]

/-- **The versions are the writes of the log.** -/
theorem Reachable.map_version_writes (h : s.Reachable) (k : DocumentKey) :
    (s.writes k).map Write.version = s.versionsOf k := by
  induction h with
  | empty => simp [writes, versionsOf, Store.empty]
  | submit _ hsub ih =>
      obtain ⟨-, -, hlog, hvers, -⟩ := submit_eq_ok hsub
      rw [hvers, ← ih, writes, hlog, List.flatMap_append, List.map_append, ← writes,
        List.flatMap_singleton, Committed.map_version_writes]

/-- Of two writes of one commit the first stands before the second. -/
theorem Sound.pairwise_writes (hs : s.Sound) (k : DocumentKey) :
    (s.writes k).Pairwise fun v w => v.transaction = w.transaction →
    v.position < w.position := by
  rw [writes, List.pairwise_flatMap]
  constructor
  · intro c _
    refine (c.pairwise_writes k).imp ?_
    intro v w hvw _
    exact hvw
  -- writes of different commits carry different numbers
  rw [List.pairwise_iff_getElem]
  intro i j hi hj hij v hv w hw htx
  have hv' := (Committed.mem_writes_iff.mp hv).transaction
  have hw' := (Committed.mem_writes_iff.mp hw).transaction
  have hni := hs.logged (List.getElem?_eq_getElem hi)
  have hnj := hs.logged (List.getElem?_eq_getElem hj)
  rw [← hv', htx, hw', hnj] at hni
  omega

/-- Versions are ordered as their writes are. -/
private theorem order_version (v w : Write) : Version.order v.version w.version =
    (compare v.validFrom w.validFrom).then (compare v.transaction w.transaction) := rfl

/-- Versions in order make writes in order, as far as places decide between equal ones. -/
private theorem order_isLE_of_version {v w : Write}
    (h : (Version.order v.version w.version).isLE = true)
    (hpos : v.validFrom = w.validFrom → v.transaction = w.transaction →
      v.position ≤ w.position) :
    (Write.order v w).isLE = true := by
  rw [order_version] at h
  rw [Write.order]
  cases hfrom : compare v.validFrom w.validFrom with
  | lt => rfl
  | gt =>
      rw [hfrom] at h
      cases h
  | eq =>
      rw [hfrom, Ordering.eq_then] at h
      rw [Ordering.eq_then]
      cases htx : compare v.transaction w.transaction with
      | lt => rfl
      | gt =>
          rw [htx] at h
          cases h
      | eq =>
          rw [Ordering.eq_then, Nat.isLE_compare]
          exact hpos (LawfulEqCmp.eq_of_compare hfrom) (LawfulEqCmp.eq_of_compare htx)

private instance : TransCmp fun v w : Write => Version.order v.version w.version where
  eq_swap {v w} := by
    show Version.order v.version w.version = (Version.order w.version v.version).swap
    exact OrientedCmp.eq_swap
  isLE_trans {u v w} huv hvw := by
    have huv : (Version.order u.version v.version).isLE = true := huv
    have hvw : (Version.order v.version w.version).isLE = true := hvw
    exact TransCmp.isLE_trans huv hvw

/-- **What shows is the greatest write of the log** up to an instant; where there is
    none, nothing shows. -/
theorem Reachable.visible_eq_or_none (h : s.Reachable) (u : Instant) (k : DocumentKey) :
    (∃ w, s.Decides u k w ∧ s.visible u k = w.document) ∨
      (∀ c ∈ s.log, ∀ w, c.Wrote k w → u < w.validFrom) ∧ s.visible u k = none := by
  have hshowing : showing u (s.versionsOf k) =
      (lastMax? (fun v w => Version.order v.version w.version)
        ((s.writes k).filter fun w => w.validFrom ≤ u)).map Write.version := by
    rw [← h.map_version_writes, showing, List.filter_map, lastMax?_map]
    rfl
  rw [visible, hshowing]
  cases hlast : lastMax? (fun v w => Version.order v.version w.version)
      ((s.writes k).filter fun w => w.validFrom ≤ u) with
  | none =>
      right
      refine ⟨fun c hc w hw => ?_, rfl⟩
      have hno := List.filter_eq_nil_iff.mp (lastMax?_eq_none_iff.mp hlast) w
        (mem_writes_iff.mpr ⟨c, hc, hw⟩)
      exact lt_of_not_ge fun hle => hno (decide_eq_true hle)
  | some w =>
      left
      obtain ⟨hmem, hle⟩ := List.mem_filter.mp (mem_of_lastMax? hlast)
      refine ⟨w, ⟨mem_writes_iff.mp hmem, of_decide_eq_true hle, fun c hc v hv hvu => ?_⟩,
        rfl⟩
      have hvmem : v ∈ (s.writes k).filter fun w => w.validFrom ≤ u :=
        List.mem_filter.mpr ⟨mem_writes_iff.mpr ⟨c, hc, hv⟩, decide_eq_true hvu⟩
      refine order_isLE_of_version (isLE_of_lastMax? hlast v hvmem) fun hfrom htx => ?_
      -- whatever stands behind the chosen write is less, so `v` does not
      obtain ⟨as, bs, hsplit, hbs⟩ := exists_split_of_lastMax? hlast
      have hplaces := (h.sound.pairwise_writes k).filter fun w => decide (w.validFrom ≤ u)
      rw [hsplit] at hvmem hplaces
      rcases List.mem_append.mp hvmem with hv | hv
      · exact Nat.le_of_lt
          ((List.pairwise_append.mp hplaces).2.2 v hv w List.mem_cons_self htx)
      · rcases List.mem_cons.mp hv with rfl | hv
        · exact Nat.le_refl _
        · have hself : Version.order v.version w.version = .eq := by
            rw [order_version, hfrom, htx, ← order_version]
            exact ReflCmp.compare_self
          cases (hbs v hv).symm.trans hself

/-- A commit changes no answer about an earlier instant. -/
theorem Sound.query_submit_of_lt {s' : Store} {tx : Transaction} {id : TransactionId}
    (hs : s.Sound)
    (h : s.submit tx = .ok (id, s')) (hu : u < tx.validTime) (q : Query) :
    s'.query u q = s.query u q :=
  (hs.submit h).query_congr hs (fun k => visible_submit_of_lt h hu k) q

/-! ## Stores of transactions -/

/-- The last transaction is submitted to the store of the others. -/
theorem ofTransactions_concat {txs : List Transaction} {tx : Transaction}
    {id : TransactionId}
    {s' : Store} (h : (ofTransactions txs).submit tx = .ok (id, s')) :
    ofTransactions (txs ++ [tx]) = s' := by
  rw [ofTransactions, List.foldl_append, ← ofTransactions, List.foldl_cons, h]
  rfl

/-- A list of transactions that are all committed, one after another. -/
def Commits (txs : List Transaction) : Prop :=
  (ofTransactions txs).log = txs.mapIdx fun i tx => tx.committed ⟨i + 1⟩

/-- A transaction that commits adds one to those that all commit. -/
theorem Commits.concat {txs : List Transaction} {tx : Transaction} {id : TransactionId}
    {s' : Store} (hall : Commits txs) (h : (ofTransactions txs).submit tx = .ok (id, s')) :
    Commits (txs ++ [tx]) := by
  have hnext := (reachable_ofTransactions txs).sound.nextId_value
  obtain ⟨-, rfl, hlog, -, -⟩ := submit_eq_ok h
  have hid : (ofTransactions txs).nextId = ⟨txs.length + 1⟩ := by
    rw [hall, List.length_mapIdx] at hnext
    exact congrArg TransactionId.mk hnext
  rw [Commits, ofTransactions_concat h, hlog, hall, hid, List.mapIdx_concat]

end Store

/-! ## Calls -/

/-- What can be asked of a store. -/
inductive Question where
  | query (t : Instant) (q : Query)
  | history (k : DocumentKey)
  | transaction (id : TransactionId)
  /-- The last commit. -/
  | sync

/-- What a store answers. -/
inductive Answer where
  | documents (ds : List Document)
  | versions (vs : List Dated)
  | commit (c : Option Committed)
  | last (id : Option TransactionId)

def Store.answer (s : Store) : Question → Except StorageError Answer
  | .query t q => .ok (.documents (s.query t q))
  | .history k => (s.history k).map .versions
  | .transaction id => .ok (.commit (s.transaction? id))
  | .sync => .ok (.last s.lastId)

namespace Backend

/-- What is done to a store. -/
inductive Call where
  | submit (tx : Transaction)
  /-- The next submits, so many, are to fail. -/
  | failNext (n : Nat)
  | setAvailable (on : Bool)

/-- The store after a call. -/
def perform (b : Backend) : Call → Backend
  | .submit tx => (b.submit tx).2
  | .failNext n => { b with failing := n }
  | .setAvailable on => { b with isDown := !on }

/-- The store after some calls of an empty one. -/
def after (calls : List Call) : Backend := calls.foldl perform .empty

/-- The transaction that a call commits, if it commits one. -/
def committed? (b : Backend) : Call → Option Transaction
  | .submit tx => (b.submit tx).1.toOption.map fun _ => tx
  | _ => none

/-- The transactions that some calls commit. -/
def commitsFrom : Backend → List Call → List Transaction
  | _, [] => []
  | b, c :: cs => (b.committed? c).toList ++ commitsFrom (b.perform c) cs

/-- The transactions that some calls of an empty store commit. -/
def commits (calls : List Call) : List Transaction := commitsFrom .empty calls

/-- What is answered to a question; nothing while the store is off. -/
def answer (b : Backend) (q : Question) : Except StorageError Answer :=
  (b.ask fun s => s.answer q).bind id

/-- The last call is made on the backend after the others. -/
theorem after_concat (calls : List Call) (c : Call) :
    after (calls ++ [c]) = (after calls).perform c := by
  rw [after, List.foldl_append]
  rfl

/-- The last call commits what it commits on the backend after the others. -/
private theorem commitsFrom_concat (calls : List Call) (c : Call) : ∀ b : Backend,
    b.commitsFrom (calls ++ [c]) =
      b.commitsFrom calls ++ ((calls.foldl perform b).committed? c).toList := by
  induction calls with
  | nil => intro b; simp [commitsFrom]
  | cons d calls ih =>
      intro b
      rw [List.cons_append, commitsFrom, ih, commitsFrom, List.append_assoc]
      rfl

/-- So it does from the empty backend on. -/
theorem commits_concat (calls : List Call) (c : Call) :
    commits (calls ++ [c]) = commits calls ++ ((after calls).committed? c).toList :=
  commitsFrom_concat calls c .empty

/-- **One submit** is refused, or a store that is on commits the transaction. -/
theorem submit_cases (b : Backend) (tx : Transaction) :
    (∃ e n, b.submit tx = (.error e, { b with failing := n })) ∨
      ∃ id s', (b.isDown = false ∧ b.failing = 0) ∧ b.store.submit tx = .ok (id, s') ∧
        b.submit tx = (.ok id, { b with store := s' }) := by
  rw [submit]
  split
  · exact .inl ⟨_, b.failing, rfl⟩
  · next hon =>
    split
    · next n _ => exact .inl ⟨_, n, rfl⟩
    · next hno =>
      split
      · next id s' h => exact .inr ⟨id, s', ⟨eq_false_of_ne_true hon, hno⟩, h, rfl⟩
      · next e _ => exact .inl ⟨e, b.failing, rfl⟩

/-- A store that is on, and of which no submit is to fail, decides by the transaction. -/
theorem submit_of_on {b : Backend} (h : b.isDown = false ∧ b.failing = 0)
    (tx : Transaction) :
    b.submit tx = (match b.store.submit tx with
      | .ok (id, s) => (.ok id, { b with store := s })
      | .error e => (.error e, b)) := by
  rw [submit, h.1, h.2]
  rfl

/-- A store that some transactions built, all of which were committed. -/
structure Built (b : Backend) (txs : List Transaction) : Prop where
  store : b.store = .ofTransactions txs
  commits : Store.Commits txs

/-- The empty backend is built from nothing. -/
theorem built_empty : Built .empty [] := ⟨rfl, rfl⟩

/-- **One call** adds what it commits. -/
theorem Built.perform {b : Backend} {txs : List Transaction} (h : b.Built txs) (c : Call) :
    (b.perform c).Built (txs ++ (b.committed? c).toList) := by
  -- a call that commits nothing leaves the store
  have hleft : b.committed? c = none → (b.perform c).store = b.store →
      (b.perform c).Built (txs ++ (b.committed? c).toList) := by
    intro hno hstore
    rw [hno, Option.toList_none, List.append_nil]
    exact ⟨hstore.trans h.store, h.commits⟩
  cases c with
  | failNext n => exact hleft rfl rfl
  | setAvailable on => exact hleft rfl rfl
  | submit tx =>
      rcases b.submit_cases tx with ⟨e, n, hr⟩ | ⟨id, s', -, hsub, hr⟩
      · refine hleft ?_ ?_
        · rw [committed?, hr]
          rfl
        · rw [Backend.perform, hr]
      · rw [h.store] at hsub
        rw [committed?, Backend.perform, hr]
        exact ⟨(Store.ofTransactions_concat hsub).symm, h.commits.concat hsub⟩

/-- **Calls build a backend from what they commit.** -/
theorem Built.performAll (calls : List Call) : ∀ {b : Backend} {txs : List Transaction},
    b.Built txs → (calls.foldl Backend.perform b).Built (txs ++ b.commitsFrom calls) := by
  induction calls with
  | nil => intro b txs h; simpa [commitsFrom] using h
  | cons c calls ih =>
      intro b txs h
      rw [List.foldl_cons, commitsFrom, ← List.append_assoc]
      exact ih (h.perform c)

/-- After any calls the store is that of the commits. -/
theorem built_after (calls : List Call) : (after calls).Built (commits calls) :=
  built_empty.performAll calls

theorem Built.reachable {b : Backend} {txs : List Transaction} (h : b.Built txs) :
    b.store.Reachable := h.store ▸ Store.reachable_ofTransactions txs

/-- The answers after some calls are what the committed transactions make of an empty
    store. -/
structure FollowsLog (calls : List Call) : Prop where
  /-- A submit that fails commits nothing and changes no answer; the submits that are to
  fail may become fewer. -/
  refused : ∀ tx e, ((after calls).submit tx).1 = .error e →
    commits (calls ++ [.submit tx]) = commits calls ∧
      (∃ n, after (calls ++ [.submit tx]) = { after calls with failing := n }) ∧
      ∀ q, (after (calls ++ [.submit tx])).answer q = (after calls).answer q
  /-- A submit that succeeds gives the number of its commit, under which its steps are
  found, and changes no answer about an earlier instant. -/
  accepted : ∀ tx id, ((after calls).submit tx).1 = .ok id →
    commits (calls ++ [.submit tx]) = commits calls ++ [tx] ∧
      id.value = (commits calls).length + 1 ∧
      (after (calls ++ [.submit tx])).answer (.transaction id) =
        .ok (.commit (some (tx.committed id))) ∧
      ∀ u < tx.validTime, ∀ q,
        (after (calls ++ [.submit tx])).answer (.query u q) = (after calls).answer
          (.query u q)
  /-- A store that is on answers as the commits do on an empty one. -/
  answers : ∀ q, (after calls).answer q = if (after calls).isDown then .error storeDown else
    (Store.ofTransactions (commits calls)).answer q
  /-- The log is the list of the commits. -/
  log : (after calls).store.log = (commits calls).mapIdx fun i tx => tx.committed ⟨i + 1⟩
  /-- What shows is the greatest write of the log up to the instant. -/
  shows : ∀ u k, (∃ w, (after calls).store.Decides u k w ∧
      (after calls).store.query u (.key k) = w.document.toList) ∨
    (∀ c ∈ (after calls).store.log, ∀ w, c.Wrote k w → u < w.validFrom) ∧
      (after calls).store.query u (.key k) = []

/-- **The store is its log**, whatever calls are made of it. -/
theorem followsLog (calls : List Call) : FollowsLog calls where
  refused tx e he := by
    rcases (after calls).submit_cases tx with ⟨e', n, hr⟩ | ⟨id, s', -, -, hr⟩
    · -- a refusal may use up an injected failure, which no answer shows
      have hafter : after (calls ++ [.submit tx]) = { after calls with failing := n } := by
        rw [after_concat, perform, hr]
      rw [commits_concat, committed?, hr, hafter]
      exact ⟨List.append_nil _, ⟨n, rfl⟩, fun q => rfl⟩
    · rw [hr] at he
      cases he
  accepted tx id hid := by
    have hbuilt := built_after calls
    rcases (after calls).submit_cases tx with ⟨e, n, hr⟩ | ⟨id', s', ⟨hon, -⟩, hsub, hr⟩
    · rw [hr] at hid
      cases hid
    obtain rfl : id' = id := by
      rw [hr] at hid
      exact Except.ok.inj hid
    have hs := hbuilt.reachable.sound
    have hafter : after (calls ++ [.submit tx]) = { after calls with store := s' } := by
      rw [after_concat, perform, hr]
    -- numbers are given in order, so this one is the next of the log
    have hnext := hs.nextId_value
    rw [← (Store.submit_eq_ok hsub).2.1, hbuilt.store, hbuilt.commits,
      List.length_mapIdx] at hnext
    refine ⟨?_, hnext, ?_, fun u hu q => ?_⟩
    · rw [commits_concat, committed?, hr]
      rfl
    · rw [hafter, answer, ask, hon]
      show Except.ok (Answer.commit (s'.transaction? id')) = _
      rw [Store.transaction?_submit hs hsub]
    · rw [hafter, answer, ask, answer, ask, hon]
      show Except.ok (Answer.documents (s'.query u q)) = _
      rw [hs.query_submit_of_lt hsub hu]
      rfl
  answers q := by
    rw [answer, ask, (built_after calls).store]
    split <;> rfl
  log := by
    rw [(built_after calls).store]
    exact (built_after calls).commits
  shows u k := by
    rcases (built_after calls).reachable.visible_eq_or_none u k with
      ⟨w, hw, hvis⟩ | ⟨hno, hvis⟩
    · exact .inl ⟨w, hw, by rw [Store.query, hvis]⟩
    · exact .inr ⟨hno, by rw [Store.query, hvis, Option.toList_none]⟩

end Backend

end ClearanceGraph
