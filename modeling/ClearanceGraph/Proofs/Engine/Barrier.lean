import ClearanceGraph.Engine.Barrier
import ClearanceGraph.Proofs.Order.Table
import Mathlib.Data.List.Induction
import Mathlib.Data.List.Nodup

/-! # The barrier — what it says of everything that was done to it

    A barrier is a number and a set, and knows no tickets.  What is done to it comes
    from several threads in any order: tickets are begun, and each is ended as a
    commit or without one; commits are marked as done, also before they are known,
    also twice, and the same number may be committed again.

    As long as no ticket is ended that is not open (`Proper`), the number is that of
    the open tickets, and the set holds the commits after which nothing was marked as
    done (`Owed`).  Both follow from what one event changes (`openTickets_concat`,
    `owed_concat`).  Headline: `truthful`. -/

namespace ClearanceGraph

namespace Barrier

variable {b : Barrier} {t u : TransactionId}

/-! ## One event -/

/-- A commit that is done is not pending. -/
theorem contains_complete_iff :
    (b.complete t).pending.contains u = true ↔ b.pending.contains u = true ∧ u ≠ t :=
  KeySet.contains_erase_iff _

/-- Nor are many that are done. -/
theorem contains_completeAll_iff (ts : List TransactionId) : ∀ {b : Barrier},
    (ts.foldl complete b).pending.contains u = true ↔ b.pending.contains u = true ∧
    u ∉ ts := by
  induction ts with
  | nil => simp
  | cons t ts ih =>
      intro b
      rw [List.foldl_cons, ih, contains_complete_iff, List.mem_cons, not_or, and_assoc]

/-- A commit is pending from then on. -/
theorem contains_commit_iff :
    (b.commit t).pending.contains u = true ↔ u = t ∨ b.pending.contains u = true :=
  KeySet.contains_add_iff _

/-- What is done to a barrier. Tickets are numbered in the order in which they are
    begun. -/
inductive Event where
  | begin
  /-- A ticket ends as a commit. -/
  | commit (ticket : Nat) (t : TransactionId)
  /-- A ticket ends without a commit. -/
  | drop (ticket : Nat)
  /-- A commit is marked as done. -/
  | complete (t : TransactionId)
deriving DecidableEq

/-- The ticket that an event ends. -/
def Event.ends? : Event → Option Nat
  | commit k _ => some k
  | drop k => some k
  | _ => none

def step (b : Barrier) : Event → Barrier
  | .begin => b.begin
  | .commit _ t => b.commit t
  | .drop _ => b.drop
  | .complete t => b.complete t

/-- The barrier after some events. -/
def after (es : List Event) : Barrier := es.foldl step empty

/-- The last event happens after the others. -/
theorem after_concat (es : List Event) (e : Event) :
    after (es ++ [e]) = (after es).step e :=
  List.foldl_concat ..

/-! ## Tickets -/

variable {es : List Event} {e : Event} {k : Nat}

/-- The tickets that were begun and that no event has ended. -/
def openTickets (es : List Event) : List Nat :=
  (List.range (es.count .begin)).filter fun k => es.all fun e => e.ends? ≠ some k

/-- A ticket is open if it was begun and no event ended it. -/
theorem mem_openTickets_iff :
    k ∈ openTickets es ↔ k < es.count .begin ∧ ∀ e ∈ es, e.ends? ≠ some k := by
  simp only [openTickets, List.mem_filter, List.mem_range, List.all_eq_true,
    decide_eq_true_eq]

theorem nodup_openTickets (es : List Event) : (openTickets es).Nodup :=
  List.nodup_range.filter _

/-- Each ticket is ended at most once, and after it was begun. -/
def Proper (es : List Event) : Prop :=
  ∀ past e rest k, es = past ++ e :: rest → e.ends? = some k → k ∈ openTickets past

instance (es : List Event) : Decidable (Proper es) :=
  decidable_of_iff
    (∀ i : Fin es.length, es[i].ends?.all fun k => k ∈ openTickets (es.take i)) <| by
    simp only [Option.all_eq_true, decide_eq_true_eq]
    constructor
    · rintro h past e rest k rfl hk
      have hi : past.length < (past ++ e :: rest).length := by simp
      simpa [hk] using h ⟨past.length, hi⟩ k
    · intro h i k hk
      refine h _ es[i] (es.drop (i + 1)) k ?_ hk
      rw [Fin.getElem_fin, List.getElem_cons_drop, List.take_append_drop]

/-- What happened up to some event was proper. -/
theorem Proper.of_append {fs : List Event} (h : Proper (es ++ fs)) : Proper es := by
  intro past e rest k hes hk
  refine h past e (rest ++ fs) k ?_ hk
  rw [hes, List.append_assoc, List.cons_append]

/-- An event that ends a ticket found it open. -/
theorem Proper.last (h : Proper (es ++ [e])) (hk : e.ends? = some k) : k ∈ openTickets es :=
  h es e [] k rfl hk

/-- What was ended was begun. -/
theorem Proper.lt_of_ends (h : Proper es) (he : e ∈ es) (hk : e.ends? = some k) :
    k < es.count .begin := by
  obtain ⟨past, rest, rfl⟩ := List.append_of_mem he
  have hbegun := (mem_openTickets_iff.mp (h past e rest k rfl hk)).1
  rw [List.count_append]
  exact Nat.lt_add_right _ hbegun

/-- Beginning opens the next ticket. -/
theorem Proper.openTickets_begin (h : Proper es) :
    openTickets (es ++ [.begin]) = openTickets es ++ [es.count .begin] := by
  have hnew : (es.all fun e => e.ends? ≠ some (es.count .begin)) = true := by
    refine List.all_eq_true.mpr fun e he => decide_eq_true fun hk => ?_
    exact Nat.lt_irrefl _ (h.lt_of_ends he hk)
  have hall : ∀ k, ((es ++ [Event.begin]).all fun e => e.ends? ≠ some k) =
      es.all fun e => e.ends? ≠ some k := by
    intro k
    rw [List.all_append]
    exact Bool.and_true _
  rw [openTickets, List.count_append, List.count_singleton_self, List.range_succ,
    List.filter_append]
  have hlast : [es.count .begin].filter (fun k => es.all fun e => e.ends? ≠ some k) =
      [es.count .begin] := List.filter_cons_of_pos hnew
  simp only [hall, hlast]
  rfl

/-- Other events open no ticket, and close the one that they end. -/
theorem openTickets_concat (hbegin : e ≠ .begin) :
    openTickets (es ++ [e]) = (openTickets es).filter fun k => e.ends? ≠ some k := by
  have hcount : (es ++ [e]).count .begin = es.count .begin := by
    rw [List.count_append, List.count_singleton, if_neg (by simpa using hbegin),
      Nat.add_zero]
  rw [openTickets, openTickets, hcount, List.filter_filter]
  refine List.filter_congr fun k _ => ?_
  rw [List.all_append, Bool.and_comm]
  simp

/-- **The number of a barrier** is that of the open tickets. -/
theorem Proper.inFlight_after (h : Proper es) :
    (after es).inFlight = (openTickets es).length := by
  induction es using List.reverseRecOn with
  | nil => rfl
  | append_singleton es e ih =>
      have hes := ih h.of_append
      -- an event that ends a ticket takes that one away
      have hends : ∀ k, e.ends? = some k →
          (openTickets (es ++ [e])).length = (openTickets es).length - 1 := by
        intro k hk
        have hbegin : e ≠ .begin := by
          rintro rfl
          cases hk
        have hothers : openTickets (es ++ [e]) = (openTickets es).erase k := by
          rw [openTickets_concat hbegin, (nodup_openTickets es).erase_eq_filter]
          refine List.filter_congr fun j _ => ?_
          simp [hk, bne, eq_comm, Bool.beq_eq_decide_eq]
        rw [hothers, List.length_erase_of_mem (h.last hk)]
      rw [after_concat]
      cases e with
      | begin =>
          rw [h.of_append.openTickets_begin, List.length_append, ← hes]
          rfl
      | commit k t =>
          rw [hends k rfl, ← hes]
          rfl
      | drop k =>
          rw [hends k rfl, ← hes]
          rfl
      | complete t =>
          have hsame : openTickets (es ++ [.complete t]) = openTickets es := by
            have hbegin : Event.complete t ≠ .begin := by
              intro heq
              cases heq
            rw [openTickets_concat hbegin]
            exact List.filter_eq_self.mpr fun _ _ => rfl
          rw [hsame, ← hes]
          rfl

/-! ## Commits -/

/-- A commit after which it was not marked as done. -/
def Owed (es : List Event) (t : TransactionId) : Prop :=
  ∃ past k rest, es = past ++ .commit k t :: rest ∧ .complete t ∉ rest

theorem not_owed_nil : ¬ Owed [] t := by
  rintro ⟨past, k, rest, hes, -⟩
  exact List.append_ne_nil_of_right_ne_nil _ (List.cons_ne_nil _ _) hes.symm

/-- What is owed after one more event: what it commits, and what was owed unless it is
    done. -/
theorem owed_concat : Owed (es ++ [e]) t ↔
    (∃ k, e = .commit k t) ∨ Owed es t ∧ e ≠ .complete t := by
  constructor
  · rintro ⟨past, k, rest, hes, hopen⟩
    rcases List.eq_nil_or_concat rest with rfl | ⟨rest, f, rfl⟩
    · obtain ⟨-, he⟩ := List.append_inj' hes rfl
      exact .inl ⟨k, List.head_eq_of_cons_eq he⟩
    · rw [List.concat_eq_append] at hes hopen
      have hsplit : es ++ [e] = (past ++ .commit k t :: rest) ++ [f] := by
        rw [hes, List.append_assoc, List.cons_append]
      obtain ⟨hbefore, he⟩ := List.append_inj' hsplit rfl
      obtain rfl := List.head_eq_of_cons_eq he
      rw [List.mem_append, not_or, List.mem_singleton] at hopen
      exact .inr ⟨⟨past, k, rest, hbefore, hopen.1⟩, fun h => hopen.2 h.symm⟩
  · rintro (⟨k, rfl⟩ | ⟨⟨past, k, rest, rfl, hopen⟩, hne⟩)
    · exact ⟨es, k, [], rfl, List.not_mem_nil⟩
    · refine ⟨past, k, rest ++ [e], by rw [List.append_assoc, List.cons_append], ?_⟩
      rw [List.mem_append, not_or, List.mem_singleton]
      exact ⟨hopen, fun h => hne h.symm⟩

/-- **The set of a barrier** holds what is owed. -/
theorem mem_pending_after_iff : t ∈ (after es).pending.toList ↔ Owed es t := by
  rw [KeySet.mem_toList]
  induction es using List.reverseRecOn with
  | nil => exact iff_of_false Bool.false_ne_true not_owed_nil
  | append_singleton es e ih =>
      rw [after_concat, owed_concat]
      cases e with
      | begin =>
          show (after es).pending.contains t = true ↔ _
          simpa using ih
      | drop k =>
          show (after es).pending.contains t = true ↔ _
          simpa using ih
      | commit k u =>
          rw [step, contains_commit_iff, ih]
          simp [eq_comm]
      | complete u =>
          rw [step, contains_complete_iff, ih]
          simp [eq_comm]

/-- A barrier is settled if nothing is open and nothing up to the number is pending,
    although only the first one is looked at. -/
theorem isSettled_iff {bound : TransactionId} :
    b.isSettled bound = true ↔ b.inFlight = 0 ∧ ∀ t ∈ b.pending.toList, ¬ t ≤ bound := by
  have hascends : b.pending.toList.Pairwise fun s t => compare s t = .lt :=
    b.pending.pairwise_keys
  rw [isSettled, Bool.and_eq_true, beq_iff_eq, KeySet.toList] at *
  refine and_congr_right fun _ => ?_
  cases hkeys : b.pending.keys with
  | nil => simp
  | cons first rest =>
      rw [hkeys] at hascends
      simp only [List.head?_cons, Option.all_some, decide_eq_true_eq, List.forall_mem_cons]
      constructor
      · intro hlt
        refine ⟨Nat.not_le_of_lt hlt, fun t ht => ?_⟩
        have hfirst : first.value < t.value :=
          Nat.compare_eq_lt.mp ((List.pairwise_cons.mp hascends).1 t ht)
        exact Nat.not_le_of_lt (Nat.lt_trans hlt hfirst)
      · exact fun h => Nat.lt_of_not_le h.1

/-! ## Waiting -/

/-- A round of waiting: the world in which the store is asked, and what is done to the
    barrier until it is looked at. -/
structure Round where
  world : World
  /-- What is done since the barrier was last looked at. -/
  meanwhile : List Event

/-- Looks round by round whether all up to a number is out, until it is or there are no
    more rounds. -/
def awaitRounds (bound : TransactionId) : Barrier → List Round → Bool
  | _, [] => false
  | b, r :: rs =>
    let b := r.meanwhile.foldl step b
    (b.awaitFlush bound r.world).1 || awaitRounds bound b rs

/-- One look asks the store how far it has come, and then the barrier. -/
theorem awaitFlush_eq {bound : TransactionId} {w : World} : (b.awaitFlush bound w).1 =
    (World.read Reading.latest w).1.toOption.join.any
      fun latest => decide (bound ≤ latest) && b.isSettled bound := by
  cases hread : World.read Reading.latest w with
  | mk r w' =>
      simp only [awaitFlush, bind, StateT.bind, ExceptT.run, hread]
      rcases r with e | _ | latest
      · rfl
      · rfl
      · rfl

/-- One look succeeds if the store has come to the number and the barrier is settled. -/
theorem awaitFlush_iff {bound : TransactionId} {w : World} :
    (b.awaitFlush bound w).1 = true ↔ b.isSettled bound = true ∧
      ∃ latest, (World.read Reading.latest w).1 = .ok (some latest) ∧ bound ≤ latest := by
  rw [awaitFlush_eq]
  rcases (World.read Reading.latest w).1 with e | _ | latest
  · simp [Except.toOption]
  · simp [Except.toOption]
  · simp [Except.toOption, and_comm]

/-- **Waiting succeeds in the first round** in which the store has come to the number
    and the barrier is settled, and in no other way. -/
theorem awaitRounds_iff {bound : TransactionId} {rs : List Round} :
    awaitRounds bound b rs = true ↔ ∃ past r rest, rs = past ++ r :: rest ∧
      awaitRounds bound b past = false ∧
      (((past ++ [r]).flatMap (·.meanwhile)).foldl step b).isSettled bound = true ∧
      ∃ latest, (World.read Reading.latest r.world).1 = .ok (some latest) ∧
        bound ≤ latest := by
  induction rs generalizing b with
  | nil =>
      refine iff_of_false Bool.false_ne_true ?_
      rintro ⟨past, r, rest, hrs, -⟩
      exact List.append_ne_nil_of_right_ne_nil _ (List.cons_ne_nil _ _) hrs.symm
  | cons r rs ih =>
      rw [awaitRounds, Bool.or_eq_true, awaitFlush_iff, ih]
      constructor
      · intro h
        -- the first round that ends the waiting is this one, or one of the rest
        by_cases hnow : ((r.meanwhile.foldl step b).awaitFlush bound r.world).1 = true
        · refine ⟨[], r, rs, rfl, rfl, ?_⟩
          simpa using awaitFlush_iff.mp hnow
        · obtain ⟨past, q, rest, rfl, hpast, hlater⟩ :=
            h.resolve_left fun h => hnow (awaitFlush_iff.mpr h)
          refine ⟨r :: past, q, rest, rfl, ?_, ?_⟩
          · rw [awaitRounds, hpast, Bool.or_false]
            exact Bool.eq_false_iff.mpr hnow
          · simpa using hlater
      · rintro ⟨past, q, rest, hrs, hpast, hlater⟩
        cases past with
        | nil =>
            obtain ⟨rfl, rfl⟩ := List.cons.inj hrs
            left
            simpa using hlater
        | cons p past =>
            obtain ⟨rfl, rfl⟩ := List.cons.inj hrs
            rw [awaitRounds, Bool.or_eq_false_iff] at hpast
            refine .inr ⟨past, q, rest, rfl, hpast.2, ?_⟩
            simpa using hlater

/-! ## Everything that was done -/

/-- **What a barrier says** of everything that was done to it. -/
structure Truthful (es : List Event) : Prop where
  /-- As many tickets are in flight as were begun and not ended. -/
  inFlight : (after es).inFlight = (openTickets es).length
  /-- Where a ticket was ended, one was in flight. -/
  ends : ∀ past e rest k, es = past ++ e :: rest → e.ends? = some k →
    0 < (after past).inFlight
  /-- What is pending is listed in ascending order. -/
  ascending : (after es).pending.toList.Pairwise (· < ·)
  /-- Pending are the commits after which nothing marked them as done. -/
  pending : ∀ t, t ∈ (after es).pending.toList ↔ Owed es t
  /-- It is settled up to a number if no ticket is open and nothing up to the number is
      owed. -/
  settled : ∀ bound, (after es).isSettled bound = true ↔
    openTickets es = [] ∧ ∀ t, Owed es t → ¬ t ≤ bound
  /-- Who waits for a number is told of success in the first round in which it is
  settled and the store has come to it. -/
  awaited : ∀ bound rs, awaitRounds bound (after es) rs = true ↔ ∃ past r rest,
    rs = past ++ r :: rest ∧ awaitRounds bound (after es) past = false ∧
      (after (es ++ (past ++ [r]).flatMap (·.meanwhile))).isSettled bound = true ∧
      ∃ latest, (World.read Reading.latest r.world).1 = .ok (some latest) ∧ bound ≤ latest

/-- **A barrier tells the truth**, in whatever order tickets are begun and ended and
    commits are marked as done, as long as no ticket is ended that is not open. -/
theorem truthful (h : Proper es) : Truthful es := by
  have hcount := h.inFlight_after
  constructor
  case inFlight => exact hcount
  case ends =>
    intro past e rest k hes hk
    have hpast : Proper past := Proper.of_append (hes ▸ h)
    rw [hpast.inFlight_after]
    exact List.length_pos_of_mem (h past e rest k hes hk)
  case ascending =>
    exact (after es).pending.pairwise_keys.imp fun hlt => Nat.compare_eq_lt.mp hlt
  case pending => exact fun t => mem_pending_after_iff
  case settled =>
    intro bound
    simp only [isSettled_iff, hcount, List.length_eq_zero_iff, mem_pending_after_iff]
  case awaited =>
    intro bound rs
    simp only [awaitRounds_iff, after, List.foldl_append]

/-- Tickets that end in another order, one commit that is marked as done too early and
then committed again, and one ticket that is dropped. -/
def committedAgain : List Event :=
  [.complete ⟨2⟩, .begin, .begin, .begin, .commit 1 ⟨2⟩, .drop 0, .complete ⟨2⟩,
    .commit 2 ⟨3⟩, .begin, .commit 3 ⟨2⟩]

/-- The barrier does not forget the commit that came after it was marked as done. -/
theorem truthful_committedAgain :
    Proper committedAgain ∧ Truthful committedAgain ∧ openTickets committedAgain = [] ∧
      (after committedAgain).pending.toList = [⟨2⟩, ⟨3⟩] ∧
      (after committedAgain).isSettled ⟨1⟩ = true ∧
      (after committedAgain).isSettled ⟨2⟩ = false := by
  have h : Proper committedAgain := by decide
  exact ⟨h, truthful h, by decide, by decide, by decide, by decide⟩

end Barrier

end ClearanceGraph
