import ClearanceGraph.Proofs.Origin.Backdated

/-! # Protection — what other origins keep

    Whatever an origin reports, and for whatever time, it takes no fact away from
    another origin whose latest record asserts it, and it leaves the records of
    others alone.  A dropped fact is looked up at its owners and falls to one of them
    (`Call.Drafts.not_deletes`), and a later version that was there goes on showing
    anyway.

    Owners are read at the last instant that is no leap second.  So a record is
    protected exactly if it is not later (`Call.protectedUpTo_iff`). -/

namespace ClearanceGraph

namespace Call

variable {levels : LevelConfig} {config : ReconcileConfig} {c : Call} {s s' : Store}

/-- No fact goes that the latest record of another origin asserts, if that record is not
    later than an instant; and the records of other origins stay. -/
structure Spares (last : Instant) (c : Call) (s s' : Store) : Prop where
  shown : ∀ u o r f, o ≠ c.origin → (s.holdings u).ledger o = some r → r.asserts f = true →
    r.validTime ≤ last → (∃ d, (s.holdings u).shown f = some d) →
      ∃ d, (s'.holdings u).shown f = some d
  records : ∀ u o, o ≠ c.origin → (s'.holdings u).ledger o = (s.holdings u).ledger o

theorem spares_self (last : Instant) (c : Call) (s : Store) : c.Spares last s s :=
  ⟨fun _ _ _ _ _ _ _ _ h => h, fun _ _ _ => rfl⟩

/-- A latest record that is early enough is an owner. -/
theorem mem_owners_of_lastRecord? (h : s.Recorded) {o : OriginId}
    {r : OriginRecord} {f : Fact}
    (hr : s.lastRecord? o = some r) (hf : r.asserts f = true)
    (hle : r.validTime ≤ Instant.latest) : r ∈ s.owners f := by
  have hrecord : s.record? o = s.lastRecord? o := by
    refine Store.record?_eq_lastRecord? fun v hv => ?_
    obtain ⟨v', hv', hdoc⟩ := Option.bind_eq_some_iff.mp hr
    obtain rfl := Option.some.inj (hv'.symm.trans hv)
    obtain ⟨d, hd, hrd⟩ := Option.bind_eq_some_iff.mp hdoc
    rcases d with k | x | p | e <;> simp [Document.origin?] at hrd
    subst hrd
    rw [← h.dated (Store.mem_of_newestOf? hv) hd]
    exact hle
  rw [h.sound.mem_owners_iff, h.sound.id_of_lastRecord? hr, hrecord]
  exact ⟨hr, hf⟩

/-- **A call deletes no fact that another origin owns.** -/
theorem Drafts.not_deletes {q : Plan} (hdraft : c.Drafts s q) {f : Fact}
    {r : OriginRecord} (hr : r ∈ s.owners f) (ho : r.id ≠ c.origin) :
    q.transaction.lastWrite? (.fact f) ≠ some none := by
  cases hf : c.asserted.get? f with
  | some k =>
      rw [hdraft.drafted.asserts f k hf]
      exact s.putting_ne_delete _ k
  | none =>
      by_cases hmem : f ∈ Plan.droppedBy (s.lastRecord? c.origin) c.asserted
      · rw [hdraft.drafted.drops f hmem, Store.dropping]
        cases hsurv : Plan.survivor? c.origin (s.owners f) with
        | none =>
            have hother : r ∈ (s.owners f).filter (·.id != c.origin) :=
              List.mem_filter.mpr ⟨hr, bne_iff_ne.mpr ho⟩
            rw [lastMax?_eq_none_iff.mp hsurv] at hother
            cases hother
        | some r' =>
            dsimp only
            cases r'.content? f with
            | none => exact fun h => by cases h
            | some k => exact s.putting_ne_delete _ k
      · rw [hdraft.drafted.others _ fun g hg => by cases hg; exact ⟨hf, hmem⟩]
        exact fun h => by cases h

/-- **One call** spares the others. -/
theorem Did.spares (h : s.Recorded) (hdid : c.Did s s') : c.Spares Instant.latest s s' := by
  cases hdid with
  | unchanged => exact spares_self _ _ _
  | unknown => exact spares_self _ _ _
  | @commit q x tx id _ hdraft hfiles hrecords hsub =>
      refine ⟨fun u o r f ho hr hf hle hshown => ?_, fun u o ho => ?_⟩
      · rw [h.sound.holdings_lastRecord?] at hr
        have hid : r.id ≠ c.origin := by
          rw [h.sound.id_of_lastRecord? hr]
          exact ho
        have hkeeps := hdraft.not_deletes (mem_owners_of_lastRecord? h hr hf hle) hid
        rw [← hfiles.lastWrite?_fact] at hkeeps
        show ∃ d, s'.visible u (.fact f) = some d
        -- the commit decides between its own time and the next version only
        by_cases hu : u < tx.validTime
        · rw [Store.visible_submit_of_lt hsub hu]
          exact hshown
        by_cases hwithin : s.StartsWithin (.fact f) tx.validTime u
        · rw [Store.visible_submit_of_startsWithin h.sound hsub hwithin]
          exact hshown
        · rw [Store.visible_submit h.sound hsub (not_lt.mp hu) hwithin]
          cases hw : tx.lastWrite? (.fact f) with
          | none => exact hshown
          | some d =>
              cases d with
              | none => exact absurd hw hkeeps
              | some d => exact ⟨d, rfl⟩
      · rw [(h.sound.submit hsub).holdings_lastRecord?, h.sound.holdings_lastRecord?,
          hdraft.lastRecord?_other hfiles hsub ho]

/-! ## Runs of calls -/

/-- After calls in any order, every further call spares the other origins, as far as
    their records are not later than an instant. -/
def ProtectedUpTo (last : Instant) : Prop :=
  ∀ (levels : LevelConfig) (config : ReconcileConfig), config.cascade = .retain →
    ∀ w : World, w.Alone .empty → ∀ (past : List Call) (c : Call),
      c.Spares last (storeAfter levels config w past)
        (storeAfter levels config w (past ++ [c]))

theorem protectedUpTo_latest : ProtectedUpTo Instant.latest := by
  intro levels config hretain w hw past c
  obtain ⟨s, halone, hrec, -⟩ := recorded_performAll levels hretain hw past
  obtain ⟨s', halone', hres⟩ :=
    runs_perform_did hrec.sound hrec.owners_filed levels hretain c _ halone
  have hstore : storeAfter levels config w past = s := halone.1
  have hstore' : storeAfter levels config w (past ++ [c]) = s' := by
    rw [storeAfter, performAll_concat]
    exact halone'.1
  rw [hstore, hstore']
  rcases hres with ⟨x, -, hdid⟩ | ⟨-, rfl⟩
  · exact hdid.spares hrec
  · exact spares_self _ _ _

/-- An origin drops a host that another one found in the leap second, and the host
    goes. -/
theorem not_protectedUpTo_afterLatest : ¬ ProtectedUpTo Instant.afterLatest := by
  intro h
  have hspares := h .standard .standard rfl (World.holding .empty) ⟨rfl, rfl⟩
    [hostRun .latest "a" ["x"], hostRun .afterLatest "b" ["x"]] (hostRun .latest "a" [])
  have hrecord : (((storeAfter .standard .standard (World.holding .empty)
      [hostRun .latest "a" ["x"], hostRun .afterLatest "b" ["x"]]).holdings .latest).ledger
        ⟨"b"⟩).any (fun r => r.asserts (.object ⟨"Host|x"⟩) &&
          decide (r.validTime ≤ Instant.afterLatest)) = true := by
    decide +kernel
  have hshown : (((storeAfter .standard .standard (World.holding .empty)
      [hostRun .latest "a" ["x"], hostRun .afterLatest "b" ["x"]]).holdings .latest).shown
        (.object ⟨"Host|x"⟩)).isSome = true := by
    decide +kernel
  -- the run of `a` looks for owners before the leap second and finds none
  have hgone : (((storeAfter .standard .standard (World.holding .empty)
      ([hostRun .latest "a" ["x"], hostRun .afterLatest "b" ["x"]] ++
        [hostRun .latest "a" []])
        ).holdings .latest).shown (.object ⟨"Host|x"⟩)).isSome = false := by
    decide +kernel
  obtain ⟨r, hr, hx⟩ := (Option.any_eq_true _ _).mp hrecord
  obtain ⟨hf, hle⟩ := (Bool.and_eq_true _ _).mp hx
  obtain ⟨d, hd⟩ := hspares.shown .latest ⟨"b"⟩ r _ (by decide) hr hf
    (of_decide_eq_true hle) (Option.isSome_iff_exists.mp hshown)
  rw [hd] at hgone
  cases hgone

/-- **No origin takes away what another one asserts**, whatever the order of their
    reports; and this holds of records up to an instant exactly if the instant is no
    leap second at the end of the calendar. -/
theorem protectedUpTo_iff {last : Instant} :
    ProtectedUpTo last ↔ last ≤ Instant.latest := by
  constructor
  · intro h
    by_contra hle
    have hafter := Instant.afterLatest_le_of_latest_lt (lt_of_not_ge hle)
    refine not_protectedUpTo_afterLatest ?_
    intro levels config hretain w hw past c
    obtain ⟨hshown, hrecords⟩ := h levels config hretain w hw past c
    exact ⟨fun u o r f ho hr hf hlast => hshown u o r f ho hr hf (le_trans hlast hafter),
      hrecords⟩
  · intro hle levels config hretain w hw past c
    obtain ⟨hshown, hrecords⟩ := protectedUpTo_latest levels config hretain w hw past c
    exact ⟨fun u o r f ho hr hf hlast => hshown u o r f ho hr hf (le_trans hlast hle),
      hrecords⟩

end Call

end ClearanceGraph
