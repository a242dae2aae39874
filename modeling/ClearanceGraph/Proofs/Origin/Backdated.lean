import ClearanceGraph.Proofs.Origin.Ownership

/-! # Back-dated calls — ownership when origins report in any order

    A call writes at its own valid time, while owners are judged by the latest
    records.  So a call can come too late for a fact: it changes whether anybody
    asserts the fact, and a version that starts later goes on showing
    (`Call.Overtaken`).  As long as no call is overtaken, the facts that show at the
    end are those that live records assert, and the first call that is overtaken
    ends this (`Call.decidedUpTo_iff`).

    `Store.Recorded` is what calls maintain in whatever order. -/

namespace ClearanceGraph

namespace Store

variable {s s' : Store} {u : Instant} {f : Fact}

/-- What calls maintain in whatever order. -/
structure Recorded (s : Store) : Prop where
  sound : s.Sound
  /-- The contents of every record lie under their own facts. -/
  filed : ∀ {o v r f k}, v ∈ s.versionsOf (.origin o) → v.document = some (.origin r) →
    r.content? f = some k → k.fact = f
  /-- Every record was written for its own valid time. -/
  dated : ∀ {o v r}, v ∈ s.versionsOf (.origin o) → v.document = some (.origin r) →
    r.validTime = v.validFrom

theorem recorded_empty : Store.empty.Recorded := by
  refine ⟨sound_empty, ?_, ?_⟩
  · intro o v r f k hv
    simp [versionsOf, Store.empty] at hv
  · intro o v r hv
    simp [versionsOf, Store.empty] at hv

theorem Recorded.owners_filed (h : s.Recorded) (f : Fact) :
    ∀ r ∈ s.owners f, ∀ k, r.content? f = some k → k.fact = f := by
  intro r hr k hk
  obtain ⟨hlive, -⟩ := h.sound.mem_owners_iff.mp hr
  obtain ⟨d, hd, hr⟩ := Option.bind_eq_some_iff.mp hlive
  obtain ⟨v, hv, hdoc⟩ := exists_version_of_visible hd
  rcases d with c | x | p | e <;> simp [Document.origin?] at hr
  subst hr
  exact h.filed hv hdoc hk

theorem Sound.holdings_lastRecord? (hs : s.Sound) (u : Instant) (o : OriginId) :
    (s.holdings u).ledger o = s.lastRecord? o := by
  have hprevious : (Ledger.previous o s).1 = .ok (s.lastRecord? o) :=
    hs.previous_gives_last o
  show (Ledger.previous o s).1.toOption.join = _
  rw [hprevious]
  rfl

/-- Where nothing starts after the last instant, a fact is asserted if it has an owner. -/
theorem Sound.asserted_iff (hs : s.Sound) (hup : s.Upto Instant.latest) :
    (s.holdings u).Asserted f ↔ ∃ r, r ∈ s.owners f := by
  have hledger := hs.holdings_ledger hup u
  constructor
  · rintro ⟨o, r, hr, hf⟩
    rw [hledger] at hr
    obtain rfl := hs.id_of_record? hr
    exact ⟨r, hs.mem_owners_iff.mpr ⟨hr, hf⟩⟩
  · rintro ⟨r, hr⟩
    obtain ⟨hlive, hf⟩ := hs.mem_owners_iff.mp hr
    exact ⟨r.id, r, (hledger r.id).trans hlive, hf⟩

end Store

namespace Call

variable {levels : LevelConfig} {config : ReconcileConfig} {c : Call} {s s' : Store}
    {u : Instant}

/-- A call keeps what calls maintain. -/
theorem Did.recorded (h : s.Recorded) (hdid : c.Did s s') : s'.Recorded := by
  cases hdid with
  | unchanged => exact h
  | unknown => exact h
  | @commit q x tx id _ hdraft hfiles hrecords hsub =>
      -- a new version of a record is the one that the call filed
      have hnew : ∀ {o : OriginId} {v : Version} {r : OriginRecord},
        v.validFrom = tx.validTime → v.document ∈ tx.writesTo (.origin o) →
          v.document = some (.origin r) → x = some r ∧ v.validFrom = c.validTime := by
        intro o v r hfrom hv hr
        by_cases ho : o = c.origin
        · subst ho
          rw [hdraft.writesTo_own hfiles, List.mem_singleton, hr] at hv
          refine ⟨?_, hfrom.trans (hdraft.validTime_eq hfiles)⟩
          cases x with
          | none => cases hv
          | some r' =>
              cases hv
              rfl
        · rw [hdraft.writesTo_other hfiles ho] at hv
          cases hv
      refine ⟨h.sound.submit hsub, ?_, ?_⟩
      · intro o v r f k hv hr hk
        rcases Store.mem_versionsOf_submit hsub hv with hv | ⟨hfrom, -, hdoc⟩
        · exact h.filed hv hr hk
        · obtain ⟨hx, -⟩ := hnew hfrom hdoc hr
          rw [OriginRecord.content?, hrecords.result r hx] at hk
          exact c.filed_asserted hk
      · intro o v r hv hr
        rcases Store.mem_versionsOf_submit hsub hv with hv | ⟨hfrom, -, hdoc⟩
        · exact h.dated hv hr
        · obtain ⟨hx, hvalid⟩ := hnew hfrom hdoc hr
          rw [hrecords.validTime r hx, hvalid]

theorem Did.upto {t : Instant} (hdid : c.Did s s') (h : s.Upto t) (hle : c.validTime ≤ t) :
    s'.Upto t := by
  cases hdid with
  | unchanged => exact h
  | unknown => exact h
  | commit hdraft hfiles _ hsub =>
      exact h.submit_of_le (hdraft.validTime_eq hfiles ▸ hle) hsub

/-- Calls in any order maintain what they do. -/
theorem recorded_performAll (levels : LevelConfig) (hretain : config.cascade = .retain)
    {w : World} (hw : w.Alone .empty) (cs : List Call) :
    ∃ s, (performAll levels config cs w).Alone s ∧ s.Recorded ∧
      ∀ t, (∀ c ∈ cs, c.validTime ≤ t) → s.Upto t := by
  induction cs using List.reverseRecOn with
  | nil => exact ⟨.empty, hw, Store.recorded_empty, fun t _ => Store.upto_empty t⟩
  | append_singleton cs c ih =>
      obtain ⟨s, halone, hrec, hup⟩ := ih
      rw [performAll_concat]
      obtain ⟨s', halone', hres⟩ :=
        runs_perform_did hrec.sound hrec.owners_filed levels hretain c _ halone
      have hpast : ∀ t, (∀ a ∈ cs ++ [c], a.validTime ≤ t) → s.Upto t := fun t ht =>
        hup t fun a ha => ht a (List.mem_append_left _ ha)
      refine ⟨s', halone', ?_⟩
      rcases hres with ⟨x, -, hdid⟩ | ⟨-, rfl⟩
      · exact ⟨hdid.recorded hrec, fun t ht => hdid.upto (hpast t ht) (ht c (by simp))⟩
      · exact ⟨hrec, hpast⟩

/-! ## Overtaken calls -/

/-- A call comes too late for a fact: whether anybody asserts the fact changes with it,
    and a version that starts later was there before. -/
structure Overtaken (c : Call) (s s' : Store) (f : Fact) : Prop where
  changes : ¬ ((s.holdings c.validTime).Asserted f ↔ (s'.holdings c.validTime).Asserted f)
  later : ∃ v ∈ s.versionsOf (.fact f), c.validTime < v.validFrom

section Commit

variable {q : Plan} {x : Option OriginRecord} {tx : Transaction} {id : TransactionId}
  (h : s.Recorded) (hlatest : s.Upto Instant.latest) (hc : c.validTime ≤ Instant.latest)
  (hdraft : c.Drafts s q) (hfiles : Store.Files q c.origin x tx) (hrecords : c.Records x)
  (hsub : s.submit tx = .ok (id, s'))

include h hlatest hc hdraft hfiles hrecords hsub

/-- After a commit the owners of a fact are the origin, if it asserts the fact, and the
    other owners. -/
private theorem exists_owner_iff {f : Fact} :
    (∃ r, r ∈ s'.owners f) ↔
      c.asserted.contains f = true ∨ ∃ r ∈ s.owners f, r.id ≠ c.origin := by
  have hs' := h.sound.submit hsub
  have hlatest' := hlatest.submit_of_le (hdraft.validTime_eq hfiles ▸ hc) hsub
  have hlast : ∀ {s : Store}, s.Upto Instant.latest → ∀ o, s.record? o = s.lastRecord? o :=
    fun hup o => Store.record?_eq_lastRecord? fun v hv =>
      hup _ v (Store.mem_of_newestOf? hv)
  -- the call files its own record and leaves those of the others
  have hown : s'.record? c.origin = x :=
    (hlast hlatest' _).trans (hdraft.lastRecord?_own hfiles h.sound hsub)
  have hother : ∀ o, o ≠ c.origin → s'.record? o = s.record? o := fun o ho => by
    rw [hlast hlatest', hlast hlatest, hdraft.lastRecord?_other hfiles hsub ho]
  constructor
  · rintro ⟨r, hr⟩
    obtain ⟨hlive, hf⟩ := hs'.mem_owners_iff.mp hr
    by_cases ho : r.id = c.origin
    · rw [ho, hown] at hlive
      rw [OriginRecord.asserts, hrecords.result r hlive] at hf
      exact .inl hf
    · rw [hother _ ho] at hlive
      exact .inr ⟨r, h.sound.mem_owners_iff.mpr ⟨hlive, hf⟩, ho⟩
  · rintro (hf | ⟨r, hr, ho⟩)
    · cases x with
      | none =>
          rw [hrecords.ended rfl] at hf
          cases hf
      | some r =>
          refine ⟨r, hs'.mem_owners_iff.mpr ⟨?_, ?_⟩⟩
          · rw [hrecords.id r rfl, hown]
          · rw [OriginRecord.asserts, hrecords.result r rfl]
            exact hf
    · obtain ⟨hlive, hf⟩ := h.sound.mem_owners_iff.mp hr
      exact ⟨r, hs'.mem_owners_iff.mpr ⟨by rw [hother _ ho, hlive], hf⟩⟩

/-- What a commit leaves of a fact is there exactly if somebody asserts the fact then,
    provided that this was so before. -/
private theorem exists_left_iff {f : Fact}
    (hbefore : (∃ d, s.visible c.validTime (.fact f) = some d) ↔ ∃ r, r ∈ s.owners f) :
    (∃ d, (tx.lastWrite? (.fact f)).getD (s.visible c.validTime (.fact f)) = some d) ↔
      ∃ r, r ∈ s'.owners f := by
  rw [exists_owner_iff h hlatest hc hdraft hfiles hrecords hsub, hfiles.lastWrite?_fact]
  cases hf : c.asserted.get? f with
  | some k =>
      obtain rfl := c.filed_asserted hf
      rw [hdraft.drafted.asserts _ k hf]
      obtain ⟨d, hd, -⟩ := s.exists_getD_putting c.validTime k
      exact ⟨fun _ => .inl (c.asserted.contains_iff.mpr ⟨k, hf⟩), fun _ => ⟨d, hd⟩⟩
  | none =>
      have hnot : ¬ c.asserted.contains f = true := by
        rw [Table.contains, hf]
        exact Bool.false_ne_true
      rw [or_iff_right hnot]
      by_cases hmem : f ∈ Plan.droppedBy (s.lastRecord? c.origin) c.asserted
      · rw [hdraft.drafted.drops f hmem, Store.dropping]
        cases hsurv : Plan.survivor? c.origin (s.owners f) with
        | none =>
            have hnil := lastMax?_eq_none_iff.mp hsurv
            constructor
            · rintro ⟨d, hd⟩
              cases hv : s.visible c.validTime (.fact f) <;> simp [hv] at hd
            · rintro ⟨r, hr, ho⟩
              have : r ∈ (s.owners f).filter (·.id != c.origin) :=
                List.mem_filter.mpr ⟨hr, bne_iff_ne.mpr ho⟩
              rw [hnil] at this
              cases this
        | some r =>
            obtain ⟨hr, ho⟩ := List.mem_filter.mp (mem_of_lastMax? hsurv)
            obtain ⟨k, hk⟩ := r.asserts_iff.mp (h.sound.mem_owners_iff.mp hr).2
            obtain rfl := h.owners_filed f r hr k hk
            obtain ⟨d, hd, -⟩ := s.exists_getD_putting c.validTime k
            dsimp only
            rw [hk]
            exact ⟨fun _ => ⟨r, hr, bne_iff_ne.mp ho⟩, fun _ => ⟨d, hd⟩⟩
      · -- nobody but others asserts a fact that is neither asserted nor dropped
        rw [hdraft.drafted.others _ fun g hg =>
          by cases hg; exact ⟨hf, hmem⟩, Option.getD_none, hbefore]
        refine exists_congr fun r => (and_iff_left_of_imp fun hr ho => hmem ?_).symm
        obtain ⟨hlive, hasserts⟩ := h.sound.mem_owners_iff.mp hr
        rw [Store.record?_eq_lastRecord? fun v hv =>
          hlatest _ v (Store.mem_of_newestOf? hv), ho] at hlive
        exact Plan.mem_droppedBy.mpr ⟨r, hlive, hasserts, hf⟩

end Commit

/-- **One call**: what shows is still what is asserted exactly if the call is not
    overtaken. -/
theorem Did.decided_iff (h : s.Recorded) (hlatest : s.Upto Instant.latest) (hup : s.Upto u)
    (hc : c.validTime ≤ Instant.latest) (hcu : c.validTime ≤ u)
    (hdecided : (s.holdings u).Decided) (hdid : c.Did s s') :
    (s'.holdings u).Decided ↔ ∀ f, ¬ c.Overtaken s s' f := by
  have hasserted : ∀ {s : Store} {v f}, s.Sound → s.Upto Instant.latest →
      ((s.holdings v).Asserted f ↔ ∃ r, r ∈ s.owners f) := fun hs hup => hs.asserted_iff hup
  have hsame : s' = s → ((s'.holdings u).Decided ↔ ∀ f, ¬ c.Overtaken s s' f) := by
    rintro rfl
    exact ⟨fun _ f hf => hf.changes Iff.rfl, fun _ => hdecided⟩
  cases hdid with
  | unchanged => exact hsame rfl
  | unknown => exact hsame rfl
  | @commit q x tx id _ hdraft hfiles hrecords hsub =>
      have hvalid := hdraft.validTime_eq hfiles
      have hs' := h.sound.submit hsub
      have hlatest' := hlatest.submit_of_le (hvalid ▸ hc) hsub
      refine forall_congr' fun f => ?_
      have hbefore := hdecided f
      rw [hasserted h.sound hlatest] at hbefore
      rw [hasserted hs' hlatest']
      have hover : c.Overtaken s s' f ↔
          ¬ ((∃ r, r ∈ s.owners f) ↔ ∃ r, r ∈ s'.owners f) ∧
            s.StartsWithin (.fact f) tx.validTime u := by
        rw [hvalid]
        constructor
        · rintro ⟨hchanges, v, hv, hlt⟩
          rw [hasserted h.sound hlatest, hasserted hs' hlatest'] at hchanges
          exact ⟨hchanges, v, hv, hlt, hup _ v hv⟩
        · rintro ⟨hchanges, v, hv, hlt, -⟩
          refine ⟨?_, v, hv, hlt⟩
          rwa [hasserted h.sound hlatest, hasserted hs' hlatest']
      rw [hover]
      by_cases hwithin : s.StartsWithin (.fact f) tx.validTime u
      · -- a later version goes on showing, so it shows what was asserted before
        have hshown : (s'.holdings u).shown f = (s.holdings u).shown f :=
          Store.visible_submit_of_startsWithin h.sound hsub hwithin
        rw [hshown, hbefore]
        simp only [hwithin, and_true, not_not]
      · -- otherwise the call decides
        have hkeep : s.visible u (.fact f) = s.visible c.validTime (.fact f) := by
          rw [hvalid] at hwithin
          exact Store.visible_eq_of_not_startsWithin hcu hwithin
        have hshown : (s'.holdings u).shown f =
            (tx.lastWrite? (.fact f)).getD (s.visible c.validTime (.fact f)) := by
          rw [← hkeep]
          exact Store.visible_submit h.sound hsub (hvalid ▸ hcu) hwithin
        have hbefore' : (∃ d, s.visible c.validTime (.fact f) = some d) ↔
            ∃ r, r ∈ s.owners f := by
          rw [← hkeep]
          exact hbefore
        rw [hshown, exists_left_iff h hlatest hc hdraft hfiles hrecords hsub hbefore']
        simp only [hwithin, and_false, not_false_eq_true]

/-! ## Runs of calls -/

/-- The store after some calls. -/
def storeAfter (levels : LevelConfig) (config : ReconcileConfig) (w : World)
    (cs : List Call) :
    Store :=
  (performAll levels config cs w).backend.store

/-- Of calls up to an instant, in any order: all along, the facts that show in the end
    are those that live records assert, exactly if no call is overtaken. -/
def DecidedUpTo (last : Instant) : Prop :=
  ∀ (levels : LevelConfig) (config : ReconcileConfig), config.cascade = .retain →
    ∀ w : World, w.Alone .empty → ∀ cs : List Call, (∀ c ∈ cs, c.validTime ≤ last) →
      ∀ u, (∀ c ∈ cs, c.validTime ≤ u) →
        ((∀ past, past <+: cs → ((storeAfter levels config w past).holdings u).Decided) ↔
          ∀ past c, past ++ [c] <+: cs →
            ∀ f, ¬ c.Overtaken (storeAfter levels config w past)
            (storeAfter levels config w (past ++ [c])) f)

theorem decidedUpTo_latest : DecidedUpTo Instant.latest := by
  intro levels config hretain w hw cs htimes u hu
  -- on the calls made last: what is asked of the calls before is the same on both sides
  induction cs using List.reverseRecOn with
  | nil =>
      constructor
      · intro _ past c hpre
        exact absurd (List.prefix_nil.mp hpre) (by simp)
      · intro _ past hpre f
        obtain rfl := List.prefix_nil.mp hpre
        have hempty : storeAfter levels config w [] = .empty := hw.1
        rw [hempty]
        exact ((Store.kept_empty u).owned u le_rfl).shown_iff f
  | append_singleton cs c ih =>
      have hih := ih (fun a ha => htimes a (List.mem_append_left _ ha))
        (fun a ha => hu a (List.mem_append_left _ ha))
      obtain ⟨s, halone, hrec, hup⟩ := recorded_performAll levels hretain hw cs
      have hc : c.validTime ≤ Instant.latest := htimes c (by simp)
      have hcu : c.validTime ≤ u := hu c (by simp)
      have hlatest := hup _ fun a ha => htimes a (List.mem_append_left _ ha)
      have hupu := hup u fun a ha => hu a (List.mem_append_left _ ha)
      obtain ⟨s', halone', hres⟩ :=
        runs_perform_did hrec.sound hrec.owners_filed levels hretain c _ halone
      have hstore : storeAfter levels config w cs = s := halone.1
      have hstore' : storeAfter levels config w (cs ++ [c]) = s' := by
        rw [storeAfter, performAll_concat]
        exact halone'.1
      have hstep : (s.holdings u).Decided →
          ((s'.holdings u).Decided ↔ ∀ f, ¬ c.Overtaken s s' f) := by
        intro hdecided
        rcases hres with ⟨x, -, hdid⟩ | ⟨-, rfl⟩
        · exact hdid.decided_iff hrec hlatest hupu hc hcu hdecided
        · exact ⟨fun _ f hf => hf.changes Iff.rfl, fun _ => hdecided⟩
      constructor
      · intro hall past a hpre
        rcases List.prefix_concat_iff.mp hpre with heq | hpre
        · obtain ⟨rfl, hac⟩ := List.append_inj' heq rfl
          obtain rfl := (List.cons.inj hac).1
          have hbefore := hall past (List.prefix_append _ _)
          have hafter := hall (past ++ [a]) (List.prefix_refl _)
          rw [hstore] at hbefore
          rw [hstore'] at hafter
          rw [hstore, hstore']
          exact (hstep hbefore).mp hafter
        · exact hih.mp (fun p hp => hall p (hp.trans (List.prefix_append _ _))) past a hpre
      · intro hno past hpre
        have hbefore := hih.mpr fun p a hp => hno p a (hp.trans (List.prefix_append _ _))
        rcases List.prefix_concat_iff.mp hpre with rfl | hpre
        · have hover := hno cs c (List.prefix_refl _)
          have hdecided := hbefore cs (List.prefix_refl _)
          rw [hstore, hstore'] at hover
          rw [hstore] at hdecided
          rw [hstore']
          exact (hstep hdecided).mpr hover
        · exact hbefore past hpre

/-- In the leap second no call is overtaken, and yet the shared host goes. -/
theorem not_decidedUpTo_afterLatest : ¬ DecidedUpTo Instant.afterLatest := by
  intro h
  obtain ⟨cs, hcs⟩ : ∃ cs, cs = [hostRun Instant.afterLatest "a" ["x"],
    hostRun Instant.afterLatest "b" ["x"], hostRun Instant.afterLatest "a" []] := ⟨_, rfl⟩
  have htimes : ∀ c ∈ cs, c.validTime = Instant.afterLatest := by
    intro c hc
    rw [hcs] at hc
    simp only [List.mem_cons, List.not_mem_nil, or_false] at hc
    rcases hc with rfl | rfl | rfl <;> rfl
  have hle : ∀ c ∈ cs, c.validTime ≤ Instant.afterLatest :=
    fun c hc => le_of_eq (htimes c hc)
  have hstore : storeAfter .standard .standard (World.holding .empty) cs =
      (sharedHost Instant.afterLatest).backend.store := by
    rw [hcs, storeAfter, sharedHost]
  have hiff := h .standard .standard rfl (World.holding .empty) ⟨rfl, rfl⟩ cs hle
    Instant.afterLatest hle
  refine not_decided_sharedHost (hstore ▸ hiff.mpr ?_ cs (List.prefix_refl _))
  -- no version starts later than the calls
  intro past c hpre f hover
  obtain ⟨v, hv, hlt⟩ := hover.later
  obtain ⟨s, halone, -, hup⟩ := @recorded_performAll .standard .standard rfl
    (World.holding .empty) ⟨rfl, rfl⟩ past
  have hpast : storeAfter .standard .standard (World.holding .empty) past = s := halone.1
  rw [hpast] at hv
  rw [htimes c (hpre.subset (by simp))] at hlt
  refine absurd (hup _ (fun a ha => ?_) _ v hv) (not_le.mpr hlt)
  exact hle a (hpre.subset (List.mem_append_left _ ha))

/-- **Ownership decides what shows in the end, as long as no call is overtaken** and no
    longer; and this holds of calls up to an instant exactly if the instant is no leap
    second at the end of the calendar. -/
theorem decidedUpTo_iff {last : Instant} : DecidedUpTo last ↔ last ≤ Instant.latest := by
  constructor
  · intro h
    by_contra hle
    have hafter := Instant.afterLatest_le_of_latest_lt (lt_of_not_ge hle)
    refine not_decidedUpTo_afterLatest ?_
    intro levels config hretain w hw cs htimes
    exact h levels config hretain w hw cs fun c hc => le_trans (htimes c hc) hafter
  · intro hle levels config hretain w hw cs htimes
    exact decidedUpTo_latest levels config hretain w hw cs fun c hc =>
      le_trans (htimes c hc) hle

/-- The last owner drops a host in the past, and the host goes on showing. -/
example :
    let early : Instant := ⟨.origin, .midnight⟩
    let s := storeAfter .standard .standard (World.holding .empty)
      [hostRun .latest "a" ["x"], hostRun early "b" ["x"], hostRun .latest "a" [],
        hostRun early "b" []]
    (s.owners (.object ⟨"Host|x"⟩)).isEmpty = true ∧
      (s.visible .latest (.fact (.object ⟨"Host|x"⟩))).isSome = true := by decide +kernel

/-- An origin asserts in the past a host that another one dropped later, and the host
    stays hidden. -/
example :
    let early : Instant := ⟨.origin, .midnight⟩
    let s := storeAfter .standard .standard (World.holding .empty)
      [hostRun .latest "a" ["x"], hostRun .latest "a" [], hostRun early "b" ["x"]]
    (s.owners (.object ⟨"Host|x"⟩)).isEmpty = false ∧
      (s.visible .latest (.fact (.object ⟨"Host|x"⟩))).isSome = false := by decide +kernel

end Call

end ClearanceGraph
