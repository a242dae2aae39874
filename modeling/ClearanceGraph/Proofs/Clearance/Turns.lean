import ClearanceGraph.Proofs.Clearance.Trail
import ClearanceGraph.Proofs.Evolution
import ClearanceGraph.Proofs.Store.Timeline
import Mathlib.Data.Finset.Dedup

/-! # Turns — the loop of a pass, and why it ends

    A pass allows itself a number of turns that it reads off the store.  `Pass.Loop`
    is its loop without such a bound, whatever fails in it and whether or not the
    pass is recorded.  Every turn goes forward (`Loop.forward`), so the loop ends
    within the turns that are allowed, and the bound is never felt
    (`exists_loop`, `follow_loop`). -/

namespace ClearanceGraph

/-- What is written, if anything, is one commit. -/
theorem Store.Wrote.evolves {A : Transaction → Prop} {s s' : Store} {tx : Transaction}
    (h : s.Wrote tx s') (htx : A tx) : s.Evolves A s' := by
  rcases h with ⟨-, rfl⟩ | ⟨-, id, hsub⟩
  · exact .refl
  · exact .of_submit htx hsub

namespace Pass

variable {levels : LevelConfig} {c : SpreadConfig} {seed : Batch} {recorded : Bool}
  {start : Instant} {dirty : KeySet Reference}

/-! ## The loop -/

/-- What is known before the first turn. -/
def Progress.first (seed : Batch) (start : Instant) : Progress :=
  ⟨KeySet.ofList [start], Table.empty, Settle.fold Table.empty seed.deltas,
    .empty (some seed.transaction) start⟩

/-- The loop of a pass, without a bound on its turns: the instants that it takes, one
    after another, and what it comes to. A turn that fails ends it. -/
inductive Loop (levels : LevelConfig) (c : SpreadConfig) (seed : Batch) (recorded : Bool)
    (start : Instant) (dirty : KeySet Reference) :
    Progress → World → List Instant → Except GraphError Progress × World → Prop where
  | ended {p : Progress} {w : World} : KeySet.popMin? p.checkpoints = none →
      Loop levels c seed recorded start dirty p w [] (.ok p, w)
  | failed {p : Progress} {w w' : World} {t : Instant} {rest : KeySet Instant}
      {e : GraphError} :
      KeySet.popMin? p.checkpoints = some (t, rest) →
      settleAt levels c seed recorded start dirty t { p with checkpoints := rest } w =
        (.error e, w') →
      Loop levels c seed recorded start dirty p w [t] (.error e, w')
  | turn {p p₁ : Progress} {w w₁ : World} {t : Instant} {rest : KeySet Instant}
      {us : List Instant} {r : Except GraphError Progress × World} :
      KeySet.popMin? p.checkpoints = some (t, rest) →
      settleAt levels c seed recorded start dirty t { p with checkpoints := rest } w =
        (.ok p₁, w₁) →
      Loop levels c seed recorded start dirty p₁ w₁ us r →
      Loop levels c seed recorded start dirty p w (t :: us) r

variable {s : Store} {p : Progress} {w : World} {us vs : List Instant}
  {r : Except GraphError Progress × World}

variable (levels c seed recorded dirty) in
/-- **The loop ends** within the turns that a pass allows itself, and comes to the
    same. -/
theorem exists_loop (n : Nat) :
    ∀ {p : Progress} {w : World} {us : List Instant} {s' : Store},
      Forward s start us p.checkpoints s' → w.Alone s' →
      s.versionCount + 1 ≤ us.length + n →
      ∃ vs, Loop levels c seed recorded start dirty p w vs
        (settleFrom levels c seed recorded start dirty n p w) := by
  -- on the turns that are left: where none is, there is no next instant
  induction n with
  | zero =>
      intro p w us s' h _ hn
      cases hpop : KeySet.popMin? p.checkpoints with
      | none => exact ⟨[], .ended hpop⟩
      | some q =>
          have hlt := h.length_lt hpop
          omega
  | succ n ih =>
      intro p w us s' h hw hn
      rw [settleFrom]
      cases hpop : KeySet.popMin? p.checkpoints with
      | none => exact ⟨[], .ended hpop⟩
      | some q =>
          obtain ⟨t, rest⟩ := q
          show ∃ vs, Loop levels c seed recorded start dirty p w vs
            ((settleAt levels c seed recorded start dirty t
              { p with checkpoints := rest } >>=
              settleFrom levels c seed recorded start dirty n) w)
          rw [Act.bind_apply]
          cases hres : settleAt levels c seed recorded start dirty t
              { p with checkpoints := rest } w with
          | mk x w₁ =>
              cases x with
              | error e => exact ⟨[t], .failed hpop hres⟩
              | ok p₁ =>
                  obtain ⟨s₁, hw₁, ⟨note, -, hwrote⟩, hcps, -⟩ :=
                    (runs_settleAt h.sound seed recorded start t _).of_ok hw hres
                  have h₁ : Forward s start (us ++ [t]) p₁.checkpoints s₁ :=
                    hcps ▸ h.turn hpop hwrote
                  obtain ⟨vs, hloop⟩ := ih h₁ hw₁ (by
                    rw [List.length_append, List.length_singleton]
                    omega)
                  exact ⟨t :: vs, .turn hpop hres hloop⟩

/-- **Every turn goes forward**, and commits at its instant only. What is reported of
    later times is what was taken after the start. -/
theorem Loop.forward (hloop : Loop levels c seed recorded start dirty p w vs r) :
    ∀ {us : List Instant} {s' : Store}, Forward s start us p.checkpoints s' → w.Alone s' →
      (us ++ vs).Pairwise (· < ·) ∧ (∀ u ∈ us ++ vs, u = start ∨ u ∈ s.starts) ∧
        s'.Evolves (fun tx => tx.validTime ∈ vs) r.2.backend.store ∧
        ∀ p', r.1 = .ok p' →
          p'.report.laterTimes = p.report.laterTimes ++ vs.filter (start < ·) := by
  induction hloop with
  | @ended p w hpop =>
      intro us s' h hw
      -- nothing waits, so nothing is written
      rw [List.append_nil]
      refine ⟨h.ascends, fun u hu => h.starts u (.inl hu), ?_, ?_⟩
      · rw [← hw.1]
        exact .refl
      · intro p' hp'
        obtain rfl := Except.ok.inj hp'
        exact (List.append_nil _).symm
  | @failed p w w' t rest e hpop hres =>
      intro us s' h hw
      obtain ⟨hasc, hstarts⟩ := h.next hpop
      -- a turn that fails has left the store as it was
      obtain ⟨s₁, hw', rfl⟩ :=
        (runs_settleAt h.sound seed recorded start t _).of_error hw hres
      refine ⟨hasc, hstarts, ?_, fun p' hp' => by cases hp'⟩
      rw [← hw'.1]
      exact .refl
  | @turn p p₁ w w₁ t rest vs r hpop hres _ ih =>
      intro us s' h hw
      -- one turn goes forward, and the induction takes it from there
      obtain ⟨s₁, hw₁, ⟨note, -, hwrote⟩, hcps, -, hlater, -⟩ :=
        (runs_settleAt h.sound seed recorded start t _).of_ok hw hres
      have h₁ : Forward s start (us ++ [t]) p₁.checkpoints s₁ := hcps ▸ h.turn hpop hwrote
      obtain ⟨hasc, hstarts, hevolves, htimes⟩ := ih h₁ hw₁
      rw [List.append_assoc, List.singleton_append] at hasc hstarts
      refine ⟨hasc, hstarts, .trans (hwrote.evolves List.mem_cons_self) ?_, ?_⟩
      · exact hevolves.mono fun _ => List.mem_cons_of_mem t
      · intro p' hp'
        rw [htimes p' hp', hlater, List.append_assoc, filter_later_cons]

/-- A loop that starts with one instant takes it. -/
theorem Loop.head?_first
    (hloop : Loop levels c seed recorded start dirty (.first seed start) w us r) :
    us.head? = some start := by
  have hfirst : ∀ {t : Instant} {rest : KeySet Instant},
      KeySet.popMin? (Progress.first seed start).checkpoints = some (t, rest) →
        t = start := by
    intro t rest hpop
    exact List.mem_singleton.mp
      (KeySet.contains_ofList_iff.mp (KeySet.contains_of_popMin? hpop))
  cases hloop with
  | ended hpop =>
      have hno := KeySet.popMin?_eq_none hpop start
      have hyes : (Progress.first seed start).checkpoints.contains start = true :=
        KeySet.contains_ofList_iff.mpr List.mem_cons_self
      cases hyes.symm.trans hno
  | failed hpop _ => rw [hfirst hpop, List.head?_cons]
  | turn hpop _ _ => rw [hfirst hpop, List.head?_cons]

/-! ## A pass after a commit -/

private theorem map_apply {α β : Type} (f : α → β) (a : Act α) (w : World) :
    (a >>= fun x => pure (f x) : Act β) w = ((a w).1.map f, (a w).2) := by
  rw [Act.bind_apply]
  rcases a w with ⟨e | x, w'⟩
  · rfl
  · rfl

/-- Instants that ascend from one on are different starts after it. -/
private theorem length_le_of_starts {us : List Instant} (hasc : us.Pairwise (· < ·))
    (hus : ∀ u ∈ us, start < u ∧ u ∈ s.starts) :
    us.length ≤ (s.starts.toFinset.filter (start < ·)).card := by
  rw [← List.toFinset_card_of_nodup (hasc.imp ne_of_lt)]
  refine Finset.card_le_card fun u hu => ?_
  obtain ⟨hlt, hstart⟩ := hus u (List.mem_toFinset.mp hu)
  exact Finset.mem_filter.mpr ⟨List.mem_toFinset.mpr hstart, hlt⟩

/-- **The loop of a pass ends and only goes forward**, if nobody else writes. Either the
    commit could not be read, and nothing was done, or the pass comes to what the loop
    comes to. The loop takes strictly ascending instants, the valid time of the commit
    and then starts of versions that were there before the pass; so its turns are at
    most one more than there are such starts. Every commit it makes is at the valid time
    of the commit or later, and the later times that it reports are the instants after
    the first. -/
theorem follow_loop (levels : LevelConfig) (c : SpreadConfig) (recorded : Bool) {s : Store}
    (hs : s.Reachable) {w : World} (hw : w.Alone s) {seed : Batch} {tx : Committed}
    (htx : s.transaction? seed.transaction = some tx) :
    ∃ w₀, w₀.Alone s ∧
      ((∃ e, World.read (Reading.transaction seed.transaction) w = (.error e, w₀) ∧
        follow levels c seed recorded w = (.error e, w₀)) ∨
      (World.read (Reading.transaction seed.transaction) w = (.ok (some tx), w₀) ∧
        ∃ us r, Loop levels c seed recorded tx.validTime tx.touched
          (.first seed tx.validTime) w₀ us r ∧
          follow levels c seed recorded w =
            (r.1.map fun p => { p.report with deltas := p.deltas.values }, r.2) ∧
          us.Pairwise (· < ·) ∧ us.head? = some tx.validTime ∧
          (∀ u ∈ us.tail, tx.validTime < u ∧ u ∈ s.starts) ∧
          us.length ≤ (s.starts.toFinset.filter (tx.validTime < ·)).card + 1 ∧
          s.Evolves (fun tx' => tx.validTime ≤ tx'.validTime) r.2.backend.store ∧
          ∀ p, r.1 = .ok p →
            p.report.laterTimes = us.tail ∧ p.report.laterTimes.Pairwise (· < ·))) := by
  have hread := Act.runs_read (Reading.transaction seed.transaction) s
  cases hfound : World.read (Reading.transaction seed.transaction) w with
  | mk x w₀ =>
      cases x with
      | error e =>
          obtain ⟨s₀, hw₀, hs₀⟩ := hread.of_error hw hfound
          refine ⟨w₀, hs₀ ▸ hw₀, .inl ⟨e, rfl, ?_⟩⟩
          rw [follow, Act.bind_apply, hfound]
      | ok found =>
          obtain ⟨s₀, hw₀, hgives, hs₀⟩ := hread.of_ok hw hfound
          rw [hs₀] at hw₀
          obtain rfl : found = some tx := (hgives.unique (Reading.gives_ask _ s)).trans htx
          have hstart : Forward s tx.validTime [] (KeySet.ofList [tx.validTime]) s :=
            .first hs.sound tx.validTime
          -- the bound on the turns leaves one for every version and one for the commit
          have hbound : s.versionCount + 1 ≤
              ([] : List Instant).length +
                (w₀.backend.store.versionCount + w₀.rivals.length + 1) := by
            rw [hw₀.1]
            omega
          obtain ⟨us, hloop⟩ := exists_loop levels c seed recorded tx.touched _
            (p := .first seed tx.validTime) hstart hw₀ hbound
          obtain ⟨hasc, hstarts, hevolves, htimes⟩ := hloop.forward hstart hw₀
          rw [List.nil_append] at hasc hstarts
          obtain ⟨later, rfl⟩ := List.head?_eq_some_iff.mp hloop.head?_first
          obtain ⟨hlt, hlater⟩ := List.pairwise_cons.mp hasc
          have htail : ∀ u ∈ later, tx.validTime < u ∧ u ∈ s.starts := fun u hu =>
            ⟨hlt u hu, (hstarts u (List.mem_cons_of_mem _ hu)).resolve_left (hlt u hu).ne'⟩
          refine ⟨w₀, hw₀, .inr ⟨rfl, _, _, hloop, ?_, hasc, rfl, htail, ?_, ?_, ?_⟩⟩
          · rw [follow, Act.bind_apply, hfound]
            exact map_apply _ _ w₀
          · exact Nat.succ_le_succ (length_le_of_starts hlater htail)
          · refine hevolves.mono fun tx' htx' => ?_
            rcases List.mem_cons.mp htx' with heq | hmem
            · exact le_of_eq heq.symm
            · exact le_of_lt (hlt _ hmem)
          · intro p hp
            have hfilter : later.filter (tx.validTime < ·) = later :=
              List.filter_eq_self.mpr fun u hu => decide_eq_true (hlt u hu)
            have hreport : p.report.laterTimes = later := by
              rw [htimes p hp, List.filter_cons_of_neg (by simp), hfilter]
              rfl
            exact ⟨hreport, hreport ▸ hlater⟩

/-- An object whose declared level goes at the end of the calendar. -/
def levelEnding : Store := .ofTransactions [
  ⟨default, [
    .put (.content (.object ⟨⟨"Host|a"⟩, "Host", Table.empty⟩)),
    .put (.content (.declaration ⟨⟨"Host|a"⟩, LevelConfig.standard.highest⟩))]⟩,
  ⟨.latest, [.delete (.fact (.declaration ⟨"Host|a"⟩))]⟩]

/-- The batch of its first commit. -/
def endingSeed : Batch := { (default : Batch) with transaction := ⟨1⟩ }

/-- Two turns, one at the commit and one where the level goes, with writes at both. -/
theorem follow_loop_levelEnding :
    levelEnding.Reachable ∧ (World.holding levelEnding).Alone levelEnding ∧
      ∃ tx, levelEnding.transaction? endingSeed.transaction = some tx ∧
        tx.validTime = default ∧
        ∃ w₀ r, Loop .standard .standard endingSeed true default tx.touched
            (.first endingSeed default) w₀ [default, .latest] r ∧
          levelEnding.Evolves (fun tx' => default ≤ tx'.validTime) r.2.backend.store ∧
          levelEnding.versionCount < r.2.backend.store.versionCount := by
  have hreach : levelEnding.Reachable := Store.reachable_ofTransactions _
  obtain ⟨tx, htx, htime⟩ : ∃ tx, levelEnding.transaction? endingSeed.transaction =
    some tx ∧
      tx.validTime = default := ⟨_, rfl, rfl⟩
  -- the level goes at a later instant, which gets a turn of its own
  obtain ⟨report, hok, hlater⟩ := Act.exists_eq_ok (w := World.holding levelEnding)
    (a := follow .standard .standard endingSeed true)
    (fun report => decide (report.laterTimes = [.latest])) (by decide +kernel)
  have hmore : levelEnding.versionCount < (follow .standard .standard endingSeed true
      (World.holding levelEnding)).2.backend.store.versionCount := by decide +kernel
  obtain ⟨w₀, -, hends⟩ :=
    follow_loop .standard .standard true hreach (World.alone_holding levelEnding) htx
  rw [htime] at hends
  rcases hends with ⟨e, -, herr⟩ | ⟨-, us, r, hloop, hfollow, -, hhead, -, -,
    hevolves, htimes⟩
  · cases hok.symm.trans herr
  · rw [hfollow] at hok hmore
    cases hr : r.1 with
    | error e =>
        rw [hr] at hok
        cases hok
    | ok p =>
        obtain rfl : { p.report with deltas := p.deltas.values } = report := by
          rw [hr] at hok
          exact Except.ok.inj (Prod.mk.inj hok).1
        have hlast : p.report.laterTimes = [.latest] := of_decide_eq_true hlater
        obtain ⟨later, rfl⟩ := List.head?_eq_some_iff.mp hhead
        obtain rfl : later = [.latest] := (htimes p hr).1.symm.trans hlast
        exact ⟨hreach, World.alone_holding _, tx, htx, htime, w₀, r, hloop, hevolves, hmore⟩

end Pass

end ClearanceGraph
