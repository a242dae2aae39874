import ClearanceGraph.Proofs.Clearance.Checkpoints
import ClearanceGraph.Proofs.Clearance.Incremental

/-! # Later times — what a pass after a commit leaves at later instants

    A pass after a commit settles its region anew wherever something changes that
    it looked at.  Between two such instants the region stays as it is, and so
    does what its objects are due — with one exception, and there is a second one
    at the instants themselves:

    * `Store.Appeared`: an object appears at the open end of an edge.  Hops lead
      to existing objects only, so nobody looked at it.
    * `Store.Left`: an object was in the region once and is not any more.  It
      keeps the profile that it was given when it was.

    Everywhere else a store that was up to date at all instants is so again at
    all later ones (`stored_eq_due`).  In the two cases it is if what is due did
    not change after all (`later_quiet_iff`). -/

namespace ClearanceGraph

namespace Store

variable {levels : LevelConfig} {c : SpreadConfig} {s s₁ : Store} {dirty : KeySet Reference}
  {us : List Instant} {u v : Instant} {r : Reference}

/-! ## The two exceptions -/

/-- An object was left behind: after the instant that governs it another one was
    visited. -/
def Left (s : Store) (c : SpreadConfig) (dirty : KeySet Reference) (us : List Instant)
    (u : Instant) (r : Reference) : Prop :=
  ∃ v w, s.Governs c dirty us u r v ∧ w ∈ us ∧ v < w ∧ w ≤ u

/-- After the latest instant that was visited an object appeared at the open end of an
    edge of an object that was looked at. -/
def Appeared (s : Store) (c : SpreadConfig) (dirty : KeySet Reference) (us : List Instant)
    (u : Instant) : Prop :=
  ∃ v ∈ us, v ≤ u ∧ (∀ w ∈ us, v < w → ¬ w ≤ u) ∧
    ∃ x q e, s.Looked c v dirty x ∧ e ∈ (s.snapshot v).edges x ∧ e.touches q = true ∧
      (s.snapshot v).isObject q = false ∧ (s.snapshot u).isObject q = true

/-! ## Between two visits -/

section Still

variable (hs : s.Sound)
  (hsame : ∀ x, s.Looked c v dirty x → (s.snapshot u).SameAt (s.snapshot v) x)
  (hclosed : ∀ x q e, s.Looked c v dirty x → e ∈ (s.snapshot v).edges x →
    e.touches q = true →
    (s.snapshot u).isObject q = true → (s.snapshot v).isObject q = true)

include hs hsame hclosed

/-- What the ball is due stays, if everything that was looked at stays and nothing
    appears. -/
theorem Sound.due_still (hdepth : 1 ≤ c.maxDepth) (hr : s.Ball c v dirty r) :
    s.due levels c u r = s.due levels c v r := by
  have hlooked : ∀ {n x}, n ≤ c.maxDepth → s.Upstream c v r n x → s.Looked c v dirty x :=
    fun hn hx => (hx.imp fun q hq => hq ▸ hr).mono hn
  refine hs.due_congr hs hdepth (fun x hx => hsame x (hlooked (Nat.le_refl _) hx)) ?_
  intro n x y hn hy hnext hx
  obtain ⟨⟨e, he, h, hh, rfl⟩, hne, -⟩ := Snapshot.mem_next_iff.mp hnext
  obtain ⟨ht, -⟩ := Hop.ofEdge?_back hh hne
  have hly := hlooked (Nat.le_of_lt hn) hy
  have hey : e ∈ (s.snapshot v).edges h.node :=
    (hsame _ hly).edges ▸ (hs.linked u).shared he ht
  exact hclosed _ x e hly hey ((hs.linked u).touches he) hx

omit hs in
/-- No object comes into the ball in between. -/
theorem ball_still (hr : s.Ball c u dirty r) : s.Ball c v dirty r := by
  have hball : ∀ {n q}, n ≤ c.maxDepth → Within ((s.snapshot u).next c true)
      (fun q => dirty.contains q = true) n q →
      Within ((s.snapshot v).next c true) (fun q => dirty.contains q = true) n q := by
    intro n q hn h
    -- along the path: each step starts at an object that was looked at, so it was there
    -- before
    induction h with
    | start hq => exact .start hq
    | @step n q r _ hr ih =>
        have hq := ih (Nat.le_of_succ_le hn)
        have hlq : s.Looked c v dirty q := .start (hq.mono (Nat.le_of_succ_le hn))
        obtain ⟨⟨e, he, h, hh, rfl⟩, hne, hobj⟩ := Snapshot.mem_next_iff.mp hr
        obtain ⟨ht, -⟩ := Hop.ofEdge?_back hh hne
        rw [(hsame q hlq).edges] at he
        exact .step hq
          (Snapshot.mem_next_iff.mpr
            ⟨⟨e, he, h, hh, rfl⟩, hne, hclosed q _ e hlq he ht hobj⟩)
  exact hball (Nat.le_refl _) hr

end Still

end Store

namespace Pass

variable {levels : LevelConfig} {c : SpreadConfig}

/-- A store is up to date at all instants if it is so at those at which versions start. -/
theorem quiet_of_starts {s : Store} (hs : s.Sound) (hdepth : 1 ≤ c.maxDepth)
    (hquiet : ∀ v ∈ s.starts, Quiet levels c v s) (u : Instant) : Quiet levels c u s := by
  rw [quiet_iff hs]
  intro r
  by_cases h : ∃ v ∈ s.starts, v ≤ u
  -- since the latest start nothing has changed
  · obtain ⟨v, hv, hvu, hlatest⟩ := Instant.exists_latest h
    have hsame : ∀ k, s.visible u k = s.visible v k := by
      intro k
      refine Store.visible_eq_of_not_startsWithin hvu ?_
      rintro ⟨x, hx, hlt, hle⟩
      exact hlatest _ (Store.validFrom_mem_starts hx) hlt hle
    rw [hs.due_eq_of_facts hs hdepth (fun f => hsame (.fact f)) r,
      ← (quiet_iff hs).mp (hquiet v hv) r]
    exact Store.stored_congr (hsame (.profile r))
  · -- nothing shows yet
    have hnone : ∀ k, s.visible u k = none := by
      intro k
      have hnil : (s.versionsOf k).filter (fun x => x.validFrom ≤ u) = [] := by
        rw [List.filter_eq_nil_iff]
        intro x hx hle
        exact h ⟨_, Store.validFrom_mem_starts hx, of_decide_eq_true hle⟩
      rw [Store.visible, Store.showing, hnil]
      rfl
    have hgone : (s.snapshot u).isObject r = false := congrArg Option.isSome (hnone _)
    rw [Store.due, hgone]
    exact congrArg (fun d => d.bind Document.profile?) (hnone (.profile r))

/-! ## A trail after a commit -/

/-- A store that was up to date at all instants, a commit, and a trail that follows it
    to its end. -/
structure Followed (levels : LevelConfig) (c : SpreadConfig) (tx : Transaction)
    (id : TransactionId) (later : List Instant) (s s₁ s₂ : Store) : Prop where
  sound : s.Sound
  upToDate : ∀ u r, s.stored u r = s.due levels c u r
  spares : tx.SparesProfiles
  commit : s.submit tx = .ok (id, s₁)
  trail : ∃ cps watched, KeySet.popMin? cps = none ∧
    Trail levels c (tx.committed id).touched (KeySet.ofList [tx.validTime]) Table.empty s₁
      (tx.validTime :: later) cps watched s₂

namespace Followed

variable {tx : Transaction} {id : TransactionId} {later : List Instant} {s s₁ s₂ : Store}
  {u : Instant} {r : Reference} (h : Followed levels c tx id later s s₁ s₂)
  (hdepth : 1 ≤ c.maxDepth)

include h

theorem sound_commit : s₁.Sound := h.sound.submit h.commit

/-- A commit of facts leaves what was stored. -/
theorem stored_commit (u : Instant) (r : Reference) :
    s₁.stored u r = s.due levels c u r := by
  rw [← h.upToDate]
  exact Store.stored_submit h.commit h.spares u

include hdepth

/-- What shows afterwards is up to date where objects have what they were due after the
    commit. -/
theorem quiet_iff_due (u : Instant) :
    Quiet levels c u s₂ ↔ ∀ r, s₂.stored u r = s₁.due levels c u r := by
  obtain ⟨cps, watched, -, htrail⟩ := h.trail
  obtain ⟨hs₂, hfacts, -⟩ := htrail.settles_start hdepth h.sound_commit
    (List.cons_ne_nil _ _)
  rw [quiet_iff hs₂]
  refine forall_congr' fun r => ?_
  rw [hs₂.due_eq_of_facts h.sound_commit hdepth fun f => hfacts u (.fact f) rfl]

/-- What the pass leaves of a profile. -/
theorem stored_eq (u : Instant) (r : Reference) :
    (∀ v, s₁.Governs c (tx.committed id).touched (tx.validTime :: later) u r v →
      s₂.stored u r = s₁.due levels c v r) ∧
    ((∀ v, ¬ s₁.Governs c (tx.committed id).touched (tx.validTime :: later) u r v) →
      s₂.stored u r = s.due levels c u r) := by
  obtain ⟨cps, watched, -, htrail⟩ := h.trail
  rw [← h.stored_commit u r]
  exact htrail.stored_eq hdepth h.sound_commit

/-- Everything that starts around what was looked at has been visited. -/
theorem visited_of_looked {v w : Instant} {x : Reference} (hv : v ∈ tx.validTime :: later)
    (hx : s₁.Looked c v (tx.committed id).touched x) (hw : s₁.StartsAround x w)
    (hvw : v < w) :
    w ∈ tx.validTime :: later := by
  obtain ⟨cps, watched, hend, htrail⟩ := h.trail
  refine (htrail.learns hdepth h.sound_commit ?_ v hv x hx w hw hvw).resolve_right ?_
  · intro y hy
    cases hy
  · rw [KeySet.popMin?_eq_none hend]
    exact Bool.false_ne_true

/-- **Away from the two exceptions** the pass leaves what is due. -/
theorem stored_eq_due (hu : tx.validTime ≤ u)
    (hleft : ¬ s₁.Left c (tx.committed id).touched (tx.validTime :: later) u r)
    (happeared : ¬ s₁.Appeared c (tx.committed id).touched (tx.validTime :: later) u) :
    s₂.stored u r = s₁.due levels c u r := by
  have hs₁ := h.sound_commit
  -- the latest instant that was visited; everything is compared with what showed there
  obtain ⟨v, hv, hvu, hlatest⟩ := Instant.exists_latest (p := (· ≤ u))
    ⟨tx.validTime, List.mem_cons_self (l := later), hu⟩
  -- nothing starts around what was looked at last, else it would have been visited
  have hquiet : ∀ x, s₁.Looked c v (tx.committed id).touched x →
      ∀ w, v < w → w ≤ u → ¬ s₁.StartsAround x w := fun x hx w hvw hwu hw =>
    hlatest w (h.visited_of_looked hdepth hv hx hw hvw) hvw hwu
  have hsame : ∀ x, s₁.Looked c v (tx.committed id).touched x →
      (s₁.snapshot u).SameAt (s₁.snapshot v) x := fun x hx =>
    hs₁.sameAt_of_not_startsAround hvu (hquiet x hx)
  have hclosed : ∀ x q e, s₁.Looked c v (tx.committed id).touched x →
      e ∈ (s₁.snapshot v).edges x → e.touches q = true → (s₁.snapshot u).isObject q = true →
      (s₁.snapshot v).isObject q = true := by
    intro x q e hx he hq hobj
    by_contra hno
    exact happeared ⟨v, hv, hvu, hlatest, x, q, e, hx, he, hq, Bool.eq_false_iff.mpr hno,
      hobj⟩
  obtain ⟨hgoverned, hungoverned⟩ := h.stored_eq hdepth u r
  by_cases hr : s₁.Ball c v (tx.committed id).touched r
  · have hgoverns : s₁.Governs c (tx.committed id).touched
        (tx.validTime :: later) u r v := by
      refine ⟨hv, hvu, hr, fun w hw hvw hwu => absurd hwu (hlatest w hw hvw), ?_⟩
      exact Store.not_startsWithin_of_not_startsAround (hquiet r (.start hr))
        (.inr (.inr (.inl rfl)))
    rw [hgoverned v hgoverns, hs₁.due_still hsame hclosed hdepth hr]
  · -- outside of the ball nothing governs, or else the object was left behind
    have hno : ∀ w, ¬ s₁.Governs c (tx.committed id).touched
        (tx.validTime :: later) u r w := by
      intro w hw
      rcases lt_trichotomy w v with hlt | rfl | hlt
      · exact hleft ⟨w, v, hw, hv, hlt, hvu⟩
      · exact hr hw.ball
      · exact hlatest w hw.visited hlt hw.le
    rw [hungoverned hno]
    have hout : ¬ s₁.Ball c u (tx.committed id).touched r := fun hb =>
      hr (Store.ball_still hsame hclosed hb)
    exact (h.sound.due_submit h.commit u hdepth hout).symm

end Followed

/-! ## Following a commit -/

/-- A pass that follows a commit and reports nothing partial. -/
private theorem followed_of_followPlain {w w₁ w₂ : World}
    {tx : Transaction} {id : TransactionId} {report : Report} (hs : w.backend.store.Sound)
    (hrivals : w.rivals = []) (hquiet : ∀ u, Quiet levels c u w.backend.store)
    (hspares : tx.SparesProfiles) (hsub : World.submit tx w = (.ok id, w₁))
    (hfollow : followPlain levels c id w₁ = (.ok report, w₂))
    (hwhole : report.isPartial = false) :
    Followed levels c tx id report.laterTimes w.backend.store w₁.backend.store
      w₂.backend.store := by
  obtain ⟨s₁, ⟨rfl, hr₁⟩, hcommit⟩ :=
    (Act.runs_submit tx w.backend.store).of_ok ⟨rfl, hrivals⟩ hsub
  have hs₁ := hs.submit hcommit
  obtain ⟨s₂, ⟨rfl, -⟩, hpass⟩ := (runs_followPlain hs₁ id).of_ok ⟨rfl, hr₁⟩ hfollow
  obtain ⟨cm, hcm, us, cps, watched, htrail, hend, htimes⟩ := hpass hwhole
  obtain rfl := Option.some.inj ((Store.transaction?_submit hs hcommit).symm.trans hcm)
  have hfirst : (KeySet.ofList [tx.validTime]).contains tx.validTime = true :=
    KeySet.contains_ofList_iff.mpr List.mem_cons_self
  obtain ⟨later, rfl, hlater⟩ := htrail.exists_cons (htrail.ne_nil hfirst hend)
  have hreport : report.laterTimes = later := by
    rw [htimes, List.filter_cons_of_neg (by simp), List.filter_eq_self.mpr]
    exact fun v hv => decide_eq_true (hlater v hv)
  rw [hreport]
  exact ⟨hs, fun u r => (quiet_iff hs).mp (hquiet u) r, hspares, hcommit,
    cps, watched, htrail.popMin?_eq_none hs₁ hend, htrail⟩

/-- What an object is due at an instant is what a pass after a commit left it: what it
    is due at the instant that governs it, or else what it was due before the commit. -/
def Holds (levels : LevelConfig) (c : SpreadConfig) (s s₁ : Store)
    (dirty : KeySet Reference)
    (us : List Instant) (u : Instant) (r : Reference) : Prop :=
  (∀ v, s₁.Governs c dirty us u r v → s₁.due levels c u r = s₁.due levels c v r) ∧
    ((∀ v, ¬ s₁.Governs c dirty us u r v) → s₁.due levels c u r = s.due levels c u r)

/-- **A pass reaches later instants** away from two exceptions. A store that was up to
    date at all instants is so at all later ones, after a commit and a pass that follows
    it, exactly if what the pass left is still due to objects that were left behind, and
    to all objects once an object has appeared at an open edge. -/
theorem later_quiet_iff (hdepth : 1 ≤ c.maxDepth) {w w₁ w₂ : World} {tx : Transaction}
    {id : TransactionId} {report : Report} (hs : w.backend.store.Reachable)
    (hrivals : w.rivals = []) (hquiet : ∀ u, Quiet levels c u w.backend.store)
    (hspares : tx.SparesProfiles) (hsub : World.submit tx w = (.ok id, w₁))
    (hfollow : followPlain levels c id w₁ = (.ok report, w₂))
    (hwhole : report.isPartial = false) :
    (∀ u, tx.validTime < u → Quiet levels c u w₂.backend.store) ↔
      ∀ u, tx.validTime < u → ∀ r,
        (w₁.backend.store.Left c (tx.committed id).touched
          (tx.validTime :: report.laterTimes) u r ∨
          w₁.backend.store.Appeared c (tx.committed id).touched
            (tx.validTime :: report.laterTimes) u) →
        Holds levels c w.backend.store w₁.backend.store (tx.committed id).touched
          (tx.validTime :: report.laterTimes) u r := by
  have h := followed_of_followPlain hs.sound hrivals hquiet hspares hsub hfollow hwhole
  constructor
  · intro hall u hu r _
    -- if all are due, then also those that left or appeared
    have hdue := (h.quiet_iff_due hdepth u).mp (hall u hu) r
    obtain ⟨hgoverned, hungoverned⟩ := h.stored_eq hdepth u r
    refine ⟨fun v hv => ?_, fun hno => ?_⟩
    · rw [← hdue, hgoverned v hv]
    · rw [← hdue, hungoverned hno]
  · intro hall u hu
    rw [h.quiet_iff_due hdepth]
    intro r
    -- apart from the exceptions everything is due without a condition
    by_cases hexception : w₁.backend.store.Left c (tx.committed id).touched
        (tx.validTime :: report.laterTimes) u r ∨
      w₁.backend.store.Appeared c (tx.committed id).touched
        (tx.validTime :: report.laterTimes) u
    · obtain ⟨hgoverned, hungoverned⟩ := h.stored_eq hdepth u r
      obtain ⟨hheld, hunheld⟩ := hall u hu r hexception
      by_cases hgoverns : ∃ v, w₁.backend.store.Governs c (tx.committed id).touched
          (tx.validTime :: report.laterTimes) u r v
      · obtain ⟨v, hv⟩ := hgoverns
        rw [hgoverned v hv, hheld v hv]
      · have hno := not_exists.mp hgoverns
        rw [hungoverned hno, hunheld hno]
    · obtain ⟨hleft, happeared⟩ := not_or.mp hexception
      exact h.stored_eq_due hdepth (le_of_lt hu) hleft happeared

/-- The days of a month. -/
def dayOf (n : Nat) : Instant := ⟨(Date.make? 2024 1 n).getD default, .midnight⟩

/-- Two linked objects without levels, until the link is cut on the third day. -/
def brieflyLinked : Store := .ofTransactions [
  ⟨dayOf 1, [
    .put (.content (.object ⟨⟨"Host|a"⟩, "Host", Table.empty⟩)),
    .put (.content (.object ⟨⟨"Host|b"⟩, "Host", Table.empty⟩)),
    .put (.content (.edge ⟨⟨⟨"Host|a"⟩, "link", ⟨"Host|b"⟩⟩, Table.empty⟩)),
    .put (.profile (.empty ⟨"Host|a"⟩ .zero)),
    .put (.profile (.empty ⟨"Host|b"⟩ .zero))]⟩,
  ⟨dayOf 3, [.delete (.fact (.edge ⟨⟨"Host|a"⟩, "link", ⟨"Host|b"⟩⟩))]⟩]

/-- On the second day a level is declared for the first object. -/
def declaring : Transaction :=
  ⟨dayOf 2, [.put (.content (.declaration ⟨⟨"Host|a"⟩, LevelConfig.standard.highest⟩))]⟩

/-- The second object is left behind on the third day: it keeps the level that it
    inherited over the link. -/
theorem later_quiet_iff_cut :
    1 ≤ SpreadConfig.standard.maxDepth ∧ brieflyLinked.Reachable ∧
      (World.holding brieflyLinked).rivals = [] ∧
      (∀ u, Quiet .standard .standard u brieflyLinked) ∧ declaring.SparesProfiles ∧
      ∃ w₁ w₂ report, World.submit declaring (World.holding brieflyLinked) = (.ok ⟨3⟩, w₁) ∧
        followPlain .standard .standard ⟨3⟩ w₁ = (.ok report, w₂) ∧
        report.isPartial = false ∧
        ¬ Quiet .standard .standard (dayOf 3) w₂.backend.store ∧
        ∃ u r, (w₁.backend.store.Left .standard (declaring.committed ⟨3⟩).touched
            (dayOf 2 :: report.laterTimes) u r ∨
          w₁.backend.store.Appeared .standard (declaring.committed ⟨3⟩).touched
            (dayOf 2 :: report.laterTimes) u) ∧
          ¬ Holds .standard .standard brieflyLinked w₁.backend.store
            (declaring.committed ⟨3⟩).touched (dayOf 2 :: report.laterTimes) u r := by
  have hreach : brieflyLinked.Reachable := Store.reachable_ofTransactions _
  have hquiet : ∀ u, Quiet .standard .standard u brieflyLinked := by
    have hdays : ∀ v ∈ brieflyLinked.starts, v = dayOf 1 ∨ v = dayOf 3 := by decide +kernel
    refine quiet_of_starts hreach.sound (by decide) fun v hv => ?_
    rcases hdays v hv with rfl | rfl
    · rfl
    · rfl
  have hsub : World.submit declaring (World.holding brieflyLinked) =
      (.ok ⟨3⟩, (World.submit declaring (World.holding brieflyLinked)).2) :=
        Prod.ext (by rfl) rfl
  obtain ⟨report, hfollow, hwhole⟩ := Act.exists_eq_ok
    (w := (World.submit declaring (World.holding brieflyLinked)).2)
    (a := followPlain .standard .standard ⟨3⟩) (fun r => !r.isPartial) (by decide +kernel)
  -- on day 3 the edge is gone, and the level that came over it is still there
  have hloud : ¬ Quiet .standard .standard (dayOf 3) (followPlain .standard .standard ⟨3⟩
      (World.submit declaring (World.holding brieflyLinked)).2).2.backend.store := by
    have hwrites :
      ((findAll .standard .standard (dayOf 3) (followPlain .standard .standard ⟨3⟩
      (World.submit declaring
        (World.holding brieflyLinked)).2).2.backend.store).1.toOption.any
        fun p => p.1.isEmpty) = false := by decide +kernel
    intro hquiet
    rw [show (findAll _ _ _ _).1 = _ from hquiet] at hwrites
    cases hwrites
  have hfull : report.isPartial = false := (Bool.not_eq_true' _).mp hwhole
  have hiff := @later_quiet_iff .standard .standard (by decide)
    (World.holding brieflyLinked) _ _
    declaring _ _ hreach rfl hquiet (by decide) hsub hfollow hfull
  have hheld : ¬ ∀ u, declaring.validTime < u → ∀ r, _ → _ := fun hall =>
    hloud (hiff.mpr hall (dayOf 3) (by decide))
  refine ⟨by decide, hreach, rfl, hquiet, by decide, _, _, report, hsub, hfollow, hfull,
    hloud, ?_⟩
  simp only [not_forall] at hheld
  obtain ⟨u, -, r, hexception, hholds⟩ := hheld
  exact ⟨u, r, hexception, hholds⟩

end Pass

end ClearanceGraph
