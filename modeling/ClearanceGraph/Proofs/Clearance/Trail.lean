import ClearanceGraph.Proofs.Clearance.Pass

/-! # Trails — the instants that a pass after a commit visits

    A pass after a commit takes the earliest instant it knows of, settles its
    region there, and learns of later instants from the store, which it writes
    itself in the same turn (`runs_settleAt`).  What a turn writes starts at its
    own instant, which is behind everything that is still to come; so a later
    start that is found was there before the pass, whenever it is found.  This is
    the invariant `Pass.Forward`, and it bounds the turns (`Forward.length_lt`).

    `Pass.Trail` is a run of such turns: it forgets the report and the retries and
    keeps the stores, the instants that are still to come and the objects that are
    watched.  A pass that reports nothing partial made a trail
    (`runs_followPlain`).  A trail goes forward, and it leaves the facts alone and
    everything before its first instant (`Trail.frame`). -/

namespace ClearanceGraph

namespace Pass

open Act (Runs)

variable {levels : LevelConfig} {c : SpreadConfig} {dirty : KeySet Reference}

/-! ## One instant -/

/-- What was found at an instant is written, with a note if the pass is recorded, and
    what was learnt is added. If it fails, nothing was written. -/
theorem runs_settleAt {s : Store} (hs : s.Sound) (seed : Batch) (recorded : Bool)
    (start t : Instant) (p : Progress) :
    Runs (settleAt levels c seed recorded start dirty t p) s
      (fun p' s' => (∃ note, (recorded = false → note = []) ∧
          s.Wrote ⟨t, (s.finding levels c dirty p.watched t).operations ++ note⟩ s') ∧
        p'.checkpoints = p.checkpoints.union (s.finding levels c dirty p.watched t).later ∧
        p'.watched = p.watched.union (s.finding levels c dirty p.watched t).fresh ∧
        p'.report.laterTimes = p.report.laterTimes ++ (if start < t then [t] else []) ∧
        p'.report.isPartial =
          (p.report.isPartial || (s.finding levels c dirty p.watched t).isPartial))
      (· = s) := by
  refine (Act.runs_read _ s).bind ?_
  rintro f s' ⟨hfound, rfl⟩
  obtain rfl := hfound.unique (hs.find_gives levels c dirty p.watched)
  refine (runs_write c _ s').bind fun r s'' hw => ?_
  refine Act.runs_pure ⟨⟨_, fun hrecorded => ?_, hw.1⟩, rfl, rfl, rfl, rfl⟩
  rw [hrecorded]
  rfl

/-- What one instant adds to the later times that are reported. -/
theorem filter_later_cons (start t : Instant) (us : List Instant) :
    (t :: us).filter (start < ·) = (if start < t then [t] else []) ++
      us.filter (start < ·) := by
  by_cases hlt : start < t
  · simp [hlt]
  · simp [hlt]

/-! ## Going forward -/

/-- A pass that started on the store `s` has visited the instants `us` and left the
    store `s'`; the instants `cps` are still to come. -/
structure Forward (s : Store) (start : Instant) (us : List Instant) (cps : KeySet Instant)
    (s' : Store) : Prop where
  sound : s'.Sound
  ascends : us.Pairwise (· < ·)
  ahead : ∀ u ∈ us, ∀ v, cps.contains v = true → u < v
  starts : ∀ v, v ∈ us ∨ cps.contains v = true → v = start ∨ v ∈ s.starts
  new : ∀ k, ∀ v ∈ s'.versionsOf k, v ∈ s.versionsOf k ∨ v.validFrom ∈ us

namespace Forward

variable {s s₁ s₂ : Store} {start t : Instant} {us : List Instant}
    {cps rest : KeySet Instant}
  {watched : KeySet Reference} {ops : List Operation}

/-- A pass starts with one instant. -/
theorem first (hs : s.Sound) (start : Instant) :
    Forward s start [] (KeySet.ofList [start]) s where
  sound := hs
  ascends := .nil
  ahead := fun _ hu => by cases hu
  starts := by
    intro v hv
    rcases hv with hv | hv
    · cases hv
    · exact .inl (List.mem_singleton.mp (KeySet.contains_ofList_iff.mp hv))
  new := fun _ _ hv => .inl hv

section Next

variable (h : Forward s start us cps s₁) (hpop : KeySet.popMin? cps = some (t, rest))

include h hpop

/-- The next instant goes on with what was visited. -/
theorem next :
    (us ++ [t]).Pairwise (· < ·) ∧ ∀ u ∈ us ++ [t], u = start ∨ u ∈ s.starts := by
  have ht := KeySet.contains_of_popMin? hpop
  constructor
  · refine List.pairwise_append.mpr ⟨h.ascends, List.pairwise_singleton _ _,
      fun u hu v hv => ?_⟩
    exact List.mem_singleton.mp hv ▸ h.ahead u hu t ht
  · intro u hu
    rcases List.mem_append.mp hu with hu | hu
    · exact h.starts u (.inl hu)
    · exact List.mem_singleton.mp hu ▸ h.starts t (.inr ht)

/-- As long as there is a next instant, fewer were visited than versions can start at. -/
theorem length_lt : us.length < s.versionCount + 1 := by
  obtain ⟨hasc, hstarts⟩ := h.next hpop
  have hle := Store.length_le_versionCount hasc hstarts
  rwa [List.length_append, List.length_singleton] at hle

/-- **A turn goes forward.** -/
theorem turn (hw : s₁.Wrote ⟨t, ops⟩ s₂) : Forward s start (us ++ [t])
    (rest.union (s₁.finding levels c dirty watched t).later) s₂ := by
  have ht := KeySet.contains_of_popMin? hpop
  obtain ⟨hasc, hstarts⟩ := h.next hpop
  have hto : ∀ v, (rest.union (s₁.finding levels c dirty watched t).later).contains v =
    true →
      t < v ∧ (v = start ∨ v ∈ s.starts) := by
    intro v hv
    rcases (KeySet.contains_union_iff _ _).mp hv with hv | hv
    · have hmem := (KeySet.contains_iff_of_popMin? hpop).mpr (.inr hv)
      exact ⟨(KeySet.popMin?_eq_some hpop).2 v hv, h.starts v (.inr hmem)⟩
    · -- what starts later than now was there before the pass
      obtain ⟨_, -, k, -, w, hw, rfl, hlt⟩ := Store.contains_later_iff.mp hv
      rcases h.new k w hw with hw | hw
      · exact ⟨hlt, .inr (Store.validFrom_mem_starts hw)⟩
      · exact absurd (lt_trans hlt (h.ahead _ hw t ht)) (lt_irrefl _)
  refine ⟨hw.sound h.sound, hasc, ?_, ?_, ?_⟩
  · intro u hu v hv
    rcases List.mem_append.mp hu with hu | hu
    · exact lt_trans (h.ahead u hu t ht) (hto v hv).1
    · exact List.mem_singleton.mp hu ▸ (hto v hv).1
  · intro v hv
    rcases hv with hv | hv
    · exact hstarts v hv
    · exact (hto v hv).2
  · intro k v hv
    rcases hw.new hv with hv | hv
    · exact (h.new k v hv).imp_right (List.mem_append_left _)
    · exact .inr (List.mem_append_right _ (List.mem_singleton.mpr hv))

end Next

end Forward

/-! ## Passes make trails -/

/-- A run over instants, from some that are to come and some watched objects to others. -/
inductive Trail (levels : LevelConfig) (c : SpreadConfig) (dirty : KeySet Reference) :
    KeySet Instant → KeySet Reference → Store → List Instant →
      KeySet Instant → KeySet Reference → Store → Prop where
  | stop {cps : KeySet Instant} {watched : KeySet Reference} {s : Store} :
      Trail levels c dirty cps watched s [] cps watched s
  | visit {cps rest cps' : KeySet Instant} {watched watched' : KeySet Reference}
      {s s₁ s' : Store} {u : Instant} {us : List Instant} :
      KeySet.popMin? cps = some (u, rest) →
      (s.finding levels c dirty watched u).isPartial = false →
      s.Wrote ⟨u, (s.finding levels c dirty watched u).operations⟩ s₁ →
      Trail levels c dirty (rest.union (s.finding levels c dirty watched u).later)
        (watched.union (s.finding levels c dirty watched u).fresh) s₁ us cps' watched' s' →
      Trail levels c dirty cps watched s (u :: us) cps' watched' s'

/-- Instant after instant. Unless instants ran out, as many were visited as allowed. -/
private theorem runs_settleFrom (seed : Batch) (start : Instant) (n : Nat) :
    ∀ (p : Progress) {s : Store}, s.Sound →
      Runs (settleFrom levels c seed false start dirty n p) s
        (fun p' s' => p'.report.isPartial = false → p.report.isPartial = false ∧
          ∃ us, Trail levels c dirty p.checkpoints p.watched s us p'.checkpoints
            p'.watched s' ∧
            (KeySet.popMin? p'.checkpoints = none ∨ us.length = n) ∧
            p'.report.laterTimes = p.report.laterTimes ++ us.filter (start < ·))
        (fun _ => True) := by
  -- on the instants that are still allowed
  induction n with
  | zero =>
      intro p s _
      exact Act.runs_pure fun h => ⟨h, [], .stop, .inr rfl, (List.append_nil _).symm⟩
  | succ n ih =>
      intro p s hs
      rw [settleFrom]
      split
      · next hnone =>
        exact Act.runs_pure fun h => ⟨h, [], .stop, .inl hnone, (List.append_nil _).symm⟩
      · next t rest hpop =>
        refine (runs_settleAt hs seed false start t _).unless_failed.bind ?_
        rintro p₁ s₁ ⟨⟨note, hnote, hwrote⟩, hcps, hwatched, hlater, hpartial⟩
        rw [hnote rfl, List.append_nil] at hwrote
        refine (ih p₁ (hwrote.sound hs)).imp (fun p' s' h hp' => ?_) fun _ _ => trivial
        obtain ⟨hp₁, us, htrail, hend, htimes⟩ := h hp'
        rw [hpartial, Bool.or_eq_false_iff] at hp₁
        rw [hcps, hwatched] at htrail
        refine ⟨hp₁.1, t :: us, .visit hpop hp₁.2 hwrote htrail, ?_, ?_⟩
        · exact hend.imp_right fun hlen => by rw [List.length_cons, hlen]
        · rw [htimes, hlater, List.append_assoc, filter_later_cons]

private theorem runs_horizon (s : Store) :
    Runs horizon s (fun n s' => n = s.versionCount + 1 ∧ s' = s) (fun _ => True) := by
  intro w hw
  have hrun : horizon w = (.ok (w.backend.store.versionCount + w.rivals.length + 1), w) :=
    rfl
  rw [hrun]
  refine ⟨s, hw, .inl ⟨_, rfl, ?_, rfl⟩⟩
  rw [hw.1, hw.2]
  rfl

/-- **A pass after a commit** that reports nothing partial makes a trail. It starts with
    the valid time of the commit, and leaves instants only after more than there are
    versions. -/
theorem runs_followPlain {s : Store} (hs : s.Sound) (id : TransactionId) :
    Runs (followPlain levels c id) s
      (fun report s' => report.isPartial = false → ∃ tx, s.transaction? id = some tx ∧
        ∃ us cps watched, Trail levels c tx.touched (KeySet.ofList [tx.validTime])
          Table.empty s us cps watched s' ∧
          (KeySet.popMin? cps = none ∨ us.length = s.versionCount + 1) ∧
          report.laterTimes = us.filter (tx.validTime < ·))
      (fun _ => True) := by
  refine (Act.runs_read _ s).unless_failed.bind ?_
  rintro found s' ⟨hfound, rfl⟩
  obtain rfl : found = s'.transaction? id := hfound.unique (Reading.gives_ask _ s')
  cases htx : s'.transaction? id with
  | none => exact Act.runs_throw trivial
  | some tx =>
      refine (runs_horizon s').bind ?_
      rintro n s₁ ⟨rfl, rfl⟩
      refine (runs_settleFrom _ _ _ _ hs).bind fun p s₂ h => ?_
      refine Act.runs_pure fun hpartial => ⟨tx, rfl, ?_⟩
      obtain ⟨-, us, htrail, hend, htimes⟩ := h hpartial
      exact ⟨us, p.checkpoints, p.watched, htrail, hend, htimes⟩

/-! ## What trails leave -/

namespace Trail

variable {cps cps' : KeySet Instant} {watched watched' : KeySet Reference} {s s' : Store}
  {us : List Instant} {t : Instant}

/-- Instants that are learnt come later. -/
theorem lt_of_contains_next {rest : KeySet Instant} {u v : Instant}
    (hpop : KeySet.popMin? cps = some (u, rest))
    (hv : (rest.union (s.finding levels c dirty watched u).later).contains v = true) :
      u < v := by
  rw [KeySet.contains_union_iff] at hv
  rcases hv with hv | hv
  · rw [Instant.lt_iff_compare]
    exact (KeySet.popMin?_eq_some hpop).2 v hv
  · obtain ⟨x, -, k, -, w, -, -, hlt⟩ := Store.contains_later_iff.mp hv
    exact hlt

/-- **A trail goes forward.** -/
theorem forward {s₀ : Store} {start : Instant}
    (h : Trail levels c dirty cps watched s us cps' watched' s') :
    ∀ {vs : List Instant}, Forward s₀ start vs cps s →
      Forward s₀ start (vs ++ us) cps' s' := by
  induction h with
  | stop =>
      intro vs hf
      rwa [List.append_nil]
  | @visit _ _ _ _ _ _ _ _ u us hpop _ hwrote _ ih =>
      intro vs hf
      rw [← List.singleton_append, ← List.append_assoc]
      exact ih (hf.turn hpop hwrote)

/-- A trail that comes to an end visits what it starts from. -/
theorem ne_nil (h : Trail levels c dirty cps watched s us cps' watched' s')
    {v : Instant} {n : Nat}
    (hv : cps.contains v = true) (hend : KeySet.popMin? cps' = none ∨ us.length = n + 1) :
    us ≠ [] := by
  cases h with
  | stop =>
      rcases hend with hnone | hlen
      · have hno := KeySet.popMin?_eq_none hnone v
        rw [hv] at hno
        cases hno
      · cases hlen
  | visit => exact List.cons_ne_nil _ _

/-- **The frame of a trail** of instants after `t`: facts and earlier commits stay, and
    so do the profiles that show at `t`. -/
theorem frame (hdepth : 1 ≤ c.maxDepth)
    (h : Trail levels c dirty cps watched s us cps' watched' s') (hs : s.Sound)
    (hcps : ∀ v, cps.contains v = true → t < v) :
    s'.Sound ∧ (∀ u k, k.isProfile = false → s'.visible u k = s.visible u k) ∧
      (∀ r, s'.stored t r = s.stored t r) ∧
      ∀ id cm, s.transaction? id = some cm → s'.transaction? id = some cm := by
  induction h with
  | stop => exact ⟨hs, fun _ _ _ => rfl, fun _ => rfl, fun _ _ h => h⟩
  | @visit cps rest cps' watched watched' s s₁ s' u us hpop hpartial hwrote _ ih =>
      -- every visit writes profiles only, from its own instant on
      have hset := (hs.settling_finding hdepth hpartial).1.settled hs hwrote
      have hu : t < u := hcps u (KeySet.contains_of_popMin? hpop)
      obtain ⟨hs', hfacts, hstored, hlog⟩ := ih hset.sound fun v hv =>
        lt_trans hu (lt_of_contains_next hpop hv)
      refine ⟨hs', fun v k hk => ?_, fun r => ?_, fun id cm hcm => ?_⟩
      · rw [hfacts v k hk, hset.facts v k hk]
      · rw [hstored r, hset.before t r hu]
      · exact hlog id cm (hwrote.transaction? hcm)

/-- A trail that starts at `t` only settles the ball there, and leaves the other
    profiles that show at `t`. -/
theorem settles_start (hdepth : 1 ≤ c.maxDepth)
    (h : Trail levels c dirty (KeySet.ofList [t]) watched s us cps' watched' s')
    (hs : s.Sound) (hne : us ≠ []) :
    s'.Sound ∧ (∀ u k, k.isProfile = false → s'.visible u k = s.visible u k) ∧
      (∀ r, s.Ball c t dirty r → s'.stored t r = s.due levels c t r) ∧
      (∀ r, ¬ s.Ball c t dirty r → s'.stored t r = s.stored t r) ∧
      ∀ id cm, s.transaction? id = some cm → s'.transaction? id = some cm := by
  cases h with
  | stop => exact absurd rfl hne
  | @visit _ rest _ _ _ _ s₁ _ u us hpop hpartial hwrote htrail =>
      have hfirst := KeySet.contains_of_popMin? hpop
      rw [KeySet.contains_ofList_iff, List.mem_singleton] at hfirst
      obtain rfl : u = t := hfirst
      have hset := (hs.settling_finding hdepth hpartial).1.settled hs hwrote
      obtain ⟨hs', hfacts, hstored, hlog⟩ := htrail.frame hdepth hset.sound fun v hv =>
        lt_of_contains_next hpop hv
      refine ⟨hs', fun v k hk => ?_, fun r hr => ?_, fun r hr => ?_, fun id cm hcm => ?_⟩
      · rw [hfacts v k hk, hset.facts v k hk]
      · rw [hstored r, hset.stored_self hr]
      · rw [hstored r, hset.outside _ r hr]
      · exact hlog id cm (hwrote.transaction? hcm)

end Trail

end Pass

end ClearanceGraph
