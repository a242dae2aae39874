import ClearanceGraph.Proofs.Clearance.Trail

/-! # Incremental passes — following commits keeps up with full passes

    Commits of facts at one valid time and passes that follow them may be
    interleaved in any order.  Once every commit was followed after it was made,
    every object has the profile that full recomputation gives it — also the
    objects that no pass ever looked at (`interleaving_quiet`).

    The invariant is that only objects downstream of a commit that is still to be
    followed can have another profile than they are due (`UpToDate`).  A commit
    keeps it by locality: what is due changes only downstream of what the commit
    touched, and a path that a commit cuts leads through what it touched
    (`Sound.ball_submit`).  A pass keeps it because it settles the whole ball of
    its commit. -/

namespace ClearanceGraph

/-- A transaction that writes no profile. Runs of origins and retirements are such. -/
def Transaction.SparesProfiles (tx : Transaction) : Prop :=
  ∀ op ∈ tx.operations, op.isWrite = true → op.key.isProfile = false

instance (tx : Transaction) : Decidable tx.SparesProfiles :=
  inferInstanceAs
    (Decidable (∀ op ∈ tx.operations, op.isWrite = true → op.key.isProfile = false))

/-! ## What a commit touches -/

namespace Committed

variable {tx : Committed} {r : Reference}

private theorem contains_touched {op : Operation} (hop : op ∈ tx.operations)
    (hw : op.isWrite = true) (hr : r ∈ (match op.key with
      | .fact (.object q) => [q]
      | .fact (.declaration q) => [q]
      | .fact (.edge k) => [k.source, k.target]
      | _ => [])) : tx.touched.contains r = true := by
  rw [touched, KeySet.contains_ofList_iff, List.mem_flatMap]
  exact ⟨op, List.mem_filter.mpr ⟨hop, hw⟩, hr⟩

/-- Around an object that a commit did not touch it wrote nothing. -/
theorem not_writes_of_not_touched (h : tx.touched.contains r = false) :
    ¬ (⟨tx.validTime, tx.operations⟩ : Transaction).Writes (.fact (.object r)) ∧
      ¬ (⟨tx.validTime, tx.operations⟩ : Transaction).Writes (.fact (.declaration r)) ∧
      ∀ e : EdgeKey, e.touches r = true →
        ¬ (⟨tx.validTime, tx.operations⟩ : Transaction).Writes (.fact (.edge e)) := by
  rw [← Bool.not_eq_true] at h
  refine ⟨?_, ?_, ?_⟩
  · rintro ⟨op, hop, hw, hkey⟩
    exact h (contains_touched hop hw (by rw [hkey]; exact List.mem_singleton.mpr rfl))
  · rintro ⟨op, hop, hw, hkey⟩
    exact h (contains_touched hop hw (by rw [hkey]; exact List.mem_singleton.mpr rfl))
  · rintro e he ⟨op, hop, hw, hkey⟩
    refine h (contains_touched hop hw ?_)
    rw [hkey]
    simp only [EdgeKey.touches, Bool.or_eq_true, beq_iff_eq] at he
    rcases he with rfl | rfl
    · exact List.mem_cons_self
    · exact List.mem_cons_of_mem _ List.mem_cons_self

end Committed

namespace Store

variable {levels : LevelConfig} {c : SpreadConfig} {s s' : Store} {tx : Transaction}
  {id : TransactionId}

/-- A commit that writes no profile leaves the profiles. -/
theorem stored_submit (h : s.submit tx = .ok (id, s')) (hspares : tx.SparesProfiles)
    (u : Instant) {r : Reference} : s'.stored u r = s.stored u r := by
  refine stored_congr (visible_submit_of_not_writes h ?_ u)
  rintro ⟨op, hop, hw, hkey⟩
  have hspare := hspares op hop hw
  rw [hkey] at hspare
  cases hspare

section Commit

variable (hs : s.Sound) (h : s.submit tx = .ok (id, s')) (u : Instant)

include hs h

/-- A commit changes nothing around the objects that it did not touch. -/
theorem Sound.sameAt_submit {x : Reference}
    (hx : (tx.committed id).touched.contains x = false) :
    (s.snapshot u).SameAt (s'.snapshot u) x := by
  obtain ⟨hobj, hdecl, hedge⟩ := Committed.not_writes_of_not_touched hx
  refine hs.sameAt (hs.submit h) ?_ ?_ fun e he => ?_
  · exact (visible_submit_of_not_writes h hobj u).symm
  · exact (visible_submit_of_not_writes h hdecl u).symm
  · exact (visible_submit_of_not_writes h (hedge e he) u).symm

/-- What was downstream of some objects before a commit is so after it, or it is
    downstream of what the commit touched. -/
theorem Sound.ball_submit {dirty : KeySet Reference} {r : Reference}
    (hr : s.Ball c u dirty r) :
    s'.Ball c u dirty r ∨
      s'.Ball c u (tx.committed id).touched r := by
  unfold Ball at hr ⊢
  generalize c.maxDepth = depth at hr ⊢
  -- along the path: the touched object met last starts a path of its own
  induction hr with
  | start hq => exact .inl (.start hq)
  | @step n q r _ hr ih =>
      cases ht : (tx.committed id).touched.contains r with
      | true => exact .inr (.start ht)
      | false =>
          have hnext : r ∈ (s'.snapshot u).next c true q :=
            (hs.sameAt_submit h u ht).mem_next (hs.linked u) ((hs.submit h).linked u) hr
          exact ih.imp (fun hq => .step hq hnext) fun hq => .step hq hnext

/-- **What is due changes downstream of a commit only.** -/
theorem Sound.due_submit (hdepth : 1 ≤ c.maxDepth) {r : Reference}
    (hr : ¬ s'.Ball c u (tx.committed id).touched r) :
    s'.due levels c u r = s.due levels c u r := by
  have hs' := hs.submit h
  have huntouched : ∀ {n x}, n ≤ c.maxDepth →
    Within ((s'.snapshot u).next c true) (· = x) n r →
      (tx.committed id).touched.contains x = false := by
    intro n x hn hx
    rw [← Bool.not_eq_true]
    intro ht
    refine hr ((hx.imp fun q hq => ?_).mono hn)
    rw [hq]
    exact ht
  have hself := hs.sameAt_submit h u (huntouched (Nat.zero_le _) (.start rfl))
  cases hobj : (s'.snapshot u).isObject r with
  | false =>
      rw [due, due, hself.isObject, hobj]
      rfl
  | true =>
      have hdown : ∀ {n x}, s'.Upstream c u r n x →
          Within ((s'.snapshot u).next c true) (· = x) n r := fun hx =>
        (hs'.linked u).within_back hobj hx
      have hsame : ∀ {n x}, n ≤ c.maxDepth → s'.Upstream c u r n x →
          (s.snapshot u).SameAt (s'.snapshot u) x := fun hn hx =>
        hs.sameAt_submit h u (huntouched hn (hdown hx))
      refine (hs.due_congr hs' hdepth (fun x hx => hsame (Nat.le_refl _) hx) ?_).symm
      intro n x y hn hy hnext hx
      -- an object that is gone was touched, and its hop to `y` would put `r` in the ball
      have hnext' : y ∈ (s'.snapshot u).next c true x :=
        (hsame (Nat.le_of_lt hn) hy).mem_next (hs.linked u) (hs'.linked u) hnext
      have hxr := huntouched hn (.cons hnext' (hdown hy))
      rw [← (hs.sameAt_submit h u hxr).isObject]
      exact hx

end Commit

end Store

namespace Pass

variable {levels : LevelConfig} {c : SpreadConfig} {t : Instant}

/-! ## Commits and passes -/

/-- Commits at one valid time and passes that follow them, in any order: the commits so
    far, and those of them that are still to be followed. -/
inductive Interleaving (levels : LevelConfig) (c : SpreadConfig) (t : Instant) (w : World) :
    List TransactionId → List TransactionId → World → Prop where
  /-- Nothing happened yet. -/
  | start : Interleaving levels c t w [] [] w
  /-- A transaction is committed; it is to be followed. -/
  | commit {made due : List TransactionId} {w₁ w₂ : World} {tx : Transaction}
      {id : TransactionId} :
      Interleaving levels c t w made due w₁ → tx.validTime = t → tx.SparesProfiles →
      World.submit tx w₁ = (.ok id, w₂) →
      Interleaving levels c t w (id :: made) (id :: due) w₂
  /-- A transaction is refused, or the store is out of reach. -/
  | refused {made due : List TransactionId} {w₁ w₂ : World} {tx : Transaction}
      {e : StorageError} :
      Interleaving levels c t w made due w₁ → World.submit tx w₁ = (.error e, w₂) →
      Interleaving levels c t w made due w₂
  /-- One of the commits is followed, and the budget is enough. -/
  | follow {made due : List TransactionId} {w₁ w₂ : World} {id : TransactionId}
      {report : Report} :
      Interleaving levels c t w made due w₁ → id ∈ made →
      followPlain levels c id w₁ = (.ok report, w₂) → report.isPartial = false →
      Interleaving levels c t w made (due.filter (· ≠ id)) w₂

/-- Away from the commits that are still to be followed, every object has what it is
    due. -/
structure UpToDate (levels : LevelConfig) (c : SpreadConfig) (t : Instant)
    (made due : List TransactionId) (s : Store) : Prop where
  sound : s.Sound
  logged : ∀ id ∈ made, ∃ cm, s.transaction? id = some cm ∧ cm.validTime = t
  settled : ∀ r, (∀ id ∈ due, ∀ cm, s.transaction? id = some cm →
    ¬ s.Ball c t cm.touched r) →
    s.stored t r = s.due levels c t r
  outstanding : ∀ id ∈ due, id ∈ made

variable {made due : List TransactionId} {s s' : Store}

/-- A commit keeps objects up to date away from itself. -/
theorem UpToDate.commit (hdepth : 1 ≤ c.maxDepth) (hu : UpToDate levels c t made due s)
    {tx : Transaction} {id : TransactionId} (ht : tx.validTime = t)
    (hspares : tx.SparesProfiles)
    (h : s.submit tx = .ok (id, s')) : UpToDate levels c t (id :: made) (id :: due) s' := by
  have hlog := Store.transaction?_submit hu.sound h
  refine ⟨hu.sound.submit h, ?_, ?_, ?_⟩
  · intro i hi
    rcases List.mem_cons.mp hi with rfl | hi
    · exact ⟨_, hlog, ht⟩
    · obtain ⟨cm, hcm, hcmt⟩ := hu.logged i hi
      exact ⟨cm, Store.transaction?_submit_of_some h hcm, hcmt⟩
  · intro r hr
    have hself := hr id List.mem_cons_self _ hlog
    have hold : s.stored t r = s.due levels c t r := by
      refine hu.settled r fun i hi cm hcm hball => ?_
      -- were it downstream of an older commit before, it is so still, or downstream of
      -- this one
      rcases hu.sound.ball_submit h t hball with hb | hb
      · exact hr i (List.mem_cons_of_mem _ hi) cm
          (Store.transaction?_submit_of_some h hcm) hb
      · exact hself hb
    rw [Store.stored_submit h hspares, hold, hu.sound.due_submit h t hdepth hself]
  · intro i hi
    rcases List.mem_cons.mp hi with rfl | hi
    · exact List.mem_cons_self
    · exact List.mem_cons_of_mem _ (hu.outstanding i hi)

/-- Following a commit brings its ball up to date. -/
theorem UpToDate.follow (hdepth : 1 ≤ c.maxDepth) (hu : UpToDate levels c t made due s)
    {id : TransactionId} (hid : id ∈ made) {us : List Instant} {cps : KeySet Instant}
    {watched : KeySet Reference} {cm : Committed} (hcm : s.transaction? id = some cm)
    (htrail : Trail levels c cm.touched (KeySet.ofList [cm.validTime]) Table.empty s us cps
      watched s') (hne : us ≠ []) :
    UpToDate levels c t made (due.filter (· ≠ id)) s' := by
  obtain ⟨cm', hcm', rfl⟩ := hu.logged id hid
  obtain rfl : cm' = cm := Option.some.inj (hcm'.symm.trans hcm)
  obtain ⟨hs', hfacts, hball, hout, hlog⟩ := htrail.settles_start hdepth hu.sound hne
  have hdue : ∀ r, s'.due levels c cm'.validTime r = s.due levels c cm'.validTime r :=
    hs'.due_eq_of_facts hu.sound hdepth fun f => hfacts _ (.fact f) rfl
  refine ⟨hs', ?_, ?_, ?_⟩
  · intro i hi
    obtain ⟨x, hx, hxt⟩ := hu.logged i hi
    exact ⟨x, hlog i x hx, hxt⟩
  · intro r hr
    rw [hdue]
    by_cases hb : s.Ball c cm'.validTime cm'.touched r
    · exact hball r hb
    · rw [hout r hb]
      -- outside of the ball nothing was written: it was up to date already, or another
      -- commit is still to be followed
      refine hu.settled r fun i hi x hx hxball => ?_
      by_cases heq : i = id
      · subst heq
        obtain rfl : cm' = x := Option.some.inj (hcm.symm.trans hx)
        exact hb hxball
      · have hmem : i ∈ due.filter (· ≠ id) := List.mem_filter.mpr ⟨hi, decide_eq_true heq⟩
        refine hr i hmem x (hlog i x hx) ?_
        rw [hu.sound.ball_eq_of_facts hs' fun f => hfacts _ (.fact f) rfl]
        exact hxball
  · intro i hi
    exact hu.outstanding i (List.mem_filter.mp hi).1

/-- Whatever happens in between, objects away from what is outstanding stay up to date. -/
theorem upToDate_of_interleaving (hdepth : 1 ≤ c.maxDepth) {w w' : World}
    (hs : w.backend.store.Sound) (hrivals : w.rivals = [])
    (hquiet : Quiet levels c t w.backend.store)
    (h : Interleaving levels c t w made due w') :
    w'.rivals = [] ∧ UpToDate levels c t made due w'.backend.store := by
  induction h with
  | start =>
      refine ⟨hrivals, hs, ?_, fun r _ => (quiet_iff hs).mp hquiet r, ?_⟩
      · intro id hid
        cases hid
      · intro id hid
        cases hid
  | @commit made due w₁ w₂ tx id _ ht hspares hsub ih =>
      obtain ⟨hr, hu⟩ := ih
      obtain ⟨s', ⟨rfl, hr'⟩, hcommit⟩ := (Act.runs_submit tx w₁.backend.store).of_ok
        ⟨rfl, hr⟩ hsub
      exact ⟨hr', hu.commit hdepth ht hspares hcommit⟩
  | @refused made due w₁ w₂ tx e _ hsub ih =>
      obtain ⟨hr, hu⟩ := ih
      obtain ⟨s', ⟨hstore, hr'⟩, hsame⟩ :=
        (Act.runs_submit tx w₁.backend.store).of_error ⟨rfl, hr⟩ hsub
      rw [hstore, hsame]
      exact ⟨hr', hu⟩
  | @follow made due w₁ w₂ id report _ hid hfollow hpartial ih =>
      obtain ⟨hr, hu⟩ := ih
      obtain ⟨s', ⟨rfl, hr'⟩, hpass⟩ := (runs_followPlain hu.sound id).of_ok
        ⟨rfl, hr⟩ hfollow
      obtain ⟨cm, hcm, us, cps, watched, htrail, hend, -⟩ := hpass hpartial
      -- a pass that ended has visited the valid time of its commit
      have hfirst : (KeySet.ofList [cm.validTime]).contains cm.validTime = true :=
        KeySet.contains_ofList_iff.mpr List.mem_cons_self
      exact ⟨hr', hu.follow hdepth hid hcm htrail (htrail.ne_nil hfirst hend)⟩

/-- **Incremental propagation agrees with the full pass.** From a store in which a full
    pass would be quiet, any interleaving of commits and passes in which every commit
    was followed after it was made leads to a store in which a full pass would be quiet:
    every object has the profile that full recomputation gives it. -/
theorem interleaving_quiet (hdepth : 1 ≤ c.maxDepth) {w w' : World}
    (hs : w.backend.store.Reachable) (hrivals : w.rivals = [])
    (hquiet : Quiet levels c t w.backend.store) (h : Interleaving levels c t w made [] w') :
    Quiet levels c t w'.backend.store ∧
      ∀ r, w'.backend.store.stored t r = w'.backend.store.due levels c t r := by
  obtain ⟨-, hu⟩ := upToDate_of_interleaving hdepth hs.sound hrivals hquiet h
  have hall : ∀ r, w'.backend.store.stored t r = w'.backend.store.due levels c t r := by
    intro r
    refine hu.settled r fun id hid => ?_
    cases hid
  exact ⟨(quiet_iff hu.sound).mpr hall, hall⟩

/-- Two linked objects, and a level declared for the first one. -/
def linking : Transaction :=
  ⟨Instant.latest, [
    .put (.content (.object ⟨⟨"Host|a"⟩, "Host", Table.empty⟩)),
    .put (.content (.object ⟨⟨"Host|b"⟩, "Host", Table.empty⟩)),
    .put (.content (.edge ⟨⟨⟨"Host|a"⟩, "link", ⟨"Host|b"⟩⟩, Table.empty⟩)),
    .put (.content (.declaration ⟨⟨"Host|a"⟩, LevelConfig.standard.highest⟩))]⟩

/-- The link is cut. -/
def cutting : Transaction :=
  ⟨Instant.latest, [.delete (.fact (.edge ⟨⟨"Host|a"⟩, "link", ⟨"Host|b"⟩⟩))]⟩

/-- The world after both commits. -/
def cutWorld : World :=
  (World.submit cutting (World.submit linking (World.holding .empty)).2).2

/-- Two commits that are followed in the other order. -/
theorem interleaving_quiet_cut :
    1 ≤ SpreadConfig.standard.maxDepth ∧ (World.holding .empty).backend.store.Reachable ∧
      (World.holding .empty).rivals = [] ∧
      Quiet .standard .standard Instant.latest (World.holding .empty).backend.store ∧
      ∃ w', Interleaving .standard .standard Instant.latest (World.holding .empty)
        [⟨2⟩, ⟨1⟩] [] w' ∧
        Quiet .standard .standard Instant.latest w'.backend.store ∧
        w'.backend.store.stored Instant.latest ⟨"Host|b"⟩ =
          some (.empty ⟨"Host|b"⟩ .zero) := by
  have hquiet : Quiet .standard .standard Instant.latest
      (World.holding .empty).backend.store := by
    rfl
  have hlink : World.submit linking (World.holding .empty) =
      (.ok ⟨1⟩, (World.submit linking (World.holding .empty)).2) := Prod.ext (by rfl) rfl
  have hcut : World.submit cutting (World.submit linking (World.holding .empty)).2 =
      (.ok ⟨2⟩, cutWorld) := Prod.ext (by rfl) rfl
  obtain ⟨report, hfollow, hwhole⟩ := Act.exists_eq_ok (w := cutWorld)
    (a := followPlain .standard .standard ⟨2⟩) (fun r => !r.isPartial) (by decide +kernel)
  obtain ⟨report', hfollow', hwhole'⟩ := Act.exists_eq_ok
    (w := (followPlain .standard .standard ⟨2⟩ cutWorld).2)
    (a := followPlain .standard .standard ⟨1⟩) (fun r => !r.isPartial) (by decide +kernel)
  have hstart : Interleaving .standard .standard Instant.latest (World.holding .empty) [] []
      (World.holding .empty) := .start
  have hcommits := (hstart.commit rfl (by decide) hlink).commit rfl (by decide) hcut
  -- the later commit is followed first
  have hrun := (hcommits.follow (by decide) hfollow (Bool.not_eq_true' _ ▸ hwhole)).follow
    (by decide) hfollow' (Bool.not_eq_true' _ ▸ hwhole')
  refine ⟨by decide, .empty, rfl, hquiet, _, hrun, ?_, ?_⟩
  · exact (interleaving_quiet (by decide) .empty rfl hquiet hrun).1
  · decide +kernel

end Pass

end ClearanceGraph
