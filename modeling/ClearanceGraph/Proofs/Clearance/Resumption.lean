import ClearanceGraph.Proofs.Clearance.Checkpoints
import ClearanceGraph.Proofs.Clearance.Course

/-! # Resumption — a pass that starts again

    A pass that was interrupted starts over at the first instant, on a store that has
    some of its profiles and notes already.  It visits the same instants as the pass
    that was not interrupted, since what it wrote itself started at instants that it
    had visited (`Point.Follows`).

    Up to the interruption every instant is idle: nothing is found, and the note of
    the last instant stays the newest one.  From there on the two passes write the same
    transactions, on stores that show the same (`Store.Alike`).  The heart is
    `Paused.follows`, one instant after another. -/

namespace ClearanceGraph

/-! ## Stores that show the same -/

namespace Store

variable {s s' s₁ s₁' : Store} {tx : Transaction} {t : TransactionId} {k : DocumentKey}
  {u : Instant}

/-- Whether a version of a key starts at an instant. -/
def StartsAt (s : Store) (k : DocumentKey) (u : Instant) : Prop :=
  ∃ v ∈ s.versionsOf k, v.validFrom = u

/-- Two stores differ at most in the numbers of commits, and in notes for a commit that
    are not the newest one. -/
structure Alike (t : TransactionId) (s s' : Store) : Prop where
  visible : ∀ k, k ≠ .outbox t → ∀ u, s'.visible u k = s.visible u k
  starts : ∀ k, k ≠ .outbox t → ∀ u, s'.StartsAt k u ↔ s.StartsAt k u
  stamp : s'.stamp t = s.stamp t

/-- A commit makes the keys that it writes start at its time. -/
theorem Wrote.startsAt_iff (h : s.Wrote tx s') :
    s'.StartsAt k u ↔ s.StartsAt k u ∨ tx.Writes k ∧ tx.validTime = u := by
  rcases h with ⟨hempty, rfl⟩ | ⟨-, id, hsub⟩
  · have hno := (Transaction.isEmpty_iff tx).mp hempty k
    exact (or_iff_left fun h => hno h.1).symm
  · obtain ⟨-, -, -, hvers, -⟩ := submit_eq_ok hsub
    rw [StartsAt, hvers]
    constructor
    · rintro ⟨v, hv, rfl⟩
      rcases List.mem_append.mp hv with hv | hv
      · exact .inl ⟨v, hv, rfl⟩
      · obtain ⟨d, hd, rfl⟩ := List.mem_map.mp hv
        refine .inr ⟨by_contra fun hno => ?_, rfl⟩
        rw [(tx.writesTo_eq_nil_iff k).mpr hno] at hd
        cases hd
    · rintro (⟨v, hv, rfl⟩ | ⟨hk, rfl⟩)
      · exact ⟨v, List.mem_append_left _ hv, rfl⟩
      · obtain ⟨d, hd⟩ := List.exists_mem_of_ne_nil _ fun hnil =>
          (tx.writesTo_eq_nil_iff k).mp hnil hk
        exact ⟨_, List.mem_append_right _ (List.mem_map_of_mem hd), rfl⟩

namespace Alike

theorem refl (t : TransactionId) (s : Store) : s.Alike t s :=
  ⟨fun _ _ _ => rfl, fun _ _ _ => Iff.rfl, rfl⟩

variable (h : s.Alike t s')

include h

/-- Alike stores start anew at the same instants, apart from notes. -/
theorem startsWithin_iff (hk : k ≠ .outbox t) {v : Instant} :
    s'.StartsWithin k u v ↔ s.StartsWithin k u v := by
  constructor
  · rintro ⟨w, hw, hlt, hle⟩
    obtain ⟨w', hw', heq⟩ := (h.starts k hk _).mp ⟨w, hw, rfl⟩
    exact ⟨w', hw', heq ▸ hlt, heq ▸ hle⟩
  · rintro ⟨w, hw, hlt, hle⟩
    obtain ⟨w', hw', heq⟩ := (h.starts k hk _).mpr ⟨w, hw, rfl⟩
    exact ⟨w', hw', heq ▸ hlt, heq ▸ hle⟩

/-- So they do around an object. -/
theorem startsAround_iff {r : Reference} : s'.StartsAround r u ↔ s.StartsAround r u := by
  refine exists_congr fun k => and_congr_right fun hk => h.starts k ?_ u
  rcases hk with rfl | rfl | rfl | ⟨e, -, rfl⟩ <;> exact DocumentKey.noConfusion

/-- Alike stores have the same snapshots. -/
theorem snapshot (hs : s.Sound) (hs' : s'.Sound) (u : Instant) :
    s'.snapshot u = s.snapshot u :=
  hs.snapshot_congr hs' fun k hk => h.visible k (hk t) u

variable {ops : List Operation} {posted : Option (Option OutboxEntry)}

/-- The same write keeps stores alike. -/
theorem wrote (hs : s.Sound) (hs' : s'.Sound) (hops : ∀ op ∈ ops, op.key.isProfile = true)
    (hposted : ∀ x, posted = some (some x) → x.batch.transaction = t)
    (hw : s.Wrote ⟨u, ops ++ (posted.map (.posting t)).toList⟩ s₁)
    (hw' : s'.Wrote ⟨u, ops ++ (posted.map (.posting t)).toList⟩ s₁') : s₁.Alike t s₁' := by
  refine ⟨fun k hk v => ?_, fun k hk v => ?_, ?_⟩
  · rcases hw with ⟨hempty, rfl⟩ | ⟨hne, id, hsub⟩
    · rcases hw' with ⟨-, rfl⟩ | ⟨hne, -⟩
      · exact h.visible k hk v
      · cases hne.symm.trans hempty
    · rcases hw' with ⟨hempty, -⟩ | ⟨-, id', hsub'⟩
      · cases hne.symm.trans hempty
      · rcases lt_or_ge v u with hlt | hle
        · rw [visible_submit_of_lt hsub' hlt, visible_submit_of_lt hsub hlt, h.visible k hk]
        · by_cases hwithin : s.StartsWithin k u v
          · rw [visible_submit_of_startsWithin hs' hsub'
              ((h.startsWithin_iff hk).mpr hwithin),
              visible_submit_of_startsWithin hs hsub hwithin, h.visible k hk]
          · rw [visible_submit hs' hsub' hle fun h' =>
              hwithin ((h.startsWithin_iff hk).mp h'),
              visible_submit hs hsub hle hwithin, h.visible k hk]
  · rw [hw'.startsAt_iff, hw.startsAt_iff, h.starts k hk]
  · rw [stamp_of_wrote hs' hops hposted hw', stamp_of_wrote hs hops hposted hw, h.stamp]

/-- A note keeps stores alike if the newest one stays. -/
theorem noted (hs' : s'.Sound)
    (hposted : ∀ x, posted = some (some x) → x.batch.transaction = t)
    (hstamp : stampedBy u posted (s.stamp t) = s.stamp t)
    (hw : s'.Wrote ⟨u, (posted.map (.posting t)).toList⟩ s₁') : s.Alike t s₁' := by
  have hno : ∀ k, k ≠ .outbox t →
      ¬ (⟨u, (posted.map (.posting t)).toList⟩ : Transaction).Writes k := by
    rintro k hk ⟨op, hop, -, rfl⟩
    obtain ⟨e, he, rfl⟩ := Option.map_eq_some_iff.mp (Option.mem_toList.mp hop)
    cases e with
    | none => exact hk rfl
    | some x => exact hk (congrArg DocumentKey.outbox (hposted x he))
  refine ⟨fun k hk v => ?_, fun k hk v => ?_, ?_⟩
  · rw [← h.visible k hk]
    rcases hw with ⟨-, rfl⟩ | ⟨-, id, hsub⟩
    · rfl
    · exact visible_submit_of_not_writes hsub (hno k hk) v
  · rw [hw.startsAt_iff, h.starts k hk]
    exact or_iff_left fun hwrites => hno k hk hwrites.1
  · exact (stamp_of_wrote hs' (fun _ (hop : _ ∈ []) => nomatch hop) hposted hw).trans
      (h.stamp ▸ hstamp)

end Alike

end Store

namespace Pass

variable {levels : LevelConfig} {c : SpreadConfig} {seed : Batch} {start : Instant}
  {dirty : KeySet Reference} {s r : Store} {x y z z' : Point} {t : Instant}
  {rest rest' : KeySet Instant}

namespace Point

/-- A pass that started again is at `y`.  After as many instants the first pass was at
    `x`, and by now it has been at `z`. -/
structure Follows (id : TransactionId) (x z y : Point) : Prop where
  visited : y.visited = x.visited
  watched : y.progress.watched = x.progress.watched
  full : y.progress.report.isPartial = false
  deltas : y.progress.deltas = z.progress.deltas
  alike : z.store.Alike id y.store
  known : ∀ v, x.progress.checkpoints.contains v = true →
    y.progress.checkpoints.contains v = true
  /-- It only knows other instants that were visited before. -/
  known_or : ∀ v, y.progress.checkpoints.contains v = true →
    x.progress.checkpoints.contains v = true ∨ v ∈ z.visited

/-- A note at an instant leaves the newest one, if that was posted at the same instant
    or later. -/
private theorem stampedBy_posted? {t u : Instant} {b : Batch} (htu : t ≤ u) :
    Store.stampedBy t (Outbox.posted? t b false)
        ((Outbox.posted? u b false).map fun e => (u, e.map .outbox)) =
      (Outbox.posted? u b false).map fun e => (u, e.map .outbox) := by
  unfold Outbox.posted?
  cases b.isEmpty with
  | true => rfl
  | false =>
      rcases lt_or_eq_of_le htu with hlt | rfl
      · exact if_pos hlt
      · exact if_neg (lt_irrefl t)

/-- A note at an instant that was visited leaves the newest one. -/
private theorem Stamped.stampedBy_posted? (hz : Stamped seed z)
    (hcourse : z.OnCourse levels c dirty s start) (hmem : t ∈ z.visited)
    (hmore : ¬ z.Ended) :
    Store.stampedBy t (Outbox.posted? t (z.progress.batch seed) false)
      (z.store.stamp seed.transaction) = z.store.stamp seed.transaction := by
  obtain ⟨us, u, hus⟩ : ∃ us u, z.visited = us ++ [u] :=
    ⟨_, _, (List.dropLast_append_getLast (List.ne_nil_of_mem hmem)).symm⟩
  have htu : t ≤ u := by
    have hasc := hcourse.ascends
    rw [hus] at hasc hmem
    rcases List.mem_append.mp hmem with hmem | hmem
    · exact le_of_lt ((List.pairwise_append.mp hasc).2.2 t hmem u List.mem_cons_self)
    · exact le_of_eq (List.mem_singleton.mp hmem)
  obtain ⟨q, hmore⟩ := Option.ne_none_iff_exists'.mp hmore
  rw [hz, isEmpty_of_popMin? hmore, hus, List.getLast?_concat, Option.bind_some]
  exact Point.stampedBy_posted? htu

namespace Follows

variable (h : Follows seed.transaction x z y)

include h

/-- Where the first pass has ended, the other one has. -/
theorem ended (hy : y.OnCourse levels c dirty r start)
    (hvisited : ∀ v ∈ z.visited, v ∈ x.visited) (hx : x.Ended) : y.Ended := by
  by_contra hno
  obtain ⟨⟨v, rest⟩, hpop⟩ := Option.ne_none_iff_exists'.mp hno
  have hv := KeySet.contains_of_popMin? hpop
  rcases h.known_or v hv with hcontains | hmem
  · rw [KeySet.popMin?_eq_none hx v] at hcontains
    cases hcontains
  · rw [← h.visited] at hvisited
    exact lt_irrefl v (hy.ahead v (hvisited v hmem) v hv)

/-- Both passes go on with the same instant. -/
theorem exists_popMin? (hy : y.OnCourse levels c dirty r start)
    (hvisited : ∀ v ∈ z.visited, v ∈ x.visited ∨ t ≤ v)
    (hpop : KeySet.popMin? x.progress.checkpoints = some (t, rest)) :
    ∃ rest', KeySet.popMin? y.progress.checkpoints = some (t, rest') := by
  have ht := h.known t (KeySet.contains_of_popMin? hpop)
  cases hpop' : KeySet.popMin? y.progress.checkpoints with
  | none =>
      rw [KeySet.popMin?_eq_none hpop' t] at ht
      cases ht
  | some q =>
      obtain ⟨v, rest'⟩ := q
      have hv := KeySet.contains_of_popMin? hpop'
      -- the instant `t` waits in the second pass, too, so its next one is no later
      have hvt : v ≤ t := by
        rcases (KeySet.contains_iff_of_popMin? hpop').mp ht with rfl | hrest
        · exact le_refl _
        · exact le_of_lt ((KeySet.popMin?_eq_some hpop').2 t hrest)
      have htv : t ≤ v := by
        rcases h.known_or v hv with hcontains | hmem
        · rcases (KeySet.contains_iff_of_popMin? hpop).mp hcontains with rfl | hrest
          · exact le_refl _
          · exact le_of_lt ((KeySet.popMin?_eq_some hpop).2 v hrest)
        · rcases hvisited v hmem with hmem | hle
          · -- what the second pass has visited does not wait any more
            exact absurd (hy.ahead v (h.visited ▸ hmem) v hv) (lt_irrefl v)
          · exact hle
      obtain rfl := le_antisymm hvt htv
      exact ⟨rest', rfl⟩

section Visit

variable (hx : x.OnCourse levels c dirty s start) (hy : y.OnCourse levels c dirty r start)
  (honward : x.Onward z) (hpop : KeySet.popMin? x.progress.checkpoints = some (t, rest))
  (hpop' : KeySet.popMin? y.progress.checkpoints = some (t, rest'))
  (hfull : (x.visit levels c seed start dirty t rest).progress.report.isPartial = false)

include hx hy honward hfull

/-- Both passes look at the same region. -/
private theorem region_eq :
    y.store.region levels c dirty t = x.store.region levels c dirty t := by
  refine hx.sound.region_eq_of_facts hy.sound (fun f => ?_)
    (Bool.or_eq_false_iff.mp hfull).2
  rw [h.alike.visible _ DocumentKey.noConfusion, honward.facts]

/-- Both passes find the same objects that were not watched before. -/
private theorem fresh_eq : (y.store.finding levels c dirty y.progress.watched t).fresh =
    (x.store.finding levels c dirty x.progress.watched t).fresh := by
  rw [Store.fresh_finding, Store.fresh_finding, h.region_eq hx hy honward hfull, h.watched]

include hpop hpop'

/-- What the first pass is to visit the second one is to visit, too. -/
private theorem known_visit {v : Instant}
    (hv : (x.visit levels c seed start dirty t rest).progress.checkpoints.contains v =
      true) :
    (y.visit levels c seed start dirty t rest').progress.checkpoints.contains v = true := by
  rcases (KeySet.contains_union_iff _ _).mp hv with hv | hv
  · have hne : v ≠ t := ne_of_gt ((KeySet.popMin?_eq_some hpop).2 v hv)
    have hcontains := h.known v ((KeySet.contains_iff_of_popMin? hpop).mpr (.inr hv))
    exact (KeySet.contains_union_iff _ _).mpr
      (.inl (((KeySet.contains_iff_of_popMin? hpop').mp hcontains).resolve_left hne))
  · obtain ⟨q, hq, ⟨k, hk, w, hw, rfl⟩, hlt⟩ := hx.sound.contains_later_iff'.mp hv
    refine (KeySet.contains_union_iff _ _).mpr
      (.inr (hy.sound.contains_later_iff'.mpr ⟨q, ?_, ?_, hlt⟩))
    · rwa [h.fresh_eq hx hy honward hfull]
    · exact h.alike.startsAround_iff.mpr ⟨k, hk, w, honward.grown k w hw, rfl⟩

/-- What the second pass is to visit the first one is to visit, or has visited. -/
private theorem known_or_visit {v : Instant}
    (hv : (y.visit levels c seed start dirty t rest').progress.checkpoints.contains v =
      true) :
    (x.visit levels c seed start dirty t rest).progress.checkpoints.contains v = true ∨
      v ∈ z.visited := by
  rcases (KeySet.contains_union_iff _ _).mp hv with hv | hv
  · have hne : v ≠ t := ne_of_gt ((KeySet.popMin?_eq_some hpop').2 v hv)
    refine (h.known_or v ((KeySet.contains_iff_of_popMin? hpop').mpr (.inr hv))).imp_left
      fun hx => ?_
    exact (KeySet.contains_union_iff _ _).mpr
      (.inl (((KeySet.contains_iff_of_popMin? hpop).mp hx).resolve_left hne))
  · obtain ⟨q, hq, hstarts, hlt⟩ := hy.sound.contains_later_iff'.mp hv
    obtain ⟨k, hk, w, hw, rfl⟩ := h.alike.startsAround_iff.mp hstarts
    -- what the first pass has written since then starts at instants that it has visited
    refine (honward.new k w hw).imp_left fun hw => ?_
    rw [h.fresh_eq hx hy honward hfull] at hq
    exact (KeySet.contains_union_iff _ _).mpr
      (.inr (hx.sound.contains_later_iff'.mpr ⟨q, hq, ⟨k, hk, w, hw, rfl⟩, hlt⟩))

/-- One more instant, whatever is written there. -/
private theorem visit (hz : ∀ v ∈ z.visited, v ∈ z'.visited)
    (hdeltas : (y.visit levels c seed start dirty t rest').progress.deltas =
      z'.progress.deltas)
    (halike : z'.store.Alike seed.transaction
      (y.visit levels c seed start dirty t rest').store) :
    Follows seed.transaction (x.visit levels c seed start dirty t rest) z'
      (y.visit levels c seed start dirty t rest') where
  visited := congrArg (· ++ [t]) h.visited
  watched := by
    show y.progress.watched.union _ = x.progress.watched.union _
    rw [h.fresh_eq hx hy honward hfull, h.watched]
  full := by
    refine Bool.or_eq_false_iff.mpr ⟨h.full, ?_⟩
    rw [Store.isPartial_finding, h.region_eq hx hy honward hfull]
    exact (Bool.or_eq_false_iff.mp hfull).2
  deltas := hdeltas
  alike := halike
  known _ hv := h.known_visit hx hy honward hpop hpop' hfull hv
  known_or _ hv := (h.known_or_visit hx hy honward hpop hpop' hfull hv).imp_right (hz _)

/-- **An instant before the interruption** is idle. -/
private theorem visit_behind (hz : z.OnCourse levels c dirty s start) (hmem : t ∈ z.visited)
    (hzfull : z.progress.report.isPartial = false) (hstamped : Stamped seed z)
    (hmore : ¬ (x.visit levels c seed start dirty t rest).Ended) (hzmore : ¬ z.Ended) :
    Follows seed.transaction (x.visit levels c seed start dirty t rest) z
      (y.visit levels c seed start dirty t rest') := by
  -- the first pass has settled `t`, so the other one finds nothing there
  have hidle : y.store.Idle levels c dirty t :=
    (Store.idle_congr (h.alike.snapshot hz.sound hy.sound t)).mpr (hz.idle hzfull t hmem)
  obtain ⟨hops, hds⟩ := hidle y.progress.watched
  have hdeltas : (y.visit levels c seed start dirty t rest').progress.deltas =
      z.progress.deltas := by
    show Settle.fold y.progress.deltas _ = _
    rw [hds, ← h.deltas]
    rfl
  obtain ⟨⟨v, _⟩, hmore⟩ := Option.ne_none_iff_exists'.mp hmore
  have hmore' : (y.visit levels c seed start dirty t rest').progress.checkpoints.isEmpty =
      false := by
    refine Bool.eq_false_iff.mpr fun hempty => ?_
    have hv := h.known_visit hx hy honward hpop hpop' hfull
      (KeySet.contains_of_popMin? hmore)
    rw [(KeySet.isEmpty_iff _).mp hempty v] at hv
    cases hv
  -- it notes again what the first pass noted last
  have hposting : y.posting? levels c seed start dirty t rest' =
      Outbox.posted? t (z.progress.batch seed) false := by
    show Outbox.posted? t ((y.visit levels c seed start dirty t rest').progress.batch seed)
      (y.visit levels c seed start dirty t rest').progress.checkpoints.isEmpty = _
    rw [hmore', Progress.batch, hdeltas, Progress.batch]
  refine h.visit hx hy honward hpop hpop' hfull (fun _ hv => hv) hdeltas ?_
  have hw : y.store.Wrote (y.writing levels c seed start dirty t rest')
      (y.visit levels c seed start dirty t rest').store := wrote_visit
  rw [writing, hops, List.nil_append, hposting] at hw
  refine h.alike.noted hy.sound (fun e he => ?_)
    (hstamped.stampedBy_posted? hz hmem hzmore) hw
  obtain ⟨rfl, -⟩ := Outbox.eq_of_posted? he
  rfl

omit honward in
/-- **An instant after the interruption**: both passes write the same. -/
private theorem visit_ahead (hzx : z = x) :
    Follows seed.transaction (x.visit levels c seed start dirty t rest)
      (x.visit levels c seed start dirty t rest)
        (y.visit levels c seed start dirty t rest') := by
  subst hzx
  have hself : z.Onward z := .refl z
  have hshown := h.alike.snapshot hx.sound hy.sound t
  have hops : (y.store.finding levels c dirty y.progress.watched t).operations =
      (z.store.finding levels c dirty z.progress.watched t).operations := by
    rw [Store.operations_finding, Store.operations_finding, Store.region,
      Store.region, hshown]
  have hdeltas : (y.visit levels c seed start dirty t rest').progress.deltas =
      (z.visit levels c seed start dirty t rest).progress.deltas := by
    show Settle.fold y.progress.deltas _ = Settle.fold z.progress.deltas _
    rw [Store.deltas_finding, Store.deltas_finding, Store.region, Store.region,
      hshown, h.deltas]
  have hknown : (y.visit levels c seed start dirty t rest').progress.checkpoints =
      (z.visit levels c seed start dirty t rest).progress.checkpoints := by
    refine KeySet.ext_contains fun v => Bool.eq_iff_iff.mpr ⟨fun hv => ?_, fun hv => ?_⟩
    · -- what was visited is behind
      refine (h.known_or_visit hx hy hself hpop hpop' hfull hv).resolve_right fun hmem => ?_
      have hlt := hx.ahead v hmem t (KeySet.contains_of_popMin? hpop)
      have hgt := (hy.visit hpop').ahead t (List.mem_append_right _ List.mem_cons_self) v hv
      exact lt_irrefl v (lt_trans hlt hgt)
    · exact h.known_visit hx hy hself hpop hpop' hfull hv
  have hposting : y.posting? levels c seed start dirty t rest' =
      z.posting? levels c seed start dirty t rest := by
    show Outbox.posted? t ((y.visit levels c seed start dirty t rest').progress.batch seed)
      (y.visit levels c seed start dirty t rest').progress.checkpoints.isEmpty =
      Outbox.posted? t ((z.visit levels c seed start dirty t rest).progress.batch seed)
      (z.visit levels c seed start dirty t rest).progress.checkpoints.isEmpty
    rw [hknown, Progress.batch, hdeltas, Progress.batch]
  refine h.visit hx hy hself hpop hpop' hfull (fun _ hv => List.mem_append_left _ hv)
    hdeltas ?_
  have hw : y.store.Wrote (y.writing levels c seed start dirty t rest')
      (y.visit levels c seed start dirty t rest').store := wrote_visit
  rw [writing, hops, hposting] at hw
  exact h.alike.wrote hx.sound hy.sound (fun _ hop => (Store.mem_finding_operations hop).2)
    (fun _ => transaction_of_posting?) wrote_visit hw

end Visit

end Follows

end Point

/-! ## Two passes -/

section Resume

variable {job : Batch} {tx : Committed} {m : Nat}

/-- The pass that starts again on the store `r`, with the deltas of the first one after
    `m` instants. -/
def resumed (levels : LevelConfig) (c : SpreadConfig) (job : Batch) (s : Store)
    (tx : Committed) (m : Nat) (r : Store) (n : Nat) : Point :=
  (Point.start r job.transaction tx.validTime
    (point levels c job s tx m).progress.deltas).after
    levels c job tx.validTime tx.touched n

/-- A store that an interrupted pass has left: where the pass was, more instants were to
    come. -/
structure Paused (levels : LevelConfig) (c : SpreadConfig) (job : Batch) (s : Store)
    (tx : Committed) (m : Nat) (r : Store) : Prop where
  sound : r.Sound
  logged : r.transaction? job.transaction = some tx
  ahead : ¬ (point levels c job s tx m).Ended
  alike : (point levels c job s tx m).store.Alike job.transaction r

variable (hs : s.Sound) (hfirst : s.stamp job.transaction = none)
  (hfull : ∀ n, (point levels c job s tx n).progress.report.isPartial = false)
  (h : Paused levels c job s tx m r)

include hs h

/-- The pass that starts again is on its course. -/
theorem Paused.onCourse (n : Nat) :
    (resumed levels c job s tx m r n).OnCourse levels c tx.touched r tx.validTime :=
  (Point.onCourse_start h.sound (onCourse_point hs m).filed _).after n

include hfirst hfull

/-- **A pass that starts again follows the first one**, instant after instant. -/
theorem Paused.follows (n : Nat) : Point.Follows job.transaction (point levels c job s tx n)
    (point levels c job s tx (max n m)) (resumed levels c job s tx m r n) := by
  -- on the instants that both have visited
  induction n with
  | zero =>
      rw [Nat.zero_max]
      exact ⟨rfl, rfl, rfl, rfl, h.alike, fun _ hv => hv, fun _ hv => .inl hv⟩
  | succ n ih =>
      have hcourse : ∀ k, (point levels c job s tx k).OnCourse levels c tx.touched s
        tx.validTime :=
        onCourse_point hs
      cases hpop : KeySet.popMin? (point levels c job s tx n).progress.checkpoints with
      | none =>
          have hmn : m < n := Nat.lt_of_not_le fun hle =>
            Point.not_ended_of_le h.ahead hle hpop
          have hsame : point levels c job s tx (n + 1) = point levels c job s tx n :=
            Point.next_of_ended hpop
          rw [Nat.max_eq_left (by omega), hsame]
          rw [Nat.max_eq_left (by omega)] at ih
          have hsame' : resumed levels c job s tx m r (n + 1) = resumed levels c job
            s tx m r n :=
            Point.next_of_ended (ih.ended (h.onCourse hs n) (fun _ hv => hv) hpop)
          rwa [hsame']
      | some q =>
          obtain ⟨t, rest⟩ := q
          have hnext : point levels c job s tx (n + 1) =
              (point levels c job s tx n).visit levels c job tx.validTime
                tx.touched t rest :=
            Point.next_of_popMin? hpop
          have hvisited : ∀ v ∈ (point levels c job s tx (max n m)).visited,
              v ∈ (point levels c job s tx n).visited ∨ t ≤ v := by
            rcases Nat.lt_or_ge n m with hnm | hmn
            · rw [Nat.max_eq_right (Nat.le_of_lt hnm)]
              exact ((hcourse 0).mem_visited_after hnm hpop).2
            · rw [Nat.max_eq_left hmn]
              exact fun _ hv => .inl hv
          obtain ⟨rest', hpop'⟩ := ih.exists_popMin? (h.onCourse hs n) hvisited hpop
          have hnext' : resumed levels c job s tx m r (n + 1) =
              (resumed levels c job s tx m r n).visit levels c job tx.validTime
                tx.touched t rest' :=
            Point.next_of_popMin? hpop'
          have hnextfull := hfull (n + 1)
          rw [hnext] at hnextfull
          rw [hnext, hnext']
          rcases Nat.lt_or_ge n m with hnm | hmn
          · rw [Nat.max_eq_right (Nat.le_of_lt hnm)] at ih
            rw [Nat.max_eq_right hnm]
            refine ih.visit_behind (hcourse n) (h.onCourse hs n)
              (Point.onward_after (Nat.le_of_lt hnm)) hpop hpop' hnextfull (hcourse m)
              ((hcourse 0).mem_visited_after hnm hpop).1 (hfull m)
              (Point.stamped_after hs (Settle.filed_empty.fold _) hfirst m) ?_ h.ahead
            rw [← hnext]
            exact Point.not_ended_of_le h.ahead hnm
          · rw [Nat.max_eq_left hmn] at ih
            rw [Nat.max_eq_left (by omega), hnext]
            exact ih.visit_ahead (hcourse n) (h.onCourse hs n) hpop hpop' hnextfull rfl

/-- Where the first pass has ended, the other one has. -/
theorem Paused.ended {n : Nat} (hn : (point levels c job s tx n).Ended) :
    (resumed levels c job s tx m r n).Ended ∧
      Point.Follows job.transaction (point levels c job s tx n) (point levels c job s tx n)
        (resumed levels c job s tx m r n) := by
  have hmn : m < n := Nat.lt_of_not_le fun hle => Point.not_ended_of_le h.ahead hle hn
  have hfollows := h.follows hs hfirst hfull n
  rw [Nat.max_eq_left (Nat.le_of_lt hmn)] at hfollows
  exact ⟨hfollows.ended (h.onCourse hs n) (fun _ hv => hv) hn, hfollows⟩

/-- **What a pass comes to does not depend on interruptions.** -/
theorem Paused.report_eq {n k : Nat} (hn : (point levels c job s tx n).Ended)
    (hk : (resumed levels c job s tx m r k).Ended) :
    (resumed levels c job s tx m r k).report.deltas =
      (point levels c job s tx n).report.deltas ∧
      (resumed levels c job s tx m r k).report.laterTimes =
        (point levels c job s tx n).report.laterTimes ∧
      (resumed levels c job s tx m r k).report.isPartial = false ∧
      (point levels c job s tx n).store.Alike job.transaction
        (resumed levels c job s tx m r k).store := by
  obtain ⟨hended, hfollows⟩ := h.ended hs hfirst hfull hn
  have hsame : resumed levels c job s tx m r k = resumed levels c job s tx m r n :=
    Point.after_eq_of_ended hk hended
  rw [hsame]
  refine ⟨congrArg Table.values hfollows.deltas, ?_, hfollows.full, hfollows.alike⟩
  show (resumed levels c job s tx m r n).progress.report.laterTimes =
    (point levels c job s tx n).progress.report.laterTimes
  rw [(h.onCourse hs n).laterTimes, (onCourse_point hs n).laterTimes, hfollows.visited]

/-- A pass that is interrupted again leaves such a store again. -/
theorem Paused.again {k : Nat} (hk : ¬ (resumed levels c job s tx m r k).Ended) :
    Paused levels c job s tx (max k m) (resumed levels c job s tx m r k).store := by
  have honward : (resumed levels c job s tx m r 0).Onward
    (resumed levels c job s tx m r k) :=
    Point.onward_after (Nat.zero_le k)
  refine ⟨(h.onCourse hs k).sound, honward.logged _ _ h.logged, ?_,
    (h.follows hs hfirst hfull k).alike⟩
  rcases Nat.le_total k m with hkm | hmk
  · rw [Nat.max_eq_right hkm]
    exact h.ahead
  · rw [Nat.max_eq_left hmk]
    exact fun hended => hk (h.ended hs hfirst hfull hended).1

end Resume

end Pass

end ClearanceGraph
