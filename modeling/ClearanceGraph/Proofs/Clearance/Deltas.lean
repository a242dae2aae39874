import ClearanceGraph.Proofs.Clearance.Facts
import ClearanceGraph.Proofs.Clearance.FullPass
import ClearanceGraph.Proofs.Clearance.Incremental
import ClearanceGraph.Proofs.Clearance.Notes
import ClearanceGraph.Proofs.Rivals

/-! # Deltas — the exact difference of levels

    The deltas of a pass say how the levels at an instant differ before and after it:
    which objects have another level, in order, and from which one to which.
    `LevelDifference` says so of any deltas and of any two tables of profiles.

    Settling some objects in ascending order tells the exact difference that it makes
    (`levelDifference_settleAll`), however the wanted profiles were computed.  So a
    full pass does, and a pass after a commit that stays at its first instant, partial
    or not; what it would tell of later instants would go into the same deltas.
    Headline: `Pass.tells_level_difference`.

    Other writers may be at work as long as they write no profiles.  The view
    `Store.ShowsProfiles` shows the profiles at the instant and nothing else, so it
    does not see them. -/

namespace ClearanceGraph

/-- Deltas that are the exact difference between the levels of profiles before and
    after. -/
structure LevelDifference (default : Level) (before after : Reference → Option Profile)
    (ds : List Delta) : Prop where
  /-- They are sorted by object, and an object is told once. -/
  ascending : ds.Pairwise fun d e => compare d.reference e.reference = .lt
  /-- An object is told exactly if its profile appeared, disappeared or changed its
      level. -/
  told : ∀ r, (∃ d ∈ ds, d.reference = r) ↔
    (before r).map Profile.level ≠ (after r).map Profile.level
  /-- The old level is the one before, if there was one. -/
  oldLevel : ∀ d ∈ ds, d.oldLevel = (before d.reference).map Profile.level
  /-- The new level is the one after, or the default if the profile went. -/
  newLevel : ∀ d ∈ ds, d.newLevel = ((after d.reference).map Profile.level).getD default
  /-- The kind says whether there was a profile before, and what is there after. -/
  kind : ∀ d ∈ ds, d.kind = .between (before d.reference) (after d.reference)

theorem Delta.between?_eq_some_iff {default : Level} {r : Reference}
    {old new : Option Profile} {d : Delta} : Delta.between? default r old new = some d ↔
      old.map Profile.level ≠ new.map Profile.level ∧
        d = ⟨r, old.map Profile.level, (new.map Profile.level).getD default,
          .between old new⟩ := by
  rw [between?]
  split
  · next heq => simp [heq]
  · next hne => simp [hne, eq_comm]

section Difference

variable {default : Level} {before after : Reference → Option Profile} {rs : List Reference}

/-- Where profiles change for the objects of an ascending list only, their changes are
    the exact difference. -/
theorem levelDifference_filterMap (hasc : rs.Pairwise fun a b => compare a b = .lt)
    (hsame : ∀ r, r ∉ rs → after r = before r) :
    LevelDifference default before after
      (rs.filterMap fun r => Delta.between? default r (before r) (after r)) := by
  have hmem :
    ∀ d, d ∈ rs.filterMap (fun r => Delta.between? default r (before r) (after r)) ↔
      d.reference ∈ rs ∧ Delta.between? default d.reference (before d.reference)
        (after d.reference) = some d := by
    intro d
    rw [List.mem_filterMap]
    constructor
    · rintro ⟨r, hr, hd⟩
      obtain rfl := Settle.reference_of_between? hd
      exact ⟨hr, hd⟩
    · rintro ⟨hr, hd⟩
      exact ⟨_, hr, hd⟩
  constructor
  case ascending =>
    rw [List.pairwise_filterMap]
    refine hasc.imp fun {a b} hab d hd e he => ?_
    rw [Settle.reference_of_between? hd, Settle.reference_of_between? he]
    exact hab
  case told =>
    intro r
    constructor
    · rintro ⟨d, hd, rfl⟩
      exact (Delta.between?_eq_some_iff.mp ((hmem d).mp hd).2).1
    · intro hne
      have hr : r ∈ rs := by
        -- what is not among the objects has kept its level
        by_contra hno
        exact hne (by rw [hsame r hno])
      exact ⟨_, List.mem_filterMap.mpr ⟨r, hr, Delta.between?_eq_some_iff.mpr ⟨hne, rfl⟩⟩,
        rfl⟩
  case oldLevel =>
    intro d hd
    exact congrArg Delta.oldLevel (Delta.between?_eq_some_iff.mp ((hmem d).mp hd).2).2
  case newLevel =>
    intro d hd
    exact congrArg Delta.newLevel (Delta.between?_eq_some_iff.mp ((hmem d).mp hd).2).2
  case kind =>
    intro d hd
    exact congrArg Delta.kind (Delta.between?_eq_some_iff.mp ((hmem d).mp hd).2).2

/-- **Settling tells the difference that it makes**: the objects that are settled get
    the wanted profiles, and the others keep theirs. -/
theorem levelDifference_settleAll {inherited : Inherited} {g : Snapshot}
    (hasc : rs.Pairwise fun a b => compare a b = .lt) (hg : ∀ r, g.profile r = before r) :
    LevelDifference default before
      (fun r => if r ∈ rs then Settle.wanted default inherited g r else before r)
      ((Settle.settleAll default inherited rs).answer g).2 := by
  have hdeltas : ((Settle.settleAll default inherited rs).answer g).2 =
      rs.filterMap fun r => Delta.between? default r (before r)
        (if r ∈ rs then Settle.wanted default inherited g r else before r) := by
    rw [Settle.answer_settleAll]
    refine List.filterMap_congr fun r hr => ?_
    rw [hg, if_pos hr]
  rw [hdeltas]
  exact levelDifference_filterMap hasc fun r hr => if_neg hr

end Difference

/-! ## Profiles amid rivals -/

namespace Store

/-- The profiles that a store shows at an instant. -/
def ShowsProfiles (t : Instant) (p : Reference → Option Profile) (s : Store) : Prop :=
  s.Sound ∧ s.stored t = p

/-- Writers that spare profiles leave the profiles that show. -/
theorem spares_showsProfiles (t : Instant) :
    Transaction.Spares Transaction.SparesProfiles (ShowsProfiles t) := by
  rintro p s tx id s' hspares ⟨hs, rfl⟩ hsub
  exact ⟨hs.submit hsub, funext fun r => stored_submit hsub hspares t⟩

end Store

namespace Pass

variable {levels : LevelConfig} {c : SpreadConfig} {t u : Instant}
  {p : Reference → Option Profile}

/-- The profiles that the store of a world shows, where rivals write none. -/
abbrev Profiles (t : Instant) : (Reference → Option Profile) → World → Prop :=
  World.Amid (Store.ShowsProfiles t) Transaction.SparesProfiles

/-- What is written at the instant that is shown is shown then. -/
private theorem leads_write_amid (tx : Transaction) :
    Leads (Profiles t) (write c tx) p
      (fun _ p' => tx.validTime = t → p' = fun r =>
        (tx.lastWrite? (.profile r)).elim (p r) (·.bind Document.profile?))
      (fun _ _ => True) := by
  have hsubmit : Leads (Profiles t) (World.submit tx) p
      (fun _ p' => tx.validTime = t → p' = fun r =>
        (tx.lastWrite? (.profile r)).elim (p r) (·.bind Document.profile?))
      (fun _ p' => True ∧ p' = p) := by
    refine (leads_submit_amid ?_ (Store.spares_showsProfiles t)).imp (fun _ _ h => h)
      fun _ _ h => ⟨trivial, h⟩
    rintro s id s' ⟨hs, rfl⟩ hsub
    refine ⟨s'.stored t, ⟨hs.submit hsub, rfl⟩, ?_⟩
    rintro rfl
    exact funext fun r => Store.stored_submit_self hs hsub r
  refine (leads_write_of_submit c hsubmit).imp ?_ fun _ _ _ => trivial
  rintro r p' (⟨hempty, -, rfl⟩ | ⟨-, id, -, h⟩)
  · intro _
    funext r
    rw [(Transaction.lastWrite?_eq_none_iff tx _).mpr
      ((Transaction.isEmpty_iff tx).mp hempty _)]
    rfl
  · exact h

/-- What is written after settling at the instant that is shown is the difference that
    is told. -/
private theorem leads_write_settled (levels : LevelConfig) (c : SpreadConfig)
    (inherited : Inherited) (g : Snapshot) (note : Option Operation) {rs : List Reference}
    (hasc : rs.Pairwise fun a b => compare a b = .lt) (hg : ∀ r, g.profile r = p r)
    (hnote : ∀ op, note = some op → op.key.isProfile = false) :
    Leads (Profiles t) (write c
        ⟨t, ((Settle.settleAll levels.default inherited rs).answer g).1 ++ note.toList⟩) p
      (fun _ p' => LevelDifference levels.default p p'
        ((Settle.settleAll levels.default inherited rs).answer g).2)
      (fun _ _ => True) := by
  refine (leads_write_amid _).imp ?_ fun _ _ h => h
  rintro - p' hp'
  rw [hp' rfl, funext (Store.lastWrite?_settled hnote hg)]
  exact levelDifference_settleAll hasc hg

/-! ## A full pass -/

/-- A full pass tells the difference that it makes. -/
private theorem leads_full_difference :
    Leads (Profiles t) (full levels c t) p
      (fun report p' => LevelDifference levels.default p p' report.deltas)
        (fun _ _ => True) := by
  refine ((leads_read_amid _).imp (fun _ _ h => h) fun _ _ _ => trivial).bind ?_
  rintro ⟨ops, deltas⟩ p' ⟨⟨s, ⟨hs, rfl⟩, hfound⟩, rfl⟩
  obtain ⟨rs, hasc, -, hgives⟩ := hs.exists_findAll_gives levels c t
  obtain ⟨rfl, rfl⟩ := Prod.mk.inj (hfound.unique hgives)
  have hwrite := leads_write_settled (t := t) levels c
    (Region.inheritedBy (s.fronts levels c t) rs) (s.snapshot t) none hasc (fun _ => rfl)
    (fun _ h => nomatch h)
  rw [Option.toList_none, List.append_nil] at hwrite
  exact hwrite.bind fun _ _ h => Leads.pure h

/-! ## A pass after a commit -/

section Follow

variable {seed : Batch} {recorded : Bool} {dirty : KeySet Reference}

/-- One instant: it is reported if it is not the first one, the instants that are learnt
    come after it, and at the instant that is shown the difference that is made is
    told. -/
private theorem leads_settleAt (start : Instant) (x : Progress) :
    Leads (Profiles t) (settleAt levels c seed recorded start dirty u x) p
      (fun y p' =>
        y.report.laterTimes = x.report.laterTimes ++ (if start < u then [u] else []) ∧
        (∀ v, y.checkpoints.contains v = true → x.checkpoints.contains v = true ∨ u < v) ∧
        (u = t → ∃ ds, LevelDifference levels.default p p' ds ∧
          y.deltas = Settle.fold x.deltas ds))
      (fun _ _ => True) := by
  refine ((leads_read_amid _).imp (fun _ _ h => h) fun _ _ _ => trivial).bind ?_
  rintro f p' ⟨⟨s, ⟨hs, rfl⟩, hfound⟩, rfl⟩
  obtain rfl := hfound.unique (hs.find_gives levels c dirty x.watched)
  have hnote : ∀ op, (if recorded then Outbox.note u { seed with
        deltas :=
          (Settle.fold x.deltas (s.finding levels c dirty x.watched u).deltas).values }
        (KeySet.union x.checkpoints (s.finding levels c dirty x.watched u).later).isEmpty
      else none) = some op → op.key.isProfile = false := by
    intro op hop
    split at hop
    · rw [Outbox.key_of_note hop]
      rfl
    · cases hop
  have hlater : ∀ v, (KeySet.union x.checkpoints
      (s.finding levels c dirty x.watched u).later).contains v = true →
      x.checkpoints.contains v = true ∨ u < v := by
    intro v hv
    rw [KeySet.contains_union_iff] at hv
    refine hv.imp_right fun hv => ?_
    obtain ⟨-, -, k, -, w, -, -, hlt⟩ := Store.contains_later_iff.mp hv
    exact hlt
  by_cases hu : u = t
  · subst hu
    -- the region is computed somehow, and its objects ascend
    have hwrite := leads_write_settled (t := u) levels c
      (s.region levels c dirty u).inherited
      (s.snapshot u) _ (Table.pairwise_keys (s.region levels c dirty u).targets)
        (fun _ => rfl)
      hnote
    exact hwrite.bind fun _ _ h => Leads.pure ⟨rfl, hlater, fun _ => ⟨_, h, rfl⟩⟩
  · exact (leads_write_amid _).bind fun _ _ _ =>
      Leads.pure ⟨rfl, hlater, fun h => absurd h hu⟩

/-- Once a later instant is reported, it stays so. -/
private theorem leads_settleFrom_of_later (start : Instant) (n : Nat) :
    ∀ (x : Progress) (p : Reference → Option Profile), x.report.laterTimes ≠ [] →
      Leads (Profiles t) (settleFrom levels c seed recorded start dirty n x) p
        (fun y _ => y.report.laterTimes ≠ []) (fun _ _ => True) := by
  -- on the instants that are still allowed
  induction n with
  | zero => exact fun x p hx => Leads.pure hx
  | succ n ih =>
      intro x p hx
      rw [settleFrom]
      split
      · exact Leads.pure hx
      · refine (leads_settleAt start _).bind ?_
        rintro y p' ⟨hlater, -⟩
        refine ih y p' ?_
        rw [hlater]
        exact List.append_ne_nil_of_left_ne_nil hx _

/-- With later instants to come only, the pass comes to one of them and reports it, or
    it is at its end. -/
private theorem leads_settleFrom_rest (n : Nat) {x : Progress}
    (hx : ∀ v, x.checkpoints.contains v = true → t < v) :
    Leads (Profiles t) (settleFrom levels c seed recorded t dirty n x) p
      (fun y p' => y.report.laterTimes = [] → y = x ∧ p' = p) (fun _ _ => True) := by
  cases n with
  | zero => exact Leads.pure fun _ => ⟨rfl, rfl⟩
  | succ n =>
      rw [settleFrom]
      split
      · exact Leads.pure fun _ => ⟨rfl, rfl⟩
      · next u rest hpop =>
        have htu : t < u := hx u (KeySet.contains_of_popMin? hpop)
        refine (leads_settleAt t _).bind ?_
        rintro y p' ⟨hlater, -⟩
        have hne : y.report.laterTimes ≠ [] := by
          rw [hlater, if_pos htu]
          exact List.append_ne_nil_of_right_ne_nil _ (List.cons_ne_nil _ _)
        exact (leads_settleFrom_of_later t n y p' hne).imp (fun _ _ h hnil => absurd hnil h)
          fun _ _ h => h

/-- **A pass that starts at the instant that is shown**, and reports no later one, tells
    the difference that it makes. -/
private theorem leads_settleFrom (n : Nat) {x : Progress}
    (hx : x.checkpoints = KeySet.ofList [t]) (hdeltas : x.deltas = Table.empty) :
    Leads (Profiles t) (settleFrom levels c seed recorded t dirty (n + 1) x) p
      (fun y p' => y.report.laterTimes = [] →
        LevelDifference levels.default p p' y.deltas.values)
      (fun _ _ => True) := by
  rw [settleFrom]
  split
  · next hnone =>
    have hno := KeySet.popMin?_eq_none hnone t
    rw [hx, (KeySet.contains_ofList_iff).mpr (List.mem_singleton.mpr rfl)] at hno
    cases hno
  · next u rest hpop =>
    obtain ⟨hmem, hrest⟩ := KeySet.popMin?_eq_some hpop
    -- the only instant to visit is that of the commit
    have hu : u = t := by
      have hfirst := (hmem u).mpr (.inl rfl)
      rw [hx, KeySet.contains_ofList_iff] at hfirst
      exact List.mem_singleton.mp hfirst
    subst hu
    refine (leads_settleAt u _).bind ?_
    rintro y p' ⟨-, hcome, htold⟩
    -- what is left comes later, and no later visit is reported
    have hafter : ∀ v, y.checkpoints.contains v = true → u < v := fun v hv =>
      (hcome v hv).elim (fun hv => Instant.lt_iff_compare.mpr (hrest v hv)) id
    refine (leads_settleFrom_rest n hafter).imp (fun z p'' hz hnil => ?_) fun _ _ h => h
    obtain ⟨rfl, rfl⟩ := hz hnil
    obtain ⟨ds, hdiff, hds⟩ := htold rfl
    rw [hds, hdeltas, Settle.values_fold hdiff.ascending]
    exact hdiff

private theorem leads_horizon_amid :
    Leads (Profiles t) horizon p (fun n p' => (∃ m, n = m + 1) ∧ p' = p)
    (fun _ _ => True) :=
  fun _ hw => ⟨p, hw, ⟨_, rfl⟩, rfl⟩

/-- A pass after a commit of the instant that is shown, once the commit was looked up. -/
private theorem leads_follow_from {id : TransactionId} :
    Leads (Profiles t) (do
        let x ← settleFrom levels c seed recorded t dirty (← horizon)
          ⟨KeySet.ofList [t], Table.empty, Table.empty, .empty (some id) t⟩
        return { x.report with deltas := x.deltas.values } : Act Report) p
      (fun report p' => report.laterTimes = [] →
        LevelDifference levels.default p p' report.deltas)
      (fun _ _ => True) := by
  refine leads_horizon_amid.bind ?_
  rintro _ p' ⟨⟨n, rfl⟩, rfl⟩
  exact (leads_settleFrom n rfl rfl).bind fun _ _ h => Leads.pure h

end Follow

/-- **The deltas of a pass are the exact difference of levels**, whoever else is at
    work, as long as nobody else writes profiles. A full pass tells how the levels at
    its instant differ before and after it. So does a pass after a commit at the valid
    time of the commit, partial or not, recorded or not, if it visits no later instant
    and has nothing to tell from before. -/
theorem tells_level_difference {w w' : World} {report : Report}
    (hs : w.backend.store.Reachable)
    (hrivals : ∀ tx, some tx ∈ w.rivals → tx.SparesProfiles) :
    (Pass.full levels c t w = (.ok report, w') →
      LevelDifference levels.default (w.backend.store.stored t) (w'.backend.store.stored t)
        report.deltas) ∧
      ∀ (seed : Batch) (recorded : Bool) (tx : Committed), seed.deltas = [] →
        w.backend.store.transaction? seed.transaction = some tx → tx.validTime = t →
        Pass.follow levels c seed recorded w = (.ok report, w') → report.laterTimes = [] →
        LevelDifference levels.default (w.backend.store.stored t)
          (w'.backend.store.stored t) report.deltas := by
  have hshows : Profiles t (w.backend.store.stored t) w := ⟨⟨hs.sound, rfl⟩, hrivals⟩
  constructor
  · intro h
    obtain ⟨p', ⟨⟨-, rfl⟩, -⟩, hdiff⟩ := leads_full_difference.of_ok hshows h
    exact hdiff
  · intro seed recorded tx hseed htx ht h hlater
    rw [Pass.follow, Act.bind_apply] at h
    rcases hread : World.read (Reading.transaction seed.transaction) w with ⟨_ | found, w₁⟩
    · rw [hread] at h
      cases h
    · -- the commit is the one that was there, and looking it up changed nothing
      have hfound : found = w.backend.store.transaction? seed.transaction :=
        (World.gives_of_read (congrArg Prod.fst hread)).unique (Reading.gives_ask _ _)
      obtain ⟨p₁, hshows₁, -, rfl⟩ := (leads_read_amid _).of_ok hshows hread
      rw [hread, hfound, htx] at h
      dsimp only at h
      subst ht
      rw [hseed] at h
      obtain ⟨p', ⟨⟨-, rfl⟩, -⟩, hdiff⟩ := leads_follow_from.of_ok hshows₁ h
      exact hdiff hlater

/-- Stale profiles, and a writer who is faster and adds an object. -/
def staleAmid : World :=
  { World.holding staleStore with
    rivals :=
      [some ⟨.latest, [.put (.content (.object ⟨⟨"Host|d"⟩, "Host", Table.empty⟩))]⟩] }

/-- Room for a single object. -/
def cramped : SpreadConfig := { SpreadConfig.standard with nodeBudget := 1 }

/-- A full pass tells of every object. A pass beyond its budget gives the second object
    another profile of the same level, which is not told. -/
theorem tells_level_difference_stale :
    staleAmid.backend.store.Reachable ∧
      (∀ tx, some tx ∈ staleAmid.rivals → tx.SparesProfiles) ∧
      (∃ report w', full .standard .standard .latest staleAmid = (.ok report, w') ∧
        report.deltas = [⟨⟨"Host|a"⟩, none, LevelConfig.standard.highest, .created⟩,
          ⟨⟨"Host|b"⟩, some .zero, LevelConfig.standard.highest, .inherited⟩,
          ⟨⟨"Host|c"⟩, some .zero, .zero, .retracted⟩] ∧
        LevelDifference .zero (staleAmid.backend.store.stored .latest)
          (w'.backend.store.stored .latest) report.deltas) ∧
      ∃ report w', follow .standard cramped { (default : Batch) with transaction := ⟨1⟩ }
        true staleAmid = (.ok report, w') ∧
        report.isPartial = true ∧ report.laterTimes = [] ∧
        report.deltas = [⟨⟨"Host|a"⟩, none, LevelConfig.standard.highest, .created⟩] ∧
        LevelDifference .zero (staleAmid.backend.store.stored .latest)
          (w'.backend.store.stored .latest) report.deltas := by
  have hreach : staleAmid.backend.store.Reachable := Store.reachable_ofTransactions _
  have hrivals : ∀ tx, some tx ∈ staleAmid.rivals → tx.SparesProfiles := by
    intro tx htx
    cases List.mem_singleton.mp htx
    decide
  obtain ⟨tx, htx, ht⟩ : ∃ tx, staleAmid.backend.store.transaction? ⟨1⟩ = some tx ∧
      tx.validTime = .latest := ⟨_, rfl, rfl⟩
  obtain ⟨report, hfull, hdeltas⟩ := Act.exists_eq_ok (w := staleAmid)
    (a := full .standard .standard .latest)
    (fun r =>
      decide (r.deltas = [⟨⟨"Host|a"⟩, none, LevelConfig.standard.highest, .created⟩,
      ⟨⟨"Host|b"⟩, some .zero, LevelConfig.standard.highest, .inherited⟩,
      ⟨⟨"Host|c"⟩, some .zero, .zero, .retracted⟩])) (by decide +kernel)
  obtain ⟨report', hfollow, hpartial⟩ := Act.exists_eq_ok (w := staleAmid)
    (a := follow .standard cramped { (default : Batch) with transaction := ⟨1⟩ } true)
    (fun r => decide (r.isPartial = true ∧ r.laterTimes = [] ∧
      r.deltas = [⟨⟨"Host|a"⟩, none, LevelConfig.standard.highest, .created⟩]))
        (by decide +kernel)
  obtain ⟨hpartial, hlater, hdeltas'⟩ := of_decide_eq_true hpartial
  refine ⟨hreach, hrivals, ⟨report, _, hfull, of_decide_eq_true hdeltas, ?_⟩,
    ⟨report', _, hfollow, hpartial, hlater, hdeltas', ?_⟩⟩
  · exact (tells_level_difference hreach hrivals).1 hfull
  · exact (tells_level_difference hreach hrivals).2 _ true tx rfl htx ht hfollow hlater

end Pass

end ClearanceGraph
