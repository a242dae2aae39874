import ClearanceGraph.Clearance.Pass
import ClearanceGraph.Proofs.Clearance.Reach

/-! # Due profiles — what every object should have

    `Store.due` is the profile that full recomputation gives an object: none if
    the object is not there, else the declared level, or the best level that
    spreading brings, or the default.

    Every pass settles: it compares stored profiles with the ones that it
    computed and writes the difference.  `Store.Settling` says of the steps that
    came out what matters later — which profiles they write, and what they leave
    there.  Both a full pass and the region of a commit settle to what is due
    (`Sound.findAll_gives`, `Sound.settling_finding`). -/

namespace ClearanceGraph

/-! ## Changes of levels -/

/-- The kind of a change from one profile of an object to another. -/
def DeltaKind.between : Option Profile → Option Profile → DeltaKind
  | none, _ => created
  | some _, none => retracted
  | some _, some p => if p.isDeclared then declared else inherited

/-- The change of the level from one profile of an object to another, if there is one. -/
def Delta.between? (default : Level) (r : Reference) (old new : Option Profile) :
    Option Delta :=
  if old.map Profile.level = new.map Profile.level then none
  else some ⟨r, old.map Profile.level, (new.map Profile.level).getD default,
    .between old new⟩

/-! ## Settling -/

namespace Settle

variable (default : Level) (inherited : Inherited) (g : Snapshot) (r : Reference)

/-- The profile that an object should have by what it inherits; none if it is gone. -/
def wanted : Option Profile :=
  if g.isObject r then some (desired default r (g.declared r) (inherited.get? r)) else none

/-- What to write and what to tell of one object of a snapshot. -/
def verdict : Option Operation × Option Delta :=
  if g.isObject r then change (g.profile r)
    (desired default r (g.declared r) (inherited.get? r))
  else removal default r (g.profile r)

/-- The step that leaves a profile, or none. -/
def leave (r : Reference) : Option Profile → Operation
  | some p => .put (.profile p)
  | none => .delete (.profile r)

/-- The step from one profile of an object to another, if there is one. -/
def step? (r : Reference) (old new : Option Profile) : Option Operation :=
  if old = new then none else some (leave r new)

theorem answer_settleOne :
    (settleOne default inherited r).answer g = verdict default inherited g r := by
  rw [settleOne, Survey.answer_bind, Survey.answer_storedProfile, Survey.answer_bind,
    Survey.answer_isObject, verdict]
  split
  · rw [Survey.answer_bind, Survey.answer_declaredLevel, Survey.answer_pure]
  · rfl

theorem reference_desired (l : Option Level) (i : Option (Level × List Inheritance)) :
    (desired default r l i).reference = r := by
  unfold desired
  split
  · rfl
  · split <;> rfl
  · rfl

theorem reference_of_wanted {p : Profile} (h : wanted default inherited g r = some p) :
    p.reference = r := by
  rw [wanted] at h
  split at h
  · obtain rfl := Option.some.inj h
    exact reference_desired default r _ _
  · cases h

/-- An object is written exactly if its profile is not the wanted one. -/
theorem verdict_fst :
    (verdict default inherited g r).1 =
      step? r (g.profile r) (wanted default inherited g r) := by
  rw [verdict, wanted]
  split
  · unfold change
    cases g.profile r with
    | none => rfl
    | some old =>
        by_cases h : old = desired default r (g.declared r) (inherited.get? r)
        · simp [step?, h]
        · simp only [step?, h, ↓reduceIte, Option.some.injEq, leave]
          split <;> rfl
  · unfold removal
    cases g.profile r with
    | none => rfl
    | some old => simp [step?, leave]

/-- An object is told exactly if the level of the wanted profile is another one. -/
theorem verdict_snd :
    (verdict default inherited g r).2 =
      Delta.between? default r (g.profile r) (wanted default inherited g r) := by
  rw [verdict, wanted]
  split
  · have href := reference_desired default r (g.declared r) (inherited.get? r)
    unfold change
    cases g.profile r with
    | none => simp [Delta.between?, DeltaKind.between, href]
    | some old =>
        dsimp only
        split
        · next heq => simp [Delta.between?, heq]
        · split
          · next heq => simp [Delta.between?, heq]
          · next hne => simp [Delta.between?, DeltaKind.between, kindTowards, hne, href]
  · unfold removal
    cases g.profile r with
    | none => rfl
    | some old => rfl

/-- **Settling some objects** takes the steps from their profiles to the wanted ones,
    and tells the changes of levels. -/
theorem answer_settleAll (rs : List Reference) :
    (settleAll default inherited rs).answer g =
      (rs.filterMap fun r => step? r (g.profile r) (wanted default inherited g r),
        rs.filterMap fun r =>
          Delta.between? default r (g.profile r) (wanted default inherited g r)) := by
  induction rs with
  | nil => rfl
  | cons r rs ih =>
      simp only [settleAll, Survey.answer_bind, answer_settleOne, ih, Survey.answer_pure,
        List.filterMap_cons, ← verdict_fst, ← verdict_snd]
      cases (verdict default inherited g r).1 <;> cases (verdict default inherited g r).2
        <;> rfl

variable {default inherited g}

/-- No step is taken exactly if every object has the wanted profile. -/
theorem settleAll_eq_nil_iff {rs : List Reference} :
    ((settleAll default inherited rs).answer g).1 = [] ↔
      ∀ r ∈ rs, g.profile r = wanted default inherited g r := by
  rw [answer_settleAll, List.filterMap_eq_nil_iff]
  refine forall₂_congr fun r _ => ?_
  simp [step?]

/-- Where no step is taken, nothing is told. -/
theorem deltas_eq_nil_of_settleAll {rs : List Reference}
    (h : ((settleAll default inherited rs).answer g).1 = []) :
    ((settleAll default inherited rs).answer g).2 = [] := by
  rw [answer_settleAll, List.filterMap_eq_nil_iff]
  intro r hr
  rw [Delta.between?, settleAll_eq_nil_iff.mp h r hr, if_pos rfl]

end Settle

namespace Store

/-! ## What is due -/

variable (levels : LevelConfig) (c : SpreadConfig) (s : Store) (t : Instant)

/-- The fronts of full recomputation. -/
def fronts : Fronts :=
  ((s.snapshot t).flow c).spread (Region.bounds levels c) none (s.sources t)

/-- The profile that full recomputation gives an object; none if it is not there. -/
def due (r : Reference) : Option Profile :=
  if (s.snapshot t).isObject r then
    some (Settle.desired levels.default r ((s.snapshot t).declared r)
      ((s.fronts levels c t).best r))
  else none

/-- The profile that is stored for an object. -/
def stored (r : Reference) : Option Profile := (s.snapshot t).profile r

/-- The steps of a pass at an instant: they write profiles of some objects only, and
    leave these objects the profiles they are due. -/
structure Settling (P : Reference → Prop) (ops : List Operation) : Prop where
  profiles : ∀ k, (⟨t, ops⟩ : Transaction).Writes k → ∃ r, P r ∧ k = .profile r
  leaves : ∀ r, P r → (⟨t, ops⟩ : Transaction).lastWrite? (.profile r) =
    if s.stored t r = s.due levels c t r then none
    else some ((s.due levels c t r).map .profile)

variable {levels c s t}

theorem writeTo?_leave {q r : Reference} {p : Option Profile}
    (h : ∀ x, p = some x → x.reference = q) :
    (Settle.leave q p).writeTo? (.profile r) = if q = r then some (p.map .profile)
      else none := by
  cases p with
  | none =>
      simp [Settle.leave, Operation.writeTo?, Operation.written?]
  | some x =>
      simp [Settle.leave, Operation.writeTo?, Operation.written?, Document.key, h x rfl]

/-- A list whose members are all the same ends in that one. -/
private theorem getLast?_eq_of_all {α : Type} {l : List α} {a : α} (h : ∀ x ∈ l, x = a)
    (hne : l ≠ []) : l.getLast? = some a := by
  rw [List.getLast?_eq_some_getLast hne, h _ (List.getLast_mem hne)]

section SettleAll

variable {default : Level} {inherited : Inherited} {g : Snapshot} {rs : List Reference}

/-- The steps of settling: those that leave the wanted profiles where there are others. -/
theorem mem_settleAll_iff {op : Operation} :
    op ∈ ((Settle.settleAll default inherited rs).answer g).1 ↔
      ∃ r ∈ rs, g.profile r ≠ Settle.wanted default inherited g r ∧
        op = Settle.leave r (Settle.wanted default inherited g r) := by
  rw [Settle.answer_settleAll, List.mem_filterMap]
  refine exists_congr fun r => and_congr_right fun _ => ?_
  rw [Settle.step?]
  split
  · next heq => simp [heq]
  · next hne => simp [hne, eq_comm]

/-- The only writes to the profile of an object are its own. -/
private theorem mem_writesTo_settleAll {r : Reference} (w : Option Document) :
    w ∈ (⟨t, ((Settle.settleAll default inherited rs).answer g).1⟩ : Transaction).writesTo
        (.profile r) ↔
      (r ∈ rs ∧ g.profile r ≠ Settle.wanted default inherited g r) ∧
        w = (Settle.wanted default inherited g r).map .profile := by
  have hwrite : ∀ q, (Settle.leave q (Settle.wanted default inherited g q)).writeTo?
    (.profile r) =
      if q = r then some ((Settle.wanted default inherited g q).map .profile) else none :=
        fun q =>
    writeTo?_leave fun x => Settle.reference_of_wanted default inherited g q
  rw [Transaction.writesTo, List.mem_filterMap]
  constructor
  · rintro ⟨op, hop, hw⟩
    obtain ⟨q, hq, hne, rfl⟩ := mem_settleAll_iff.mp hop
    rw [hwrite] at hw
    split at hw
    · next heq =>
      subst heq
      exact ⟨⟨hq, hne⟩, (Option.some.inj hw).symm⟩
    · cases hw
  · rintro ⟨⟨hr, hne⟩, rfl⟩
    refine ⟨_, mem_settleAll_iff.mpr ⟨r, hr, hne, rfl⟩, ?_⟩
    rw [hwrite, if_pos rfl]

/-- **What settling leaves** under the profile of an object: the wanted one, if it was
    settled and had another. -/
theorem lastWrite?_settleAll (r : Reference) :
    (⟨t, ((Settle.settleAll default inherited rs).answer g).1⟩ : Transaction).lastWrite?
        (.profile r) =
      if r ∈ rs ∧ g.profile r ≠ Settle.wanted default inherited g r then
        some ((Settle.wanted default inherited g r).map .profile)
      else none := by
  -- all writes to the profile write the same, so the last one does
  rw [Transaction.lastWrite?]
  split
  · next hr =>
    refine getLast?_eq_of_all (fun w hw => ((mem_writesTo_settleAll w).mp hw).2) ?_
    exact List.ne_nil_of_mem ((mem_writesTo_settleAll _).mpr ⟨hr, rfl⟩)
  · next hno =>
    refine List.getLast?_eq_none_iff.mpr (List.eq_nil_iff_forall_not_mem.mpr fun w hw => ?_)
    exact hno ((mem_writesTo_settleAll w).mp hw).1

end SettleAll

/-- **Settling** the objects of a list to what they are due. -/
theorem settling_of_wanted {inherited : Inherited} {rs : List Reference}
    (h : ∀ r ∈ rs, Settle.wanted levels.default inherited (s.snapshot t) r = s.due
      levels c t r) :
    s.Settling levels c t (· ∈ rs)
      ((Settle.settleAll levels.default inherited rs).answer (s.snapshot t)).1 where
  profiles := by
    rintro k ⟨op, hop, -, rfl⟩
    obtain ⟨r, hr, -, rfl⟩ := mem_settleAll_iff.mp hop
    refine ⟨r, hr, ?_⟩
    cases hd : Settle.wanted levels.default inherited (s.snapshot t) r with
    | none => rfl
    | some p => exact congrArg DocumentKey.profile (Settle.reference_of_wanted _ _ _ _ hd)
  leaves := by
    intro r hr
    rw [lastWrite?_settleAll, h r hr, stored]
    by_cases heq : (s.snapshot t).profile r = s.due levels c t r
    · rw [if_neg fun hne => hne.2 heq, if_pos heq]
    · rw [if_pos ⟨hr, heq⟩, if_neg heq]

/-! ## A full pass -/

theorem get?_inheritedBy {f : Fronts} {rs : List Reference} {r : Reference} (h : r ∈ rs) :
    (Region.inheritedBy f rs).get? r = f.best r := by
  rw [Region.inheritedBy]
  cases hb : f.best r with
  | none =>
      refine Table.get?_ofList_eq_none fun v hv => ?_
      obtain ⟨q, -, hq⟩ := List.mem_filterMap.mp hv
      obtain ⟨x, hx, he⟩ := Option.map_eq_some_iff.mp hq
      obtain ⟨rfl, -⟩ := Prod.mk.inj he
      rw [hb] at hx
      cases hx
  | some x =>
      refine Table.get?_ofList_of_mem (List.mem_filterMap.mpr ⟨r, h, by rw [hb]; rfl⟩) ?_
      intro w hw
      obtain ⟨q, -, hq⟩ := List.mem_filterMap.mp hw
      obtain ⟨y, hy, he⟩ := Option.map_eq_some_iff.mp hq
      obtain ⟨rfl, rfl⟩ := Prod.mk.inj he
      rw [hb] at hy
      exact (Option.some.inj hy).symm

theorem wanted_eq_due {f : Fronts} {rs : List Reference} {r : Reference} (h : r ∈ rs)
    (hbest : f.best r = (s.fronts levels c t).best r) :
    Settle.wanted levels.default (Region.inheritedBy f rs) (s.snapshot t) r =
      s.due levels c t r := by
  rw [Settle.wanted, due, get?_inheritedBy h, hbest]

theorem Sound.flow_loaded (hs : s.Sound) : (s.loaded t).flow c = (s.snapshot t).flow c := by
  have htaking : (s.loaded t).taking c = (s.snapshot t).taking c :=
    funext fun r => hs.loaded_hops t c true r
  simp only [Snapshot.flow, htaking]
  rfl

/-- The answers of settling depend on objects, declared levels and profiles only. -/
private theorem answer_settleAll_loaded (inherited : Inherited) (rs : List Reference) :
    (Settle.settleAll levels.default inherited rs).answer (s.loaded t) =
      (Settle.settleAll levels.default inherited rs).answer (s.snapshot t) := by
  rw [Settle.answer_settleAll, Settle.answer_settleAll]
  rfl

/-- What a full pass finds comes from settling the objects that exist or have a
    profile. -/
theorem Sound.exists_findAll_gives (hs : s.Sound) (levels : LevelConfig) (c : SpreadConfig)
    (t : Instant) : ∃ rs : List Reference, (rs.Pairwise fun a b => compare a b = .lt) ∧
      (∀ r, r ∈ rs ↔ (s.snapshot t).isObject r = true ∨ (s.stored t r).isSome = true) ∧
      (Pass.findAll levels c t).Gives s ((Settle.settleAll levels.default
        (Region.inheritedBy (s.fronts levels c t) rs) rs).answer (s.snapshot t)) := by
  obtain ⟨v, hv, hshows, hdecl, hknown⟩ := hs.load_gives t
  obtain ⟨v₁, hshows₁, hrun₁⟩ :=
    Survey.run_eq (Spread.relax c (Region.bounds levels c) none v.declaredNodes) hshows
  have hfronts : (Spread.relax c (Region.bounds levels c) none v.declaredNodes).answer
      (s.loaded t) = s.fronts levels c t := by
    rw [Spread.answer_relax, hs.flow_loaded, hdecl, fronts]
  rw [hfronts] at hrun₁
  obtain ⟨v₂, -, hrun₂⟩ := Survey.run_eq (Settle.settleAll levels.default
    (Region.inheritedBy (s.fronts levels c t) v.knownNodes.toList) v.knownNodes.toList)
      hshows₁
  rw [answer_settleAll_loaded] at hrun₂
  exact ⟨v.knownNodes.toList, Table.pairwise_keys v.knownNodes, hknown,
    hv.bind (hrun₁.bind (hrun₂.bind (Reading.gives_pure _ _)))⟩

/-- **A full pass** settles every object that exists or has a profile to what it is
    due. -/
theorem Sound.findAll_gives (hs : s.Sound) (levels : LevelConfig) (c : SpreadConfig)
    (t : Instant) :
    ∃ ops deltas, (Pass.findAll levels c t).Gives s (ops, deltas) ∧
      s.Settling levels c t
        (fun r => (s.snapshot t).isObject r = true ∨ (s.stored t r).isSome = true) ops ∧
      (ops = [] → deltas = []) ∧
      (ops = [] ↔ ∀ r, s.stored t r = s.due levels c t r) := by
  obtain ⟨rs, -, hknown, hgives⟩ := hs.exists_findAll_gives levels c t
  have hwant : ∀ r ∈ rs, Settle.wanted levels.default
      (Region.inheritedBy (s.fronts levels c t) rs) (s.snapshot t) r =
        s.due levels c t r := fun r hr => wanted_eq_due hr rfl
  have hsettle := settling_of_wanted hwant
  -- the objects that were looked at are those of the statement
  have hset : s.Settling levels c t
      (fun r => (s.snapshot t).isObject r = true ∨ (s.stored t r).isSome = true) _ :=
    { profiles := fun k hk => by
        obtain ⟨r, hr, he⟩ := hsettle.profiles k hk
        exact ⟨r, (hknown r).mp hr, he⟩
      leaves := fun r hr => hsettle.leaves r ((hknown r).mpr hr) }
  have hnil : ((Settle.settleAll levels.default
      (Region.inheritedBy (s.fronts levels c t) rs) rs).answer (s.snapshot t)).1 = [] ↔
      ∀ r ∈ rs, s.stored t r = s.due levels c t r := by
    rw [Settle.settleAll_eq_nil_iff]
    refine forall₂_congr fun r hr => ?_
    rw [hwant r hr]
    rfl
  refine ⟨_, _, hgives, hset, Settle.deltas_eq_nil_of_settleAll, ?_⟩
  · rw [hnil]
    constructor
    · intro h r
      by_cases hr : r ∈ rs
      · exact h r hr
      · -- an object that is not known has no profile and is due none
        rw [hknown, not_or] at hr
        rw [due, if_neg hr.1]
        exact Option.not_isSome_iff_eq_none.mp hr.2
    · intro h r _
      exact h r

end Store

end ClearanceGraph
