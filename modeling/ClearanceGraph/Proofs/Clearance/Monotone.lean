import ClearanceGraph.Proofs.Clearance.FullPass

/-! # Monotone levels — higher declarations, more edges and more hops never lower a level

    Of two runs of spreading the worklists, the arrivals that are dropped and the ties
    need not match, so they are not compared.  Walks are: where the same objects have
    declared levels, a walk of the lower flow is one of the higher flow, with a level
    at least as high on every hop (`Flow.Walk.raise`).  Both runs are exact, so the
    best level of the first is beaten by some walk of the second
    (`Flow.Spreads.level_mono`).

    The headline is `Pass.full_levels_mono`: this is so for the profiles of two full
    passes, whatever was stored before.  A depth of zero is no exception, since the
    first hop is always taken (`Store.reachBounds`). -/

namespace ClearanceGraph

/-! ## Flows -/

namespace Flow

open Spread (Bounds)

/-- A flow in which the same objects have declared levels, none of them lower, and no
    step is missing. -/
structure Below (φ φ' : Flow) : Prop where
  declared : ∀ {r l}, φ.declared r = some l → ∃ l', φ'.declared r = some l' ∧ l ≤ l'
  undeclared : ∀ {r}, φ.declared r = none → φ'.declared r = none
  taking : ∀ {r h}, h ∈ φ.taking r → h ∈ φ'.taking r

variable {φ φ' : Flow} {b b' : Bounds} {f f' : Fronts}

/-- **A walk stays a walk**, and brings a level at least as high.  An object without a
    declared level has none in the higher flow either, so nothing new stands in the
    way. -/
theorem Walk.raise {s p n : Reference} {k : Nat} {l : Level} (h : φ.Below φ')
    (hw : φ.Walk s p n k l) : ∃ l', l ≤ l' ∧ φ'.Walk s p n k l' := by
  induction hw with
  | @first l hop hdecl hmem hnone =>
      obtain ⟨l', hl', hle⟩ := h.declared hdecl
      exact ⟨hop.carry l', hop.carry_mono hle, .first hl' (h.taking hmem)
        (h.undeclared hnone)⟩
  | @next p n k l hop _ hmem hnone ih =>
      obtain ⟨l', hle, hw'⟩ := ih
      exact ⟨hop.carry l', hop.carry_mono hle, .next hw' (h.taking hmem)
        (h.undeclared hnone)⟩

/-- What is inherited in the lower flow can be inherited in the higher one, at least as
    high. -/
theorem Inherits.raise {n : Reference} {i : Inheritance} (h : φ.Below φ')
    (hdepth : b.maxDepth ≤ b'.maxDepth) (hdefault : b'.default = b.default)
    (hi : φ.Inherits b n i) : ∃ j, φ'.Inherits b' n j ∧ i.level ≤ j.level := by
  obtain ⟨hw, hk, hlt⟩ := hi
  obtain ⟨l', hle, hw'⟩ := hw.raise h
  refine ⟨⟨i.parent, i.source, l', i.depth⟩, ⟨hw', Nat.le_trans hk hdepth, ?_⟩, hle⟩
  rw [hdefault]
  exact Nat.lt_of_lt_of_le hlt hle

/-- The level of a profile without a declaration is not below the default. -/
private theorem default_le_desired (d : Level) (r : Reference)
    (i : Option (Level × List Inheritance)) : d ≤ (Settle.desired d r none i).level := by
  unfold Settle.desired
  split
  · next heq => cases heq
  · split
    · next hlt => exact Nat.le_of_lt hlt
    · exact Nat.le_refl _
  · exact Nat.le_refl _

/-- **Levels are monotone** in the flow and in the number of hops. -/
theorem Spreads.level_mono (h : φ.Below φ') (hdepth : b.maxDepth ≤ b'.maxDepth)
    (hdefault : b'.default = b.default) (hf : Spreads φ b b.maxDepth f)
    (hf' : Spreads φ' b' b'.maxDepth f') (r : Reference) :
    (Settle.desired b.default r (φ.declared r) (f.best r)).level ≤
      (Settle.desired b.default r (φ'.declared r) (f'.best r)).level := by
  cases hdecl : φ.declared r with
  | some l =>
      obtain ⟨l', hl', hle⟩ := h.declared hdecl
      rw [hl']
      exact hle
  | none =>
      rw [h.undeclared hdecl]
      cases hbest : f.best r with
      | none => exact default_le_desired _ _ _
      | some x =>
          obtain ⟨l, is⟩ := x
          obtain ⟨i, -, rfl, hi⟩ := hf.best_eq_some hbest
          obtain ⟨j, hj, hle⟩ := hi.1.raise h hdepth hdefault
          -- something arrives in the higher flow, and its best is at least as high
          cases hbest' : f'.best r with
          | none => exact absurd hj (hf'.best_eq_none_iff.mp hbest' j)
          | some x' =>
              obtain ⟨l', is'⟩ := x'
              obtain ⟨i', -, rfl, hi'⟩ := hf'.best_eq_some hbest'
              have habove : b.default < i.level := hi.1.2.2
              have habove' : b.default < i'.level := hdefault ▸ hi'.1.2.2
              simp only [Settle.desired, if_pos habove, if_pos habove']
              exact Nat.le_trans hle (hi'.2 j hj).1

end Flow

/-! ## Stores and configurations -/

/-- The same rules, and no fewer hops. -/
structure SpreadConfig.DeeperThan (c' c : SpreadConfig) : Prop where
  rules : c'.rules = c.rules
  defaultDecay : c'.defaultDecay = c.defaultDecay
  maxDepth : c.maxDepth ≤ c'.maxDepth

/-- A store that shows at an instant the objects of another one, with declared levels
    for the same of them, none lower, and all of its edges.  Profiles and all else may
    differ. -/
structure Store.RaisedFrom (t : Instant) (s' s : Store) : Prop where
  objects : ∀ r, (s'.snapshot t).isObject r = (s.snapshot t).isObject r
  declared : ∀ r l, (s.snapshot t).declared r = some l →
    ∃ l', (s'.snapshot t).declared r = some l' ∧ l ≤ l'
  undeclared : ∀ r, (s.snapshot t).declared r = none → (s'.snapshot t).declared r = none
  edges : ∀ e, (s.visible t (.fact (.edge e))).isSome = true →
    (s'.visible t (.fact (.edge e))).isSome = true

/-- A step that adds an edge, or declares another level, not a lower one, for an object
    that has a declared level. -/
def Operation.Raises (g : Snapshot) (op : Operation) : Prop :=
  (∃ e, op = .put (.content (.edge e))) ∨
    ∃ r l m, op = .put (.content (.declaration ⟨r, m⟩)) ∧ g.declared r = some l ∧ l ≤ m

namespace Store

variable {levels : LevelConfig} {c c' : SpreadConfig} {s s' : Store} {t : Instant}

/-- The bounds of spreading as it goes: the first hop is always taken. -/
def reachBounds (levels : LevelConfig) (c : SpreadConfig) : Spread.Bounds :=
  ⟨max c.maxDepth 1, levels.default⟩

theorem Sound.spreads_fronts_reach (hs : s.Sound) (levels : LevelConfig) (c : SpreadConfig)
    (t : Instant) : Flow.Spreads ((s.snapshot t).flow c) (reachBounds levels c)
      (reachBounds levels c).maxDepth (s.fronts levels c t) := by
  have h := Flow.spreads_spread_max (φ := (s.snapshot t).flow c)
    (b := Region.bounds levels c) fun r l => hs.mem_sources_iff
  exact ⟨h.sound, h.complete, h.antichain⟩

/-- Rules alone decide what an edge carries. -/
private theorem ofEdge?_eq (hdeeper : c'.DeeperThan c) (r : Reference) (o : Bool)
    (e : EdgeKey) :
    Hop.ofEdge? c' r o e = Hop.ofEdge? c r o e := by
  have hpassage : c'.passage e.relation = c.passage e.relation := by
    rw [SpreadConfig.passage, SpreadConfig.passage, hdeeper.rules, hdeeper.defaultDecay]
  unfold Hop.ofEdge?
  rw [hpassage]

/-- Spreading sees a higher flow in a raised store. -/
theorem RaisedFrom.flow_below (h : s'.RaisedFrom t s) (hs : s.Sound) (hs' : s'.Sound)
    (hdeeper : c'.DeeperThan c) : ((s.snapshot t).flow c).Below
      ((s'.snapshot t).flow c') := by
  refine ⟨fun {r l} hl => h.declared r l hl, fun {r} hr => h.undeclared r hr,
    fun {r x} hx => ?_⟩
  obtain ⟨hmem, hexists⟩ := List.mem_filter.mp hx
  obtain ⟨e, he, hhop⟩ := List.mem_filterMap.mp hmem
  obtain ⟨htouches, hvisible⟩ := hs.mem_edges_iff.mp he
  refine List.mem_filter.mpr ⟨List.mem_filterMap.mpr ⟨e, ?_, ?_⟩, ?_⟩
  · exact hs'.mem_edges_iff.mpr ⟨htouches, h.edges e hvisible⟩
  · rw [ofEdge?_eq hdeeper, hhop]
  · rw [h.objects]
    exact hexists

/-- **What is due is monotone.** -/
theorem RaisedFrom.due_level_le (h : s'.RaisedFrom t s) (hs : s.Sound) (hs' : s'.Sound)
    (hdeeper : c'.DeeperThan c) {r : Reference} (hr : (s.snapshot t).isObject r = true) :
    ∃ p p', s.due levels c t r = some p ∧ s'.due levels c' t r = some p' ∧
      p.level ≤ p'.level := by
  rw [due, due, if_pos hr, if_pos (h.objects r ▸ hr)]
  refine ⟨_, _, rfl, rfl, ?_⟩
  have hdepth : max c.maxDepth 1 ≤ max c'.maxDepth 1 := by
    have := hdeeper.maxDepth
    omega
  have hdefault : (reachBounds levels c').default = (reachBounds levels c).default := rfl
  exact Flow.Spreads.level_mono (h.flow_below hs hs' hdeeper) hdepth hdefault
    (hs.spreads_fronts_reach levels c t) (hs'.spreads_fronts_reach levels c' t) r

/-! ## Raising a store -/

section Submit

variable {tx : Transaction} {id : TransactionId} (hs : s.Sound)
    (hsub : s.submit tx = .ok (id, s'))
  (hraises : ∀ op ∈ tx.operations, op.Raises (s.snapshot tx.validTime))

include hraises

/-- What such steps leave is an edge, or a declared level that is not lower. -/
private theorem lastWrite?_of_raises {k : DocumentKey} {d : Option Document}
    (h : tx.lastWrite? k = some d) : (∃ e x, k = .fact (.edge e) ∧ d = some x) ∨
      ∃ r l m, k = .fact (.declaration r) ∧ d = some (.content (.declaration ⟨r, m⟩)) ∧
        (s.snapshot tx.validTime).declared r = some l ∧ l ≤ m := by
  obtain ⟨op, hop, hw⟩ := List.mem_filterMap.mp (List.mem_of_getLast? h)
  rcases hraises op hop with ⟨e, rfl⟩ | ⟨r, l, m, rfl, hl, hle⟩
  · rw [Operation.writeTo?_put] at hw
    split at hw
    · next hkey => exact .inl ⟨e.key, _, hkey.symm, (Option.some.inj hw).symm⟩
    · cases hw
  · rw [Operation.writeTo?_put] at hw
    split at hw
    · next hkey => exact .inr ⟨r, l, m, hkey.symm, (Option.some.inj hw).symm, hl, hle⟩
    · cases hw

include hs hsub

/-- **Adding edges and raising declared levels** raises a store. -/
theorem raisedFrom_submit : s'.RaisedFrom tx.validTime s := by
  have hvisible := visible_submit_self hs hsub
  -- the transaction writes edges and declarations only, so the objects stay
  have hobject : ∀ r, (s'.snapshot tx.validTime).isObject r =
      (s.snapshot tx.validTime).isObject r := by
    intro r
    show (s'.visible _ _).isSome = (s.visible _ _).isSome
    rw [hvisible]
    cases hw : tx.lastWrite? (.fact (.object r)) with
    | none => rfl
    | some d =>
        rcases lastWrite?_of_raises hraises hw with ⟨e, x, hk, -⟩ | ⟨q, l, m, hk, -⟩
        · cases hk
        · cases hk
  have hdeclared : ∀ r, ((s'.snapshot tx.validTime).declared r =
      (s.snapshot tx.validTime).declared r) ∨
        ∃ l m, (s.snapshot tx.validTime).declared r = some l ∧
        (s'.snapshot tx.validTime).declared r = some m ∧ l ≤ m := by
    intro r
    cases hw : tx.lastWrite? (.fact (.declaration r)) with
    | none =>
        have hsame : (s'.snapshot tx.validTime).declaration r =
            (s.snapshot tx.validTime).declaration r := by
          show ((s'.visible _ _).bind _).map _ = ((s.visible _ _).bind _).map _
          rw [hvisible, hw, Option.getD_none]
        exact .inl (by rw [Snapshot.declared, Snapshot.declared, hobject, hsame])
    | some d =>
        rcases lastWrite?_of_raises hraises hw with ⟨e, x, hk, -⟩ |
          ⟨q, l, m, hk, rfl, hl, hle⟩
        · cases hk
        · cases hk
          refine .inr ⟨l, m, hl, ?_, hle⟩
          -- the declaration that is written last is the higher one
          have hnew : (s'.snapshot tx.validTime).declaration r = some m := by
            show ((s'.visible _ _).bind _).map _ = _
            rw [hvisible, hw]
            rfl
          rw [Snapshot.declared, hobject, if_pos (Snapshot.isObject_of_declared hl), hnew]
  refine ⟨hobject, fun r l hl => ?_, fun r hnone => ?_, fun e he => ?_⟩
  · rcases hdeclared r with hsame | ⟨l', m, hl', hm, hle⟩
    · exact ⟨l, hsame.trans hl, Nat.le_refl _⟩
    · obtain rfl := Option.some.inj (hl'.symm.trans hl)
      exact ⟨m, hm, hle⟩
  · rcases hdeclared r with hsame | ⟨l', m, hl', -⟩
    · exact hsame.trans hnone
    · cases hl'.symm.trans hnone
  · rw [hvisible]
    -- no write to an edge deletes it
    cases hw : tx.lastWrite? (.fact (.edge e)) with
    | none => exact he
    | some d =>
        rcases lastWrite?_of_raises hraises hw with ⟨e', x, -, rfl⟩ | ⟨q, l, m, hk, -⟩
        · rfl
        · cases hk

end Submit

end Store

/-! ## Full passes -/

namespace Pass

variable {levels : LevelConfig} {c c' : SpreadConfig} {t : Instant}

/-- A full pass that succeeds leaves an object the profile it is due. -/
private theorem stored_of_full_ok {w v : World} {report : Report}
    (hs : w.backend.store.Sound)
    (hrivals : w.rivals = []) (h : full levels c t w = (.ok report, v)) {r : Reference}
    (hr : (w.backend.store.snapshot t).isObject r = true) :
    v.backend.store.stored t r = w.backend.store.due levels c t r := by
  obtain ⟨s', ⟨rfl, -⟩, hset, -⟩ := (runs_full hs).of_ok ⟨rfl, hrivals⟩ h
  exact hset.stored_self (.inl hr)

/-- **Levels are monotone.** Take two stores that show the same at an instant, but that
    some declared levels of the second one are higher and that it may show more edges,
    and two configurations with the same rules, where the second one allows as many hops
    or more.  After a full pass on each no object has a lower level in the second store
    than in the first. -/
theorem full_levels_mono {w v w' v' : World} {report report' : Report}
    (hs : w.backend.store.Reachable) (hs' : w'.backend.store.Reachable)
    (hrivals : w.rivals = [])
    (hrivals' : w'.rivals = []) (hraised : w'.backend.store.RaisedFrom t w.backend.store)
    (hdeeper : c'.DeeperThan c) (h : full levels c t w = (.ok report, v))
    (h' : full levels c' t w' = (.ok report', v')) {r : Reference}
    (hr : (w.backend.store.snapshot t).isObject r = true) :
    ∃ p p', v.backend.store.stored t r = some p ∧ v'.backend.store.stored t r = some p' ∧
      p.level ≤ p'.level := by
  have hr' : (w'.backend.store.snapshot t).isObject r = true := hraised.objects r ▸ hr
  rw [stored_of_full_ok hs.sound hrivals h hr, stored_of_full_ok hs'.sound hrivals' h' hr']
  exact hraised.due_level_le hs.sound hs'.sound hdeeper hr

/-- Three hosts, a level declared for the first one, and a link from it to the second. -/
def hostsPaired : Transaction :=
  ⟨Instant.latest, [
    .put (.content (.object ⟨⟨"Host|a"⟩, "Host", Table.empty⟩)),
    .put (.content (.object ⟨⟨"Host|b"⟩, "Host", Table.empty⟩)),
    .put (.content (.object ⟨⟨"Host|c"⟩, "Host", Table.empty⟩)),
    .put (.content (.edge ⟨⟨⟨"Host|a"⟩, "link", ⟨"Host|b"⟩⟩, Table.empty⟩)),
    .put (.content (.declaration ⟨⟨"Host|a"⟩, .zero⟩))]⟩

/-- A higher level for the first host, and a link on to the third. -/
def hostsChained : Transaction :=
  ⟨Instant.latest, [
    .put (.content (.declaration ⟨⟨"Host|a"⟩, LevelConfig.standard.highest⟩)),
    .put (.content (.edge ⟨⟨⟨"Host|b"⟩, "link", ⟨"Host|c"⟩⟩, Table.empty⟩))]⟩

private theorem raisedFrom_hostsChained :
    (Store.ofTransactions [hostsPaired, hostsChained]).RaisedFrom
    Instant.latest (.ofTransactions [hostsPaired]) := by
  have hwrites : ∀ op ∈ hostsChained.operations, op.isWrite = true := by decide
  obtain ⟨s', hsub⟩ := Store.submit_of_isWrite (s := .ofTransactions [hostsPaired]) hwrites
  have hstore : Store.ofTransactions [hostsPaired, hostsChained] = s' := by
    show ((Store.ofTransactions [hostsPaired]).submit hostsChained).toOption.elim
      (.ofTransactions [hostsPaired]) Prod.snd = s'
    rw [hsub]
    rfl
  rw [hstore]
  refine Store.raisedFrom_submit (Store.reachable_ofTransactions _).sound hsub
    fun op hop => ?_
  simp only [hostsChained, List.mem_cons, List.not_mem_nil, or_false] at hop
  rcases hop with rfl | rfl
  · exact .inr ⟨_, .zero, _, rfl, by decide +kernel, by decide⟩
  · exact .inl ⟨_, rfl⟩

/-- The third host has the default level where there is only the pair, and the highest
    one in the chain, which takes two hops. -/
theorem full_levels_mono_chain :
    (World.holding (.ofTransactions [hostsPaired])).backend.store.Reachable ∧
    (World.holding (.ofTransactions [hostsPaired, hostsChained])).backend.store.Reachable ∧
    (Store.ofTransactions [hostsPaired, hostsChained]).RaisedFrom Instant.latest
      (.ofTransactions [hostsPaired]) ∧
    SpreadConfig.standard.DeeperThan { SpreadConfig.standard with maxDepth := 1 } ∧
    ((Store.ofTransactions [hostsPaired]).snapshot Instant.latest).isObject ⟨"Host|c"⟩ =
      true ∧
    ∃ report v report' v',
      full .standard { SpreadConfig.standard with maxDepth := 1 } Instant.latest
          (World.holding (.ofTransactions [hostsPaired])) = (.ok report, v) ∧
        full .standard .standard Instant.latest
          (World.holding (.ofTransactions [hostsPaired, hostsChained])) =
            (.ok report', v') ∧
        ∃ p p', v.backend.store.stored Instant.latest ⟨"Host|c"⟩ = some p ∧
          v'.backend.store.stored Instant.latest ⟨"Host|c"⟩ = some p' ∧ p.level ≤ p'.level ∧
          p.level = .zero ∧ p'.level = LevelConfig.standard.highest := by
  have hreach : (World.holding (.ofTransactions [hostsPaired])).backend.store.Reachable :=
    Store.reachable_ofTransactions _
  have hreach' : (World.holding
      (.ofTransactions [hostsPaired, hostsChained])).backend.store.Reachable :=
    Store.reachable_ofTransactions _
  have hdeeper : SpreadConfig.standard.DeeperThan
    { SpreadConfig.standard with maxDepth := 1 } :=
    ⟨rfl, rfl, by decide⟩
  have hobject : ((Store.ofTransactions [hostsPaired]).snapshot Instant.latest).isObject
      ⟨"Host|c"⟩ = true := by
    decide +kernel
  obtain ⟨report, hrun, -⟩ :=
    Act.exists_eq_ok (w := World.holding (.ofTransactions [hostsPaired]))
    (a := full .standard { SpreadConfig.standard with maxDepth := 1 } Instant.latest)
    (fun _ => true) (by decide +kernel)
  obtain ⟨report', hrun', -⟩ := Act.exists_eq_ok
    (w := World.holding (.ofTransactions [hostsPaired, hostsChained]))
    (a := full .standard .standard Instant.latest) (fun _ => true) (by decide +kernel)
  obtain ⟨p, p', hp, hp', hle⟩ :=
    full_levels_mono hreach hreach' rfl rfl raisedFrom_hostsChained
    hdeeper hrun hrun' hobject
  -- in the first store nothing reaches `c`; in the second one the level comes by two
  -- hops
  have hlevel := congrArg (Option.map Profile.level) hp
  have hlevel' := congrArg (Option.map Profile.level) hp'
  refine ⟨hreach, hreach', raisedFrom_hostsChained, hdeeper, hobject, report, _,
    report', _, hrun, hrun', p, p', hp, hp', hle, ?_, ?_⟩
  · exact Option.some.inj (hlevel.symm.trans (by decide +kernel))
  · exact Option.some.inj (hlevel'.symm.trans (by decide +kernel))

end Pass

end ClearanceGraph
