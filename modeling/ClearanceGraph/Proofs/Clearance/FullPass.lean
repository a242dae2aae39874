import ClearanceGraph.Proofs.Clearance.Pass

/-! # Full passes — the declarative profile, from whatever was stored

    `Snapshot.Explained` says what profiles should be without saying how to
    compute them: every existing object has one and nothing else has, a declared
    level counts, and otherwise the best walk from a declared object does.

    A full pass that succeeds leaves exactly these profiles
    (`full_explains_profiles`).  Nothing of it depends on the profiles that were
    there before, so a second full pass has nothing to do. -/

namespace ClearanceGraph

/-- The profiles of a snapshot are those that its walks explain. -/
structure Snapshot.Explained (levels : LevelConfig) (c : SpreadConfig) (g : Snapshot) :
    Prop where
  /-- Objects have profiles, and nothing else has. -/
  present : ∀ r, (g.profile r).isSome = g.isObject r
  /-- A declared level counts, whatever walks arrive. -/
  declared : ∀ r l, g.declared r = some l → g.profile r = some (.declared r l)
  /-- Any other object has its level by one best walk, or the default if no walk
      arrives. -/
  walked : ∀ r, g.isObject r = true → g.declared r = none →
    (∃ i, (g.flow c).Best (Region.bounds levels c) r i ∧
      g.profile r = some (.inherited r i.level [i])) ∨
    ((∀ i, ¬ (g.flow c).Inherits (Region.bounds levels c) r i) ∧
      g.profile r = some (.empty r levels.default))

namespace Store

variable {levels : LevelConfig} {c : SpreadConfig} {s : Store} {t : Instant}

/-- Spreading over a store is exact. -/
theorem Sound.spreads_fronts (hs : s.Sound) (levels : LevelConfig) (t : Instant)
    (hdepth : 1 ≤ c.maxDepth) :
    Flow.Spreads ((s.snapshot t).flow c) (Region.bounds levels c)
      (Region.bounds levels c).maxDepth (s.fronts levels c t) :=
  Flow.spreads_spread hdepth fun _ _ => hs.mem_sources_iff

/-- What is due is what walks explain. -/
theorem Sound.explained_of_due (hs : s.Sound) (hdepth : 1 ≤ c.maxDepth)
    (h : ∀ r, s.stored t r = s.due levels c t r) : (s.snapshot t).Explained levels c := by
  have hspreads := hs.spreads_fronts levels t hdepth
  refine ⟨?_, ?_, ?_⟩
  · intro r
    show (s.stored t r).isSome = _
    rw [h, due]
    cases (s.snapshot t).isObject r <;> rfl
  · intro r l hl
    show s.stored t r = _
    rw [h, due, if_pos (Snapshot.isObject_of_declared hl), hl]
    rfl
  · intro r hobj hnone
    -- an object without a declaration is due the best of its front
    have hr : (s.snapshot t).profile r = some (Settle.desired levels.default r none
        ((s.fronts levels c t).best r)) := by
      show s.stored t r = _
      rw [h, due, if_pos hobj, hnone]
    cases hbest : (s.fronts levels c t).best r with
    | none =>
        refine .inr ⟨hspreads.best_eq_none_iff.mp hbest, ?_⟩
        rw [hr, hbest]
        rfl
    | some b =>
        obtain ⟨l, is⟩ := b
        obtain ⟨i, rfl, rfl, hi⟩ := hspreads.best_eq_some hbest
        -- what arrives at all is above the default, so it is taken over
        have habove : levels.default < i.level := hi.1.2.2
        refine .inl ⟨i, hi, ?_⟩
        rw [hr, hbest]
        simp only [Settle.desired, if_pos habove]

end Store

namespace Pass

variable {levels : LevelConfig} {c : SpreadConfig} {t : Instant}

/-- After a full pass every object has what it is due, before and after. -/
theorem stored_of_full (hdepth : 1 ≤ c.maxDepth) {s s' : Store} (hs : s.Sound)
    (h : Store.Settled levels c t (Known s t) s s') (r : Reference) :
    s'.stored t r = s.due levels c t r ∧ s'.stored t r = s'.due levels c t r := by
  have hdue : s'.stored t r = s.due levels c t r := by
    by_cases hr : Known s t r
    · exact h.stored_self hr
    · -- what is not known has no profile and is due none
      rw [h.outside t r hr]
      rw [Known, not_or] at hr
      rw [Store.due, if_neg hr.1]
      exact Option.not_isSome_iff_eq_none.mp hr.2
  exact ⟨hdue, hdue.trans (h.due_eq hs hdepth t r).symm⟩

/-- **A full pass computes the declarative profile and stabilises.** From whatever
    store, if it succeeds, the facts are as before and the profiles at its instant are
    those that walks explain. Two stores with the same facts come to the same profiles,
    and another full pass is quiet. -/
theorem full_explains_profiles (hdepth : 1 ≤ c.maxDepth) {w w' : World} {report : Report}
    (hs : w.backend.store.Reachable) (hrivals : w.rivals = [])
    (h : Pass.full levels c t w = (.ok report, w')) :
    (∀ u f, w'.backend.store.visible u (.fact f) = w.backend.store.visible u (.fact f)) ∧
      (w'.backend.store.snapshot t).Explained levels c ∧
      (∀ {v v' : World} {report' : Report}, v.backend.store.Reachable → v.rivals = [] →
        (∀ f, v.backend.store.visible t (.fact f) = w.backend.store.visible t (.fact f)) →
        Pass.full levels c t v = (.ok report', v') →
        ∀ r, v'.backend.store.stored t r = w'.backend.store.stored t r) ∧
      Quiet levels c t w'.backend.store := by
  obtain ⟨s', ⟨rfl, -⟩, hset, -⟩ := (runs_full hs.sound).of_ok ⟨rfl, hrivals⟩ h
  have hstored := stored_of_full hdepth hs.sound hset
  refine ⟨fun u f => hset.facts u _ rfl, ?_, ?_, ?_⟩
  · exact hset.sound.explained_of_due hdepth fun r => (hstored r).2
  · intro v v' report' hv hvrivals hfacts hfull r
    obtain ⟨v'', ⟨rfl, -⟩, hset', -⟩ := (runs_full hv.sound).of_ok ⟨rfl, hvrivals⟩ hfull
    rw [(stored_of_full hdepth hv.sound hset' r).1, (hstored r).1]
    exact hv.sound.due_eq_of_facts hs.sound hdepth hfacts r
  · exact (quiet_iff hset.sound).mpr fun r => (hstored r).2

/-- Two linked objects, a level declared for the first one, and profiles that nobody
    should have. -/
def staleStore : Store :=
  .ofTransactions [⟨Instant.latest, [
    .put (.content (.object ⟨⟨"Host|a"⟩, "Host", Table.empty⟩)),
    .put (.content (.object ⟨⟨"Host|b"⟩, "Host", Table.empty⟩)),
    .put (.content (.edge ⟨⟨⟨"Host|a"⟩, "link", ⟨"Host|b"⟩⟩, Table.empty⟩)),
    .put (.content (.declaration ⟨⟨"Host|a"⟩, LevelConfig.standard.highest⟩)),
    .put (.profile (.declared ⟨"Host|b"⟩ .zero)),
    .put (.profile (.declared ⟨"Host|c"⟩ .zero))]⟩]

/-- A full pass over stale profiles: the second object inherits, and the profile without
    an object goes. -/
theorem full_explains_stale_profiles :
    1 ≤ SpreadConfig.standard.maxDepth ∧ staleStore.Reachable ∧
      (World.holding staleStore).rivals = [] ∧
      ∃ report w', Pass.full .standard .standard Instant.latest (World.holding staleStore) =
          (.ok report, w') ∧
        (w'.backend.store.snapshot Instant.latest).Explained .standard .standard ∧
        Quiet .standard .standard Instant.latest w'.backend.store ∧
        w'.backend.store.stored Instant.latest ⟨"Host|b"⟩ = some (.inherited ⟨"Host|b"⟩
          LevelConfig.standard.highest
            [⟨⟨"Host|a"⟩, ⟨"Host|a"⟩, LevelConfig.standard.highest, 1⟩]) ∧
        w'.backend.store.stored Instant.latest ⟨"Host|c"⟩ = none := by
  have hreach : staleStore.Reachable := Store.reachable_ofTransactions _
  obtain ⟨report, hrun, -⟩ := Act.exists_eq_ok (w := World.holding staleStore)
    (a := Pass.full .standard .standard Instant.latest) (fun _ => true) (by decide +kernel)
  obtain ⟨-, hexplained, -, hquiet⟩ := full_explains_profiles (by decide) hreach rfl hrun
  refine ⟨by decide, hreach, rfl, report, _, hrun, hexplained, hquiet, ?_, ?_⟩
  · decide +kernel
  · decide +kernel

end Pass

end ClearanceGraph
