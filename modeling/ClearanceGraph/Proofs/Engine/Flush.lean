import ClearanceGraph.Engine.Recovery
import ClearanceGraph.Proofs.Clearance.Arrival
import ClearanceGraph.Proofs.Event.Publisher

/-! # Flushes — levels and messages after a commit

    A flush takes up a batch where an earlier attempt stopped: it follows the commit
    with levels, and then publishes what was found.  Both can fail, and then the
    commit stays pending.

    What a flush owes to the queue is a message for every object whose level it
    changes.  An object is safe (`Scene.Safe`) once it is told or the note that was
    written last names it.  An object stays safe that was safe before, as long as the
    note that the flush starts from names it too (`Store.CarriesOn`): the newest note
    by valid time is read, and that need not be the last one.

    `ends_flush` is the one theorem about flushes that later files use. -/

namespace ClearanceGraph

/-! ## Engines in their world -/

/-- What matters of an engine in its world. -/
structure Stage where
  engine : Engine
  scene : Scene

namespace Stage

/-- The store of a stage. -/
abbrev store (a : Stage) : Store := a.scene.store

/-- The stage with a different barrier. -/
def setBarrier (a : Stage) (b : Barrier) : Stage :=
  { a with engine := { a.engine with barrier := b } }

end Stage

/-- An engine in a world without rivals shows a stage. -/
structure System.Shows (sky : Weather) (a : Stage) (s : System) : Prop where
  engine : s.engine = a.engine
  world : s.world.Shows sky a.scene

theorem System.Shows.unique {sky : Weather} {a a' : Stage} {s : System}
    (h : System.Shows sky a s) (h' : System.Shows sky a' s) : a = a' := by
  obtain ⟨e, g⟩ := a
  obtain ⟨e', g'⟩ := a'
  obtain rfl : e = e' := h.engine.symm.trans h'.engine
  obtain rfl : g = g' := h.world.unique h'.world
  rfl

namespace Work

variable {α : Type} {sky : Weather} {a : Stage}

/-- What is done to the world leaves the engine. -/
theorem leads_act {x : Act α} {Q : α → Scene → Prop} {E : GraphError → Scene → Prop}
    (h : Leads (World.Shows sky) x a.scene Q E) :
    Leads (System.Shows sky) (act x) a (fun r a' => ∃ g, a' = ⟨a.engine, g⟩ ∧ Q r g)
      (fun e a' => ∃ g, a' = ⟨a.engine, g⟩ ∧ E e g) := by
  intro s hs
  obtain ⟨g, hg, hr⟩ := h s.world hs.world
  refine ⟨⟨a.engine, g⟩, ⟨hs.engine, hg⟩, ?_⟩
  show Either _ _ (x s.world).1 _
  cases hx : (x s.world).1 with
  | ok r =>
      rw [hx] at hr
      exact ⟨g, rfl, hr⟩
  | error e =>
      rw [hx] at hr
      exact ⟨g, rfl, hr⟩

theorem leads_config :
    Leads (System.Shows sky) config a (fun c a' => c = a.engine.config ∧ a' = a)
      (fun _ _ => False) :=
  fun _ hs => ⟨a, hs, congrArg Engine.config hs.engine, rfl⟩

theorem ends_modifyBarrier (f : Barrier → Barrier) :
    Ends (System.Shows sky) (modifyBarrier f) a
      fun _ a' => a' = a.setBarrier (f a.engine.barrier) := by
  intro s hs
  refine ⟨a.setBarrier (f a.engine.barrier), ⟨?_, hs.world⟩, rfl⟩
  show { s.engine with barrier := f s.engine.barrier } = _
  rw [hs.engine]
  rfl

end Work

/-! ## What a flush starts from -/

namespace Store

variable {s s' : Store} {t : TransactionId} {P : DocumentKey → Prop}

/-- Reconciliation made a commit of the log. -/
def IsGraph (s : Store) (t : TransactionId) : Prop :=
  ∃ c, s.transaction? t = some c ∧ c.isGraphTransaction = true

/-- A batch that can be flushed: reconciliation made its commit, and levels have not
    followed everywhere. -/
structure Awaits (s : Store) (job : Batch) : Prop where
  graph : s.IsGraph job.transaction
  unsettled : (s.box job.transaction).state ≠ .recorded

/-- The note that a flush starts from names an object if the note written last does. -/
def CarriesOn (s : Store) (t : TransactionId) (r : Reference) : Prop :=
  s.LastNames t r → ∃ e, s.box t = .entry e ∧ e.batch.Names r

theorem InStep.carriesOn (h : s.InStep (.outbox t)) {r : Reference} : s.CarriesOn t r := by
  rintro ⟨v, e, hv, hdoc, hr⟩
  exact ⟨e, box_eq_entry_iff.mpr ⟨v, h.trans hv, hdoc⟩, hr⟩

/-- What reconciliation made of the earlier commits is known from the earlier store. -/
theorem Grows.isGraph_of_le (h : s.Grows P s') (ht : t.value ≤ s.log.length)
    (hgraph : s'.IsGraph t) :
    s.IsGraph t := by
  obtain ⟨c, hc, hgraph⟩ := hgraph
  refine ⟨c, ?_, hgraph⟩
  rw [Store.transaction?] at hc ⊢
  split at hc
  · cases hc
  · next h0 =>
    obtain ⟨cs, hcs⟩ := h.log
    rw [if_neg h0]
    rwa [← hcs, List.getElem?_append_left (by omega)] at hc

/-- Commits that write no record of an origin are none of reconciliation. -/
theorem Grows.isGraph_iff (h : s.Grows P s') (hP : ∀ o, ¬ P (.origin o)) :
    s'.IsGraph t ↔ s.IsGraph t := by
  refine ⟨fun hgraph => ?_, fun ⟨c, hc, hgraph⟩ => ⟨c, h.transaction? hc, hgraph⟩⟩
  by_cases hle : t.value ≤ s.log.length
  · exact h.isGraph_of_le hle hgraph
  · obtain ⟨c, hc, hgraph⟩ := hgraph
    rw [Store.transaction?] at hc
    split at hc
    · cases hc
    · obtain ⟨cs, hcs⟩ := h.log
      rw [← hcs, List.getElem?_append_right (by omega)] at hc
      have hnew : c ∈ s'.log.drop s.log.length := by
        rw [← hcs, List.drop_left]
        exact List.mem_of_getElem? hc
      obtain ⟨op, hop, hwrites⟩ := List.any_eq_true.mp hgraph
      obtain ⟨hwrite, horigin⟩ := (Bool.and_eq_true _ _).mp hwrites
      have hkey := h.wrote c hnew op hop hwrite
      cases hk : op.key with
      | origin o => exact absurd (hk ▸ hkey) (hP o)
      | fact f => rw [hk] at horigin; cases horigin
      | profile r => rw [hk] at horigin; cases horigin
      | outbox u => rw [hk] at horigin; cases horigin

theorem not_noted_origin (o : OriginId) : ¬ Noted t (.origin o) := by
  rintro (h | h) <;> cases h

end Store

/-- An object is told, or the note that was written last names it. -/
def Scene.Safe (g : Scene) (t : TransactionId) (r : Reference) : Prop :=
  g.Told t r ∨ g.store.LastNames t r

/-- What carries on with the flush of a commit: the commits that are made write profiles
    and the box of the commit, and what was changed or noted is safe. -/
structure Advanced (t : TransactionId) (g g' : Scene) : Prop where
  boxed : g'.store.Boxed
  within : g.Within g'
  grows : g.store.Grows (Store.Noted t) g'.store
  safe : ∀ r, g.store.CarriesOn t r →
    g.store.Changed g'.store r ∨ g.store.LastNames t r → g'.Safe t r

/-! ## The pass -/

namespace Pass

variable {seed : Batch} {s₀ s : Store} {p : Progress} {g g₁ g' : Scene} {sky : Weather}

/-- What a pass has changed, or started from, is among its deltas and in the note
    written last. -/
theorem Kept.safe (h : Kept seed s₀ s p)
    (hseed : ∀ e, s₀.box seed.transaction = .entry e → seed = e.batch) {r : Reference}
    (hcarries : s₀.CarriesOn seed.transaction r)
    (hr : s₀.Changed s r ∨ s₀.LastNames seed.transaction r) :
    p.deltas.contains r = true ∧ s.LastNames seed.transaction r := by
  have hdelta : p.deltas.contains r = true := by
    rcases hr with hr | hr
    · exact h.told r hr
    · obtain ⟨e, he, hnames⟩ := hcarries hr
      exact h.seeded r (hseed e he ▸ hnames)
  refine ⟨hdelta, ?_⟩
  rcases h.named with ⟨hsame, hno⟩ | hall
  · rw [Store.LastNames, hsame]
    exact hr.resolve_left (hno r)
  · exact hall r hdelta

section Publishing

variable (hseed : ∀ e, g.store.box seed.transaction = .entry e → seed = e.batch)
  (hwithin : g.Within g₁)

include hseed hwithin

/-- A pass that stopped. -/
theorem Kept.advanced (h : Kept seed g.store g₁.store p) : Advanced seed.transaction g g₁ :=
  ⟨h.boxed, hwithin, h.grows, fun _ hcarries hr => .inr (h.safe hseed hcarries hr).2⟩

/-- A pass that arrived, and what it found was published. -/
theorem Arrived.published (h : Arrived seed g.store g₁.store p)
    (hpub : Publisher.Published sky (p.batch seed) g₁ g') :
    Advanced seed.transaction g g' ∧
    (sky.fair → g'.store.box seed.transaction = .cleared) := by
  have htold : ∀ r, g.store.CarriesOn seed.transaction r →
      g.store.Changed g₁.store r ∨ g.store.LastNames seed.transaction r →
        g'.Told seed.transaction r := fun r hcarries hr =>
    hpub.told r ((names_batch_iff h.filed).mpr (h.safe hseed hcarries hr).1)
  rcases hpub.store with ⟨hstore, hfair⟩ | htopped
  · rw [← hstore] at h htold
    refine ⟨⟨h.boxed, hwithin.trans hpub.within, h.grows, fun r hc hr =>
      .inl (htold r hc hr)⟩, fun hf => ?_⟩
    rcases hfair hf with hempty | habsent
    · exact h.cleared hempty
    · -- a pass that arrived has noted something
      cases hempty : (p.batch seed).isEmpty with
      | true => exact h.cleared hempty
      | false =>
          obtain ⟨e, he⟩ := h.entry hempty
          rw [hstore] at he
          cases habsent.symm.trans he
  · refine ⟨⟨htopped.boxed, hwithin.trans hpub.within,
      h.grows.trans (htopped.grows.mono fun _ hk => .inr hk), fun r hc hr => .inl ?_⟩,
      fun _ => htopped.box⟩
    refine htold r hc (hr.imp_left fun hr => ?_)
    exact (hr.of_grows h.boxed.sound h.grows htopped.grows).resolve_right
      (htopped.unchanged r)

/-- A pass that arrived, and what it found could not be published. -/
theorem Arrived.unpublished (h : Arrived seed g.store g₁.store p)
    (hpub : Publisher.Unpublished sky (p.batch seed) g₁ g') :
    Advanced seed.transaction g g' ∧ g'.store.box seed.transaction ≠ .cleared := by
  have hw := hwithin.trans hpub.within
  rcases hpub.store with hstore | ⟨t, htopped⟩
  · rw [← hstore] at h
    refine ⟨h.toKept.advanced hseed hw, fun hcleared => ?_⟩
    obtain ⟨e, he⟩ := h.entry hpub.nonempty
    cases hcleared.symm.trans he
  · have hbox : g'.store.box seed.transaction = .entry ⟨p.batch seed, t, true⟩ :=
      htopped.box
    refine ⟨⟨htopped.boxed, hw, h.grows.trans (htopped.grows.mono fun _ hk => .inr hk),
      fun r hc hr => .inr ?_⟩, fun hcleared => ?_⟩
    · have hr := hr.imp_left fun hr =>
        (hr.of_grows h.boxed.sound h.grows htopped.grows).resolve_right
          (htopped.unchanged r)
      refine (htopped.inStep.names hbox).mpr ?_
      exact (names_batch_iff h.filed).mpr (h.safe hseed hc hr).1
    · cases hcleared.symm.trans hbox

end Publishing

end Pass

/-! ## Flushes -/

namespace Engine

variable {sky : Weather} {a : Stage} {job : Batch}

section Carrying

variable {seed : Batch} (h : a.store.Boxed) (hclock : ∀ t, sky.clock t → t ≤ Instant.latest)
  (hgraph : a.store.IsGraph seed.transaction) (hresumes : Pass.Resumes a.store seed)
  (hseed : ∀ e, a.store.box seed.transaction = .entry e → seed = e.batch)

include h hclock hgraph hresumes hseed

private theorem leads_carryOn (c : Config) :
    Leads (System.Shows sky) (do
        let report ← Work.act (Pass.follow c.levels c.spread seed true)
        Work.act (Publisher.publish c.publisher { seed with deltas := report.deltas }) :
          Work Unit) a
      (fun _ a' => ∃ g, a' = ⟨a.engine, g⟩ ∧ Advanced seed.transaction a.scene g ∧
        (sky.fair → g.store.box seed.transaction = .cleared))
      (fun _ a' => ∃ g, a' = ⟨a.engine, g⟩ ∧ Advanced seed.transaction a.scene g ∧
        ¬ sky.fair ∧
        g.store.box seed.transaction ≠ .cleared) := by
  obtain ⟨tx, htx, -⟩ := hgraph
  have hid := (h.le_of_transaction? htx).1
  refine Leads.step (Work.leads_act (Pass.leads_follow h htx hresumes)) ?_ ?_
  · -- the pass has stopped on the way, and its batch is not told yet
    rintro e a' ⟨g, rfl, htopics, hfair, us, p, hunderway⟩
    refine ⟨g, rfl, hunderway.toKept.advanced hseed (.of_topics htopics), hfair,
      fun hcleared => ?_⟩
    refine hunderway.state_ne_recorded ?_
    rw [hcleared]
    rfl
  · -- the pass has ended, so what is published is the whole batch
    rintro report a' ⟨g, rfl, htopics, p, harrived, hdeltas⟩
    have hwithin : a.scene.Within g := .of_topics htopics
    rw [hdeltas]
    refine (Work.leads_act
      (Publisher.leads_publish c.publisher (b := p.batch seed) harrived.boxed
      hclock (Nat.le_trans hid harrived.grows.log.length_le) fun hne => ?_)).imp ?_ ?_
    · obtain ⟨e, he⟩ := harrived.entry hne
      exact fun hcleared => nomatch hcleared.symm.trans he
    · rintro - a' ⟨g', rfl, hpub⟩
      exact ⟨g', rfl, harrived.published hseed hwithin hpub⟩
    · rintro e a' ⟨g', rfl, hpub⟩
      obtain ⟨hadvanced, hopen⟩ := harrived.unpublished hseed hwithin hpub
      exact ⟨g', rfl, hadvanced, hpub.unfair, hopen⟩

end Carrying

/-- Advancing a batch that awaits it. -/
private theorem leads_advance (h : a.store.Boxed)
    (hclock : ∀ t, sky.clock t → t ≤ Instant.latest) (hjob : a.store.Awaits job) :
    Leads (System.Shows sky) (advance job) a
      (fun _ a' => ∃ g, a' = ⟨a.engine, g⟩ ∧ Advanced job.transaction a.scene g ∧
        (sky.fair → g.store.box job.transaction = .cleared))
      (fun _ a' => ∃ g, a' = ⟨a.engine, g⟩ ∧ Advanced job.transaction a.scene g ∧
        ¬ sky.fair ∧
        g.store.box job.transaction ≠ .cleared) := by
  -- a failure before the pass leaves the stage
  have hleft : Advanced job.transaction a.scene a.scene :=
    ⟨h, .refl _, .refl _, fun r _ hr => .inr (hr.resolve_left (a.store.not_changed_self r))⟩
  have hopen : a.store.box job.transaction ≠ .cleared := by
    intro hcleared
    refine hjob.unsettled ?_
    rw [hcleared]
    rfl
  refine Leads.step Work.leads_config (fun _ _ hf => hf.elim) ?_
  rintro c a' ⟨rfl, rfl⟩
  refine Leads.step (Work.leads_act (leads_read_of_gives (Store.flushState_gives _ _))) ?_
    ?_
  · rintro e a' ⟨g, rfl, hfair, rfl⟩
    exact ⟨_, rfl, hleft, hfair, hopen⟩
  · rintro state a'' ⟨g, rfl, rfl, rfl⟩
    rcases Box.state_ne_recorded_iff.mp hjob.unsettled with habsent | ⟨e, he, hpart⟩
    · have hstate : (a'.store.box job.transaction).state = .unrecorded := by
        rw [habsent]
        rfl
      rw [hstate]
      exact leads_carryOn h hclock hjob.graph (.inl habsent)
        (fun e he => nomatch habsent.symm.trans he) _
    · have hstate : (a'.store.box job.transaction).state = .stopped e.batch := by
        rw [he, Box.state, hpart]
        rfl
      have hid := h.transaction_of_box he
      rw [hstate, ← hid]
      refine leads_carryOn h hclock (hid ▸ hjob.graph)
        (.inr ⟨e, hid.symm ▸ he, hpart, ?_⟩) ?_ _
      · exact h.nonempty _ e he
      · intro e' he'
        rw [hid, he] at he'
        cases he'
        rfl

/-- A flush was done, or its commit stays pending. -/
structure Flushed (sky : Weather) (t : TransactionId) (a a' : Stage) : Prop
    extends Advanced t a.scene a'.scene where
  outcome : (a'.engine = (a.setBarrier (a.engine.barrier.complete t)).engine ∧
      (sky.fair → a'.store.box t = .cleared)) ∨
    (a'.engine = a.engine ∧ ¬ sky.fair ∧ a'.store.box t ≠ .cleared)

/-- **A flush** of a batch that awaits it. -/
theorem ends_flush (h : a.store.Boxed) (hclock : ∀ t, sky.clock t → t ≤ Instant.latest)
    (hjob : a.store.Awaits job) :
    Ends (System.Shows sky) (flush job) a fun _ a' => Flushed sky job.transaction a a' := by
  refine Ends.bind (leads_advance h hclock hjob) ?_
  intro r a' hr
  cases r with
  | ok u =>
      obtain ⟨g, rfl, hadvanced, hfair⟩ := hr
      refine Ends.bind (Work.ends_modifyBarrier _) ?_
      rintro - a' rfl
      exact Ends.pure ⟨hadvanced, .inl ⟨rfl, hfair⟩⟩
  | error e =>
      obtain ⟨g, rfl, hadvanced, hrest⟩ := hr
      have hflushed : Flushed sky job.transaction a ⟨a.engine, g⟩ :=
        ⟨hadvanced, .inr ⟨rfl, hrest⟩⟩
      cases e <;> exact Ends.pure hflushed

end Engine

end ClearanceGraph
