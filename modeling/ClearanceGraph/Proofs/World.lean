import ClearanceGraph.World
import ClearanceGraph.Proofs.Action
import ClearanceGraph.Proofs.Store.Reading

/-! # Actions in the world — what a program does to store and broker

    Of a world its scene matters: the store, and the messages that the broker took.
    `World.Shows c g w` says that the world `w` shows the scene `g` and that nobody
    else writes its store; the weather `c` says whether something may fail, and what
    the clock may show.  Faults and outages only decide whether an action gives its
    result or fails, and in fair weather nothing fails.

    Reading leaves the scene, a submit or a message that fails leaves it too
    (`leads_read`, `leads_submit`, `leads_publish`).  `Act.Runs` is what is left of
    this where only the store matters. -/

namespace ClearanceGraph

/-! ## Scenes -/

/-- What matters of a world. -/
structure Scene where
  store : Store
  /-- The messages that the broker took, topic by topic. -/
  topics : Table String (List String)

namespace Scene

/-- The messages of a topic. -/
def messages (g : Scene) (topic : String) : List String := (g.topics.get? topic).getD []

/-- The broker takes a message. -/
def take (g : Scene) (topic text : String) : Scene :=
  { g with topics := g.topics.update topic fun ms => ms.getD [] ++ [text] }

end Scene

/-- What is known of faults and of the clock. -/
structure Weather where
  /-- Nothing fails. -/
  fair : Prop
  /-- What the clock may show. -/
  clock : Instant → Prop

namespace World

/-- Nothing is switched off, and no failure is written down. -/
structure Calm (w : World) : Prop where
  store : w.backend.isDown = false ∧ w.backend.failing = 0
  broker : w.broker.isDown = false ∧ w.broker.failing = 0
  submits : ∀ f ∈ w.submitFaults, f = none
  publishes : ∀ f ∈ w.publishFaults, f = none
  calls : ∀ b ∈ w.outages, b = false

/-- A world with everything switched on and no failure written down is calm. -/
theorem Calm.of_nil {w : World} (hstore : w.backend.isDown = false ∧ w.backend.failing = 0)
    (hbroker : w.broker.isDown = false ∧ w.broker.failing = 0)
    (hsubmits : w.submitFaults = [])
    (hpublishes : w.publishFaults = []) (hcalls : w.outages = []) : w.Calm := by
  refine ⟨hstore, hbroker, ?_, ?_, ?_⟩
  · rw [hsubmits]
    exact List.forall_mem_nil _
  · rw [hpublishes]
    exact List.forall_mem_nil _
  · rw [hcalls]
    exact List.forall_mem_nil _

/-- A world without rivals shows a scene. -/
structure Shows (c : Weather) (g : Scene) (w : World) : Prop where
  store : w.backend.store = g.store
  topics : w.broker.topics = g.topics
  rivals : w.rivals = []
  clock : ∀ n, c.clock (w.clock n)
  calm : c.fair → w.Calm

variable {c : Weather} {g : Scene} {w : World}

/-- A world shows one scene. -/
theorem Shows.unique {g' : Scene} (h : w.Shows c g) (h' : w.Shows c g') : g = g' := by
  obtain ⟨s, topics⟩ := g
  obtain rfl : w.backend.store = s := h.store
  obtain rfl : w.broker.topics = topics := h.topics
  obtain ⟨s', topics'⟩ := g'
  obtain rfl : w.backend.store = s' := h'.store
  obtain rfl : w.broker.topics = topics' := h'.topics
  rfl

theorem Shows.messages (h : w.Shows c g) (topic : String) :
    w.messages topic = g.messages topic := by
  rw [World.messages, h.topics, Scene.messages]

/-- A reading gives what it reads in the store, if its calls of the store reach it. -/
theorem read_apply {α : Type} (r : Reading α) (w : World) : World.read r w =
    if (World.reaches (r w.backend.store).2 w).1 then
      ((r w.backend.store).1, (World.reaches (r w.backend.store).2 w).2)
    else (.error (.ofStorage storeDown), (World.reaches (r w.backend.store).2 w).2) := rfl

/-- What was read was read in the store. -/
theorem gives_of_read {α : Type} {r : Reading α} {w : World} {x : α}
    (h : (World.read r w).1 = .ok x) : r.Gives w.backend.store x := by
  rw [read_apply] at h
  split at h
  · exact h
  · cases h

end World

section Rules

variable {α : Type} {c : Weather} {g : Scene}

/-- Calls of the store reach it in fair weather, and leave the scene. -/
private theorem shows_reaches (n : Nat) : ∀ {w : World}, w.Shows c g →
    (World.reaches n w).2.Shows c g ∧ (c.fair → (World.reaches n w).1 = true) := by
  induction n with
  | zero => exact fun hw => ⟨hw, fun _ => rfl⟩
  | succ n ih =>
      intro w hw
      rw [World.reaches]
      split
      · next hdown =>
        refine ⟨hw, fun hfair => ?_⟩
        rw [(hw.calm hfair).store.1] at hdown
        cases hdown
      · split
        · exact ⟨hw, fun _ => rfl⟩
        · next rest hout =>
          -- a call that is cut off is no fair weather
          have hno : c.fair → False := fun hfair => by
            have hfalse := (hw.calm hfair).calls true (hout ▸ List.mem_cons_self)
            cases hfalse
          exact ⟨⟨hw.store, hw.topics, hw.rivals, hw.clock, fun hfair => (hno hfair).elim⟩,
            fun hfair => (hno hfair).elim⟩
        · next rest hout =>
          refine ih ⟨hw.store, hw.topics, hw.rivals, hw.clock, fun hfair => ?_⟩
          obtain ⟨hs, hb, hsub, hpub, hcalls⟩ := hw.calm hfair
          exact ⟨hs, hb, hsub, hpub, fun b hb =>
            hcalls b (hout ▸ List.mem_cons_of_mem _ hb)⟩

/-- Reading leaves the scene; in fair weather it fails only by itself. -/
theorem leads_read (r : Reading α) :
    Leads (World.Shows c) (World.read r) g (fun x g' => r.Gives g.store x ∧ g' = g)
      (fun _ g' => (c.fair → ∀ x, ¬ r.Gives g.store x) ∧ g' = g) := by
  intro w hw
  obtain ⟨hshows, hreach⟩ := shows_reaches (r w.backend.store).2 hw
  rw [World.read_apply]
  split
  · refine ⟨g, hshows, ?_⟩
    rw [hw.store]
    cases hx : (r g.store).1 with
    | ok x => exact ⟨hx, rfl⟩
    | error e =>
        refine ⟨fun _ x hgives => ?_, rfl⟩
        cases hx.symm.trans hgives
  · next hno => exact ⟨g, hshows, fun hfair => absurd (hreach hfair) hno, rfl⟩

/-- Reading what is there. -/
theorem leads_read_of_gives {r : Reading α} {x : α} (h : r.Gives g.store x) :
    Leads (World.Shows c) (World.read r) g (fun y g' => y = x ∧ g' = g)
      (fun _ g' => ¬ c.fair ∧ g' = g) := by
  refine (leads_read r).imp ?_ ?_
  · rintro y g' ⟨hy, rfl⟩
    exact ⟨hy.unique h, rfl⟩
  · rintro e g' ⟨hno, rfl⟩
    exact ⟨fun hfair => hno hfair x h, rfl⟩

/-- Reading what is there fails only as a store out of reach. -/
theorem leads_read_or_down {r : Reading α} {x : α} (h : r.Gives g.store x) :
    Leads (World.Shows c) (World.read r) g (fun y g' => y = x ∧ g' = g)
      (fun e g' => e = .ofStorage storeDown ∧ g' = g) := by
  intro w hw
  obtain ⟨hshows, -⟩ := shows_reaches (r w.backend.store).2 hw
  rw [World.read_apply]
  split
  · refine ⟨g, hshows, ?_⟩
    rw [hw.store, show (r g.store).1 = .ok x from h]
    exact ⟨rfl, rfl⟩
  · exact ⟨g, hshows, rfl, rfl⟩

/-- A submit past our own faults ends as the store does, unless it is switched off. -/
private theorem leads_submitRaw (tx : Transaction) :
    Leads (World.Shows c) (World.submitRaw tx) g
      (fun id g' => ∃ s, g.store.submit tx = .ok (id, s) ∧ g' = { g with store := s })
      (fun e g' => (c.fair → g.store.submit tx = .error e) ∧ g' = g) := by
  intro w hw
  have hraw : (World.submitRaw tx) w =
      ((w.backend.submit tx).1, { w with backend := (w.backend.submit tx).2 }) := rfl
  rw [hraw, Backend.submit]
  split
  · next hdown =>
    -- in fair weather the store is not down
    refine ⟨g, hw, fun hfair => ?_, rfl⟩
    rw [(hw.calm hfair).store.1] at hdown
    cases hdown
  · split
    · next n hfailing =>
      have hno : c.fair → False := fun hfair => by
        rw [(hw.calm hfair).store.2] at hfailing
        cases hfailing
      exact ⟨g, ⟨hw.store, hw.topics, hw.rivals, hw.clock, fun hfair => (hno hfair).elim⟩,
        fun hfair => (hno hfair).elim, rfl⟩
    · rw [hw.store]
      cases hsub : g.store.submit tx with
      | ok p =>
          obtain ⟨id, s⟩ := p
          refine ⟨{ g with store := s },
            ⟨rfl, hw.topics, hw.rivals, hw.clock, fun hfair => ?_⟩, s, rfl, rfl⟩
          obtain ⟨hs, hb, hsub, hpub, hcalls⟩ := hw.calm hfair
          exact ⟨hs, hb, hsub, hpub, hcalls⟩
      | error e =>
          exact ⟨g, ⟨hw.store, hw.topics, hw.rivals, hw.clock, hw.calm⟩, fun _ => rfl, rfl⟩

/-- The failure of a submit is written down, and there is none in fair weather. -/
private theorem ends_nextSubmitFault :
    Ends (World.Shows c) World.nextSubmitFault g fun f g' => (c.fair → f = none) ∧
    g' = g := by
  intro w hw
  rw [World.nextSubmitFault]
  split
  · exact ⟨g, hw, fun _ => rfl, rfl⟩
  · next f rest hfaults =>
    refine ⟨g, ⟨hw.store, hw.topics, hw.rivals, hw.clock, fun hfair => ?_⟩,
      fun hfair => ?_, rfl⟩
    · obtain ⟨hs, hb, hsub, hpub, hcalls⟩ := hw.calm hfair
      exact ⟨hs, hb, fun f hf => hsub f (hfaults ▸ List.mem_cons_of_mem _ hf), hpub, hcalls⟩
    · exact (hw.calm hfair).submits f (hfaults ▸ List.mem_cons_self)

/-- A submit commits, or leaves the scene; in fair weather only the store refuses. -/
theorem leads_submit (tx : Transaction) :
    Leads (World.Shows c) (World.submit tx) g
      (fun id g' => ∃ s, g.store.submit tx = .ok (id, s) ∧ g' = { g with store := s })
      (fun e g' => (c.fair → g.store.submit tx = .error e) ∧ g' = g) := by
  -- nobody else commits in between
  have hrace : Ends (World.Shows c) World.race g fun _ g' => g' = g := by
    intro w hw
    rw [World.race, hw.rivals]
    exact ⟨g, hw, rfl⟩
  refine Ends.bind hrace ?_
  rintro - g' rfl
  refine Ends.bind ends_nextSubmitFault ?_
  rintro f g'' ⟨hf, rfl⟩
  cases f with
  | some e =>
      refine Ends.pure ⟨fun hfair => ?_, rfl⟩
      cases hf hfair
  | none =>
      intro w hw
      -- with no fault left, the store is reached or it is down
      obtain ⟨hshows, hreach⟩ := shows_reaches 1 hw
      have hends : Leads (World.Shows c) (if (World.reaches 1 w).1 then World.submitRaw tx
          else pure (.error storeDown)) g''
          (fun id g' => ∃ s, g''.store.submit tx = .ok (id, s) ∧
            g' = { g'' with store := s })
          (fun e g' => (c.fair → g''.store.submit tx = .error e) ∧ g' = g'') := by
        split
        · exact leads_submitRaw tx
        · next hno => exact Ends.pure ⟨fun hfair => absurd (hreach hfair) hno, rfl⟩
      exact hends _ hshows

/-- The broker takes a message, or the scene stays, which does not happen in fair
    weather. -/
theorem leads_publish (topic text : String) :
    Leads (World.Shows c) (World.publish topic text) g (fun _ g' => g' = g.take topic text)
      (fun _ g' => ¬ c.fair ∧ g' = g) := by
  have hfault : Ends (World.Shows c) World.nextPublishFault g
      fun f g' => (c.fair → f = none) ∧ g' = g := by
    intro w hw
    rw [World.nextPublishFault]
    split
    · exact ⟨g, hw, fun _ => rfl, rfl⟩
    · next f rest hfaults =>
      refine ⟨g, ⟨hw.store, hw.topics, hw.rivals, hw.clock, fun hfair => ?_⟩,
        fun hfair => ?_, rfl⟩
      · obtain ⟨hs, hb, hsub, hpub, hcalls⟩ := hw.calm hfair
        exact ⟨hs, hb, hsub, fun f hf => hpub f (hfaults ▸ List.mem_cons_of_mem _ hf),
          hcalls⟩
      · exact (hw.calm hfair).publishes f (hfaults ▸ List.mem_cons_self)
  refine Ends.bind hfault ?_
  rintro f g' ⟨hf, rfl⟩
  cases f with
  | some e =>
      refine Ends.pure ⟨fun hfair => ?_, rfl⟩
      cases hf hfair
  | none =>
      intro w hw
      dsimp only
      rw [World.deliver]
      split
      · next hdown =>
        refine ⟨_, hw, fun hfair => ?_, rfl⟩
        rw [(hw.calm hfair).broker.1] at hdown
        cases hdown
      · split
        · next n hfailing =>
          -- a failing queue is no fair weather either
          have hno : ¬ c.fair := fun hfair => by
            rw [(hw.calm hfair).broker.2] at hfailing
            cases hfailing
          exact ⟨_, ⟨hw.store, hw.topics, hw.rivals, hw.clock, fun hfair =>
            (hno hfair).elim⟩, hno, rfl⟩
        · refine ⟨g'.take topic text,
            ⟨hw.store, ?_, hw.rivals, hw.clock, fun hfair => ?_⟩, rfl⟩
          · rw [Scene.take, ← hw.topics]
          · obtain ⟨hs, hb, hsub, hpub, hcalls⟩ := hw.calm hfair
            exact ⟨hs, hb, hsub, hpub, hcalls⟩

/-- The clock shows an instant that it may show, and nothing changes. -/
theorem ends_now : Ends (World.Shows c) World.now g fun t g' => c.clock t ∧ g' = g := by
  intro w hw
  exact ⟨g, ⟨hw.store, hw.topics, hw.rivals, hw.clock, fun hfair =>
    ⟨(hw.calm hfair).store, (hw.calm hfair).broker, (hw.calm hfair).submits,
      (hw.calm hfair).publishes, (hw.calm hfair).calls⟩⟩, hw.clock _, rfl⟩

end Rules

/-! ## Where only the store matters -/

/-- The world holds a store, and nobody else writes it. -/
def World.Alone (s : Store) (w : World) : Prop := w.backend.store = s ∧ w.rivals = []

/-- A world that holds a store, without faults and without rivals. -/
def World.holding (s : Store) : World :=
  { World.empty (fun _ => Instant.latest) with backend := ⟨s, false, 0⟩ }

theorem World.alone_holding (s : Store) : (World.holding s).Alone s := ⟨rfl, rfl⟩

theorem World.calm_holding (s : Store) : (World.holding s).Calm :=
  .of_nil ⟨rfl, rfl⟩ ⟨rfl, rfl⟩ rfl rfl rfl

/-- Any weather. -/
def Weather.any : Weather := ⟨False, fun _ => True⟩

namespace Act

variable {α β ε : Type} {s : Store} {Q : α → Store → Prop} {R : β → Store → Prop}
  {E F : Store → Prop}

/-- What an action does to a store that nobody else writes. -/
def Runs (a : StateM World (Except ε α)) (s : Store) (Q : α → Store → Prop)
    (E : Store → Prop) :
    Prop :=
  ∀ w : World, w.Alone s → ∃ s' : Store, (a w).2.Alone s' ∧
    ((∃ x, (a w).1 = .ok x ∧ Q x s') ∨ ((∃ e, (a w).1 = .error e) ∧ E s'))

/-- An action that leads somewhere in any weather runs there. -/
theorem runs_of_leads {a : StateM World (Except ε α)}
    (h : ∀ topics, Leads (World.Shows .any) a ⟨s, topics⟩ (fun x g => Q x g.store)
      (fun _ g => E g.store)) : Runs a s Q E := by
  intro w hw
  obtain ⟨g, hg, hres⟩ := h w.broker.topics w
    ⟨hw.1, rfl, hw.2, fun _ => trivial, fun hfair => hfair.elim⟩
  refine ⟨g.store, ⟨hg.store, hg.rivals⟩, ?_⟩
  cases hr : (a w).1 with
  | ok x =>
      rw [hr] at hres
      exact .inl ⟨x, rfl, hres⟩
  | error e =>
      rw [hr] at hres
      exact .inr ⟨⟨e, rfl⟩, hres⟩

theorem Runs.imp {a : StateM World (Except ε α)} {Q' : α → Store → Prop} {E' : Store → Prop}
    (h : Runs a s Q E) (hq : ∀ x s', Q x s' → Q' x s') (he : ∀ s', E s' → E' s') :
    Runs a s Q' E' := by
  intro w hw
  obtain ⟨s', halone, hres⟩ := h w hw
  refine ⟨s', halone, hres.imp ?_ ?_⟩
  · rintro ⟨x, hx, hqx⟩
    exact ⟨x, hx, hq x s' hqx⟩
  · rintro ⟨herr, hes⟩
    exact ⟨herr, he s' hes⟩

/-- What an action leaves when it fails may be forgotten. -/
theorem Runs.unless_failed {a : StateM World (Except ε α)} (h : Runs a s Q E) :
    Runs a s Q (fun _ => True) :=
  h.imp (fun _ _ hq => hq) fun _ _ => trivial

/-- A result of an action is as it should be. -/
theorem Runs.of_ok {a : StateM World (Except ε α)} {w w' : World} {x : α} (h : Runs a s Q E)
    (hw : w.Alone s) (ha : a w = (.ok x, w')) : ∃ s', w'.Alone s' ∧ Q x s' := by
  obtain ⟨s', halone, hres⟩ := h w hw
  rw [ha] at halone hres
  rcases hres with ⟨y, hy, hq⟩ | ⟨⟨e, he⟩, -⟩
  · obtain rfl := Except.ok.inj hy
    exact ⟨s', halone, hq⟩
  · cases he

/-- What holds of failures holds of a run that failed. -/
theorem Runs.of_error {a : StateM World (Except ε α)} {w w' : World} {e : ε}
    (h : Runs a s Q E)
    (hw : w.Alone s) (ha : a w = (.error e, w')) : ∃ s', w'.Alone s' ∧ E s' := by
  obtain ⟨s', halone, hres⟩ := h w hw
  rw [ha] at halone hres
  rcases hres with ⟨y, hy, -⟩ | ⟨-, he⟩
  · cases hy
  · exact ⟨s', halone, he⟩

theorem toOption_eq_some_iff {r : Except ε α} {x : α} :
    r.toOption = some x ↔ r = .ok x := by
  cases r with
  | error e => simp [Except.toOption]
  | ok y => simp [Except.toOption]

/-- An action that was computed to end well has a result. -/
theorem exists_eq_ok {a : StateM World (Except ε α)} {w : World} (p : α → Bool)
    (h : (a w).1.toOption.any p = true) : ∃ x, a w = (.ok x, (a w).2) ∧ p x = true := by
  cases ha : (a w).1 with
  | error e =>
      rw [ha] at h
      cases h
  | ok x =>
      rw [ha] at h
      exact ⟨x, Prod.ext ha rfl, h⟩

/-- A result is a run that does nothing. -/
theorem runs_pure {x : α} (h : Q x s) : Runs (pure x : Act α) s Q E :=
  fun _ hw => ⟨s, hw, .inl ⟨x, rfl, h⟩⟩

/-- So is a failure. -/
theorem runs_throw {e : GraphError} (h : E s) : Runs (throw e : Act α) s Q E :=
  fun _ hw => ⟨s, hw, .inr ⟨⟨e, rfl⟩, h⟩⟩

/-- What comes second is done if the first succeeds, in the world after it. -/
theorem bind_apply {σ : Type} (a : ExceptT GraphError (StateM σ) α)
    (f : α → ExceptT GraphError (StateM σ) β) (w : σ) :
    (a >>= f) w = match a w with
      | (.ok x, w') => f x w'
      | (.error e, w') => (.error e, w') := by
  simp only [Bind.bind, ExceptT.bind, ExceptT.mk, StateT.bind, ExceptT.bindCont]
  cases a w with
  | mk r w' => cases r <;> rfl

theorem lift_apply (a : StateM World α) (w : World) :
    (liftM a : Act α) w = (.ok (a w).1, (a w).2) := rfl

/-- One action after another. -/
theorem Runs.bind {a : Act α} {f : α → Act β} (ha : Runs a s Q E)
    (hf : ∀ x s', Q x s' → Runs (f x) s' R E) : Runs (a >>= f : Act β) s R E := by
  intro w hw
  obtain ⟨s', halone, hres⟩ := ha w hw
  rw [bind_apply]
  cases hr : a w with
  | mk r w' =>
      rw [hr] at halone hres
      rcases hres with ⟨x, hx, hq⟩ | ⟨⟨e, he⟩, hes⟩
      · obtain rfl : r = .ok x := hx
        exact hf x s' hq w' halone
      · obtain rfl : r = .error e := he
        exact ⟨s', halone, .inr ⟨⟨e, rfl⟩, hes⟩⟩

/-- Reading leaves the store. -/
theorem runs_read (r : Reading α) (s : Store) :
    Runs (World.read r) s (fun x s' => Reading.Gives r s x ∧ s' = s) (· = s) := by
  refine runs_of_leads fun topics => (leads_read r).imp ?_ ?_
  · rintro x g ⟨hx, rfl⟩
    exact ⟨hx, rfl⟩
  · rintro e g ⟨-, rfl⟩
    rfl

/-- A submit commits, or leaves the store. -/
theorem runs_submit (tx : Transaction) (s : Store) :
    Runs (World.submit tx) s (fun id s' => s.submit tx = .ok (id, s')) (· = s) := by
  refine runs_of_leads fun topics => (leads_submit tx).imp ?_ ?_
  · rintro id g ⟨s', hsub, rfl⟩
    exact hsub
  · rintro e g ⟨-, rfl⟩
    rfl

end Act

end ClearanceGraph
