import ClearanceGraph.Proofs.Clearance.Shape
import ClearanceGraph.Proofs.Contents
import ClearanceGraph.Proofs.Engine.Conduct
import ClearanceGraph.Proofs.Engine.Rebuilding
import ClearanceGraph.Proofs.Origin.Validation

/-! # Regularity — every profile that was ever written is well formed

    Engines with one sound configuration share a store.  They take in runs and
    retirements, long past ones too, follow commits within the budget and beyond it,
    recalculate, and stop anywhere; one may commit between what another one reads and
    what it submits.  Every version of every profile in the store is well formed then
    (`Store.Tended.wellFormed_history`).

    One hop takes levels from stored profiles, so this is shown of all documents at once:
    declared levels are on the scale, in facts and in the records of origins, and
    profiles are well formed (`Document.Regular`).  The heart is that each writer puts
    such documents if all that it reads are such (`Call.puts_regular`,
    `Pass.puts_regular_found`, `Pass.puts_regular_foundAll`); the rest is the conduct of
    engines. -/

namespace ClearanceGraph

variable {levels : LevelConfig} {n : Nat} {s : Store}

/-! ## Regular documents -/

/-- A declared level is on the scale. -/
def Content.OnScale (levels : LevelConfig) : Content → Prop
  | .declaration d => d.level ≤ levels.highest
  | _ => True

/-- A document as engines with a scale of levels and a number of hops write it. -/
def Document.Regular (levels : LevelConfig) (maxDepth : Nat) : Document → Prop
  | .content k => k.OnScale levels
  | .origin r => ∀ f k, r.content? f = some k → k.OnScale levels
  | .profile p => p.WellFormed levels maxDepth
  | .outbox _ => True

/-- What shows of regular documents is on the scale. -/
theorem Store.Holds.onScale (h : s.Holds (Document.Regular levels n))
    (hlevels : levels.default ≤ levels.highest) (t : Instant) : (s.snapshot t).OnScale
      levels where
  declaration r l hl := by
    obtain ⟨x, hx, rfl⟩ := Option.map_eq_some_iff.mp hl
    obtain ⟨d, hd, hdeclared⟩ := Option.bind_eq_some_iff.mp hx
    have hregular := h.visible hd
    rcases d with (o | e | y) | o | p | e <;> cases hdeclared
    exact hregular
  profile r p hp := by
    obtain ⟨d, hd, hprofile⟩ := Option.bind_eq_some_iff.mp hp
    have hregular := h.visible hd
    rcases d with k | o | q | e <;> cases hprofile
    exact Profile.WellFormed.level_le hregular hlevels

/-! ## Calls -/

/-- The declared levels of a valid run are on the scale. -/
theorem Run.level_le_of_validate {r : Run} {highest : Level}
    (h : r.validate highest = .ok ()) :
    ∀ d ∈ r.declarations, d.level ≤ highest := (validate_eq_ok_iff.mp h).onScale

namespace Call

/-- A call that makes plans asserts declared levels on the scale. -/
theorem onScale_asserted {c : Call}
    (hvalid : ∀ r, c = .reconcile r → r.validate levels.highest = .ok ()) {f : Fact}
    {k : Content} (hk : c.asserted.get? f = some k) : k.OnScale levels := by
  cases c with
  | retire o t => cases hk
  | reconcile r =>
      obtain ⟨x, hx, he⟩ := List.mem_map.mp (Table.mem_of_get?_ofList hk)
      cases he
      rcases List.mem_append.mp hx with hx | hx
      · rcases List.mem_append.mp hx with hx | hx
        · obtain ⟨o, -, rfl⟩ := List.mem_map.mp hx
          trivial
        · obtain ⟨e, -, rfl⟩ := List.mem_map.mp hx
          trivial
      · obtain ⟨d, hd, rfl⟩ := List.mem_map.mp hx
        exact Run.level_le_of_validate (hvalid r rfl) d hd

/-- **A call** puts regular documents: contents that it asserts, or that records already
    hold. -/
theorem puts_regular (hs : s.Holds (Document.Regular levels n)) {c : Call}
    (hvalid : ∀ r, c = .reconcile r → r.validate levels.highest = .ok ())
    {policy : CascadePolicy} {p : Plan} (hp : (c.plan policy).Gives s (some p)) :
    p.transaction.Puts (Document.Regular levels n) := by
  have howners : ∀ f, ∀ r ∈ s.owners f, ∀ k, r.content? f = some k → k.OnScale levels := by
    intro f r hr k hk
    obtain ⟨hlive, -⟩ := hs.sound.mem_owners_iff.mp hr
    obtain ⟨d, hd, hrecord⟩ := Option.bind_eq_some_iff.mp hlive
    have hregular := hs.visible hd
    rcases d with x | x | x | x <;> cases hrecord
    exact hregular f k hk
  intro d hd
  rcases c.plan_puts (F := fun _ k => k.OnScale levels) hs.sound
    (fun _ _ => onScale_asserted hvalid)
    howners hp hd with ⟨f, k, hk, rfl⟩ | ⟨r, hresult, rfl⟩
  · exact hk
  · intro f k hk
    rw [OriginRecord.content?, hresult] at hk
    exact onScale_asserted hvalid hk

end Call

/-! ## Publishers and passes -/

/-- A clearing puts nothing. -/
theorem Publisher.puts_clearing {D : Document → Prop} (e : OutboxEntry) :
    (clearing e).Puts D := by
  intro d hd
  rcases List.mem_cons.mp hd with hd | hd
  · cases hd
  · cases List.mem_singleton.mp hd

/-- Parking puts an entry, which is no profile. -/
theorem Publisher.puts_parking (b : Batch) (t : Instant) :
    (parking b t).Puts (Document.Regular levels n) := by
  intro d hd
  cases List.mem_singleton.mp hd
  trivial

namespace Pass

variable {c : SpreadConfig} {t : Instant}

/-- The steps of settling put profiles only. -/
private theorem puts_regular {ops : List Operation}
    (hprofile : ∀ op ∈ ops, op.key.isProfile = true)
    (hformed : ∀ p, .put (.profile p) ∈ ops → p.WellFormed levels n) {d : Document}
    (hd : .put d ∈ ops) : d.Regular levels n := by
  have hkey := hprofile _ hd
  cases d with
  | profile p => exact hformed p hd
  | content k => cases hkey
  | origin r => cases hkey
  | outbox e => cases hkey

/-- **A pass after a commit** puts regular documents. -/
theorem puts_regular_found (hs : s.Holds (Document.Regular levels c.maxDepth))
    (hlevels : levels.default ≤ levels.highest) (hdepth : 1 ≤ c.maxDepth)
    {dirty watched : KeySet Reference} {f : Finding}
    (hf : (find levels c dirty watched t).Gives s f) (b : Batch)
    (recorded propagated : Bool) :
    Transaction.Puts (Document.Regular levels c.maxDepth)
      ⟨t, f.operations ++ (if recorded then Outbox.note t b propagated
        else none).toList⟩ := by
  obtain rfl := hf.unique (hs.sound.find_gives levels c dirty watched)
  intro d hd
  rcases List.mem_append.mp hd with hd | hd
  · exact puts_regular (fun op hop => (Store.mem_finding_operations hop).2)
      (fun p => hs.sound.wellFormed_of_mem_find hdepth (hs.onScale hlevels t)) hd
  · split at hd
    · rw [Outbox.note] at hd
      split at hd
      · cases List.mem_singleton.mp hd
        trivial
      · split at hd
        · cases List.mem_singleton.mp hd
        · cases hd
    · cases hd

/-- **A full pass** puts regular documents. -/
theorem puts_regular_foundAll (hs : s.Holds (Document.Regular levels c.maxDepth))
    (hlevels : levels.default ≤ levels.highest) (hdepth : 1 ≤ c.maxDepth)
    {ops : List Operation}
    {deltas : List Delta} (hf : (findAll levels c t).Gives s (ops, deltas)) :
    Transaction.Puts (Document.Regular levels c.maxDepth) ⟨t, ops⟩ := fun _ hd =>
  puts_regular (fun _ hop => (hs.sound.mem_findAll_operations hf hop).2)
    (fun _ => hs.sound.wellFormed_of_mem_findAll hdepth (hs.onScale hlevels t) hf) hd

end Pass

/-! ## Engines -/

/-- A sound configuration has its default level on the scale, and room for a hop. -/
theorem Config.bounds_of_validate {c : Config} (h : c.validate = .ok ()) :
    c.levels.default ≤ c.levels.highest ∧ 1 ≤ c.spread.maxDepth := by
  rw [validate] at h
  split at h
  · cases h
  · next hlevels =>
    split at h
    · cases h
    · next hdepth => exact ⟨Nat.le_of_not_lt hlevels, Nat.one_le_iff_ne_zero.mpr hdepth⟩

/-- The documents that engines of a configuration write. -/
abbrev Config.Regular (c : Config) : Document → Prop :=
  Document.Regular c.levels c.spread.maxDepth

namespace Errand

/-- An errand by the settings of a configuration. -/
def Under (c : Config) : Errand → Prop
  | call levels config _ => levels = c.levels ∧ config = c.reconcile
  | follow levels spread _ _ => levels = c.levels ∧ spread = c.spread
  | full levels spread _ => levels = c.levels ∧ spread = c.spread
  | publish _ _ => True
  | republish _ => True

/-- **An errand** keeps a store of regular documents. -/
theorem retains {c : Config} (hc : c.validate = .ok ()) {e : Errand} (he : e.Under c)
    (w : World) :
    World.Retains c.Regular w (e.perform w) := by
  obtain ⟨hlevels, hdepth⟩ := Config.bounds_of_validate hc
  have hconduct := World.conduct_holds c.Regular
  cases e with
  | call levels config k =>
      obtain ⟨rfl, rfl⟩ := he
      exact hconduct.perform _ _ (fun _ _ hs hvalid hp => Call.puts_regular hs hvalid hp) w
  | follow levels spread seed recorded =>
      obtain ⟨rfl, rfl⟩ := he
      exact hconduct.follow (fun _ _ _ _ _ hs hf ds p =>
        Pass.puts_regular_found hs hlevels hdepth hf _ recorded p) w
  | full levels spread t =>
      obtain ⟨rfl, rfl⟩ := he
      exact hconduct.full
        (fun _ _ _ hs hf => Pass.puts_regular_foundAll hs hlevels hdepth hf) w
  | publish config b =>
      exact hconduct.publishBatch config (fun _ e _ _ => Publisher.puts_clearing e)
        (Publisher.puts_parking b) w
  | republish config =>
      exact hconduct.republishPending config
        (fun _ _ _ _ e _ => Publisher.puts_clearing e) w

end Errand

namespace System

/-- If the engine of the one system is of a configuration and its store holds regular
    documents, it is the same in the other one. -/
def Retains (c : Config) (s s' : System) : Prop :=
  s.engine.config = c ∧ s.world.Holds c.Regular → s'.engine.config = c ∧
    s'.world.Holds c.Regular

variable {c : Config}

instance : IsPreorder System (Retains c) where
  refl _ h := h
  trans _ _ _ h h' hs := h' (h hs)

/-- What an action keeps of the world, an engine that does it keeps. -/
theorem retains_act {α : Type} {a : Act α} (ha : Keeps (World.Retains c.Regular) a) :
    Keeps (Retains c) (Work.act a) := fun s hs => ⟨hs.1, ha s.world hs.2⟩

/-- **Engines of a sound configuration** keep a store of regular documents. -/
theorem conduct_retains (hc : c.validate = .ok ()) : Conduct (· = c) (Retains c) where
  toIsPreorder := inferInstance
  config hf s hs := hf s.engine.config hs.1 s hs
  memory _ _ _ hs := hs
  look r := retains_act ((World.conduct_holds _).look r)
  now := retains_act (.lift (World.conduct_holds _).now)
  publish := by
    rintro _ rfl b
    exact retains_act (Errand.retains hc (e := .publish _ b) trivial)
  republish := by
    rintro _ rfl
    exact retains_act (Errand.retains hc (e := .republish _) trivial)
  follow := by
    rintro _ rfl seed recorded
    exact retains_act (Errand.retains hc (e := .follow _ _ seed recorded) ⟨rfl, rfl⟩)
  full := by
    rintro _ rfl t
    exact retains_act (Errand.retains hc (e := .full _ _ t) ⟨rfl, rfl⟩)

end System

/-! ## Stores that engines tend -/

/-- What engines of a configuration do to the world: deeds as a whole, the work after a
    commit apart, and passes and publishers apart. -/
inductive Config.Does (c : Config) : World → World → Prop where
  | deed {x : System} (d : Deed) : x.engine.config = c → c.Does x.world (d.perform x).world
  | flush {x : System} (job : Batch) :
      x.engine.config = c → c.Does x.world (Engine.flush job x).2.world
  | errand {w : World} {e : Errand} : e.Under c → c.Does w (e.perform w)

theorem Config.Does.retains {c : Config} (hc : c.validate = .ok ()) {w w' : World}
    (h : c.Does w w') :
    World.Retains c.Regular w w' := by
  have hconduct := System.conduct_retains hc
  cases h with
  | errand he => exact Errand.retains hc he w
  | @flush x job hx => exact fun hw => (hconduct.flush job x ⟨hx, hw⟩).2
  | @deed x d hx =>
      intro hw
      cases d with
      | call k =>
          refine (hconduct.take ?_ x ⟨hx, hw⟩).2
          rintro _ rfl
          exact System.retains_act (Errand.retains hc (e := .call _ _ k) ⟨rfl, rfl⟩)
      | recalculate => exact (hconduct.recalculate x ⟨hx, hw⟩).2
      | look => exact (hconduct.deferred x ⟨hx, hw⟩).2
      | restart c' =>
          rw [Deed.perform]
          split
          · exact hw
          · exact hw

namespace Store

/-- Stores that engines of a configuration leave behind. Whatever they do finds a world
    of its own, with any faults, and is done whether it succeeds or fails. Rivals may be
    faster than its submits, with what engines of the configuration committed to such
    stores. -/
inductive Tended (c : Config) : Store → Prop where
  | empty : Tended c .empty
  | does {w w' : World} (origin : Transaction → Store) : Tended c w.backend.store →
      (∀ tx, some tx ∈ w.rivals → Tended c (origin tx)) →
      (∀ tx, some tx ∈ w.rivals → ∃ id, tx.committed id ∈ (origin tx).log) →
      c.Does w w' → Tended c w'.backend.store

/-- **A tended store holds regular documents.** -/
theorem Tended.holds {c : Config} (hc : c.validate = .ok ()) (h : s.Tended c) :
    s.Holds c.Regular := by
  induction h with
  | empty => exact holds_empty
  | does origin _ _ hrivals hdoes hstore horigin =>
      refine (hdoes.retains hc ⟨hstore, fun tx htx d hd => ?_⟩).store
      obtain ⟨id, hlog⟩ := hrivals tx htx
      exact (horigin tx htx).log _ hlog d hd

/-- **Every profile that was ever written is well formed.** Whatever engines of one
    sound configuration do to a store, and whatever fails, declared levels end with the
    scale, empty profiles have the default level, and inherited ones a level above it
    with a sorted list of how it came. -/
theorem Tended.wellFormed_history {c : Config} (hc : c.validate = .ok ()) (h : s.Tended c)
    {k : DocumentKey} {v : Version} (hv : v ∈ s.versionsOf k) {p : Profile}
    (hp : v.document = some (.profile p)) : p.WellFormed c.levels c.spread.maxDepth :=
  (h.holds hc).versions k v hv _ hp

end Store

/-! ## A link under a tight budget -/

namespace Engine

/-- An engine that may look at one object at a time. -/
def sparing : Config :=
  { Config.standard with spread := { SpreadConfig.standard with nodeBudget := 1 } }

/-- Two linked hosts are decreed, and a level for the first one; levels follow. -/
def hostsLinked : List Errand :=
  [.call .standard .standard (.reconcile ⟨⟨"d"⟩, .declaration, .latest,
      ["Host|x", "Host|y"].map fun r => ⟨⟨r⟩, "Host", Table.empty⟩,
      [⟨⟨⟨"Host|x"⟩, "link", ⟨"Host|y"⟩⟩, Table.empty⟩], [⟨⟨"Host|x"⟩, ⟨3, by decide⟩⟩]⟩),
    .follow .standard sparing.spread ⟨⟨1⟩, some ⟨"d"⟩, [], []⟩ true]

/-- Another engine finds a third host. -/
def hostFound : Errand := .call .standard .standard (found "b" .latest [("z", true)] [])

/-- A world without faults, in which a rival does the last commit of another store
    first. -/
def raced (s other : Store) : World :=
  { World.holding s with
    rivals := other.log.getLast?.toList.map fun m => some ⟨m.validTime, m.operations⟩ }

/-- What the rival submits is in the log of the other store. -/
private theorem exists_mem_log_of_raced {s other : Store} {tx : Transaction}
    (h : some tx ∈ (raced s other).rivals) : ∃ id, tx.committed id ∈ other.log := by
  obtain ⟨m, hm, he⟩ := List.mem_map.mp h
  cases he
  exact ⟨m.id, List.mem_of_getLast? (Option.mem_toList.mp hm)⟩

/-- Errands of one configuration tend a store. -/
private theorem tended_doneTo {c : Config} {es : List Errand} (hes : ∀ e ∈ es, e.Under c) :
    ∀ {s : Store}, s.Tended c → (doneTo s es).Tended c := by
  induction es with
  | nil => exact fun hs => hs
  | cons e es ih =>
      intro s hs
      refine ih (fun e' he' => hes e' (List.mem_cons_of_mem _ he')) ?_
      exact .does (fun _ => .empty) hs (fun _ _ => .empty) (fun _ htx => by cases htx)
        (.errand (w := World.holding s) (hes e List.mem_cons_self))

/-- The engine finds the second host again, after another one has found a third host. It
    may look one hop far only, and takes the level of the first host from the profile
    that is stored there. -/
def hostLooked (s : Store) : Store :=
  ((Deed.call (found "a" .latest [("y", true)] [])).perform
    ⟨⟨sparing, .empty, 1⟩, raced s (doneTo s [hostFound])⟩).world.backend.store

private theorem tended_hostLooked {s : Store} (hs : s.Tended sparing) :
    (hostLooked s).Tended sparing := by
  have hfound : hostFound.Under sparing := ⟨rfl, rfl⟩
  have hother : (doneTo s [hostFound]).Tended sparing :=
    tended_doneTo (List.forall_mem_singleton.mpr hfound) hs
  exact .does (fun _ => doneTo s [hostFound]) hs (fun _ _ => hother)
    (fun _ htx => exists_mem_log_of_raced htx)
    (.deed (x := ⟨⟨sparing, .empty, 1⟩, raced s (doneTo s [hostFound])⟩) _ rfl)

/-- What the second host inherits then. -/
def hostInherits : Profile :=
  .inherited ⟨"Host|y"⟩ ⟨3, by decide⟩ [⟨⟨"Host|x"⟩, ⟨"Host|x"⟩, ⟨3, by decide⟩, 1⟩]

/-- That profile is written, and it is well formed. -/
theorem wellFormed_history_hostLooked : ∃ s, s = hostLooked (doneTo .empty hostsLinked) ∧
    sparing.validate = .ok () ∧ s.Tended sparing ∧
    ∃ v ∈ s.versionsOf (.profile ⟨"Host|y"⟩), v.document = some (.profile hostInherits) ∧
      hostInherits.WellFormed sparing.levels sparing.spread.maxDepth := by
  obtain ⟨s₁, hs₁⟩ : ∃ s, s = doneTo .empty hostsLinked := ⟨_, rfl⟩
  have hlinked : s₁.Tended sparing := by
    rw [hs₁]
    refine tended_doneTo (fun e he => ?_) .empty
    rcases List.mem_cons.mp he with rfl | he
    · exact ⟨rfl, rfl⟩
    · obtain rfl := List.mem_singleton.mp he
      exact ⟨rfl, rfl⟩
  obtain ⟨s, hs⟩ : ∃ s, s = hostLooked s₁ := ⟨_, rfl⟩
  have htended : s.Tended sparing := hs ▸ tended_hostLooked hlinked
  -- the second host inherits the level of the first one
  have hwritten : (s.versionsOf (.profile ⟨"Host|y"⟩)).any
      (fun v => v.document.bind Document.profile? = some hostInherits) = true := by
    rw [hs, hs₁]
    decide +kernel
  obtain ⟨v, hv, hprofile⟩ := List.any_eq_true.mp hwritten
  obtain ⟨d, hd, hp⟩ := Option.bind_eq_some_iff.mp (of_decide_eq_true hprofile)
  obtain rfl : d = .profile hostInherits := by
    cases d <;> cases hp
    rfl
  exact ⟨s, by rw [hs, hs₁], rfl, htended, v, hv, hd,
    Store.Tended.wellFormed_history rfl htended hv hd⟩

end Engine

end ClearanceGraph
