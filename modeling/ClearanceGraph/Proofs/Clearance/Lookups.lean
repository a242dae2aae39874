import ClearanceGraph.Proofs.Clearance.Load
import Mathlib.Data.List.Forall2

/-! # Lookups — a view that was loaded and a view that asks

    A pass looks things up one after another and never knows which of two views it
    has: one that asks the store for each thing and remembers the answer, or one
    that was loaded with four queries and never asks again.  Both remember what they
    did not find, and the loaded one has noted every loop twice.

    Each of the two shows a snapshot, and goes on showing it whatever is looked up
    (`View.lookUpAll_gives`).  The snapshots differ in loops alone, and loops are no
    hops.  So the answers are the same, in any order and however often something is
    looked up (`Store.Reachable.loaded_eq_asking`). -/

namespace ClearanceGraph

/-- What can be looked up in a view. -/
inductive Lookup where
  /-- Does the object exist? -/
  | object (r : Reference)
  /-- Which level is declared for it, if it exists? -/
  | declared (r : Reference)
  /-- Which profile is stored for it? -/
  | profile (r : Reference)
  /-- Which steps lead to objects that take levels from it? -/
  | taking (r : Reference)
  /-- Which steps lead to objects that give levels to it? -/
  | giving (r : Reference)

/-- What is found. -/
inductive Finding where
  | object (b : Bool)
  | declared (l : Option Level)
  | profile (p : Option Profile)
  | hops (hs : List Hop)
deriving DecidableEq

/-- A lookup as a survey. -/
def Lookup.survey (c : SpreadConfig) : Lookup → Survey Finding
  | object r => return .object (← Survey.isObject r)
  | declared r => return .declared (← Survey.declaredLevel r)
  | profile r => return .profile (← Survey.storedProfile r)
  | taking r => return .hops (← Survey.taking c r)
  | giving r => return .hops (← Survey.giving c r)

/-- Looks things up one after another in a view, which remembers them. -/
def View.lookUpAll (c : SpreadConfig) : List Lookup → View → Reading (List Finding × View)
  | [], v => pure ([], v)
  | k :: ks, v => do
    let (f, v) ← (k.survey c).run v
    let (fs, v) ← lookUpAll c ks v
    return (f :: fs, v)

namespace View

variable {s : Store} {g : Snapshot} {v : View} (c : SpreadConfig)

/-- **A view answers lookups as its snapshot does**, and goes on showing it. -/
theorem lookUpAll_gives (ks : List Lookup) (h : v.Shows s g) :
    ∃ v', v'.Shows s g ∧
      (lookUpAll c ks v).Gives s (ks.map fun k => (k.survey c).answer g, v') := by
  induction ks generalizing v with
  | nil => exact ⟨v, h, Reading.gives_pure s _⟩
  | cons k ks ih =>
      obtain ⟨v₁, h₁, hone⟩ := (k.survey c).run_eq h
      obtain ⟨v₂, h₂, hrest⟩ := ih h₁
      exact ⟨v₂, h₂, hone.bind (hrest.bind (Reading.gives_pure s _))⟩

end View

/-! ## A complete view never asks -/

/-- A survey on a complete view is answered from the view alone, which stays complete. -/
theorem Survey.run_eq_pure {α : Type} (sv : Survey α) {v : View} (h : v.isComplete = true) :
    ∃ x : α × View, x.2.isComplete = true ∧ sv.run v = pure x := by
  -- a complete view answers by itself, and does not even become another one
  have hask : ∀ {β : Type} {w : View} (otherwise : β) (r : Reading β), w.isComplete = true →
      w.ask otherwise r = pure otherwise := fun otherwise r hw => if_pos hw
  induction sv generalizing v with
  | done a => exact ⟨(a, v), h, rfl⟩
  | object r next ih =>
      rw [run]
      cases v.objects.get? r with
      | some b => exact ih b h
      | none =>
          dsimp only
          rw [View.askObject, hask _ _ h, Reading.pure_bind]
          exact ih _ h
  | declaration r next ih =>
      rw [run]
      cases v.declared.get? r with
      | some l => exact ih l h
      | none =>
          dsimp only
          rw [View.askDeclaration, hask _ _ h, Reading.pure_bind]
          exact ih _ h
  | profile r next ih =>
      rw [run]
      cases v.profiles.get? r with
      | some p => exact ih p h
      | none =>
          dsimp only
          rw [View.askProfile, hask _ _ h, Reading.pure_bind]
          exact ih _ h
  | edges r next ih =>
      rw [run]
      cases v.edges.get? r with
      | some ks => exact ih ks h
      | none =>
          dsimp only
          rw [View.askEdges, hask _ _ h, Reading.pure_bind]
          exact ih _ h

/-- Nothing is asked when something is looked up in a complete view. -/
theorem View.lookUpAll_asks (c : SpreadConfig) (ks : List Lookup) {v : View}
    (h : v.isComplete = true) : ∃ x, lookUpAll c ks v = pure x := by
  induction ks generalizing v with
  | nil => exact ⟨_, rfl⟩
  | cons k ks ih =>
      obtain ⟨x, hx, hone⟩ := (k.survey c).run_eq_pure h
      obtain ⟨y, hrest⟩ := ih hx
      refine ⟨(x.1 :: y.1, y.2), ?_⟩
      rw [lookUpAll, hone, Reading.pure_bind]
      dsimp only
      rw [hrest, Reading.pure_bind]

/-! ## Loaded and asking -/

namespace Store

/-- The snapshots of the two views answer every lookup alike. -/
theorem Sound.answer_loaded {s : Store} (hs : s.Sound) (t : Instant) (c : SpreadConfig)
    (k : Lookup) : (k.survey c).answer (s.loaded t) = (k.survey c).answer
      (s.snapshot t) := by
  cases k with
  | object r => rfl
  | declared r =>
      simp only [Lookup.survey, Survey.answer_bind, Survey.answer_pure,
        Survey.answer_declaredLevel]
      rfl
  | profile r => rfl
  | taking r =>
      simp only [Lookup.survey, Survey.answer_bind, Survey.answer_pure,
        Survey.answer_taking, Snapshot.taking, hs.loaded_hops]
  | giving r =>
      have hanswer : ∀ g : Snapshot, (Survey.giving c r).answer g = g.hops c false r :=
        fun g => Survey.answer_hops g c false r
      simp only [Lookup.survey, Survey.answer_bind, Survey.answer_pure, hanswer,
        hs.loaded_hops]

/-- **A loaded view answers as one that asks does**, whatever is looked up, in whatever
    order and however often, and each answer is that of a view that knows nothing yet.
    Once it is loaded it asks nothing more. -/
theorem Reachable.loaded_eq_asking {s : Store} (h : s.Reachable) (t : Instant)
    (c : SpreadConfig) (ks : List Lookup) :
    ∃ fs v v₁ v₂, (View.load t).Gives s v ∧ (View.lookUpAll c ks v).Gives s (fs, v₁) ∧
      (View.lookUpAll c ks v s).2 = 0 ∧
      (View.lookUpAll c ks (View.fresh t)).Gives s (fs, v₂) ∧
      List.Forall₂ (fun k f => ∃ v', ((k.survey c).run (View.fresh t)).Gives s (f, v')) ks
        fs := by
  have hs := h.sound
  obtain ⟨v, hv, hshows, -⟩ := hs.load_gives t
  obtain ⟨v₁, -, hloaded⟩ := View.lookUpAll_gives c ks hshows
  obtain ⟨v₂, -, hasking⟩ := View.lookUpAll_gives c ks (hs.fresh_shows t)
  obtain ⟨x, hx⟩ := View.lookUpAll_asks c ks (isComplete_of_load hv)
  simp only [hs.answer_loaded] at hloaded
  refine ⟨_, v, v₁, v₂, hv, hloaded, ?_, hasking, ?_⟩
  · rw [hx]
    rfl
  · rw [List.forall₂_map_right_iff, List.forall₂_same]
    intro k _
    obtain ⟨v', -, hone⟩ := (k.survey c).run_eq (hs.fresh_shows t)
    exact ⟨v', hone⟩

/-- A host with a loop, a link to another host that has a level, and one to nowhere. -/
def hostLooped : Store := .ofTransactions [⟨default, [
  .put (.content (.object ⟨⟨"Host|a"⟩, "Host", Table.empty⟩)),
  .put (.content (.object ⟨⟨"Host|b"⟩, "Host", Table.empty⟩)),
  .put (.content (.edge ⟨⟨⟨"Host|a"⟩, "link", ⟨"Host|a"⟩⟩, Table.empty⟩)),
  .put (.content (.edge ⟨⟨⟨"Host|a"⟩, "link", ⟨"Host|c"⟩⟩, Table.empty⟩)),
  .put (.content (.edge ⟨⟨⟨"Host|b"⟩, "link", ⟨"Host|a"⟩⟩, Table.empty⟩)),
  .put (.content (.declaration ⟨⟨"Host|b"⟩, LevelConfig.standard.highest⟩))]⟩]

/-- What is not there is looked up first, and the steps from the host with the loop
    twice. -/
def lookupsAtHost : List Lookup :=
  [.object ⟨"Host|c"⟩, .taking ⟨"Host|a"⟩, .declared ⟨"Host|b"⟩, .profile ⟨"Host|a"⟩,
    .giving ⟨"Host|b"⟩, .taking ⟨"Host|a"⟩]

/-- The loaded view has the loop twice and finds the same. -/
theorem loaded_eq_asking_hostLooped : ∃ fs v v₁ v₂, hostLooped.Reachable ∧
    (View.load .latest).Gives hostLooped v ∧
    (v.edges.get? ⟨"Host|a"⟩).map (·.countP fun e => e.source = e.target) = some 2 ∧
    fs = [.object false, .hops [⟨⟨"Host|b"⟩, 0, none⟩],
      .declared (some LevelConfig.standard.highest), .profile none,
        .hops [⟨⟨"Host|a"⟩, 0, none⟩], .hops [⟨⟨"Host|b"⟩, 0, none⟩]] ∧
    (View.lookUpAll .standard lookupsAtHost v).Gives hostLooped (fs, v₁) ∧
    (View.lookUpAll .standard lookupsAtHost (View.fresh .latest)).Gives hostLooped
      (fs, v₂) := by
  have hreach : hostLooped.Reachable := reachable_ofTransactions _
  obtain ⟨fs, v, v₁, v₂, hv, hloaded, -, hasking, -⟩ :=
    hreach.loaded_eq_asking .latest .standard lookupsAtHost
  -- an edge from the host to itself is found twice, once at either end
  have hloops : ((View.load .latest hostLooped).1.toOption.bind fun v =>
      (v.edges.get? ⟨"Host|a"⟩).map (·.countP fun e => e.source = e.target)) = some 2 := by
    decide +kernel
  have hfound : ((View.lookUpAll .standard lookupsAtHost (View.fresh .latest)
      hostLooped).1.toOption.map (·.1)) =
      some [.object false, .hops [⟨⟨"Host|b"⟩, 0, none⟩],
        .declared (some LevelConfig.standard.highest), .profile none,
          .hops [⟨⟨"Host|a"⟩, 0, none⟩], .hops [⟨⟨"Host|b"⟩, 0, none⟩]] := by
    decide +kernel
  have hv' : (View.load .latest hostLooped).1 = .ok v := hv
  have hasked : (View.lookUpAll .standard lookupsAtHost (View.fresh .latest) hostLooped).1 =
      .ok (fs, v₂) := hasking
  rw [hv'] at hloops
  rw [hasked] at hfound
  exact ⟨fs, v, v₁, v₂, hreach, hv, hloops, Option.some.inj hfound, hloaded, hasking⟩

end Store

end ClearanceGraph
