import ClearanceGraph.Proofs.Clearance.Trail
import ClearanceGraph.Proofs.Store.History

/-! # Checkpoints — the later instants that a pass comes to

    A pass asks for the later starts of versions around everything it looks at.
    So a trail that comes to an end has visited all of them (`Trail.learns`), and
    it does come to an end, since it goes forward (`Trail.popMin?_eq_none`).

    What a trail leaves of a profile is decided by the last instant at which the
    object was in the ball, unless a version that was there before starts later
    (`Trail.stored_eq`). -/

namespace ClearanceGraph

namespace Store

variable {levels : LevelConfig} {c : SpreadConfig} {s s' : Store} {t u v : Instant}
  {r x : Reference}

/-! ## Starts -/

/-- A pass asks for the later starts around what it looks at for the first time. -/
theorem Sound.contains_later_iff' (hs : s.Sound) {dirty watched : KeySet Reference} :
    (s.finding levels c dirty watched t).later.contains v = true ↔
      ∃ x, (s.finding levels c dirty watched t).fresh.contains x = true ∧
        s.StartsAround x v ∧ t < v := by
  rw [contains_later_iff]
  refine exists_congr fun x => and_congr_right fun _ => ?_
  rw [hs.exists_keysAround_iff]

/-- Where nothing starts around an object, everything around it stays the same. -/
theorem Sound.sameAt_of_not_startsAround (hs : s.Sound) (htu : t ≤ u)
    (hno : ∀ v, t < v → v ≤ u → ¬ s.StartsAround r v) :
    (s.snapshot u).SameAt (s.snapshot t) r := by
  have hsame : ∀ k : DocumentKey, k.IsAround r → s.visible u k = s.visible t k := by
    intro k hk
    exact visible_eq_of_not_startsAround htu hno hk
  refine hs.sameAt hs (hsame _ (.inl rfl)) (hsame _ (.inr (.inl rfl))) fun e he => ?_
  exact hsame _ (.inr (.inr (.inr ⟨e, he, rfl⟩)))

namespace Settled

variable {P : Reference → Prop} (h : Settled levels c t P s s')

include h

theorem startsAround (hx : s.StartsAround x v) : s'.StartsAround x v := by
  obtain ⟨k, hk, w, hw, rfl⟩ := hx
  exact ⟨k, hk, w, h.grown k w hw, rfl⟩

/-- A pass only makes versions start at its own instant. -/
theorem startsAround_or (hx : s'.StartsAround x v) : s.StartsAround x v ∨ v = t := by
  obtain ⟨k, hk, w, hw, rfl⟩ := hx
  exact (h.new k w hw).imp (fun hold => ⟨k, hk, w, hold, rfl⟩) And.left

end Settled

end Store

/-! ## The instants of a trail -/

namespace Pass.Trail

variable {levels : LevelConfig} {c : SpreadConfig} {dirty : KeySet Reference}
  {cps cps' : KeySet Instant} {watched watched' : KeySet Reference} {s s' : Store}
  {us : List Instant} {t : Instant}

/-- What is to come is visited, or it is still to come. -/
theorem visited_or_waiting (h : Trail levels c dirty cps watched s us cps' watched' s')
    {v : Instant} (hv : cps.contains v = true) : v ∈ us ∨ cps'.contains v = true := by
  induction h with
  | stop => exact .inr hv
  | visit hpop _ _ _ ih =>
      rcases (KeySet.contains_iff_of_popMin? hpop).mp hv with rfl | hrest
      · exact .inl List.mem_cons_self
      · refine (ih ?_).imp_left (List.mem_cons_of_mem _)
        rw [KeySet.contains_union_iff]
        exact .inl hrest

/-- Trails of instants after `t` stay after `t`. -/
theorem after (h : Trail levels c dirty cps watched s us cps' watched' s')
    (hcps : ∀ v, cps.contains v = true → t < v) : ∀ v ∈ us, t < v := by
  induction h with
  | stop =>
      intro v hv
      cases hv
  | @visit cps rest _ _ _ _ _ _ u us hpop _ _ _ ih =>
      have hu : t < u := hcps u (KeySet.contains_of_popMin? hpop)
      intro v hv
      rcases List.mem_cons.mp hv with rfl | hv
      · exact hu
      · exact ih (fun v hv => lt_trans hu (lt_of_contains_next hpop hv)) v hv

/-- With an instant that is still to come, all later starts around what is watched are
    so. -/
def Expects (s : Store) (cps : KeySet Instant) (watched : KeySet Reference) : Prop :=
  ∀ x, watched.contains x = true → ∀ u v, cps.contains u = true → u ≤ v →
    s.StartsAround x v → cps.contains v = true

section Expects

variable {rest : KeySet Instant} {u v : Instant} {x : Reference} (hs : s.Sound)
  (hpop : KeySet.popMin? cps = some (u, rest)) (hknown : Expects s cps watched)

include hs hpop hknown

/-- After a visit the later starts around everything that was watched or looked at are
    to come. -/
theorem contains_next_of_startsAround
    (hx : (watched.union (s.finding levels c dirty watched u).fresh).contains x = true)
    (hv : s.StartsAround x v) (huv : u < v) :
    (rest.union (s.finding levels c dirty watched u).later).contains v = true := by
  rw [KeySet.contains_union_iff] at hx ⊢
  rcases hx with hold | hfresh
  · have hcontains := hknown x hold u v (KeySet.contains_of_popMin? hpop) (le_of_lt huv) hv
    exact .inl (((KeySet.contains_iff_of_popMin? hpop).mp hcontains).resolve_left
      (ne_of_gt huv))
  · exact .inr (hs.contains_later_iff'.mpr ⟨x, hfresh, hv, huv⟩)

/-- A visit leaves a store whose later starts are expected as well. -/
theorem expects_next {P : Reference → Prop} {s₁ : Store}
    (hset : Store.Settled levels c u P s s₁) :
    Expects s₁ (rest.union (s.finding levels c dirty watched u).later)
      (watched.union (s.finding levels c dirty watched u).fresh) := by
  intro y hy a v ha hav hv
  have huv : u < v := lt_of_lt_of_le (lt_of_contains_next hpop ha) hav
  rcases hset.startsAround_or hv with hold | rfl
  · exact contains_next_of_startsAround hs hpop hknown hy hold huv
  · exact absurd huv (lt_irrefl _)

end Expects

/-- **A trail learns** of every later start around what it looks at. -/
theorem learns (hdepth : 1 ≤ c.maxDepth)
    (h : Trail levels c dirty cps watched s us cps' watched' s') (hs : s.Sound)
    (hknown : Expects s cps watched) :
    ∀ u ∈ us, ∀ x, s.Looked c u dirty x → ∀ v, s.StartsAround x v → u < v →
      v ∈ us ∨ cps'.contains v = true := by
  induction h with
  | stop =>
      intro u hu
      cases hu
  | @visit cps rest _ watched _ s s₁ _ u us hpop hpartial hwrote htrail ih =>
      obtain ⟨hsettling, hfresh⟩ := hs.settling_finding hdepth hpartial
      have hset := hsettling.settled hs hwrote
      intro u' hu' x hx v hv huv
      rcases List.mem_cons.mp hu' with rfl | hu'
      · -- an object that is looked at is watched from this visit on
        have hmet : (watched.union (s.finding levels c dirty watched u').fresh).contains x =
            true := by
          rw [KeySet.contains_union_iff, hfresh]
          cases hw : watched.contains x with
          | true => exact .inl rfl
          | false => exact .inr ⟨hx, rfl⟩
        have hnext := contains_next_of_startsAround hs hpop hknown hmet hv huv
        exact (htrail.visited_or_waiting hnext).imp_left (List.mem_cons_of_mem _)
      · -- profiles do not change what is looked at, so the rest of the trail sees `x`
        -- too
        have huu' : u < u' :=
          htrail.after (fun v hv => lt_of_contains_next hpop hv) u' hu'
        have hlooked : s₁.Looked c u' dirty x := by
          rw [hset.looked_eq hs]
          exact hx
        exact (ih hset.sound (expects_next hs hpop hknown hset) u' hu' x hlooked v
          (hset.startsAround hv) huv).imp_left (List.mem_cons_of_mem _)

/-- A trail from one instant visits it first. -/
theorem exists_cons
    (h : Trail levels c dirty (KeySet.ofList [t]) watched s us cps' watched' s')
    (hne : us ≠ []) : ∃ later, us = t :: later ∧ ∀ v ∈ later, t < v := by
  cases h with
  | stop => exact absurd rfl hne
  | @visit _ rest _ _ _ _ _ _ u us hpop _ _ htrail =>
      have hfirst := KeySet.contains_of_popMin? hpop
      rw [KeySet.contains_ofList_iff, List.mem_singleton] at hfirst
      obtain rfl : u = t := hfirst
      exact ⟨us, rfl, htrail.after fun v hv => lt_of_contains_next hpop hv⟩

/-- **A trail comes to an end** before it has visited more instants than there are
    versions: every instant is visited once, and a version starts there. -/
theorem popMin?_eq_none
    (h : Trail levels c dirty (KeySet.ofList [t]) watched s us cps' watched' s')
    (hs : s.Sound)
    (hend : KeySet.popMin? cps' = none ∨ us.length = s.versionCount + 1) :
    KeySet.popMin? cps' = none := by
  rcases hend with hnone | hlen
  · exact hnone
  · cases hpop : KeySet.popMin? cps' with
    | none => rfl
    | some p =>
        have hlt := (h.forward (.first hs t)).length_lt hpop
        rw [List.nil_append, hlen] at hlt
        exact absurd hlt (lt_irrefl _)

end Pass.Trail

/-! ## What a trail leaves -/

namespace Store

/-- The last of some instants, up to another one, at which an object was in the ball of
    a commit. No version of its profile that was there before starts in between. -/
structure Governs (s : Store) (c : SpreadConfig) (dirty : KeySet Reference)
    (us : List Instant) (u : Instant) (r : Reference) (v : Instant) : Prop where
  visited : v ∈ us
  le : v ≤ u
  ball : s.Ball c v dirty r
  last : ∀ w ∈ us, v < w → w ≤ u → ¬ s.Ball c w dirty r
  unbroken : ¬ s.StartsWithin (.profile r) v u

/-- What governs the later instants of a trail governs the whole trail, and it is not
    the first instant. -/
theorem Settled.governs_iff {levels : LevelConfig} {c : SpreadConfig}
    {dirty : KeySet Reference}
    {P : Reference → Prop} {s s' : Store} {t u v : Instant} {us : List Instant}
    {r : Reference}
    (hset : Settled levels c t P s s') (hs : s.Sound) (hafter : ∀ w ∈ us, t < w) :
    s'.Governs c dirty us u r v ↔ v ≠ t ∧ s.Governs c dirty (t :: us) u r v := by
  constructor
  · -- a visit writes profiles only, so balls and starts after it are those before
    rintro ⟨hv, hle, hball, hlast, hno⟩
    have htv := hafter v hv
    rw [hset.ball_eq hs] at hball
    rw [hset.startsWithin_iff (le_of_lt htv)] at hno
    refine ⟨ne_of_gt htv, List.mem_cons_of_mem _ hv, hle, hball, fun w hw hvw hwu => ?_,
      hno⟩
    rcases List.mem_cons.mp hw with rfl | hw
    · exact absurd hvw (lt_asymm htv)
    · rw [← hset.ball_eq hs]
      exact hlast w hw hvw hwu
  · rintro ⟨hne, hv, hle, hball, hlast, hno⟩
    have hv' : v ∈ us := (List.mem_cons.mp hv).resolve_left hne
    refine ⟨hv', hle, ?_, fun w hw hvw hwu => ?_, ?_⟩
    · rw [hset.ball_eq hs]
      exact hball
    · rw [hset.ball_eq hs]
      exact hlast w (List.mem_cons_of_mem _ hw) hvw hwu
    · rw [hset.startsWithin_iff (le_of_lt (hafter v hv'))]
      exact hno

/-- If nothing governs an object that was in the ball at first, that was too late,
    unless a version of its profile starts since. -/
theorem lt_of_not_governs {c : SpreadConfig} {dirty : KeySet Reference} {s : Store}
    {t u : Instant} {us : List Instant} {r : Reference} (hafter : ∀ w ∈ us, t < w)
    (hno : ∀ v, ¬ s.Governs c dirty (t :: us) u r v) (hball : s.Ball c t dirty r)
    (hwithin : ¬ s.StartsWithin (.profile r) t u) : u < t := by
  refine lt_of_not_ge fun htu => ?_
  -- the last instant at which the ball held the object would govern
  have hex : ∃ v ∈ t :: us, v ≤ u ∧ s.Ball c v dirty r :=
    ⟨t, List.mem_cons_self, htu, hball⟩
  obtain ⟨v, hv, ⟨hle, hvball⟩, hlast⟩ := Instant.exists_latest hex
  have htv : t ≤ v := by
    rcases List.mem_cons.mp hv with rfl | hv
    · exact le_refl _
    · exact le_of_lt (hafter v hv)
  refine hno v ⟨hv, hle, hvball, fun w hw hvw hwu hw' => hlast w hw hvw ⟨hwu, hw'⟩, ?_⟩
  rintro ⟨x, hx, hlt, hxu⟩
  exact hwithin ⟨x, hx, lt_of_le_of_lt htv hlt, hxu⟩

end Store

namespace Pass.Trail

variable {levels : LevelConfig} {c : SpreadConfig} {dirty : KeySet Reference}
  {cps cps' : KeySet Instant} {watched watched' : KeySet Reference} {s s' : Store}
  {us : List Instant} {t u : Instant} {r : Reference}

/-- **What a trail leaves** of a profile: what is due at the instant that governs it, or
    else what was stored before. -/
theorem stored_eq (hdepth : 1 ≤ c.maxDepth)
    (h : Trail levels c dirty cps watched s us cps' watched' s') (hs : s.Sound) :
    (∀ v, s.Governs c dirty us u r v → s'.stored u r = s.due levels c v r) ∧
      ((∀ v, ¬ s.Governs c dirty us u r v) → s'.stored u r = s.stored u r) := by
  induction h with
  | stop =>
      refine ⟨fun v hv => ?_, fun _ => rfl⟩
      cases hv.visited
  | @visit cps rest _ watched _ s s₁ s' t us hpop hpartial hwrote htrail ih =>
      have hset := (hs.settling_finding hdepth hpartial).1.settled hs hwrote
      have hafter := htrail.after fun v hv => lt_of_contains_next hpop hv
      have hgoverns : ∀ v, s₁.Governs c dirty us u r v ↔
          v ≠ t ∧ s.Governs c dirty (t :: us) u r v := fun v => hset.governs_iff hs hafter
      obtain ⟨hgoverned, hungoverned⟩ := ih hset.sound
      refine ⟨fun v hv => ?_, fun hno => ?_⟩
      · by_cases hvt : v = t
        · -- the first instant governs, so no later one does
          subst hvt
          rw [hungoverned fun w hw => ?_]
          · exact hset.settled u r hv.le hv.ball hv.unbroken
          · obtain ⟨-, hw'⟩ := (hgoverns w).mp hw
            exact hv.last w hw'.visited (hafter w hw.visited) hw'.le hw'.ball
        · rw [hgoverned v ((hgoverns v).mpr ⟨hvt, hv⟩), hset.due_eq hs hdepth]
      · rw [hungoverned fun v hv => hno v ((hgoverns v).mp hv).2]
        by_cases hball : s.Ball c t dirty r
        · by_cases hwithin : s.StartsWithin (.profile r) t u
          · exact hset.kept u r hwithin
          · exact hset.before u r (Store.lt_of_not_governs hafter hno hball hwithin)
        · exact hset.outside u r hball

end Pass.Trail

end ClearanceGraph
