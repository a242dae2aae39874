import ClearanceGraph.Proofs.Clearance.Region
import ClearanceGraph.Proofs.World

/-! # Passes — what a pass does to the store

    A pass only writes profiles, so what is due does not change under it.  What
    one write of it leaves is collected in `Store.Settled`, for the full pass and
    for every instant of a pass after a commit alike.

    `Pass.Quiet` says that a full pass at an instant would write and tell
    nothing.  That is so exactly if every object has the profile it is due
    (`quiet_iff`). -/

namespace ClearanceGraph

namespace Store

variable {levels : LevelConfig} {c : SpreadConfig} {s s' : Store} {t : Instant}

/-- Committing a transaction, unless there is nothing to write. -/
def Wrote (s : Store) (tx : Transaction) (s' : Store) : Prop :=
  (tx.isEmpty = true ∧ s' = s) ∨ (tx.isEmpty = false ∧ ∃ id, s.submit tx = .ok (id, s'))

namespace Wrote

variable {tx : Transaction} {k : DocumentKey} {v : Version} {u : Instant}
    (h : s.Wrote tx s')

include h

/-- A commit keeps the store sound. -/
theorem sound (hs : s.Sound) : s'.Sound := by
  rcases h with ⟨-, rfl⟩ | ⟨-, id, hsub⟩
  · exact hs
  · exact hs.submit hsub

/-- Earlier commits stay in the log. -/
theorem transaction? {id : TransactionId} {cm : Committed}
    (hc : s.transaction? id = some cm) :
    s'.transaction? id = some cm := by
  rcases h with ⟨-, rfl⟩ | ⟨-, i, hsub⟩
  · exact hc
  · exact transaction?_submit_of_some hsub hc

/-- Versions stay. -/
theorem grown (hv : v ∈ s.versionsOf k) : v ∈ s'.versionsOf k := by
  rcases h with ⟨-, rfl⟩ | ⟨-, id, hsub⟩
  · exact hv
  · rw [(submit_eq_ok hsub).2.2.2.1]
    exact List.mem_append_left _ hv

/-- New versions start at the commit. -/
theorem new (hv : v ∈ s'.versionsOf k) :
    v ∈ s.versionsOf k ∨ v.validFrom = tx.validTime := by
  rcases h with ⟨-, rfl⟩ | ⟨-, id, hsub⟩
  · exact .inl hv
  · exact (mem_versionsOf_submit hsub hv).imp_right And.left

/-- Before a commit everything is seen as it was. -/
theorem visible_of_lt (hu : u < tx.validTime) (k : DocumentKey) :
    s'.visible u k = s.visible u k := by
  rcases h with ⟨-, rfl⟩ | ⟨-, id, hsub⟩
  · rfl
  · exact visible_submit_of_lt hsub hu k

end Wrote

/-! ## What shows depends on what is visible -/

/-- Two stores tell the same about an object if the same documents around it show. -/
theorem Sound.sameAt {u : Instant} (hs : s.Sound) (hs' : s'.Sound) {r : Reference}
    (hobj : s.visible t (.fact (.object r)) = s'.visible u (.fact (.object r)))
    (hdecl : s.visible t (.fact (.declaration r)) = s'.visible u (.fact (.declaration r)))
    (hedges : ∀ e : EdgeKey, e.touches r = true →
      s.visible t (.fact (.edge e)) = s'.visible u (.fact (.edge e))) :
    (s.snapshot t).SameAt (s'.snapshot u) r where
  isObject := congrArg Option.isSome hobj
  declaration := congrArg (fun d => (d.bind Document.declaration?).map (·.level)) hdecl
  edges := by
    refine Table.ascending_ext (f := id) (s.pairwise_edges t r)
      (s'.pairwise_edges u r) fun e => ?_
    rw [hs.mem_edges_iff, hs'.mem_edges_iff]
    refine and_congr_right fun he => ?_
    rw [hedges e he]

/-- Two stores that show the same facts owe the same profiles. -/
theorem Sound.due_eq_of_facts {u : Instant} (hs : s.Sound) (hs' : s'.Sound)
    (hdepth : 1 ≤ c.maxDepth) (h : ∀ f, s.visible t (.fact f) = s'.visible u (.fact f))
    (r : Reference) : s.due levels c t r = s'.due levels c u r := by
  have hsame : ∀ x, (s.snapshot t).SameAt (s'.snapshot u) x := fun x =>
    hs.sameAt hs' (h _) (h _) fun e _ => h _
  refine hs.due_congr hs' hdepth (fun x _ => hsame x) ?_
  intro n x y _ _ _ hx
  rw [← (hsame x).isObject]
  exact hx

section Facts

variable (hs : s.Sound) (hs' : s'.Sound)
    (h : ∀ f, s'.visible t (.fact f) = s.visible t (.fact f))

include hs hs' h

/-- The same facts make the same hops. -/
theorem Sound.next_eq_of_facts (c : SpreadConfig) (o : Bool) :
    (s'.snapshot t).next c o = (s.snapshot t).next c o := by
  have hsame : ∀ x, (s'.snapshot t).SameAt (s.snapshot t) x := fun x =>
    hs'.sameAt hs (h _) (h _) fun e _ => h _
  funext r
  rw [Snapshot.next, Snapshot.next, Snapshot.hops, Snapshot.hops, (hsame r).edges]
  refine congrArg _ (List.filter_congr fun x _ => ?_)
  rw [(hsame x.node).isObject]

/-- What is within reach of a search follows from the facts. -/
theorem Sound.ball_eq_of_facts (c : SpreadConfig) (dirty : KeySet Reference) :
    s'.Ball c t dirty = s.Ball c t dirty := by
  funext r
  rw [Ball, Ball, hs.next_eq_of_facts hs' h]

/-- So does what a search looks at. -/
theorem Sound.looked_eq_of_facts (c : SpreadConfig) (dirty : KeySet Reference) :
    s'.Looked c t dirty = s.Looked c t dirty := by
  funext r
  rw [Looked, Looked, hs.next_eq_of_facts hs' h, hs.ball_eq_of_facts hs' h]

end Facts

/-! ## What settling leaves -/

/-- One write of a pass at an instant: the objects of `P` get what they are due from
    there up to their next version, and nothing else changes. -/
structure Settled (levels : LevelConfig) (c : SpreadConfig) (t : Instant)
    (P : Reference → Prop) (s s' : Store) : Prop where
  sound : s'.Sound
  facts : ∀ u k, k.isProfile = false → s'.visible u k = s.visible u k
  outside : ∀ u r, ¬ P r → s'.stored u r = s.stored u r
  before : ∀ u r, u < t → s'.stored u r = s.stored u r
  kept : ∀ u r, s.StartsWithin (.profile r) t u → s'.stored u r = s.stored u r
  settled : ∀ u r, t ≤ u → P r → ¬ s.StartsWithin (.profile r) t u →
    s'.stored u r = s.due levels c t r
  grown : ∀ k v, v ∈ s.versionsOf k → v ∈ s'.versionsOf k
  new : ∀ k v, v ∈ s'.versionsOf k → v ∈ s.versionsOf k ∨
    (v.validFrom = t ∧ k.isProfile = true)

/-- The stored level follows from the profile. -/
theorem stored_congr {r : Reference} {u v : Instant}
    (h : s'.visible u (.profile r) = s.visible v (.profile r)) : s'.stored u r =
      s.stored v r :=
  congrArg (fun d => d.bind Document.profile?) h

/-- **Writing what settling found** leaves what is due. -/
theorem Settling.settled (hs : s.Sound) {P : Reference → Prop} {ops : List Operation}
    (h : s.Settling levels c t P ops) (hw : s.Wrote ⟨t, ops⟩ s') :
    Settled levels c t P s s' := by
  have hprofile : ∀ k, k.isProfile = false → ¬ (⟨t, ops⟩ : Transaction).Writes k := by
    intro k hk hwrites
    obtain ⟨r, -, rfl⟩ := h.profiles k hwrites
    cases hk
  have hstored : ∀ {u r}, t ≤ u → ¬ s.StartsWithin (.profile r) t u →
      s.stored u r = s.stored t r := fun htu hno =>
    stored_congr (visible_eq_of_not_startsWithin htu hno)
  -- a pass that has nothing to write does not commit at all
  rcases hw with ⟨hempty, rfl⟩ | ⟨-, id, hsub⟩
  · -- nothing had to be written, so everything was due already
    rw [Transaction.isEmpty_iff] at hempty
    refine ⟨hs, fun _ _ _ => rfl, fun _ _ _ => rfl, fun _ _ _ => rfl, fun _ _ _ => rfl, ?_,
      fun _ _ hv => hv, fun _ _ hv => .inl hv⟩
    intro u r htu hr hno
    have hnone := (Transaction.lastWrite?_eq_none_iff ⟨t, ops⟩ (.profile r)).mpr (hempty _)
    rw [h.leaves r hr] at hnone
    rw [hstored htu hno]
    by_contra hne
    rw [if_neg hne] at hnone
    cases hnone
  · obtain ⟨-, -, -, hvers, -⟩ := submit_eq_ok hsub
    refine ⟨hs.submit hsub, ?_, ?_, ?_, ?_, ?_, ?_, ?_⟩
    · intro u k hk
      exact visible_submit_of_not_writes hsub (hprofile k hk) u
    · intro u r hr
      refine stored_congr (visible_submit_of_not_writes hsub (fun hwrites => ?_) u)
      obtain ⟨q, hq, he⟩ := h.profiles _ hwrites
      cases he
      exact hr hq
    · intro u r hu
      exact stored_congr (visible_submit_of_lt hsub hu _)
    · intro u r hwithin
      exact stored_congr (visible_submit_of_startsWithin hs hsub hwithin)
    · intro u r htu hr hno
      show (s'.visible u (.profile r)).bind Document.profile? = _
      rw [visible_submit hs hsub htu hno, h.leaves r hr]
      split
      · next heq => exact (hstored htu hno).trans heq
      · cases s.due levels c t r <;> rfl
    · intro k v hv
      rw [hvers]
      exact List.mem_append_left _ hv
    · intro k v hv
      rw [hvers, List.mem_append] at hv
      refine hv.imp_right fun hv => ?_
      obtain ⟨d, hd, rfl⟩ := List.mem_map.mp hv
      have hwrites : (⟨t, ops⟩ : Transaction).Writes k := by
        by_contra hno
        rw [(Transaction.writesTo_eq_nil_iff _ k).mpr hno] at hd
        cases hd
      obtain ⟨r, -, rfl⟩ := h.profiles k hwrites
      exact ⟨rfl, rfl⟩

namespace Settled

variable {P : Reference → Prop} (h : Settled levels c t P s s')

include h

/-- A pass does not change what is due. -/
theorem due_eq (hs : s.Sound) (hdepth : 1 ≤ c.maxDepth) (u : Instant) (r : Reference) :
    s'.due levels c u r = s.due levels c u r :=
  h.sound.due_eq_of_facts hs hdepth (fun f => h.facts u (.fact f) rfl) r

/-- A commit of profiles changes no reach. -/
theorem ball_eq (hs : s.Sound) (u : Instant) (dirty : KeySet Reference) :
    s'.Ball c u dirty = s.Ball c u dirty :=
  hs.ball_eq_of_facts h.sound (fun f => h.facts u (.fact f) rfl) c dirty

/-- Nor does it change what a search looks at. -/
theorem looked_eq (hs : s.Sound) (u : Instant) (dirty : KeySet Reference) :
    s'.Looked c u dirty = s.Looked c u dirty :=
  hs.looked_eq_of_facts h.sound (fun f => h.facts u (.fact f) rfl) c dirty

/-- Later on, the versions of a document start where they started before. -/
theorem startsWithin_iff {k : DocumentKey} {u v : Instant} (htu : t ≤ u) :
    s'.StartsWithin k u v ↔ s.StartsWithin k u v := by
  constructor
  · rintro ⟨w, hw, hlt, hle⟩
    rcases h.new k w hw with hold | ⟨hstart, -⟩
    · exact ⟨w, hold, hlt, hle⟩
    · exact absurd hlt (not_lt.mpr (hstart ▸ htu))
  · rintro ⟨w, hw, hlt, hle⟩
    exact ⟨w, h.grown k w hw, hlt, hle⟩

/-- At its own instant a pass leaves its objects what they are due. -/
theorem stored_self {r : Reference} (hr : P r) : s'.stored t r = s.due levels c t r := by
  refine h.settled t r (le_refl t) hr ?_
  rintro ⟨v, -, hlt, hle⟩
  exact absurd hlt (not_lt.mpr hle)

end Settled

end Store

/-! ## Writing -/

open Act (Runs)

/-- A pass writes as a submit does, unless there is nothing to write. -/
theorem Pass.leads_write_of_submit {τ : Type} {V : τ → World → Prop} {t : τ}
    {tx : Transaction}
    {Q : TransactionId → τ → Prop} {E : StorageError → τ → Prop} (c : SpreadConfig)
    (h : Leads V (World.submit tx) t Q fun e t' => E e t' ∧ t' = t) :
    Leads V (Pass.write c tx) t
      (fun r t' => (tx.isEmpty = true ∧ r = none ∧ t' = t) ∨
        (tx.isEmpty = false ∧ ∃ id, r = some id ∧ Q id t'))
      (fun _ t' => (∃ e, E e t') ∧ t' = t) := by
  rw [Pass.write]
  cases hempty : tx.isEmpty with
  | true => exact Ends.pure (.inl ⟨rfl, rfl, rfl⟩)
  | false =>
      refine Ends.bind (Ends.retry h c.retry) ?_
      rintro ⟨r, n⟩ t' hr
      cases r with
      | ok id => exact Ends.pure (.inr ⟨rfl, id, rfl, hr⟩)
      | error e =>
          obtain ⟨he, rfl⟩ := hr
          cases e <;> exact Ends.pure ⟨⟨_, he⟩, rfl⟩

/-- A pass writes, or leaves the scene; in fair weather only the store refuses. -/
theorem Pass.leads_write {sky : Weather} (c : SpreadConfig) (tx : Transaction) (g : Scene) :
    Leads (World.Shows sky) (Pass.write c tx) g
      (fun r g' => (tx.isEmpty = true ∧ r = none ∧ g' = g) ∨ (tx.isEmpty = false ∧
        ∃ id s, r = some id ∧ g.store.submit tx = .ok (id, s) ∧ g' = { g with store := s }))
      (fun _ g' => (sky.fair → ∃ e, g.store.submit tx = .error e) ∧ g' = g) := by
  refine (leads_write_of_submit (E := fun e _ => sky.fair → g.store.submit tx = .error e) c
    (leads_submit tx)).imp ?_ ?_
  · rintro r g' (hnone | ⟨hempty, id, hr, s, hsub, hg⟩)
    · exact .inl hnone
    · exact .inr ⟨hempty, id, s, hr, hsub, hg⟩
  · rintro _ g' ⟨⟨e, hfair⟩, rfl⟩
    exact ⟨fun h => ⟨e, hfair h⟩, rfl⟩

/-- A pass writes, or leaves the store. -/
theorem Pass.runs_write (c : SpreadConfig) (tx : Transaction) (s : Store) :
    Runs (Pass.write c tx) s (fun r s' => s.Wrote tx s' ∧ (tx.isEmpty = true → r = none))
      (· = s) := by
  refine Act.runs_of_leads fun topics => (leads_write c tx _).imp ?_ ?_
  · rintro r g (⟨hempty, rfl, rfl⟩ | ⟨hempty, id, s', rfl, hsub, rfl⟩)
    · exact ⟨.inl ⟨hempty, rfl⟩, fun _ => rfl⟩
    · refine ⟨.inr ⟨hempty, id, hsub⟩, fun h => ?_⟩
      cases hempty.symm.trans h
  · rintro e g ⟨-, rfl⟩
    rfl

namespace Pass

variable {levels : LevelConfig} {c : SpreadConfig} {s : Store} {t : Instant}

/-! ## The full pass -/

/-- A full pass at an instant would write nothing and tell nothing. -/
def Quiet (levels : LevelConfig) (c : SpreadConfig) (t : Instant) (s : Store) : Prop :=
  (findAll levels c t).Gives s ([], [])

/-- **A full pass is quiet exactly if every object has what it is due.** -/
theorem quiet_iff (hs : s.Sound) :
    Quiet levels c t s ↔ ∀ r, s.stored t r = s.due levels c t r := by
  obtain ⟨ops, deltas, hgives, -, hdeltas, hiff⟩ := hs.findAll_gives levels c t
  rw [← hiff]
  constructor
  · intro h
    exact congrArg Prod.fst (hgives.unique h)
  · intro h
    rw [h, hdeltas h] at hgives
    exact hgives

/-- What a full pass settles: objects that exist, and those that still have a profile. -/
def Known (s : Store) (t : Instant) (r : Reference) : Prop :=
  (s.snapshot t).isObject r = true ∨ (s.stored t r).isSome = true

/-- **A full pass** settles everything known; a quiet one leaves the store and tells
    nothing. -/
theorem runs_full (hs : s.Sound) :
    Runs (full levels c t) s
      (fun report s' => Store.Settled levels c t (Known s t) s s' ∧
        (Quiet levels c t s → s' = s ∧ report = .empty none t))
      (· = s) := by
  obtain ⟨ops, deltas, hgives, hsettling, -, -⟩ := hs.findAll_gives levels c t
  refine (Act.runs_read _ s).bind ?_
  rintro ⟨ops', deltas'⟩ s' ⟨hfound, rfl⟩
  obtain ⟨rfl, rfl⟩ := Prod.mk.inj (hfound.unique hgives)
  refine (runs_write c _ s').bind fun written s'' hwrote => ?_
  refine Act.runs_pure ⟨hsettling.settled hs hwrote.1, fun hquiet => ?_⟩
  obtain ⟨rfl, rfl⟩ := Prod.mk.inj (hfound.unique hquiet)
  obtain rfl := hwrote.2 rfl
  rcases hwrote.1 with ⟨-, rfl⟩ | ⟨hne, -⟩
  · exact ⟨rfl, rfl⟩
  · cases hne

end Pass

end ClearanceGraph
