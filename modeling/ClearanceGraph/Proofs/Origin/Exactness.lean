import ClearanceGraph.Proofs.Engine.Rebuilding
import ClearanceGraph.Proofs.Store.Query

/-! # Exactness — a plan writes what it changes, each fact once

    Asserted facts are put, dropped ones fall to others or go, and edges of removed
    objects go with them.  All of these append to one plan, whose list of changes is
    kept beside its steps.  Nothing is compared in the end: every step is taken only
    where it alters what shows, and of a fact that no step has written yet.

    The heart is `Plan.Exact`, which every part of a plan keeps, so the list of changes
    is the difference that the plan makes (`Plan.Exact.mem_changes_iff`).
    `Plan.Accounts` says on the way that every object which is deleted is known as
    removed, and `Call.plan_drawn` that all plans are made like this, whatever is done
    about orphaned edges. -/

namespace ClearanceGraph

/-! ## Steps that alter what shows -/

/-- The kind of a change from what showed to what shows; none if that is the same. -/
def ChangeKind.between? : Option Document → Option Document → Option ChangeKind
  | none, none => none
  | none, some _ => some .created
  | some _, none => some .retracted
  | some d, some d' => if d == d' then none else some .updated

/-- A step that alters the fact that it writes: a put where another content or none
    shows, or a delete where one shows. -/
inductive Operation.Alters (s : Store) (t : Instant) : Operation → Prop where
  | put {c : Content} : (∀ d, s.visible t (.fact c.fact) = some d →
      (d == .content c) = false) →
      Alters s t (.put (.content c))
  | delete {f : Fact} {d : Document} : s.visible t (.fact f) = some d →
      Alters s t (.delete (.fact f))

/-- What shows of a fact is a content, and agrees with itself. -/
theorem Store.Sound.beq_self_of_visible {s : Store} (hs : s.Sound) {t : Instant} {f : Fact}
    {d : Document} (h : s.visible t (.fact f) = some d) : (d == d) = true := by
  have hkey := hs.key_of_visible h
  cases d with
  | content c => exact Document.content_beq_self c
  | origin r => cases hkey
  | profile p => cases hkey
  | outbox e => cases hkey

/-- What shows does not change into itself. -/
theorem Store.Sound.between?_visible_self {s : Store} (hs : s.Sound) (t : Instant)
    (f : Fact) :
    ChangeKind.between? (s.visible t (.fact f)) (s.visible t (.fact f)) = none := by
  cases hv : s.visible t (.fact f) with
  | none => rfl
  | some d =>
      show (if d == d then none else _) = none
      rw [hs.beq_self_of_visible hv]
      rfl

/-- A step that alters a fact writes it, and the change that it makes is the one between
    what showed and what it leaves. -/
theorem Operation.Alters.changeOn {s : Store} {t : Instant} {op : Operation}
    (h : op.Alters s t) :
    op.isWrite = true ∧ ∃ f w k, op.key = .fact f ∧ op.writeTo? (.fact f) = some w ∧
      op.changeOn s t = some ⟨f, k⟩ ∧
      ChangeKind.between? (s.visible t (.fact f)) w = some k := by
  cases h with
  | @put c hnew =>
      have hkey : (Document.content c).key = .fact c.fact := rfl
      refine ⟨rfl, c.fact, some (.content c), _, rfl, ?_, rfl, ?_⟩
      · rw [Operation.writeTo?_put, if_pos hkey]
      · rw [hkey]
        cases hv : s.visible t (.fact c.fact) with
        | none => rfl
        | some d =>
            show (if d == .content c then none else _) = _
            rw [hnew d hv]
            rfl
  | @delete f d hd =>
      refine ⟨rfl, f, none, .retracted, rfl, ?_, rfl, ?_⟩
      · rw [Operation.writeTo?_delete, if_pos rfl]
      · rw [hd]
        rfl

/-- Whether another origin keeps a fact that an origin drops. -/
def Store.keptByOthers (s : Store) (o : OriginId) (f : Fact) : Bool :=
  (Plan.survivor? o (s.owners f)).isSome

/-- Others keep a fact if another origin owns it. -/
theorem Store.keptByOthers_iff {s : Store} {o : OriginId} {f : Fact} :
    s.keptByOthers o f = true ↔ ∃ r ∈ s.owners f, r.id ≠ o := by
  rw [keptByOthers, Option.isSome_iff_ne_none, Plan.survivor?, ne_eq, lastMax?_eq_none_iff,
    List.filter_eq_nil_iff]
  simp only [bne_iff_ne, not_forall, not_not, exists_prop]

namespace Plan

variable {s : Store} {t : Instant} {o : OriginId} {p q : Plan} {f : Fact}
  {asserted : Table Fact Content} {gone gone' : KeySet Reference}

/-! ## Exact plans -/

/-- What a plan leaves of a fact, at its own valid time. -/
def leaves (p : Plan) (s : Store) (f : Fact) : Option Document :=
  (p.transaction.lastWrite? (.fact f)).getD (s.visible p.validTime (.fact f))

/-- Every step of a plan alters a fact, no fact is written twice, and the changes are
    noted. -/
structure Exact (s : Store) (p : Plan) : Prop where
  alters : ∀ op ∈ p.transaction.operations, op.Alters s p.validTime
  distinct : (p.transaction.operations.map Operation.key).Nodup
  tallies : p.Tallies s

theorem exact_empty (s : Store) (t : Instant) : (Plan.empty t).Exact s :=
  ⟨fun _ h => absurd h List.not_mem_nil, List.nodup_nil, rfl⟩

namespace Exact

/-- One more step, on a fact that was not written yet. -/
theorem push {op : Operation} {k : ChangeKind} (h : p.Exact s)
    (hop : op.Alters s p.validTime)
    (hnew : ¬ p.transaction.Writes op.key) (hk : op.changeOn s p.validTime = some ⟨f, k⟩) :
    ((p.push op).record f k).Exact s := by
  refine ⟨fun op' hop' => ?_, ?_, h.tallies.push hk⟩
  · rcases List.mem_append.mp hop' with hop' | hop'
    · exact h.alters op' hop'
    · exact List.mem_singleton.mp hop' ▸ hop
  · show ((p.transaction.operations ++ [op]).map Operation.key).Nodup
    rw [List.map_append, List.nodup_append]
    refine ⟨h.distinct, List.pairwise_singleton _ _, ?_⟩
    rintro l hl l' hl' rfl
    obtain ⟨op', hop', hkey⟩ := List.mem_map.mp hl
    obtain rfl := List.mem_singleton.mp hl'
    exact hnew ⟨op', hop', (h.alters op' hop').changeOn.1, hkey⟩

/-- A key that is written is written by its own step only. -/
private theorem lastWrite?_of_mem (h : p.Exact s) {op : Operation}
    (hop : op ∈ p.transaction.operations) {k : DocumentKey} {w : Option Document}
    (hw : op.writeTo? k = some w) : p.transaction.lastWrite? k = some w := by
  obtain ⟨before, after, hsplit⟩ := List.append_of_mem hop
  have hdistinct := h.distinct
  rw [hsplit, List.map_append, List.map_cons, List.nodup_append] at hdistinct
  have hkey : op.key = k := (Operation.key_of_writeTo? hw).2
  have hafter : after.filterMap (Operation.writeTo? k) = [] := by
    refine List.filterMap_eq_nil_iff.mpr fun op' hop' => ?_
    rw [Option.eq_none_iff_forall_not_mem]
    intro w' hw'
    refine (List.nodup_cons.mp hdistinct.2.1).1 (List.mem_map.mpr ⟨op', hop', ?_⟩)
    rw [(Operation.key_of_writeTo? hw').2, hkey]
  rw [Transaction.lastWrite?, Transaction.writesTo, hsplit, List.filterMap_append,
    List.filterMap_cons, hw, hafter, List.getLast?_concat]

/-- **The changes of an exact plan** are the differences between what shows and what the
    plan leaves, fact by fact. -/
theorem mem_changes_iff (h : p.Exact s) (hs : s.Sound) {k : ChangeKind} :
    ⟨f, k⟩ ∈ p.changes ↔
      ChangeKind.between? (s.visible p.validTime (.fact f)) (p.leaves s f) = some k := by
  rw [h.tallies, List.mem_filterMap, leaves]
  constructor
  · rintro ⟨op, hop, hchange⟩
    obtain ⟨-, f', w, k', -, hw, hchange', hbetween⟩ := (h.alters op hop).changeOn
    cases hchange'.symm.trans hchange
    rw [h.lastWrite?_of_mem hop hw]
    exact hbetween
  · intro hbetween
    cases hlast : p.transaction.lastWrite? (.fact f) with
    | none =>
        rw [hlast, Option.getD_none, hs.between?_visible_self] at hbetween
        cases hbetween
    | some w =>
        obtain ⟨op, hop, hw⟩ := List.mem_filterMap.mp (List.mem_of_getLast? hlast)
        obtain ⟨-, f', w', k', hkey, hw', hchange, hbetween'⟩ := (h.alters op hop).changeOn
        cases hkey.symm.trans (Operation.key_of_writeTo? hw).2
        obtain rfl := Option.some.inj (hw'.symm.trans hw)
        rw [hlast, Option.getD_some, hbetween'] at hbetween
        obtain rfl := Option.some.inj hbetween
        exact ⟨op, hop, hchange⟩

/-- No fact is among the changes twice. -/
theorem nodup_changes (h : p.Exact s) : (p.changes.map (·.fact)).Nodup := by
  rw [h.tallies, List.Nodup, List.pairwise_map, List.pairwise_filterMap]
  have hdistinct := h.distinct
  rw [List.Nodup, List.pairwise_map] at hdistinct
  refine hdistinct.imp_of_mem fun {a b} ha hb hab x hx y hy hxy => hab ?_
  obtain ⟨-, f, w, k, hkey, -, hchange, -⟩ := (h.alters a ha).changeOn
  obtain ⟨-, f', w', k', hkey', -, hchange', -⟩ := (h.alters b hb).changeOn
  obtain rfl := Option.some.inj (hchange.symm.trans hx)
  obtain rfl := Option.some.inj (hchange'.symm.trans hy)
  rw [hkey, hkey']
  exact congrArg DocumentKey.fact hxy

/-- With the ledger no key is written twice either. -/
theorem nodup_writes (h : q.Exact s) (hp : q.Closes o asserted p) :
    ((p.transaction.operations.filter Operation.isWrite).map Operation.key).Nodup := by
  have hwrites : q.transaction.operations.filter Operation.isWrite =
    q.transaction.operations :=
    List.filter_eq_self.mpr fun op hop => (h.alters op hop).changeOn.1
  have hledger : ∀ a b : Operation, a.isWrite = false → b.isWrite = true →
    b.key = .origin o →
      ((((q.transaction.operations ++ [a]) ++ [b]).filter Operation.isWrite).map
        Operation.key).Nodup := by
    intro a b ha hb hkey
    rw [List.filter_append, List.filter_append, hwrites,
      List.filter_cons_of_neg (by simp [ha]),
      List.filter_cons_of_pos hb, List.filter_nil, List.append_nil, List.map_append,
        List.map_cons,
      List.map_nil, hkey, List.nodup_append]
    refine ⟨h.distinct, List.pairwise_singleton _ _, ?_⟩
    rintro k hk k' hk' rfl
    -- the steps of the plan are on facts
    obtain ⟨op, hop, hop'⟩ := List.mem_map.mp hk
    obtain ⟨-, f, -, -, hfact, -⟩ := (h.alters op hop).changeOn
    cases (hop'.symm.trans hfact).symm.trans (List.mem_singleton.mp hk')
  cases hp with
  | record previous hid _ => exact hledger _ _ rfl rfl (congrArg DocumentKey.origin hid)
  | ended hid => exact hledger _ _ rfl rfl (congrArg DocumentKey.origin hid)

end Exact

/-- Every object that a plan deletes is known as removed. -/
def Accounts (p : Plan) (gone : KeySet Reference) : Prop :=
  ∀ r, p.transaction.lastWrite? (.fact (.object r)) = some none → gone.contains r = true

theorem accounts_empty (t : Instant) : (Plan.empty t).Accounts Table.empty := by
  intro r h
  cases h

/-- A step on top of a plan deletes nothing but what it deletes itself. -/
theorem Tops.accounts {w : Option (Option Document)} (htop : p.Tops q f w)
    (h : p.Accounts gone) (hw : w ≠ some none) : q.Accounts gone := by
  intro r hr
  by_cases hf : DocumentKey.fact (.object r) = .fact f
  · cases hf
    rw [htop.top] at hr
    cases w with
    | none => exact h r hr
    | some d => exact absurd hr hw
  · rw [htop.others _ hf] at hr
    exact h r hr

/-- What tops a plan writes one fact more at most. -/
theorem Tops.writes {w : Option (Option Document)} (htop : p.Tops q f w) {k : DocumentKey}
    (hk : q.transaction.Writes k) : p.transaction.Writes k ∨ k = .fact f := by
  refine or_iff_not_imp_right.mpr fun hne => ?_
  by_contra hno
  have hnone := (Transaction.lastWrite?_eq_none_iff _ _).mpr hno
  rw [← htop.others k hne] at hnone
  exact (Transaction.lastWrite?_eq_none_iff _ _).mp hnone hk

/-- A plan knows the keys that it writes. -/
theorem writes_iff {k : DocumentKey} : p.writes k = true ↔ p.transaction.Writes k := by
  simp only [writes, List.any_eq_true, Bool.and_eq_true, beq_iff_eq, Transaction.Writes]

/-! ## The making of a plan -/

/-- What holds of a plan while it is made: it is exact, it accounts for the objects that
    are removed, and it has noted which facts are shared. -/
structure Tidy (s : Store) (gone : KeySet Reference) (shared : List Fact) (p : Plan) :
    Prop where
  exact : p.Exact s
  accounts : p.Accounts gone
  shared : p.shared = shared

theorem tidy_empty (s : Store) (t : Instant) : (Plan.empty t).Tidy s Table.empty [] :=
  ⟨exact_empty s t, accounts_empty t, rfl⟩

variable {fs shared : List Fact}

/-- Putting a content takes no step, or one that alters its fact. -/
private theorem putIfChanged_cases {c : Content} (h : (p.putIfChanged c.fact c).Gives s q) :
    q = p ∨ ∃ k, q = (p.push (.put (.content c))).record c.fact k ∧
      (Operation.put (.content c)).Alters s p.validTime ∧
      (Operation.put (.content c)).changeOn s p.validTime = some ⟨c.fact, k⟩ := by
  obtain ⟨current, hcurrent, h⟩ := h.of_bind
  have hvisible : s.visible p.validTime (.fact c.fact) = current :=
    (Reading.gives_get _ _ s).unique hcurrent
  have hchange : ∀ k, (if current.isSome then ChangeKind.updated else .created) = k →
      (Operation.put (.content c)).changeOn s p.validTime = some ⟨c.fact, k⟩ := by
    rintro k rfl
    rw [← hvisible]
    rfl
  -- what is not there is created; what differs is updated
  cases current with
  | none =>
      obtain rfl := h.unique (Reading.gives_pure s _)
      refine .inr ⟨_, rfl, .put fun d hd => ?_, hchange _ rfl⟩
      cases hvisible.symm.trans hd
  | some d =>
      dsimp only at h
      split at h
      · exact .inl (h.unique (Reading.gives_pure s _))
      · next hne =>
        obtain rfl := h.unique (Reading.gives_pure s _)
        refine .inr ⟨_, rfl, .put fun d' hd' => ?_, hchange _ rfl⟩
        obtain rfl := Option.some.inj (hvisible.symm.trans hd')
        exact Bool.eq_false_iff.mpr hne

/-- A put of a fact that was not written yet keeps a plan tidy. -/
theorem putIfChanged_tidy {c : Content} (h : (p.putIfChanged c.fact c).Gives s q)
    (hp : p.Tidy s gone shared) (hnew : ¬ p.transaction.Writes (.fact c.fact)) :
    q.Tidy s gone shared := by
  have haccounts : q.Accounts gone :=
    (putIfChanged_gives h).accounts hp.accounts (s.putting_ne_delete _ c)
  rcases putIfChanged_cases h with rfl | ⟨k, rfl, halters, hk⟩
  · exact hp
  · exact ⟨hp.exact.push halters hnew hk, haccounts, hp.shared⟩

/-- **Puts** of different facts that were not written yet. -/
theorem putAll_tidy (es : List (Fact × Content)) :
    ∀ {p : Plan}, (∀ e ∈ es, e.2.fact = e.1) → (es.map (·.1)).Nodup →
      (∀ e ∈ es, ¬ p.transaction.Writes (.fact e.1)) → (putAll es p).Gives s q →
      p.Tidy s gone shared → q.Tidy s gone shared := by
  induction es with
  | nil =>
      intro p _ _ _ h hp
      obtain rfl := h.unique (Reading.gives_pure s _)
      exact hp
  | cons e es ih =>
      obtain ⟨f, c⟩ := e
      intro p hfiled hnodup hnew h hp
      obtain rfl : c.fact = f := hfiled _ List.mem_cons_self
      obtain ⟨p', hp', h⟩ := h.of_bind
      obtain ⟨hne, hrest⟩ := List.nodup_cons.mp hnodup
      refine ih (fun e he => hfiled e (List.mem_cons_of_mem _ he)) hrest
        (fun e he hw => ?_) h (putIfChanged_tidy hp' hp (hnew _ List.mem_cons_self))
      rcases (putIfChanged_gives hp').writes hw with hw | hk
      · exact hnew e (List.mem_cons_of_mem _ he) hw
      · exact hne (List.mem_map.mpr ⟨e, he, DocumentKey.fact.inj hk⟩)

/-- **A dropped fact** is shared if another origin keeps it; else it goes, and an object
    that goes is removed. -/
theorem dropFact_tidy (hfiled : ∀ r ∈ s.owners f, ∀ c, r.content? f = some c → c.fact = f)
    (h : (dropFact o f p gone).Gives s (q, gone')) (hp : p.Tidy s gone shared)
    (hnew : ¬ p.transaction.Writes (.fact f)) :
    q.Tidy s gone' (shared ++ [f].filter (s.keptByOthers o)) := by
  obtain ⟨rs, hrs, h⟩ := h.of_bind
  obtain rfl := hrs.unique (s.owners_gives f)
  have hkept : (survivor? o (s.owners f)).isSome = true →
      shared ++ [f].filter (s.keptByOthers o) = shared ++ [f] := by
    intro hsome
    have hkeeps : s.keptByOthers o f = true := hsome
    rw [List.filter_cons_of_pos hkeeps, List.filter_nil]
  have halone : survivor? o (s.owners f) = none →
      shared ++ [f].filter (s.keptByOthers o) = shared := by
    intro hnone
    rw [List.filter_cons_of_neg
      (by rw [Store.keptByOthers, hnone]; exact Bool.false_ne_true),
      List.filter_nil, List.append_nil]
  cases hsurv : survivor? o (s.owners f) with
  | some r =>
      rw [hkept (by rw [hsurv]; rfl)]
      rw [hsurv] at h
      have hshare : (p.share f).Tidy s gone (shared ++ [f]) :=
        ⟨⟨hp.exact.alters, hp.exact.distinct, hp.exact.tallies⟩, hp.accounts,
          congrArg (· ++ [f]) hp.shared⟩
      dsimp only at h
      cases hc : r.content? f with
      | none =>
          rw [hc] at h
          obtain ⟨rfl, rfl⟩ := Prod.mk.inj (h.unique (Reading.gives_pure s _))
          exact hshare
      | some c =>
          rw [hc] at h
          obtain rfl := hfiled r (List.mem_filter.mp (mem_of_lastMax? hsurv)).1 c hc
          obtain ⟨p', hp', h⟩ := h.of_bind
          obtain ⟨rfl, rfl⟩ := Prod.mk.inj (h.unique (Reading.gives_pure s _))
          exact putIfChanged_tidy hp' hshare hnew
  | none =>
      rw [halone hsurv]
      rw [hsurv] at h
      obtain ⟨current, hcurrent, h⟩ := h.of_bind
      have hvisible := hcurrent.unique (Reading.gives_get _ _ s)
      cases current with
      | none =>
          obtain ⟨rfl, rfl⟩ := Prod.mk.inj (h.unique (Reading.gives_pure s _))
          exact hp
      | some d =>
          have hexact : ((p.push (.delete (.fact f))).record f .retracted).Exact s :=
            hp.exact.push (.delete hvisible.symm) hnew rfl
          -- an object that is deleted becomes known as removed
          have hdeleted : ∀ r, (p.transaction.push (.delete (.fact f))).lastWrite?
              (.fact (.object r)) = some none → gone.contains r = true ∨ f = .object r := by
            intro r hr
            rw [Transaction.lastWrite?_push, Operation.writeTo?_delete] at hr
            split at hr
            · next hf => exact .inr (DocumentKey.fact.inj hf)
            · exact .inl (hp.accounts r hr)
          cases f with
          | object q' =>
              obtain ⟨rfl, rfl⟩ := Prod.mk.inj (h.unique (Reading.gives_pure s _))
              refine ⟨hexact, fun r hr => ?_, hp.shared⟩
              rw [KeySet.contains_add_iff]
              rcases hdeleted r hr with hold | heq
              · exact .inr hold
              · cases heq
                exact .inl rfl
          | edge e =>
              obtain ⟨rfl, rfl⟩ := Prod.mk.inj (h.unique (Reading.gives_pure s _))
              exact ⟨hexact, fun r hr => (hdeleted r hr).resolve_right (by simp), hp.shared⟩
          | declaration r' =>
              obtain ⟨rfl, rfl⟩ := Prod.mk.inj (h.unique (Reading.gives_pure s _))
              exact ⟨hexact, fun r hr => (hdeleted r hr).resolve_right (by simp), hp.shared⟩

/-- **Dropping** different facts that were not written yet. -/
theorem dropAll_tidy
    (hfiled : ∀ f, ∀ r ∈ s.owners f, ∀ c, r.content? f = some c → c.fact = f)
    (fs : List Fact) : ∀ {p : Plan} {gone : KeySet Reference} {shared : List Fact},
      fs.Nodup →
      (∀ f ∈ fs, ¬ p.transaction.Writes (.fact f)) →
      (dropAll o fs p gone).Gives s (q, gone') →
      p.Tidy s gone shared → q.Tidy s gone' (shared ++ fs.filter (s.keptByOthers o)) := by
  induction fs with
  | nil =>
      intro p gone shared _ _ h hp
      obtain ⟨rfl, rfl⟩ := Prod.mk.inj (h.unique (Reading.gives_pure s _))
      rwa [List.filter_nil, List.append_nil]
  | cons f fs ih =>
      intro p gone shared hnodup hnew h hp
      obtain ⟨⟨p', gone₁⟩, hp', h⟩ := h.of_bind
      obtain ⟨hne, hrest⟩ := List.nodup_cons.mp hnodup
      have hone := dropFact_tidy (hfiled f) hp' hp (hnew f List.mem_cons_self)
      have hall := ih hrest (fun g hg hw => ?_) h hone
      · rwa [List.append_assoc, ← List.filter_append, List.singleton_append] at hall
      · rcases (dropFact_gives (hfiled f) hp').writes hw with hw | hk
        · exact hnew g (List.mem_cons_of_mem _ hg) hw
        · cases hk
          exact hne hg

/-! ## Edges of removed objects -/

/-- What one removal of an edge that shows keeps, removing the edges of objects keeps. -/
theorem removeEdges_induction {P : Plan → Prop} (hs : s.Sound)
    (hstep : ∀ {p : Plan} {e : Edge} {d : Document}, p.validTime = t →
      s.visible t (.fact (.edge e.key)) = some d → P p → P (removeEdge asserted p e))
    (rs : List Reference) : ∀ {p : Plan}, p.validTime = t →
    (removeEdges asserted rs p).Gives s q →
      P p → P q := by
  have hfold : ∀ (es : List Edge),
    (∀ e ∈ es, ∃ d, s.visible t (.fact (.edge e.key)) = some d) →
      ∀ {p : Plan}, p.validTime = t → P p → P (es.foldl (removeEdge asserted) p) ∧
        (es.foldl (removeEdge asserted) p).validTime = t := by
    intro es
    induction es with
    | nil => exact fun _ _ ht hp => ⟨hp, ht⟩
    | cons e es ih =>
        intro hes p ht hp
        obtain ⟨d, hd⟩ := hes e List.mem_cons_self
        have hvalid : (removeEdge asserted p e).validTime = t :=
          ((removeEdge_steps (F := fun _ _ => True) (s := s) asserted p
            e).validTime).trans ht
        exact ih (fun e' he' => hes e' (List.mem_cons_of_mem _ he')) hvalid (hstep ht hd hp)
  induction rs with
  | nil =>
      intro p _ h hp
      obtain rfl := h.unique (Reading.gives_pure s _)
      exact hp
  | cons r rs ih =>
      intro p ht h hp
      obtain ⟨ds, hds, h⟩ := h.of_bind
      obtain rfl := hds.unique (Reading.gives_query _ _ s)
      -- what is found at an object are edges that show
      have hes : ∀ e ∈ (s.query p.validTime (.touching r)).filterMap Document.edge?,
          ∃ d, s.visible t (.fact (.edge e.key)) = some d := by
        intro e he
        obtain ⟨d, hd, hedge⟩ := List.mem_filterMap.mp he
        obtain ⟨k, -, hk⟩ := hs.mem_touching_iff.mp hd
        have hkey := hs.key_of_visible hk
        rcases d with (x | x | x) | x | x | x <;> simp [Document.edge?] at hedge
        subst hedge
        rw [ht, ← hkey] at hk
        exact ⟨_, hk⟩
      obtain ⟨hfolded, hvalid⟩ := hfold _ hes ht hp
      exact ih hvalid h hfolded

/-- An edge that shows and was not written is removed exactly. -/
private theorem removeEdge_tidy {e : Edge} {d : Document}
    (hd : s.visible p.validTime (.fact (.edge e.key)) = some d)
    (hp : p.Tidy s gone shared) :
    (removeEdge asserted p e).Tidy s gone shared := by
  rw [removeEdge]
  split
  · exact hp
  · next hcond =>
    rw [Bool.or_eq_true, not_or] at hcond
    have hnew : ¬ p.transaction.Writes (.fact (.edge e.key)) := fun hw =>
      hcond.2 (writes_iff.mpr hw)
    refine ⟨hp.exact.push (.delete hd) hnew rfl, fun r hr => ?_, hp.shared⟩
    change (p.transaction.push _).lastWrite? _ = _ at hr
    rw [Transaction.lastWrite?_push, Operation.writeTo?_delete, if_neg (by simp)] at hr
    exact hp.accounts r hr

/-- Edges of removed objects go exactly, unless the run asserts them. -/
theorem removeEdges_tidy (hs : s.Sound) (rs : List Reference)
    (h : (removeEdges asserted rs p).Gives s q) (hp : p.Tidy s gone shared) :
    q.Tidy s gone shared :=
  removeEdges_induction (P := Tidy s gone shared) hs
    (fun ht hd hp => removeEdge_tidy (ht.symm ▸ hd) hp) rs rfl h hp

/-- Removing edges leaves all else, and the edges that the run asserts. -/
theorem removeEdges_keeps (hs : s.Sound) (rs : List Reference)
    (h : (removeEdges asserted rs p).Gives s q) {k : DocumentKey}
    (hk : ∀ e, k = .fact (.edge e) → asserted.contains (.edge e) = true) :
    q.transaction.lastWrite? k = p.transaction.lastWrite? k := by
  refine removeEdges_induction (P := fun x => x.transaction.lastWrite? k =
    p.transaction.lastWrite? k) hs (fun {p' e d} _ _ hp => ?_) rs rfl h rfl
  rw [removeEdge]
  split
  · exact hp
  · next hcond =>
    rw [Bool.or_eq_true, not_or] at hcond
    show (p'.transaction.push _).lastWrite? _ = _
    rw [Transaction.lastWrite?_push, Operation.writeTo?_delete,
      if_neg fun heq => hcond.1 (hk e.key heq.symm)]
    exact hp

/-! ## Retracting -/

section Retract

variable {policy : CascadePolicy} (hs : s.Sound)
  (hfiled : ∀ f, ∀ r ∈ s.owners f, ∀ c, r.content? f = some c → c.fact = f)
  (h : (retract policy o fs asserted p).Gives s (q, gone))

include hs hfiled h

/-- **Retracting** facts that were not written yet, whatever is done about orphaned
    edges. -/
theorem retract_tidy (hnodup : fs.Nodup) (hnew : ∀ f ∈ fs, ¬ p.transaction.Writes (.fact f))
    (hp : p.Tidy s Table.empty shared) :
    q.Tidy s gone (shared ++ fs.filter (s.keptByOthers o)) := by
  obtain ⟨⟨p', gone'⟩, hp', h⟩ := h.of_bind
  have hdrop := dropAll_tidy hfiled fs hnodup hnew hp' hp
  cases policy with
  | retain =>
      obtain ⟨rfl, rfl⟩ := Prod.mk.inj (h.unique (Reading.gives_pure s _))
      exact hdrop
  | retractOrphanedEdges =>
      obtain ⟨p'', hp'', h⟩ := h.of_bind
      obtain ⟨rfl, rfl⟩ := Prod.mk.inj (h.unique (Reading.gives_pure s _))
      exact removeEdges_tidy hs _ hp'' hdrop

/-- What is neither dropped nor an edge that could be orphaned stays as it was planned. -/
theorem retract_keeps (hnodup : fs.Nodup) {f : Fact} (hf : f ∉ fs)
    (hedge : ∀ e, f = .edge e → asserted.contains (.edge e) = true) :
    q.transaction.lastWrite? (.fact f) = p.transaction.lastWrite? (.fact f) := by
  obtain ⟨⟨p', gone'⟩, hp', h⟩ := h.of_bind
  have hdrop : p'.transaction.lastWrite? (.fact f) = p.transaction.lastWrite?
      (.fact f) := by
    refine (dropAll_gives fs hfiled hnodup hp').others _ fun g hg heq => hf ?_
    cases heq
    exact hg
  cases policy with
  | retain =>
      obtain ⟨rfl, -⟩ := Prod.mk.inj (h.unique (Reading.gives_pure s _))
      exact hdrop
  | retractOrphanedEdges =>
      obtain ⟨p'', hp'', h⟩ := h.of_bind
      obtain ⟨rfl, -⟩ := Prod.mk.inj (h.unique (Reading.gives_pure s _))
      rw [removeEdges_keeps hs _ hp'' fun e he => hedge e (DocumentKey.fact.inj he)]
      exact hdrop

end Retract

/-! ## Closing -/

/-- Writing the ledger leaves what a plan does to facts. -/
theorem Closes.files (h : q.Closes o asserted p) :
    p.changes = q.changes ∧ p.shared = q.shared ∧ ∃ x, Store.Files q o x p.transaction := by
  cases h with
  | @record previous r hid _ =>
      exact ⟨rfl, rfl, some r, hid ▸ Store.files_setCurrent q previous r⟩
  | @ended r hid => exact ⟨rfl, rfl, none, hid ▸ Store.files_retire q r⟩

end Plan

/-! ## Plans of calls -/

namespace Call

variable {s : Store} {p q : Plan} {policy : CascadePolicy} {c : Call}
    {gone : KeySet Reference}

/-- The plan of a call before the ledger is written: what is asserted is put, and what
    the origin asserted before and does not any more is retracted. -/
def Draws (policy : CascadePolicy) (c : Call) (s : Store) (q : Plan)
    (gone : KeySet Reference) :
    Prop :=
  ∃ p, (Plan.putAll c.asserted.entries (.empty c.validTime)).Gives s p ∧
    (Plan.retract policy c.origin (Plan.droppedBy (s.lastRecord? c.origin) c.asserted)
      c.asserted p).Gives s (q, gone)

/-- **How the plan of a call is drawn**, and closed with the ledger. -/
theorem plan_drawn (hs : s.Sound) (h : (c.plan policy).Gives s (some p)) :
    ∃ q gone, c.Draws policy s q gone ∧ q.Closes c.origin c.asserted p := by
  cases c with
  | reconcile r =>
      obtain ⟨previous, p₁, q, gone, hprevious, hp₁, hq, ⟨hnone, -⟩ | hp⟩ :=
        Plan.ofRun_parts h
      · cases hnone
      · obtain rfl := hprevious.unique (hs.previous_gives_last r.origin)
        obtain rfl := Option.some.inj hp
        exact ⟨q, gone, ⟨p₁, hp₁, hq⟩, .record _ rfl rfl⟩
  | retire o t =>
      obtain ⟨previous, hprevious, ⟨hnone, -⟩ | ⟨l, q, gone, hl, hq, hp⟩⟩ :=
        Plan.ofRetirement_parts h
      · cases hnone
      · obtain rfl := hprevious.unique (hs.previous_gives_last o)
        obtain rfl := Option.some.inj hp
        exact ⟨q, gone, ⟨.empty t, Reading.gives_pure s _, hq⟩,
          .ended (hs.id_of_lastRecord? hl)⟩

/-- Where there is nothing to do, nothing was dropped. -/
theorem droppedBy_eq_nil (hs : s.Sound) (h : (c.plan policy).Gives s none) :
    Plan.droppedBy (s.lastRecord? c.origin) c.asserted = [] := by
  cases c with
  | reconcile r =>
      obtain ⟨previous, _, _, _, hprevious, -, -, ⟨-, -, hsame⟩ | hp⟩ := Plan.ofRun_parts h
      · obtain rfl := hprevious.unique (hs.previous_gives_last r.origin)
        exact Plan.droppedBy_eq_nil hsame
      · cases hp
  | retire o t =>
      obtain ⟨previous, hprevious, ⟨-, hnone⟩ | ⟨l, q, gone, -, -, hp⟩⟩ :=
        Plan.ofRetirement_parts h
      · obtain rfl := hprevious.unique (hs.previous_gives_last o)
        show Plan.droppedBy (s.lastRecord? o) _ = []
        rw [hnone]
        rfl
      · cases hp

/-- **A call that succeeds** found nothing to do, or committed its plan. -/
theorem perform_ok {levels : LevelConfig} {config : ReconcileConfig} {w w' : World}
    {x : Outcome} (hw : w.Alone s) (h : c.perform levels config w = (.ok x, w')) :
    ((c.plan config.cascade).Gives s none ∧ x = .unchanged c.origin c.validTime ∧
        w'.backend.store = s) ∨
      ∃ p id, (c.plan config.cascade).Gives s (some p) ∧
        s.submit p.transaction = .ok (id, w'.backend.store) ∧
        x = ⟨some id, c.origin, p.validTime, p.changes, p.shared⟩ := by
  obtain ⟨g, hg, hres⟩ := c.leads_perform levels config w hw.shows
  rw [h] at hg hres
  rw [hg.store]
  rcases hres with ⟨hplan, hx, rfl⟩ | ⟨p, id, s', hplan, hsub, hx, rfl⟩
  · exact .inl ⟨hplan, hx, rfl⟩
  · exact .inr ⟨p, id, hplan, hsub, hx⟩

namespace Draws

variable (h : c.Draws policy s q gone)

include h

theorem validTime : q.validTime = c.validTime := by
  obtain ⟨p, hp, hq⟩ := h
  have hputs :=
    (Plan.putAll_steps (F := fun _ _ => True) _ (fun _ _ => trivial) hp).validTime
  have hretract :=
    (Plan.retract_steps (F := fun _ _ => True) (fun _ _ _ _ _ => trivial) hq).validTime
  exact hretract.trans hputs

section Filed

variable (hs : s.Sound)
  (hfiled : ∀ f, ∀ r ∈ s.owners f, ∀ k, r.content? f = some k → k.fact = f)

include hs hfiled

/-- **A drawn plan** is exact, accounts for removed objects, and shares what others
    keep. -/
theorem tidy : q.Tidy s gone
    ((Plan.droppedBy (s.lastRecord? c.origin) c.asserted).filter
      (s.keptByOthers c.origin)) := by
  obtain ⟨p, hp, hq⟩ := h
  have hentries : ∀ e ∈ c.asserted.entries, c.asserted.get? e.1 = some e.2 := fun e he =>
    c.asserted.mem_entries_iff.mp he
  have hown : ∀ e ∈ c.asserted.entries, e.2.fact = e.1 := fun e he =>
    c.filed_asserted (hentries e he)
  have hputs := Plan.putAll_gives _ hentries hown c.asserted.nodup_keys hp
  have htidy : p.Tidy s Table.empty [] := by
    refine Plan.putAll_tidy _ hown c.asserted.nodup_keys (fun e _ hw => ?_) hp
      (Plan.tidy_empty s _)
    obtain ⟨op, hop, -⟩ := hw
    cases hop
  refine Plan.retract_tidy hs hfiled hq (Plan.nodup_droppedBy _ _) (fun f hf hw => ?_) htidy
  -- a dropped fact is not asserted, so nothing was put to it
  obtain ⟨-, -, -, hnone⟩ := Plan.mem_droppedBy.mp hf
  refine (Transaction.lastWrite?_eq_none_iff _ _).mp (hputs.others _ fun g hg heq => ?_) hw
  cases heq
  obtain ⟨k, hk⟩ := c.asserted.mem_keys_iff.mp hg
  cases hk.symm.trans hnone

/-- A drawn plan leaves asserted facts their contents. -/
theorem asserts {f : Fact} {k : Content} (hk : c.asserted.get? f = some k) :
    q.transaction.lastWrite? (.fact f) = s.putting c.validTime k := by
  obtain ⟨p, hp, hq⟩ := h
  have hputs := Plan.putAll_gives _ (fun e he => c.asserted.mem_entries_iff.mp he)
    (fun e he => c.filed_asserted (c.asserted.mem_entries_iff.mp he))
      c.asserted.nodup_keys hp
  rw [Plan.retract_keeps hs hfiled hq (Plan.nodup_droppedBy _ _) (fun hf => ?_)
    fun e he => ?_, hputs.top f (c.asserted.mem_keys_iff.mpr ⟨k, hk⟩), hk]
  · exact Option.or_none
  · obtain ⟨-, -, -, hnone⟩ := Plan.mem_droppedBy.mp hf
    cases hk.symm.trans hnone
  · exact c.asserted.contains_iff.mpr ⟨k, he ▸ hk⟩

end Filed

/-- What a drawn plan leaves of a fact shows after its commit. -/
theorem visible_submit (hs : s.Sound) {tx : Transaction} {x : Option OriginRecord}
    (hfiles : Store.Files q c.origin x tx) {id : TransactionId} {s' : Store}
    (hsub : s.submit tx = .ok (id, s')) (f : Fact) :
    s'.visible c.validTime (.fact f) = q.leaves s f := by
  rw [Plan.leaves, h.validTime, ← hfiles.lastWrite?_fact, ← h.validTime, ← hfiles.validTime]
  exact Store.visible_submit_self hs hsub _

end Draws

end Call

end ClearanceGraph
