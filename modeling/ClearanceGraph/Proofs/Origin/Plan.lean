import ClearanceGraph.Origin.Plan
import ClearanceGraph.Proofs.Graph.Agreement
import ClearanceGraph.Proofs.Origin.Ledger
import ClearanceGraph.Proofs.Store.Filing

/-! # Plans — what a plan leaves of every fact

    A plan is built step by step, and of the steps on one fact the last one
    counts.  `Store.putting` and `Store.dropping` say what the plan leaves of a
    fact that is asserted and of one that is dropped; of any other fact it leaves
    nothing.  `Plan.Drafted` is this for a whole plan, before the ledger is
    written (`ofRun_gives`, `ofRetirement_gives`). -/

namespace ClearanceGraph

namespace Store

/-- What a plan leaves of a fact that is to have a content: nothing if it has it
    already. -/
def putting (s : Store) (t : Instant) (c : Content) : Option (Option Document) :=
  match s.visible t (.fact c.fact) with
  | none => some (some (.content c))
  | some d => if d == .content c then none else some (some (.content c))

/-- What a plan leaves of a fact that an origin drops: the content of the latest other
    origin that keeps it, or a delete. -/
def dropping (s : Store) (t : Instant) (o : OriginId) (f : Fact) :
    Option (Option Document) :=
  match Plan.survivor? o (s.owners f) with
  | some r => (r.content? f).bind (s.putting t)
  | none => (s.visible t (.fact f)).map fun _ => none

/-- After putting, the fact has the content. -/
theorem exists_getD_putting (s : Store) (t : Instant) (c : Content) :
    ∃ d, (s.putting t c).getD (s.visible t (.fact c.fact)) = some d ∧
      (d == .content c) = true := by
  rw [putting]
  cases hv : s.visible t (.fact c.fact) with
  | none => exact ⟨.content c, rfl, Document.content_beq_self c⟩
  | some d =>
      dsimp only
      by_cases hd : (d == .content c) = true
      · rw [if_pos hd]
        exact ⟨d, rfl, hd⟩
      · rw [if_neg hd]
        exact ⟨.content c, rfl, Document.content_beq_self c⟩

/-- Putting deletes nothing. -/
theorem putting_ne_delete (s : Store) (t : Instant) (c : Content) :
    s.putting t c ≠ some none := by
  rw [putting]
  cases s.visible t (.fact c.fact) with
  | none => simp
  | some d =>
      dsimp only
      split <;> simp

end Store

namespace Plan

variable {s : Store} {t : Instant} {o : OriginId}

/-- A plan leaves the same as another one under every key but that of a fact, where it
    leaves something on top. -/
structure Tops (p q : Plan) (f : Fact) (w : Option (Option Document)) : Prop where
  validTime : q.validTime = p.validTime
  top : q.transaction.lastWrite? (.fact f) = w.or (p.transaction.lastWrite? (.fact f))
  others : ∀ k, k ≠ .fact f → q.transaction.lastWrite? k = p.transaction.lastWrite? k

private theorem tops_self (p : Plan) (f : Fact) : p.Tops p f none :=
  ⟨rfl, rfl, fun _ _ => rfl⟩

private theorem tops_put (p : Plan) (c : Content) (k : ChangeKind) :
    p.Tops ((p.push (.put (.content c))).record c.fact k) c.fact
      (some (some (.content c))) := by
  have hkey : (Document.content c).key = .fact c.fact := rfl
  refine ⟨rfl, ?_, fun l hl => ?_⟩
  · show (p.transaction.push _).lastWrite? _ = _
    rw [Transaction.lastWrite?_push, Operation.writeTo?_put, if_pos hkey]
  · show (p.transaction.push _).lastWrite? _ = _
    rw [Transaction.lastWrite?_push, Operation.writeTo?_put, if_neg fun h =>
      hl (h.symm.trans hkey)]
    rfl

private theorem tops_delete (p : Plan) (f : Fact) (k : ChangeKind) :
    p.Tops ((p.push (.delete (.fact f))).record f k) f (some none) := by
  refine ⟨rfl, ?_, fun l hl => ?_⟩
  · show (p.transaction.push _).lastWrite? _ = _
    rw [Transaction.lastWrite?_push, Operation.writeTo?_delete, if_pos rfl]
  · show (p.transaction.push _).lastWrite? _ = _
    rw [Transaction.lastWrite?_push, Operation.writeTo?_delete, if_neg fun h => hl h.symm]
    rfl

/-- Putting a content. -/
theorem putIfChanged_gives {p q : Plan} {c : Content}
    (h : (p.putIfChanged c.fact c).Gives s q) :
    p.Tops q c.fact (s.putting p.validTime c) := by
  obtain ⟨cur, hcur, h⟩ := h.of_bind
  obtain rfl := hcur.unique (Reading.gives_get _ _ s)
  have hkey : (Document.content c).key = .fact c.fact := rfl
  rw [hkey] at h
  rw [Store.putting]
  cases hv : s.visible p.validTime (.fact c.fact) with
  | none =>
      rw [hv] at h
      obtain rfl := h.unique (Reading.gives_pure s _)
      exact tops_put p c _
  | some d =>
      rw [hv] at h
      dsimp only at h ⊢
      by_cases hd : (d == .content c) = true
      · rw [if_pos hd] at h ⊢
        obtain rfl := h.unique (Reading.gives_pure s _)
        exact tops_self _ _
      · rw [if_neg hd] at h ⊢
        obtain rfl := h.unique (Reading.gives_pure s _)
        exact tops_put p c _

/-- Steps on facts, one after another: of facts that are all different each has its
    own. -/
structure TopsAll (p q : Plan) (fs : List Fact) (w : Fact → Option (Option Document)) :
    Prop where
  validTime : q.validTime = p.validTime
  top : ∀ f ∈ fs, q.transaction.lastWrite? (.fact f) =
    (w f).or (p.transaction.lastWrite? (.fact f))
  others : ∀ k, (∀ f ∈ fs, k ≠ .fact f) →
    q.transaction.lastWrite? k = p.transaction.lastWrite? k

private theorem topsAll_nil (p : Plan) (w : Fact → Option (Option Document)) :
    p.TopsAll p [] w :=
  ⟨rfl, fun _ h => absurd h List.not_mem_nil, fun _ _ => rfl⟩

private theorem Tops.cons {p p' q : Plan} {f : Fact} {fs : List Fact}
    {w : Fact → Option (Option Document)} (hf : p.Tops p' f (w f)) (hfs : p'.TopsAll q fs w)
    (hne : f ∉ fs) : p.TopsAll q (f :: fs) w := by
  refine ⟨hfs.validTime.trans hf.validTime, ?_, ?_⟩
  · intro g hg
    rcases List.mem_cons.mp hg with rfl | hg
    · rw [hfs.others _ fun x hx he => hne (by cases he; exact hx), hf.top]
    · have hgf : DocumentKey.fact g ≠ .fact f := by
        intro he
        cases he
        exact hne hg
      rw [hfs.top g hg, hf.others _ hgf]
  · intro k hk
    rw [hfs.others k fun x hx => hk x (List.mem_cons_of_mem _ hx),
      hf.others k (hk f List.mem_cons_self)]

/-- Putting the contents of a run. -/
theorem putAll_gives {asserted : Table Fact Content} {q : Plan}
    (es : List (Fact × Content)) :
    ∀ {p : Plan}, (∀ e ∈ es, asserted.get? e.1 = some e.2) → (∀ e ∈ es, e.2.fact = e.1) →
      (es.map (·.1)).Nodup → (putAll es p).Gives s q →
      p.TopsAll q (es.map (·.1)) fun f => (asserted.get? f).bind
        (s.putting p.validTime) := by
  induction es with
  | nil =>
      intro p _ _ _ h
      obtain rfl := h.unique (Reading.gives_pure s _)
      exact topsAll_nil _ _
  | cons e es ih =>
      obtain ⟨f, c⟩ := e
      intro p hget hfiled hnodup h
      obtain rfl : c.fact = f := hfiled _ List.mem_cons_self
      obtain ⟨p', hp', h⟩ := h.of_bind
      have htop := putIfChanged_gives hp'
      obtain ⟨hne, hrest⟩ := List.nodup_cons.mp hnodup
      have hih := ih (fun e he => hget e (List.mem_cons_of_mem _ he))
        (fun e he => hfiled e (List.mem_cons_of_mem _ he)) hrest h
      rw [htop.validTime] at hih
      refine Tops.cons ?_ hih hne
      -- the head is topped by its own put: no later put goes to the same fact
      rw [hget _ List.mem_cons_self]
      exact htop

/-- Dropping a fact. -/
theorem dropFact_gives {p q : Plan} {f : Fact} {gone gone' : KeySet Reference}
    (hfiled : ∀ r ∈ s.owners f, ∀ c, r.content? f = some c → c.fact = f)
    (h : (dropFact o f p gone).Gives s (q, gone')) :
    p.Tops q f (s.dropping p.validTime o f) := by
  obtain ⟨rs, hrs, h⟩ := h.of_bind
  obtain rfl := hrs.unique (s.owners_gives f)
  rw [Store.dropping]
  cases hsurv : survivor? o (s.owners f) with
  | some r =>
      rw [hsurv] at h
      dsimp only at h ⊢
      -- that the fact is shared is noted beside the transaction
      have hshare : ∀ {q' w}, (p.share f).Tops q' f w → p.Tops q' f w :=
        fun ht => ⟨ht.validTime, ht.top, ht.others⟩
      cases hc : r.content? f with
      | none =>
          rw [hc] at h
          obtain ⟨rfl, -⟩ := Prod.mk.inj (h.unique (Reading.gives_pure s _))
          exact hshare (tops_self _ f)
      | some c =>
          rw [hc] at h
          have hr : r ∈ s.owners f := (List.mem_filter.mp (mem_of_lastMax? hsurv)).1
          obtain rfl := hfiled r hr c hc
          obtain ⟨p', hp', h⟩ := h.of_bind
          obtain ⟨rfl, -⟩ := Prod.mk.inj (h.unique (Reading.gives_pure s _))
          exact hshare (putIfChanged_gives hp')
  | none =>
      rw [hsurv] at h
      obtain ⟨cur, hcur, h⟩ := h.of_bind
      obtain rfl := hcur.unique (Reading.gives_get _ _ s)
      cases hv : s.visible p.validTime (.fact f) with
      | none =>
          rw [hv] at h
          obtain ⟨rfl, -⟩ := Prod.mk.inj (h.unique (Reading.gives_pure s _))
          exact tops_self _ f
      | some d =>
          rw [hv] at h
          have hq : q = (p.push (.delete (.fact f))).record f .retracted := by
            cases f <;> exact (Prod.mk.inj (h.unique (Reading.gives_pure s _))).1
          rw [hq]
          exact tops_delete p f _

/-- Dropping the facts that a run no longer asserts. -/
theorem dropAll_gives {q : Plan} (fs : List Fact)
    (hfiled : ∀ f, ∀ r ∈ s.owners f, ∀ c, r.content? f = some c → c.fact = f) :
    ∀ {p : Plan} {gone gone' : KeySet Reference}, fs.Nodup →
      (dropAll o fs p gone).Gives s (q, gone') →
      p.TopsAll q fs fun f => s.dropping p.validTime o f := by
  induction fs with
  | nil =>
      intro p gone gone' _ h
      obtain ⟨rfl, -⟩ := Prod.mk.inj (h.unique (Reading.gives_pure s _))
      exact topsAll_nil _ _
  | cons f fs ih =>
      intro p gone gone' hnodup h
      obtain ⟨⟨p', gone₁⟩, hp', h⟩ := h.of_bind
      have htop := dropFact_gives (hfiled f) hp'
      obtain ⟨hne, hrest⟩ := List.nodup_cons.mp hnodup
      have hih := ih hrest h
      rw [htop.validTime] at hih
      exact Tops.cons htop hih hne

/-! ## Drafts -/

/-- What a plan leaves before the ledger is written: of asserted facts their content, of
    dropped facts what is kept of them, and of everything else nothing. -/
structure Drafted (s : Store) (t : Instant) (o : OriginId) (asserted : Table Fact Content)
    (dropped : List Fact) (q : Plan) : Prop where
  validTime : q.validTime = t
  asserts : ∀ f c, asserted.get? f = some c →
    q.transaction.lastWrite? (.fact f) = s.putting t c
  drops : ∀ f ∈ dropped, q.transaction.lastWrite? (.fact f) = s.dropping t o f
  others : ∀ k, (∀ f, k = .fact f → asserted.get? f = none ∧ f ∉ dropped) →
    q.transaction.lastWrite? k = none

private theorem drafted {asserted : Table Fact Content} {dropped : List Fact} {p q : Plan}
    (hputs : (Plan.empty t).TopsAll p (asserted.entries.map (·.1))
      fun f => (asserted.get? f).bind (s.putting t))
    (hdrops : p.TopsAll q dropped fun f => s.dropping t o f)
    (hdisjoint : ∀ f ∈ dropped, asserted.get? f = none) : Drafted s t o asserted
      dropped q := by
  have hmem : ∀ {f}, f ∈ asserted.entries.map (·.1) ↔ ∃ c, asserted.get? f = some c := by
    intro f
    exact asserted.mem_keys_iff
  refine ⟨hdrops.validTime.trans hputs.validTime, ?_, ?_, ?_⟩
  · intro f c hc
    -- no dropped fact is asserted, so dropping leaves the put on top
    have hnot : ∀ g ∈ dropped, DocumentKey.fact f ≠ .fact g := by
      intro g hg he
      cases he
      rw [hdisjoint f hg] at hc
      cases hc
    rw [hdrops.others _ hnot, hputs.top f (hmem.mpr ⟨c, hc⟩), hc]
    exact Option.or_none
  · intro f hf
    -- and nothing was put to a fact that is dropped
    have hnot : ∀ g ∈ asserted.entries.map (·.1), DocumentKey.fact f ≠ .fact g := by
      intro g hg he
      cases he
      obtain ⟨c, hc⟩ := hmem.mp hg
      rw [hdisjoint f hf] at hc
      cases hc
    rw [hdrops.top f hf, hputs.others _ hnot]
    exact Option.or_none
  · intro k hk
    rw [hdrops.others k fun f hf he => (hk f he).2 hf, hputs.others k fun f hf he => ?_]
    · rfl
    · obtain ⟨c, hc⟩ := hmem.mp hf
      rw [(hk f he).1] at hc
      cases hc

/-- The dropped facts are those of the record before that the run does not assert. -/
theorem mem_droppedBy {previous : Option OriginRecord} {asserted : Table Fact Content}
    {f : Fact} :
    f ∈ droppedBy previous asserted ↔
      ∃ p, previous = some p ∧ p.asserts f = true ∧ asserted.get? f = none := by
  have hcontains : (!asserted.contains f) = true ↔ asserted.get? f = none := by
    rw [Bool.not_eq_true', Table.contains, Option.isSome_eq_false_iff,
      Option.isNone_iff_eq_none]
  cases previous with
  | none => simp [droppedBy]
  | some p =>
      show f ∈ p.result.keys.filter _ ↔ _
      rw [List.mem_filter, hcontains, p.result.mem_keys_iff, ← p.result.contains_iff]
      simp [OriginRecord.asserts]

/-- A run that asserts the same as before drops nothing. -/
theorem droppedBy_eq_nil {previous : Option OriginRecord} {asserted : Table Fact Content}
    (h : isUnchanged previous asserted = true) : droppedBy previous asserted = [] := by
  refine List.eq_nil_iff_forall_not_mem.mpr fun f hf => ?_
  obtain ⟨l, rfl, hasserts, hnone⟩ := mem_droppedBy.mp hf
  have hcontains : l.asserts f = asserted.contains f := Table.contains_eq_of_beq h f
  rw [hasserts] at hcontains
  obtain ⟨x, hx⟩ := asserted.contains_iff.mp hcontains.symm
  cases hx.symm.trans hnone

theorem nodup_droppedBy (previous : Option OriginRecord) (asserted : Table Fact Content) :
    (droppedBy previous asserted).Nodup := by
  cases previous with
  | none => exact List.nodup_nil
  | some r => exact r.result.nodup_keys.filter _

end Plan

/-- The contents of a run lie under their own facts. -/
theorem Run.filed_asserted (r : Run) {f : Fact} {c : Content}
    (h : r.asserted.get? f = some c) :
    c.fact = f := Content.fact_of_get?_byFact h

namespace Plan

variable {s : Store} {t : Instant} {o : OriginId}

private theorem dropAll_of_retract {fs : List Fact} {asserted : Table Fact Content}
    {p q : Plan}
    {gone : KeySet Reference} (h : (retract .retain o fs asserted p).Gives s (q, gone)) :
    (dropAll o fs p Table.empty).Gives s (q, gone) := by
  obtain ⟨⟨p', gone'⟩, hp', h⟩ := h.of_bind
  obtain ⟨rfl, rfl⟩ := Prod.mk.inj (h.unique (Reading.gives_pure s _))
  exact hp'

private theorem not_stale_of_check {x : Unit} (h : (checkNotStale o t).Gives s x) :
    ∀ v ∈ s.versionsOf (.origin o), v.validFrom ≤ t := by
  intro v hv
  obtain ⟨seen, hseen, h⟩ := h.of_bind
  obtain ⟨seen', hseen', hle⟩ := s.lastSeen_gives o
  obtain rfl := hseen.unique hseen'
  obtain ⟨u, rfl, hvu⟩ := hle v hv
  dsimp only at h
  split at h
  · exact absurd h (Reading.not_gives_throw _ _ _)
  · next hlt => exact le_trans hvu (not_lt.mp hlt)

/-- A run with a plan is not earlier than its origin was seen. -/
theorem not_stale_of_ofRun {policy : CascadePolicy} {r : Run} {x : Option Plan}
    (h : (ofRun policy r).Gives s x) :
    ∀ v ∈ s.versionsOf (.origin r.origin), v.validFrom ≤ r.validTime := by
  obtain ⟨_, hcheck, -⟩ := h.of_bind
  exact not_stale_of_check hcheck

/-- A retirement with a plan is not earlier than its origin was seen. -/
theorem not_stale_of_ofRetirement {policy : CascadePolicy} {x : Option Plan}
    (h : (ofRetirement policy o t).Gives s x) :
    ∀ v ∈ s.versionsOf (.origin o), v.validFrom ≤ t := by
  obtain ⟨_, hcheck, -⟩ := h.of_bind
  exact not_stale_of_check hcheck

/-- Checks that an origin reports by the same method as before. -/
def checkMethod (r : Run) : Option OriginRecord → Reading Unit
  | none => pure ()
  | some l =>
    if l.method ≠ r.method then
      throw (.validation (.methodMismatch r.origin l.method r.method))
    else pure ()

/-- The plan of a run that follows a record. -/
def followRecord (policy : CascadePolicy) (r : Run) (previous : Option OriginRecord) :
    Reading (Option Plan) := do
  let p ← putAll r.asserted.entries (.empty r.validTime)
  let q ← retract policy r.origin (droppedBy previous r.asserted) r.asserted p
  checkAll (KeySet.ofList (r.objects.map (·.reference))) q.2 r.validTime (needs r)
  if q.1.transaction.isEmpty && isUnchanged previous r.asserted then return none
  return some { q.1 with
    transaction := Ledger.setCurrent q.1.transaction previous
      ⟨r.origin, r.method, r.validTime, r.asserted, previous.elim 1 (·.runs + 1)⟩ }

theorem checkMethod_gives_iff {r : Run} {previous : Option OriginRecord} :
    (checkMethod r previous).Gives s () ↔ ∀ l, previous = some l → l.method = r.method := by
  cases previous with
  | none => exact ⟨fun _ l hl => (by cases hl), fun _ => Reading.gives_pure s _⟩
  | some l =>
      rw [checkMethod]
      split
      · next hne =>
        exact ⟨fun h => absurd h (Reading.not_gives_throw _ _ _),
          fun h => absurd (h l rfl) hne⟩
      · next heq =>
        refine ⟨fun _ l' hl => ?_, fun _ => Reading.gives_pure s _⟩
        obtain rfl := Option.some.inj hl
        exact not_not.mp heq

/-- A run is checked, and then its plan follows the latest record. -/
theorem ofRun_eq (policy : CascadePolicy) (r : Run) : ofRun policy r = (do
    checkNotStale r.origin r.validTime
    let previous ← Ledger.previous r.origin
    checkMethod r previous
    followRecord policy r previous) := by
  rw [ofRun]
  congr 1
  funext _
  congr 1
  funext previous
  cases previous with
  | none => exact (Reading.pure_bind () fun _ => followRecord policy r none).symm
  | some l =>
      dsimp only [checkMethod]
      split
      · rfl
      · exact (Reading.pure_bind () fun _ => followRecord policy r (some l)).symm

/-- What the plan of a run is made of: its puts, what it retracts, and the ledger; and
    what it was checked for on the way. -/
theorem ofRun_checked {policy : CascadePolicy} {r : Run} {x : Option Plan}
    (h : (ofRun policy r).Gives s x) :
    ∃ previous p q gone, (Ledger.previous r.origin).Gives s previous ∧
      (∀ l, previous = some l → l.method = r.method) ∧
      (putAll r.asserted.entries (.empty r.validTime)).Gives s p ∧
      (retract policy r.origin (droppedBy previous r.asserted) r.asserted p).Gives
        s (q, gone) ∧
      (checkAll (KeySet.ofList (r.objects.map (·.reference))) gone r.validTime
        (needs r)).Gives s () ∧
      ((x = none ∧ q.transaction.isEmpty = true ∧ isUnchanged previous r.asserted = true) ∨
        x = some { q with
          transaction := Ledger.setCurrent q.transaction previous
            ⟨r.origin, r.method, r.validTime, r.asserted,
              previous.elim 1 (·.runs + 1)⟩ }) := by
  rw [ofRun_eq] at h
  obtain ⟨-, -, h⟩ := h.of_bind
  -- one reading after another, in the order of the program
  obtain ⟨previous, hprevious, h⟩ := h.of_bind
  obtain ⟨⟨⟩, hmethod, h⟩ := h.of_bind
  obtain ⟨p, hp, h⟩ := h.of_bind
  obtain ⟨⟨q, gone⟩, hq, h⟩ := h.of_bind
  obtain ⟨⟨⟩, hchecked, h⟩ := h.of_bind
  refine ⟨previous, p, q, gone, hprevious, checkMethod_gives_iff.mp hmethod, hp, hq,
    hchecked, ?_⟩
  dsimp only at h
  split at h
  · next hno =>
    obtain ⟨hempty, hunchanged⟩ := (Bool.and_eq_true _ _).mp hno
    exact .inl ⟨h.unique (Reading.gives_pure s _), hempty, hunchanged⟩
  · exact .inr (h.unique (Reading.gives_pure s _))

/-- The same without the checks. -/
theorem ofRun_parts {policy : CascadePolicy} {r : Run} {x : Option Plan}
    (h : (ofRun policy r).Gives s x) :
    ∃ previous p q gone, (Ledger.previous r.origin).Gives s previous ∧
      (putAll r.asserted.entries (.empty r.validTime)).Gives s p ∧
      (retract policy r.origin (droppedBy previous r.asserted) r.asserted p).Gives
        s (q, gone) ∧
      ((x = none ∧ q.transaction.isEmpty = true ∧ isUnchanged previous r.asserted = true) ∨
        x = some { q with
          transaction := Ledger.setCurrent q.transaction previous
            ⟨r.origin, r.method, r.validTime, r.asserted,
              previous.elim 1 (·.runs + 1)⟩ }) := by
  obtain ⟨previous, p, q, gone, hprevious, -, hp, hq, -, hx⟩ := ofRun_checked h
  exact ⟨previous, p, q, gone, hprevious, hp, hq, hx⟩

/-- **The plan of a run** that keeps orphaned edges: a draft and the new record, or
    nothing if the draft writes nothing and the record is as before. -/
theorem ofRun_gives {r : Run} {x : Option Plan}
    (hfiled : ∀ f, ∀ r ∈ s.owners f, ∀ c, r.content? f = some c → c.fact = f)
    (h : (ofRun .retain r).Gives s x) :
    ∃ previous q, (Ledger.previous r.origin).Gives s previous ∧
      Drafted s r.validTime r.origin r.asserted (droppedBy previous r.asserted) q ∧
      ((x = none ∧ q.transaction.isEmpty = true ∧ isUnchanged previous r.asserted = true) ∨
        ∃ p, x = some p ∧ p.transaction = Ledger.setCurrent q.transaction previous
          ⟨r.origin, r.method, r.validTime, r.asserted, previous.elim 1 (·.runs + 1)⟩) := by
  obtain ⟨previous, p, q, gone, hprevious, hp, hq, hx⟩ := ofRun_parts h
  refine ⟨previous, q, hprevious, ?_, hx.imp_right fun hp => ⟨_, hp, rfl⟩⟩
  have hputs :=
    putAll_gives r.asserted.entries (fun e he => (r.asserted.mem_entries_iff).mp he)
    (fun e he => r.filed_asserted ((r.asserted.mem_entries_iff).mp he))
      r.asserted.nodup_keys hp
  have hdrops := dropAll_gives _ hfiled (nodup_droppedBy previous r.asserted)
    (dropAll_of_retract hq)
  rw [hputs.validTime] at hdrops
  exact drafted hputs hdrops fun f hf => (mem_droppedBy.mp hf).choose_spec.2.2

/-- What the plan of a retirement is made of: what it retracts, and the end of the
    record. -/
theorem ofRetirement_parts {policy : CascadePolicy} {x : Option Plan}
    (h : (ofRetirement policy o t).Gives s x) :
    ∃ previous, (Ledger.previous o).Gives s previous ∧
      ((x = none ∧ previous = none) ∨ ∃ l q gone, previous = some l ∧
        (retract policy o (droppedBy previous Table.empty) Table.empty (.empty t)).Gives
          s (q, gone) ∧
        x = some { q with transaction := Ledger.retire q.transaction l }) := by
  obtain ⟨-, -, h⟩ := h.of_bind
  obtain ⟨previous, hprevious, h⟩ := h.of_bind
  refine ⟨previous, hprevious, ?_⟩
  cases previous with
  | none => exact .inl ⟨h.unique (Reading.gives_pure s _), rfl⟩
  | some l =>
      obtain ⟨⟨q, gone⟩, hq, h⟩ := h.of_bind
      have hkeys : droppedBy (some l) Table.empty = l.result.keys :=
        List.filter_eq_self.mpr fun _ _ => rfl
      exact .inr ⟨l, q, gone, rfl, hkeys.symm ▸ hq, h.unique (Reading.gives_pure s _)⟩

/-- **The plan of a retirement** that keeps orphaned edges: a draft that drops
    everything, and the end of the record. -/
theorem ofRetirement_gives {x : Option Plan}
    (hfiled : ∀ f, ∀ r ∈ s.owners f, ∀ c, r.content? f = some c → c.fact = f)
    (h : (ofRetirement .retain o t).Gives s x) :
    ∃ previous, (Ledger.previous o).Gives s previous ∧
      ((x = none ∧ previous = none) ∨
        ∃ r p q, previous = some r ∧ x = some p ∧
          Drafted s t o Table.empty (droppedBy (some r) Table.empty) q ∧
          p.transaction = Ledger.retire q.transaction r) := by
  obtain ⟨previous, hprevious, hnone | ⟨r, q, gone, rfl, hq, hx⟩⟩ := ofRetirement_parts h
  · exact ⟨previous, hprevious, .inl hnone⟩
  · have hputs : (Plan.empty t).TopsAll (.empty t)
        ((Table.empty : Table Fact Content).entries.map
        (·.1)) fun f => ((Table.empty : Table Fact Content).get? f).bind (s.putting t) :=
      topsAll_nil _ _
    have hdrops := dropAll_gives _ hfiled (nodup_droppedBy (some r) Table.empty)
      (dropAll_of_retract hq)
    exact ⟨_, hprevious, .inr ⟨r, _, q, rfl, hx, drafted hputs hdrops fun f _ => rfl, rfl⟩⟩

end Plan

end ClearanceGraph
