import ClearanceGraph.Proofs.Origin.Plan

/-! # Holdings — origins and the facts they keep

    Seen from outside, a store holds a live record of each origin and a document
    of each fact that shows.  In the model of ownership a call makes its origin
    assert some facts and drop the others that it asserted before: asserted facts
    take the content of the call, dropped facts fall to the largest other record
    that asserts them or go, and everything else stays (`Holdings.Step`).

    Such a step keeps facts and records together (`Holdings.Step.owned`), and what
    a draft leaves is such a step (`Store.step_of_drafted`). -/

open Std (TransCmp)

namespace ClearanceGraph

theorem OriginRecord.asserts_iff (r : OriginRecord) {f : Fact} :
    r.asserts f = true ↔ ∃ c, r.content? f = some c := r.result.contains_iff

/-- The live record of each origin, and the document of each fact that shows. -/
structure Holdings where
  ledger : OriginId → Option OriginRecord
  shown : Fact → Option Document

namespace Holdings

variable {h h' : Holdings} {o : OriginId} {f : Fact} {r : OriginRecord}
  {asserted : Table Fact Content}

/-- The facts that show are those that live records assert, and each has the content
    that one of these records holds. -/
structure Owned (h : Holdings) : Prop where
  shown_iff : ∀ f, (∃ d, h.shown f = some d) ↔ ∃ o r, h.ledger o = some r ∧
    r.asserts f = true
  content : ∀ f d, h.shown f = some d →
    ∃ o r c, h.ledger o = some r ∧ r.content? f = some c ∧ (d == .content c) = true

/-- A live record asserts the fact. -/
def Asserted (h : Holdings) (f : Fact) : Prop :=
  ∃ o r, h.ledger o = some r ∧ r.asserts f = true

/-- The facts that show are those that live records assert. -/
def Decided (h : Holdings) : Prop := ∀ f, (∃ d, h.shown f = some d) ↔ h.Asserted f

/-- A live record of another origin that asserts a fact. -/
structure Keeps (h : Holdings) (o : OriginId) (f : Fact) (r : OriginRecord) : Prop where
  live : h.ledger r.id = some r
  other : r.id ≠ o
  asserts : r.asserts f = true

/-- The largest record of another origin that asserts a fact, by valid time, then by
    origin. -/
structure Heir (h : Holdings) (o : OriginId) (f : Fact) (r : OriginRecord) : Prop where
  keeps : h.Keeps o f r
  largest : ∀ r', h.Keeps o f r' →
    r'.validTime < r.validTime ∨ r'.validTime = r.validTime ∧
      (compare r'.id r.id).isLE = true

/-- There is one largest record. -/
theorem Heir.unique {r' : OriginRecord} (hr : h.Heir o f r) (hr' : h.Heir o f r') :
    r = r' := by
  have hid : r.id = r'.id := by
    rcases hr.largest r' hr'.keeps with hlt | ⟨heq, hle⟩
    · rcases hr'.largest r hr.keeps with hlt' | ⟨heq', -⟩
      · exact absurd hlt (lt_asymm hlt')
      · exact absurd hlt (heq' ▸ lt_irrefl _)
    · rcases hr'.largest r hr.keeps with hlt' | ⟨-, hle'⟩
      · exact absurd hlt' (heq ▸ lt_irrefl _)
      · exact Std.LawfulEqCmp.eq_of_compare (Std.OrientedCmp.isLE_antisymm hle' hle)
  have hlive := hr.keeps.live
  rw [hid, hr'.keeps.live] at hlive
  exact (Option.some.inj hlive).symm

/-- **The abstract step** of an origin that comes to assert some contents. -/
structure Step (h : Holdings) (o : OriginId) (asserted : Table Fact Content)
    (h' : Holdings) :
    Prop where
  /-- Asserted facts take the content of the call. -/
  taken : ∀ f c, asserted.get? f = some c → ∃ d, h'.shown f = some d ∧
    (d == .content c) = true
  /-- Dropped facts that others assert take the content of the largest other record. -/
  inherited : ∀ f p r, h.ledger o = some p → p.asserts f = true → asserted.get? f = none →
    h.Keeps o f r → ∃ r' c d, h.Heir o f r' ∧ r'.content? f = some c ∧ h'.shown f = some d ∧
      (d == .content c) = true
  /-- Dropped facts that nobody else asserts disappear. -/
  gone : ∀ f p, h.ledger o = some p → p.asserts f = true → asserted.get? f = none →
    (∀ r, ¬ h.Keeps o f r) → h'.shown f = none
  /-- Every other fact keeps its document. -/
  kept : ∀ f, asserted.get? f = none → (∀ p, h.ledger o = some p → p.asserts f = false) →
    h'.shown f = h.shown f
  /-- Other origins keep their records. -/
  others : ∀ o', o' ≠ o → h'.ledger o' = h.ledger o'
  /-- The origin asserts the facts of the call. -/
  own : ∀ f, (∃ r, h'.ledger o = some r ∧ r.asserts f = true) ↔ asserted.contains f = true

/-- A fact that nobody asserts and that does not show, or one that an owner asserts as
    it shows. -/
private theorem owned_iff : h.Owned ↔ ∀ f,
    (h.shown f = none ∧ ∀ o r, h.ledger o = some r → r.asserts f = false) ∨
      ∃ d o r c, h.shown f = some d ∧ h.ledger o = some r ∧ r.content? f = some c ∧
        (d == .content c) = true := by
  constructor
  · intro hown f
    cases hf : h.shown f with
    | none =>
        refine .inl ⟨rfl, fun o r hr => ?_⟩
        rw [← Bool.not_eq_true]
        intro hasserts
        obtain ⟨d, hd⟩ := (hown.shown_iff f).mpr ⟨o, r, hr, hasserts⟩
        cases hf.symm.trans hd
    | some d =>
        obtain ⟨o, r, c, hr, hc, hd⟩ := hown.content f d hf
        exact .inr ⟨d, o, r, c, rfl, hr, hc, hd⟩
  · intro hall
    -- the alternative that holds of a fact decides both parts
    refine ⟨fun f => ?_, fun f d hd => ?_⟩
    · rcases hall f with ⟨hnone, hno⟩ | ⟨d, o, r, c, hd, hr, hc, -⟩
      · refine ⟨fun ⟨d, hd⟩ => ?_, fun ⟨o, r, hr, hf⟩ => ?_⟩
        · cases hnone.symm.trans hd
        · cases (hno o r hr).symm.trans hf
      · exact ⟨fun _ => ⟨o, r, hr, r.asserts_iff.mpr ⟨c, hc⟩⟩, fun _ => ⟨d, hd⟩⟩
    · rcases hall f with ⟨hnone, -⟩ | ⟨d', o, r, c, hd', hr, hc, hagree⟩
      · cases hnone.symm.trans hd
      · obtain rfl := Option.some.inj (hd'.symm.trans hd)
        exact ⟨o, r, c, hr, hc, hagree⟩

/-- **A step keeps facts and records together**, if the new record holds the contents of
    the call. -/
theorem Step.owned (hown : h.Owned) (hstep : h.Step o asserted h')
    (hnew : ∀ f c, asserted.get? f = some c → ∃ r, h'.ledger o = some r ∧
      r.content? f = some c)
    (hid : ∀ o r, h.ledger o = some r → r.id = o) : h'.Owned := by
  have hkeeps : ∀ {f o' r}, o' ≠ o → h.ledger o' = some r → r.asserts f = true →
      h.Keeps o f r := by
    intro f o' r hne hr hf
    obtain rfl := hid o' r hr
    exact ⟨hr, hne, hf⟩
  have hlive : ∀ {o' r}, o' ≠ o → h.ledger o' = some r → h'.ledger o' = some r :=
    fun hne hr => (hstep.others _ hne).trans hr
  -- a fact that neither the call nor another origin asserts is asserted by nobody
  -- afterwards
  have hnobody : ∀ {f}, asserted.get? f = none → (∀ r, ¬ h.Keeps o f r) →
      ∀ o' r, h'.ledger o' = some r → r.asserts f = false := by
    intro f hf hno o' r hr
    rw [← Bool.not_eq_true]
    intro hasserts
    by_cases hne : o' = o
    · subst hne
      obtain ⟨c, hc⟩ := (asserted.contains_iff).mp ((hstep.own f).mp ⟨r, hr, hasserts⟩)
      cases hf.symm.trans hc
    · rw [hstep.others _ hne] at hr
      exact hno r (hkeeps hne hr hasserts)
  rw [owned_iff]
  intro f
  cases hf : asserted.get? f with
  | some c =>
      obtain ⟨d, hd, hagree⟩ := hstep.taken f c hf
      obtain ⟨r, hr, hc⟩ := hnew f c hf
      exact .inr ⟨d, o, r, c, hd, hr, hc, hagree⟩
  | none =>
      by_cases hdropped : ∃ p, h.ledger o = some p ∧ p.asserts f = true
      · obtain ⟨p, hp, hpf⟩ := hdropped
        by_cases hex : ∃ r, h.Keeps o f r
        · obtain ⟨r, hr⟩ := hex
          obtain ⟨r', c, d, heir, hc, hd, hagree⟩ := hstep.inherited f p r hp hpf hf hr
          exact .inr ⟨d, r'.id, r', c, hd, hlive heir.keeps.other heir.keeps.live, hc,
            hagree⟩
        · have hno : ∀ r, ¬ h.Keeps o f r := fun r hr => hex ⟨r, hr⟩
          exact .inl ⟨hstep.gone f p hp hpf hf hno, hnobody hf hno⟩
      · have hnot : ∀ p, h.ledger o = some p → p.asserts f = false := by
          intro p hp
          rw [← Bool.not_eq_true]
          exact fun hpf => hdropped ⟨p, hp, hpf⟩
        rw [hstep.kept f hf hnot]
        rcases owned_iff.mp hown f with ⟨hnone, hno⟩ | ⟨d, o', r, c, hd, hr, hc, hagree⟩
        · refine .inl ⟨hnone, hnobody hf fun r hr => ?_⟩
          cases (hno _ r hr.live).symm.trans hr.asserts
        · have hne : o' ≠ o := by
            rintro rfl
            cases (hnot r hr).symm.trans (r.asserts_iff.mpr ⟨c, hc⟩)
          exact .inr ⟨d, o', r, c, hd, hlive hne hr, hc, hagree⟩

end Holdings

/-! ## Holdings of a store -/

namespace Store

variable {s s' : Store} {t u : Instant} {o : OriginId} {f : Fact} {r : OriginRecord}

/-- The latest record of each origin, and what shows of each fact at an instant. -/
def holdings (s : Store) (u : Instant) : Holdings :=
  ⟨fun o => (Ledger.previous o s).1.toOption.join, fun f => s.visible u (.fact f)⟩

theorem Sound.holdings_ledger (hs : s.Sound) (hup : s.Upto Instant.latest) (u : Instant)
    (o : OriginId) : (s.holdings u).ledger o = s.record? o := by
  have hprevious : (Ledger.previous o s).1 = .ok (s.record? o) := hs.previous_gives hup o
  show (Ledger.previous o s).1.toOption.join = _
  rw [hprevious]
  rfl

/-- The contents of a live record lie under their own facts. -/
def RecordsFiled (s : Store) : Prop :=
  ∀ o r f c, s.record? o = some r → r.content? f = some c → c.fact = f

/-- Owners' contents lie under the fact that they own. -/
theorem RecordsFiled.owners (h : s.RecordsFiled) (hs : s.Sound) :
    ∀ f, ∀ r ∈ s.owners f, ∀ c, r.content? f = some c → c.fact = f := by
  intro f r hr c hc
  obtain ⟨hlive, -⟩ := hs.mem_owners_iff.mp hr
  exact h _ r f c hlive hc

/-- The other origins that keep a fact are the owners that a plan reads. -/
private theorem keeps_iff (hs : s.Sound) (hup : s.Upto Instant.latest) :
    (s.holdings u).Keeps o f r ↔ r ∈ (s.owners f).filter (·.id != o) := by
  rw [List.mem_filter, hs.mem_owners_iff]
  constructor
  · rintro ⟨hlive, hother, hf⟩
    rw [hs.holdings_ledger hup] at hlive
    exact ⟨⟨hlive, hf⟩, bne_iff_ne.mpr hother⟩
  · rintro ⟨⟨hlive, hf⟩, hother⟩
    rw [← hs.holdings_ledger hup u] at hlive
    exact ⟨hlive, bne_iff_ne.mp hother, hf⟩

private theorem not_keeps_of_survivor? (hs : s.Sound) (hup : s.Upto Instant.latest)
    (h : Plan.survivor? o (s.owners f) = none) (r : OriginRecord) :
    ¬ (s.holdings u).Keeps o f r := by
  intro hr
  have hnil := lastMax?_eq_none_iff.mp h
  rw [keeps_iff hs hup, hnil] at hr
  cases hr

/-- The survivor is the heir. -/
private theorem heir_of_survivor? (hs : s.Sound) (hup : s.Upto Instant.latest)
    (h : Plan.survivor? o (s.owners f) = some r) : (s.holdings u).Heir o f r := by
  have : TransCmp fun a b : OriginRecord =>
      (compare a.validTime b.validTime).then (compare a.id b.id) :=
    inferInstanceAs
      (TransCmp (compareLex (compareOn OriginRecord.validTime) (compareOn OriginRecord.id)))
  refine ⟨(keeps_iff hs hup).mpr (mem_of_lastMax? h), fun r' hr' => ?_⟩
  -- the order of records is by valid time, then by origin
  have hle : ((compare r'.validTime r.validTime).then (compare r'.id r.id)).isLE = true :=
    isLE_of_lastMax? h r' ((keeps_iff hs hup).mp hr')
  cases hc : compare r'.validTime r.validTime with
  | lt => exact .inl hc
  | eq =>
      rw [hc] at hle
      exact .inr ⟨Std.LawfulEqCmp.eq_of_compare hc, hle⟩
  | gt =>
      rw [hc] at hle
      cases hle

/-- **What a draft leaves is a step** of the model. -/
theorem step_of_drafted {asserted : Table Fact Content} {q : Plan} (hs : s.Sound)
    (hup : s.Upto t)
    (hlatest : t ≤ Instant.latest) (htu : t ≤ u) (hfiled : s.RecordsFiled)
    (hasserted : ∀ f c, asserted.get? f = some c → c.fact = f)
    (hdraft : Plan.Drafted s t o asserted (Plan.droppedBy (s.record? o) asserted) q)
    (hshown : ∀ f, s'.visible u (.fact f) =
      (q.transaction.lastWrite? (.fact f)).getD (s.visible t (.fact f)))
    (hothers : ∀ o', o' ≠ o → (s'.holdings u).ledger o' = (s.holdings u).ledger o')
    (hown : ∀ f, (∃ r, (s'.holdings u).ledger o = some r ∧ r.asserts f = true) ↔
      asserted.contains f = true) :
    (s.holdings u).Step o asserted (s'.holdings u) := by
  have hup' := hup.mono hlatest
  -- a fact that is dropped shows what dropping it writes
  have hdropped : ∀ {f p}, (s.holdings u).ledger o = some p → p.asserts f = true →
      asserted.get? f = none →
      s'.visible u (.fact f) = (s.dropping t o f).getD (s.visible t (.fact f)) := by
    intro f p hp hpf hf
    rw [hs.holdings_ledger hup'] at hp
    rw [hshown, hdraft.drops]
    rw [Plan.mem_droppedBy]
    exact ⟨p, hp, hpf, hf⟩
  constructor
  · intro f c hc
    obtain rfl := hasserted f c hc
    obtain ⟨d, hd, hagree⟩ := s.exists_getD_putting t c
    have hvisible := hshown c.fact
    rw [hdraft.asserts _ c hc, hd] at hvisible
    exact ⟨d, hvisible, hagree⟩
  · intro f p r hp hpf hf hr
    have hvisible := hdropped hp hpf hf
    rw [dropping] at hvisible
    cases hsurv : Plan.survivor? o (s.owners f) with
    -- nobody else holds the fact, so it is deleted
    | none => exact absurd hr (not_keeps_of_survivor? hs hup' hsurv r)
    -- the survivor is the heir, and its content is what is put
    | some r' =>
        have heir : (s.holdings u).Heir o f r' := heir_of_survivor? hs hup' hsurv
        obtain ⟨c, hc⟩ := r'.asserts_iff.mp heir.keeps.asserts
        have hlive := heir.keeps.live
        rw [hs.holdings_ledger hup'] at hlive
        obtain rfl := hfiled _ _ _ _ hlive hc
        obtain ⟨d, hd, hagree⟩ := s.exists_getD_putting t c
        rw [hsurv] at hvisible
        dsimp only at hvisible
        rw [hc, Option.bind_some, hd] at hvisible
        exact ⟨r', c, d, heir, hc, hvisible, hagree⟩
  · intro f p hp hpf hf hno
    have hvisible := hdropped hp hpf hf
    rw [dropping] at hvisible
    cases hsurv : Plan.survivor? o (s.owners f) with
    | some r' => exact absurd (heir_of_survivor? hs hup' hsurv).keeps (hno r')
    | none =>
        rw [hsurv] at hvisible
        show s'.visible u (.fact f) = none
        rw [hvisible]
        cases s.visible t (.fact f) <;> rfl
  · intro f hf hnot
    show s'.visible u (.fact f) = s.visible u (.fact f)
    rw [hshown, hdraft.others, hup.visible_eq htu]
    · rfl
    · rintro g hg
      cases hg
      refine ⟨hf, fun hmem => ?_⟩
      obtain ⟨p, hp, hpf, -⟩ := Plan.mem_droppedBy.mp hmem
      rw [← hs.holdings_ledger hup' u] at hp
      cases (hnot p hp).symm.trans hpf
  · exact hothers
  · exact hown

end Store

end ClearanceGraph
