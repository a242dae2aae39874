import ClearanceGraph.Proofs.Graph.Naming
import Mathlib.Data.List.Basic

/-! # Displayed edges — where an arrow can be

    An edge is displayed as its source, an arrow with the relation in it, and its
    target.  A key may have any characters, those of an arrow too, so the source
    of one edge may run over the arrow of another: the two overlap, and are
    displayed alike.

    There is no other way.  An arrow has a blank at its start and at its end and
    none between, and behind it stands a capital letter; so one arrow cannot
    start within another. -/

namespace ClearanceGraph

/-- Two texts with a mark behind them, each without it, end where the mark is. -/
theorem eq_of_append_mark {a : Char} {x y u v : List Char} (hx : a ∉ x) (hy : a ∉ y)
    (h : x ++ a :: u = y ++ a :: v) : x = y ∧ u = v := by
  rcases List.append_eq_append_iff.mp h with ⟨as, hyx, hu⟩ | ⟨bs, hxy, hv⟩
  · cases as with
    | nil => exact ⟨by rw [hyx, List.append_nil], (List.cons.inj hu).2⟩
    | cons c as =>
        obtain ⟨rfl, -⟩ := List.cons.inj hu
        exact absurd (hyx ▸ List.mem_append_right x List.mem_cons_self) hy
  · cases bs with
    | nil => exact ⟨by rw [hxy, List.append_nil], (List.cons.inj hv).2.symm⟩
    | cons c bs =>
        obtain ⟨rfl, -⟩ := List.cons.inj hv
        exact absurd (hxy ▸ List.mem_append_right y List.mem_cons_self) hx

/-! ## Names -/

theorem ne_of_mem_relationName {r : List Char} {a c : Char} (h : isRelationName r = true)
    (hc : c ∈ r) (ha : (isLower a || isDigitOrLine a) = false) : c ≠ a := by
  cases r with
  | nil => cases hc
  | cons d r =>
      rw [isRelationName, Bool.and_eq_true, List.all_eq_true] at h
      rintro rfl
      rcases List.mem_cons.mp hc with rfl | hc
      · rw [h.1] at ha
        cases ha
      · rw [h.2 _ hc] at ha
        cases ha

/-- A reference that is read starts with a capital letter. -/
theorem Reference.exists_isUpper {r : Reference} (h : parse r.text = .ok r) :
    ∃ c cs, isUpper c = true ∧ r.text.toList = c :: cs := by
  obtain ⟨-, t, k, ht, -, htext⟩ := parse_eq_ok_iff.mp h
  cases t with
  | nil => cases ht
  | cons c t =>
      rw [isTypeName, Bool.and_eq_true] at ht
      exact ⟨c, t ++ '|' :: k, ht.1, htext⟩

namespace EdgeKey

/-- The names of an edge are such as can be read. -/
structure WellNamed (k : EdgeKey) : Prop where
  source : Reference.parse k.source.text = .ok k.source
  relation : isRelationName k.relation.toList = true
  target : Reference.parse k.target.text = .ok k.target

/-- What stands between the source and the target. -/
def arrow (k : EdgeKey) : String := " -[" ++ k.relation ++ "]-> "

/-- The source of the second edge runs over the arrow of the first, and the target of
    the first over that of the second. -/
def Overlaps (k l : EdgeKey) : Prop :=
  ∃ mid, l.source.text = k.source.text ++ k.arrow ++ mid ∧
    k.target.text = mid ++ l.arrow ++ l.target.text

variable {k l : EdgeKey}

theorem display_eq (k : EdgeKey) :
    k.display = k.source.text ++ (k.arrow ++ k.target.text) := by
  rw [display, arrow, String.append_assoc, String.append_assoc, String.append_assoc,
    String.append_assoc, String.append_assoc]

/-- Edges that overlap are displayed alike. -/
theorem Overlaps.display_eq (h : k.Overlaps l) : k.display = l.display := by
  obtain ⟨mid, hsource, htarget⟩ := h
  rw [EdgeKey.display_eq, EdgeKey.display_eq, hsource, htarget]
  simp only [String.append_assoc]

/-- Behind an arrow no arrow starts, and neither within it: if what is behind the first
    source is some text and then an arrow, the text is nothing, or starts with the whole
    first arrow. -/
theorem exists_of_arrow_append (hk : k.WellNamed) {m u : List Char} (hm : m ≠ [])
    (h : k.arrow.toList ++ k.target.text.toList = m ++ (l.arrow.toList ++ u)) :
    ∃ mid, m = k.arrow.toList ++ mid ∧ k.target.text.toList = mid ++
      (l.arrow.toList ++ u) := by
  have harrow : ∀ e : EdgeKey,
      e.arrow.toList = ' ' :: ('-' :: '[' :: (e.relation.toList ++ [']', '-', '>']) ++
        [' ']) := by
    intro e
    simp [arrow]
  rcases List.append_eq_append_iff.mp h with ⟨mid, hm', htarget⟩ | ⟨bs, hsplit, hrest⟩
  · exact ⟨mid, hm', htarget⟩
  · cases bs with
    | nil =>
        exact ⟨[], by
          rw [hsplit]; simp, by rw [← List.nil_append k.target.text.toList, ← hrest]; rfl⟩
    | cons b bs =>
        obtain ⟨c, m, rfl⟩ := List.exists_cons_of_ne_nil hm
        rw [harrow l, List.cons_append] at hrest
        obtain ⟨rfl, hbehind⟩ := List.cons.inj hrest
        rw [harrow k, List.cons_append] at hsplit
        -- the only blank behind the start of the arrow is its last character
        have hblank : ' ' ∉ '-' :: '[' :: (k.relation.toList ++ [']', '-', '>']) := by
          simp only [List.mem_cons, List.mem_append, List.not_mem_nil, or_false]
          have hrelation : ' ' ∉ k.relation.toList := fun hc =>
            ne_of_mem_relationName hk.relation hc (by decide) rfl
          simp [hrelation]
        obtain ⟨-, -, rfl⟩ := (List.append_cons_inj_of_notMem hblank List.not_mem_nil).mp
          (List.cons.inj hsplit).2
        -- so the target would start with a dash
        obtain ⟨d, ds, hupper, htext⟩ := Reference.exists_isUpper hk.target
        have hdash := congrArg List.head? (hbehind.trans htext)
        cases hdash
        exact absurd hupper (by decide)

/-- Where two edges are displayed alike and the source of the first is no longer, they
    are the same edge, or the first overlaps the second. -/
theorem eq_or_overlaps (hk : k.WellNamed) (hl : l.WellNamed) {m : List Char}
    (hsource : l.source.text.toList = k.source.text.toList ++ m)
    (hrest : k.arrow.toList ++ k.target.text.toList = m ++
      (l.arrow.toList ++ l.target.text.toList)) :
    k = l ∨ k.Overlaps l := by
  by_cases hm : m = []
  · left
    rw [hm, List.append_nil] at hsource
    rw [hm, List.nil_append] at hrest
    have hsplit : k.relation.toList ++ ']' :: ('-' :: '>' :: ' ' :: k.target.text.toList) =
        l.relation.toList ++ ']' :: ('-' :: '>' :: ' ' :: l.target.text.toList) := by
      simpa [arrow] using hrest
    -- a relation holds no bracket, so the first one ends it on both sides
    have hmark : ∀ {e : EdgeKey}, e.WellNamed → ']' ∉ e.relation.toList := fun he hc =>
      ne_of_mem_relationName he.relation hc (by decide) rfl
    obtain ⟨hrelation, htarget⟩ := eq_of_append_mark (hmark hk) (hmark hl) hsplit
    simp only [List.cons.injEq, true_and, String.toList_inj, Reference.text_inj]
      at hsource hrelation htarget
    cases k
    cases l
    exact (mk.injEq ..).mpr ⟨hsource.symm, hrelation, htarget⟩
  · right
    -- the longer source has swallowed an arrow of the other edge
    obtain ⟨mid, rfl, htarget⟩ := exists_of_arrow_append hk hm hrest
    refine ⟨String.ofList mid, String.toList_inj.mp ?_, String.toList_inj.mp ?_⟩
    · rw [String.toList_append, String.toList_append, String.toList_ofList, hsource,
        List.append_assoc]
    · rw [String.toList_append, String.toList_append, String.toList_ofList, htarget,
        List.append_assoc]

/-- **Edges are displayed alike exactly if they are the same edge or overlap.** -/
theorem display_eq_iff (hk : k.WellNamed) (hl : l.WellNamed) :
    k.display = l.display ↔ k = l ∨ k.Overlaps l ∨ l.Overlaps k := by
  constructor
  · intro h
    rw [display_eq, display_eq, ← String.toList_inj] at h
    simp only [String.toList_append] at h
    rcases List.append_eq_append_iff.mp h with ⟨m, hsource, hrest⟩ | ⟨m, hsource, hrest⟩
    · exact (eq_or_overlaps hk hl hsource hrest).imp_right .inl
    · exact (eq_or_overlaps hl hk hsource hrest).imp Eq.symm .inr
  · rintro (rfl | h | h)
    · rfl
    · exact h.display_eq
    · exact h.display_eq.symm

end EdgeKey

end ClearanceGraph
