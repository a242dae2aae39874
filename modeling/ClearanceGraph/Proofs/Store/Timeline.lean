import ClearanceGraph.Proofs.Store.History

/-! # Timelines — a history agrees with what shows

    A query takes the greatest of the versions that have started, in the order in
    which they were written.  A history sorts all versions and closes each where the
    next one starts.  Versions of one valid time leave intervals that are empty, but
    for the last of them, and a stable sort puts last the one that a query takes.

    The heart is `getLast?_started`: of sorted versions, the one whose interval
    contains an instant is the last one that has started.  Headline:
    `exists_timeline`. -/

namespace ClearanceGraph

theorem Interval.contains_iff {i : Interval} {u : Instant} :
    i.contains u = true ↔ i.start ≤ u ∧ ∀ e, i.stop = some e → u < e := by
  rw [contains, Bool.and_eq_true, decide_eq_true_eq, Option.all_eq_true]
  simp only [decide_eq_true_eq]

namespace Store

variable {vs : List Version} {d : Dated} {u : Instant}

/-! ## Intervals of sorted versions -/

/-- Of some versions, those that have started at an instant. -/
def started (u : Instant) (vs : List Version) : List Version :=
  vs.filter fun v => v.validFrom ≤ u

theorem started_cons_of_le {v : Version} (h : v.validFrom ≤ u) (vs : List Version) :
    started u (v :: vs) = v :: started u vs := by
  rw [started, List.filter_cons_of_pos (by simpa using h), started]

theorem started_cons_of_lt {v : Version} (h : u < v.validFrom) (vs : List Version) :
    started u (v :: vs) = started u vs := by
  rw [started, List.filter_cons_of_neg (by simpa using h), started]

/-- The intervals of sorted versions follow upon each other. -/
theorem isChain_datedBy (vs : List Version) :
    (datedBy vs).IsChain fun d e => d.valid.stop = some e.valid.start := by
  induction vs with
  | nil => exact .nil
  | cons v vs ih =>
      cases vs with
      | nil => exact .singleton _
      | cons w ws => exact List.isChain_cons_cons.mpr ⟨rfl, ih⟩

/-- An interval starts where its version does. -/
theorem version_mem_of_mem_datedBy (hd : d ∈ datedBy vs) : d.version ∈ vs := by
  rw [← map_version_datedBy vs]
  exact List.mem_map_of_mem hd

/-- The first interval contains what lies between its version and the next one. -/
theorem contains_first_iff (v : Version) (vs : List Version) :
    Interval.contains ⟨v.validFrom, vs.head?.map (·.validFrom)⟩ u = true ↔
      v.validFrom ≤ u ∧ ∀ w, vs.head? = some w → u < w.validFrom := by
  rw [Interval.contains_iff]
  refine and_congr_right fun _ => ?_
  constructor
  · intro h w hw
    exact h w.validFrom (by rw [hw]; rfl)
  · intro h e he
    obtain ⟨w, hw, rfl⟩ := Option.map_eq_some_iff.mp he
    exact h w hw

section Sorted

variable (h : vs.Pairwise fun v w => v.validFrom ≤ w.validFrom)

include h

/-- Before the first of sorted versions none has started. -/
theorem started_eq_nil (hno : ∀ w, vs.head? = some w → u < w.validFrom) :
    started u vs = [] := by
  cases vs with
  | nil => rfl
  | cons w ws =>
      obtain ⟨hw, -⟩ := List.pairwise_cons.mp h
      have hlt : u < w.validFrom := hno w rfl
      refine List.filter_eq_nil_iff.mpr fun v hv => ?_
      rw [decide_eq_true_eq, not_le]
      rcases List.mem_cons.mp hv with rfl | hv
      · exact hlt
      · exact lt_of_lt_of_le hlt (hw v hv)

/-- **The version whose interval contains an instant** is the last one that has
    started. -/
theorem getLast?_started (hd : d ∈ datedBy vs) (hu : d.valid.contains u = true) :
    (started u vs).getLast? = some d.version := by
  induction vs with
  | nil => cases hd
  | cons v vs ih =>
      obtain ⟨hv, hvs⟩ := List.pairwise_cons.mp h
      rcases List.mem_cons.mp hd with rfl | hd
      -- nothing behind the first version has started
      · obtain ⟨hle, hnext⟩ := (contains_first_iff v vs).mp hu
        rw [started_cons_of_le hle, started_eq_nil hvs hnext]
        rfl
      · have hle : v.validFrom ≤ u := by
          have hstart := (Interval.contains_iff.mp hu).1
          exact le_trans (hv _ (version_mem_of_mem_datedBy hd)) hstart
        rw [started_cons_of_le hle, List.getLast?_cons, ih hvs hd]
        rfl

/-- An instant lies in some interval as soon as a version has started. -/
theorem exists_contains (hne : started u vs ≠ []) :
    ∃ d ∈ datedBy vs, d.valid.contains u = true := by
  induction vs with
  | nil => exact absurd rfl hne
  | cons v vs ih =>
      obtain ⟨-, hvs⟩ := List.pairwise_cons.mp h
      by_cases hlater : started u vs = []
      · -- the first version has started, and the next one has not
        have hle : v.validFrom ≤ u := by
          by_contra hnot
          rw [started_cons_of_lt (lt_of_not_ge hnot)] at hne
          exact hne hlater
        refine ⟨_, List.mem_cons_self, (contains_first_iff v vs).mpr ⟨hle, fun w hw => ?_⟩⟩
        have hmem : w ∈ vs := List.mem_of_mem_head? hw
        have hnot := List.filter_eq_nil_iff.mp hlater w hmem
        rwa [decide_eq_true_eq, not_le] at hnot
      · obtain ⟨d, hd, hu⟩ := ih hvs hlater
        exact ⟨d, List.mem_cons_of_mem _ hd, hu⟩

/-- No instant lies in two intervals. -/
theorem pairwise_disjoint_datedBy : (datedBy vs).Pairwise fun d e =>
    ∀ u, ¬ (d.valid.contains u = true ∧ e.valid.contains u = true) := by
  induction vs with
  | nil => exact .nil
  | cons v vs ih =>
      obtain ⟨-, hvs⟩ := List.pairwise_cons.mp h
      refine List.pairwise_cons.mpr ⟨fun e he u hu => ?_, ih hvs⟩
      -- the second interval starts with a later version, before which the first one ends
      obtain ⟨-, hnext⟩ := (contains_first_iff v vs).mp hu.1
      have hlast := getLast?_started hvs he hu.2
      rw [started_eq_nil hvs hnext] at hlast
      cases hlast

/-- Together the intervals contain the instants from the first version on. -/
theorem exists_contains_iff : (∃ d ∈ datedBy vs, d.valid.contains u = true) ↔
    ∃ d, (datedBy vs).head? = some d ∧ d.valid.start ≤ u := by
  cases vs with
  | nil => simp [datedBy]
  | cons v vs =>
      constructor
      · rintro ⟨d, hd, hu⟩
        refine ⟨_, rfl, ?_⟩
        by_contra hnot
        -- before the first version none has started
        have hlast := getLast?_started h hd hu
        rw [started_eq_nil h fun w hw => Option.some.inj hw ▸ lt_of_not_ge hnot] at hlast
        cases hlast
      · rintro ⟨d, hd, hle⟩
        obtain rfl := Option.some.inj hd
        refine exists_contains h ?_
        rw [started_cons_of_le hle]
        exact List.cons_ne_nil _ _

end Sorted

/-! ## The history of a key -/

/-- The version that shows is the last one that has started, once they are sorted. -/
theorem showing_eq_getLast? (u : Instant) (vs : List Version) :
    showing u vs = (started u (sortBy Version.order vs)).getLast? := by
  have hsorted : (started u (sortBy Version.order vs)).Pairwise
      fun v w => Version.order v w ≠ .gt := by
    refine ((pairwise_sortBy vs).filter _).imp fun {v w} hle hgt => ?_
    rw [hgt] at hle
    cases hle
  rw [← lastMax?_eq_getLast? hsorted]
  exact (lastMax?_filter_sortBy _ vs).symm

/-- Versions in order are so by their valid times, and then by their commits. -/
theorem lt_or_eq_of_order_isLE {v w : Version} (h : (Version.order v w).isLE = true) :
    v.validFrom < w.validFrom ∨ v.validFrom = w.validFrom ∧
    v.transaction ≤ w.transaction := by
  rcases lt_or_eq_of_le (compare_validFrom_isLE h) with hlt | heq
  · exact .inl hlt
  · refine .inr ⟨heq, ?_⟩
    have hself : compare v.validFrom w.validFrom = .eq := by
      rw [heq]
      exact Std.ReflCmp.compare_self
    rw [Version.order, hself] at h
    exact Nat.isLE_compare.mp h

/-- What a history says of a key: its versions in order, with intervals that follow upon
    each other from the first version on, and each instant belongs to the version that
    shows. -/
structure Timeline (s : Store) (k : DocumentKey) (ds : List Dated) : Prop where
  /-- The versions are those of the key. -/
  versions : (ds.map Dated.version).Perm (s.versionsOf k)
  /-- They are in the order of their valid times, and then of their commits. -/
  ordered : ds.Pairwise fun d e => d.valid.start < e.valid.start ∨
    d.valid.start = e.valid.start ∧ d.transaction ≤ e.transaction
  /-- Each interval ends where the next one starts. -/
  consecutive : ds.IsChain fun d e => d.valid.stop = some e.valid.start
  /-- No instant lies in two of them. -/
  disjoint : ds.Pairwise fun d e =>
    ∀ u, ¬ (d.valid.contains u = true ∧ e.valid.contains u = true)
  /-- Together they contain the instants from the first version on. -/
  covers : ∀ u, (∃ d ∈ ds, d.valid.contains u = true) ↔ ∃ d, ds.head? = some d ∧
    d.valid.start ≤ u
  /-- A query finds the document of the version whose interval contains the instant. -/
  shows : ∀ u, ∀ d ∈ ds, d.valid.contains u = true → s.query u (.key k) = d.document.toList
  /-- A query finds nothing where no interval contains the instant. -/
  silent : ∀ u, (∀ d ∈ ds, d.valid.contains u = false) → s.query u (.key k) = []

/-- **A history and what shows agree**: a history does not fail, and it tells of every
    instant what a query finds there. -/
theorem exists_timeline (s : Store) (k : DocumentKey) :
    ∃ ds, s.history k = .ok ds ∧ s.Timeline k ds := by
  let vs := sortBy Version.order (s.versionsOf k)
  -- in the order of valid times; what shows is the last one that has started
  have hsorted : vs.Pairwise fun v w => v.validFrom ≤ w.validFrom := pairwise_sortBy_order _
  have hshows :
      ∀ u, s.query u (.key k) = ((started u vs).getLast?.bind (·.document)).toList := by
    intro u
    rw [query, visible, showing_eq_getLast?]
  refine ⟨datedBy vs, history_eq_datedBy s k, ?_⟩
  constructor
  case versions =>
    rw [map_version_datedBy]
    exact perm_sortBy _
  case ordered =>
    have horder : ((datedBy vs).map Dated.version).Pairwise fun v w =>
        (Version.order v w).isLE = true := by
      rw [map_version_datedBy]
      exact pairwise_sortBy _
    exact (List.pairwise_map.mp horder).imp lt_or_eq_of_order_isLE
  case consecutive => exact isChain_datedBy vs
  case disjoint => exact pairwise_disjoint_datedBy hsorted
  case covers =>
    intro u
    exact exists_contains_iff hsorted
  case shows =>
    intro u d hd hu
    rw [hshows, getLast?_started hsorted hd hu]
    rfl
  case silent =>
    intro u hno
    have hnil : started u vs = [] := by
      by_contra hne
      obtain ⟨d, hd, hu⟩ := exists_contains hsorted hne
      rw [hno d hd] at hu
      cases hu
    rw [hshows, hnil]
    rfl

/-- An object that is put twice in one transaction: the first version shows nowhere. -/
example : ((ofTransactions [⟨default, [
      .put (.content (.object ⟨⟨"Host|a"⟩, "Host", Table.empty⟩)),
      .put (.content (.object ⟨⟨"Host|a"⟩, "Server", Table.empty⟩))]⟩]).history
        (.fact (.object ⟨"Host|a"⟩))).toOption.map (·.map (·.valid)) =
    some [⟨default, some default⟩, ⟨default, none⟩] := by decide +kernel

end Store

end ClearanceGraph
