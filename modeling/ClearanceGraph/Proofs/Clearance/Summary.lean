import ClearanceGraph.Proofs.Clearance.Notes
import Mathlib.Data.List.Induction

/-! # Summaries — one delta per object, however many instants

    A pass comes to several instants and tells, at the end, one delta per object.
    That delta is the sum of those that were found of the object (`Delta.SumsUp`):
    from the first level to the last one, and a creation among them counts unless
    the object was retracted afterwards (`Delta.Creates`).

    `Settle.Sums` is what holds of a summary while deltas are added; one delta keeps
    it (`Sums.addDelta`), so all of them do (`sums_fold`).  That a pass can be taken
    up again rests on `Filed.fold_values`: a summary is no more than its deltas. -/

namespace ClearanceGraph

namespace Delta

/-- One of some deltas creates, and no later one retracts. -/
def Creates (ds : List Delta) : Prop :=
  ∃ before d after, ds = before ++ d :: after ∧ d.kind = .created ∧
    ∀ x ∈ after, x.kind ≠ .retracted

variable {ds : List Delta} {d x : Delta}

/-- With one delta more: it creates, or it leaves a creation. -/
theorem creates_concat_iff :
    Creates (ds ++ [x]) ↔ x.kind = .created ∨ Creates ds ∧ x.kind ≠ .retracted := by
  constructor
  · rintro ⟨before, d, after, hsplit, hd, hafter⟩
    rcases List.eq_nil_or_concat' after with rfl | ⟨after, y, rfl⟩
    · obtain ⟨-, hlast⟩ := List.append_inj' hsplit rfl
      obtain rfl := List.singleton_inj.mp hlast
      exact .inl hd
    · rw [← List.cons_append, ← List.append_assoc] at hsplit
      obtain ⟨rfl, hlast⟩ := List.append_inj' hsplit rfl
      obtain rfl := List.singleton_inj.mp hlast
      refine .inr ⟨⟨before, d, after, rfl, hd, fun z hz => ?_⟩, ?_⟩
      · exact hafter z (List.mem_append_left _ hz)
      · exact hafter x (List.mem_append_right _ List.mem_cons_self)
  · rintro (hx | ⟨⟨before, d, after, rfl, hd, hafter⟩, hx⟩)
    · exact ⟨ds, x, [], rfl, hx, fun _ hno => nomatch hno⟩
    · refine ⟨before, d, after ++ [x], by rw [List.append_assoc, List.cons_append], hd, ?_⟩
      intro y hy
      rcases List.mem_append.mp hy with hy | hy
      · exact hafter y hy
      · exact List.mem_singleton.mp hy ▸ hx

theorem not_creates_nil : ¬ Creates [] := by
  rintro ⟨before, d, after, hsplit, -⟩
  exact List.append_ne_nil_of_right_ne_nil _ (List.cons_ne_nil _ _) hsplit.symm

/-- A delta sums up deltas of one object, given in their order. -/
structure SumsUp (d : Delta) (ds : List Delta) : Prop where
  /-- The level before is that of the first one. -/
  oldLevel : ds.head?.map (·.oldLevel) = some d.oldLevel
  /-- The level after is that of the last one. -/
  newLevel : ds.getLast?.map (·.newLevel) = some d.newLevel
  created : Creates ds → d.kind = .created
  /-- What is no creation is what happened last. -/
  kind : ¬ Creates ds → ds.getLast?.map (·.kind) = some d.kind

theorem sumsUp_self (d : Delta) : d.SumsUp [d] where
  oldLevel := rfl
  newLevel := rfl
  created h := by
    rw [← List.nil_append [d], creates_concat_iff] at h
    exact h.resolve_right fun hno => not_creates_nil hno.1
  kind _ := rfl

namespace SumsUp

/-- Deltas are summed up as a creation just if one of them counts as one. -/
theorem kind_eq_created_iff (h : d.SumsUp ds) : d.kind = .created ↔ Creates ds := by
  refine ⟨fun hd => ?_, h.created⟩
  by_contra hno
  have hlast := h.kind hno
  rcases List.eq_nil_or_concat' ds with rfl | ⟨ds, y, rfl⟩
  · cases hlast
  · rw [List.getLast?_concat] at hlast
    have hy : y.kind = .created := (Option.some.inj hlast).trans hd
    exact hno (creates_concat_iff.mpr (.inl hy))

/-- **A later delta on top**: what `merge` makes of a sum is the sum with one delta
    more. -/
theorem merge (h : d.SumsUp ds) (x : Delta) : (Settle.merge d x).SumsUp (ds ++ [x]) where
  oldLevel := by
    cases ds with
    | nil => cases h.oldLevel
    | cons y ds => exact h.oldLevel
  newLevel := by rw [List.getLast?_concat]; rfl
  created hcreates := by
    show (if d.kind ≠ .created ∨ x.kind = .retracted then x.kind else d.kind) = .created
    split
    · next hx =>
      rcases creates_concat_iff.mp hcreates with hcreated | ⟨hds, hstays⟩
      · exact hcreated
      · exact absurd (h.created hds) (hx.resolve_right hstays)
    · next hx => exact not_not.mp (not_or.mp hx).1
  kind hno := by
    obtain ⟨-, hstays⟩ := not_or.mp (mt creates_concat_iff.mpr hno)
    rw [List.getLast?_concat]
    show some x.kind = some (if d.kind ≠ .created ∨ x.kind = .retracted then
      x.kind else d.kind)
    rw [if_pos]
    -- a creation so far would go on counting unless the object is retracted now
    by_contra hx
    obtain ⟨hd, hgoes⟩ := not_or.mp hx
    exact hstays ⟨h.kind_eq_created_iff.mp (not_not.mp hd), hgoes⟩

end SumsUp

end Delta

namespace Settle

/-- The deltas of one object. -/
def about (r : Reference) (ds : List Delta) : List Delta :=
  ds.filter fun d => d.reference = r

theorem about_concat_self (ds : List Delta) (x : Delta) :
    about x.reference (ds ++ [x]) = about x.reference ds ++ [x] := by
  simp [about]

theorem about_concat_of_ne {r : Reference} (ds : List Delta) {x : Delta}
    (h : r ≠ x.reference) :
    about r (ds ++ [x]) = about r ds := by
  simp [about, Ne.symm h]

/-- A summary of some deltas: nothing of an object without deltas, and their sum of
    every other. -/
structure Sums (ds : List Delta) (s : Summary) : Prop where
  absent : ∀ {r}, s.get? r = none → about r ds = []
  told : ∀ {r d}, s.get? r = some d → d.SumsUp (about r ds)

variable {ds : List Delta} {s : Summary}

/-- One delta more. -/
theorem Sums.addDelta (h : Sums ds s) (x : Delta) : Sums (ds ++ [x]) (addDelta s x) where
  absent := by
    intro r hr
    rw [Settle.addDelta] at hr
    by_cases hx : r = x.reference
    · subst hx
      rw [Table.get?_insert_self] at hr
      cases hr
    · rw [Table.get?_insert_of_ne _ _ hx] at hr
      rw [about_concat_of_ne ds hx, h.absent hr]
  told := by
    intro r d hd
    rw [Settle.addDelta] at hd
    by_cases hx : r = x.reference
    · subst hx
      rw [Table.get?_insert_self] at hd
      obtain rfl := Option.some.inj hd
      rw [about_concat_self]
      -- the first delta of an object is its summary
      cases hfirst : s.get? x.reference with
      | none =>
          rw [h.absent hfirst]
          exact x.sumsUp_self
      | some first => exact (h.told hfirst).merge x
    · rw [Table.get?_insert_of_ne _ _ hx] at hd
      rw [about_concat_of_ne ds hx]
      exact h.told hd

theorem fold_append (s : Summary) (xs ys : List Delta) :
    fold s (xs ++ ys) = fold (fold s xs) ys := List.foldl_append

theorem foldl_fold (s : Summary) (dss : List (List Delta)) :
    dss.foldl fold s = fold s dss.flatten := List.foldl_flatten.symm

theorem sums_fold (ds : List Delta) : Sums ds (fold Table.empty ds) := by
  induction ds using List.reverseRecOn with
  | nil => exact ⟨fun _ => rfl, fun h => nomatch h⟩
  | append_singleton ds x ih =>
      rw [fold_append]
      exact ih.addDelta x

/-- **Folding sums up what is told of each object**, and can be taken up again. An
    object has an entry if it has deltas, and the entry is their sum. How the deltas
    come in lists does not matter, nor does it if folding stops and starts over from the
    deltas of the summary so far. -/
theorem foldl_fold_sums (dss : List (List Delta)) :
    (∀ r, ((dss.foldl fold Table.empty).get? r = none ↔ about r dss.flatten = []) ∧
      ∀ d, (dss.foldl fold Table.empty).get? r = some d →
        d.reference = r ∧ d.SumsUp (about r dss.flatten)) ∧
    (∀ (s : Summary) xs ys, fold (fold s xs) ys = fold s (xs ++ ys)) ∧
    ∀ ys, fold (fold Table.empty (dss.foldl fold Table.empty).values) ys =
      fold (dss.foldl fold Table.empty) ys := by
  rw [foldl_fold]
  have hsums : Sums dss.flatten (fold Table.empty dss.flatten) := sums_fold _
  have hfiled : Filed (fold Table.empty dss.flatten) := filed_empty.fold _
  refine ⟨fun r =>
    ⟨⟨hsums.absent, fun hnil => ?_⟩, fun d hd => ⟨hfiled r d hd, hsums.told hd⟩⟩,
    fun s xs ys => (fold_append s xs ys).symm, fun ys => ?_⟩
  · by_contra hsome
    obtain ⟨d, hd⟩ := Option.ne_none_iff_exists'.mp hsome
    have hold := (hsums.told hd).oldLevel
    rw [hnil] at hold
    cases hold
  · rw [hfiled.fold_values]

end Settle

end ClearanceGraph
