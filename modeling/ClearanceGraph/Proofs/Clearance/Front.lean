import ClearanceGraph.Clearance.Front
import ClearanceGraph.Proofs.Order.Choice
import ClearanceGraph.Proofs.Order.Table
import Mathlib.Data.List.Induction
import Mathlib.Data.List.Pairwise

/-! # Fronts — what is left of a sequence of offers

    An offer is either covered by what is kept, and then nothing changes, or it
    is kept and what it beats goes (`offer_of_covers`, `offer_of_not_covers`).
    Both leave three things as they are: no kept arrival beats another one,
    every offered arrival is covered, and a kept arrival is the first one that
    was offered with its depth and level.  These three are the invariant
    `Exact`, and they fix the fronts: after any sequence of offers the kept
    arrivals are the first ones of those that no offered arrival beats
    (`offerEach_exact`).

    The best level of an object is read off an antichain in
    `exists_of_best_eq_some`, once for offers and for walks. -/

namespace ClearanceGraph

namespace Level

theorem le_iff {a b : Level} : a ≤ b ↔ a.value ≤ b.value := Iff.rfl

/-- Levels of one value are equal. -/
theorem ext_value {a b : Level} (h : a.value = b.value) : a = b := by
  cases a; cases b
  simpa using h

theorem le_antisymm {a b : Level} (hab : a ≤ b) (hba : b ≤ a) : a = b :=
  ext_value (Nat.le_antisymm hab hba)

end Level

namespace Arrival

/-- An arrival is dominated by one that comes as early, with a level as high. -/
theorem dominatedBy_iff {a b : Arrival} :
    a.dominatedBy b = true ↔ b.depth ≤ a.depth ∧ a.level ≤ b.level := by
  simp [dominatedBy]

theorem dominatedBy_refl (a : Arrival) : a.dominatedBy a = true :=
  dominatedBy_iff.mpr ⟨Nat.le_refl _, Nat.le_refl _⟩

theorem dominatedBy_trans {a b c : Arrival} (hab : a.dominatedBy b = true)
    (hbc : b.dominatedBy c = true) : a.dominatedBy c = true := by
  rw [dominatedBy_iff] at hab hbc ⊢
  exact ⟨Nat.le_trans hbc.1 hab.1, Nat.le_trans hab.2 hbc.2⟩

/-- Two arrivals that dominate each other have one depth and one level. -/
theorem eq_of_dominatedBy {a b : Arrival} (hab : a.dominatedBy b = true)
    (hba : b.dominatedBy a = true) : a.depth = b.depth ∧ a.level = b.level := by
  rw [dominatedBy_iff] at hab hba
  exact ⟨Nat.le_antisymm hba.1 hab.1, Level.le_antisymm hab.2 hba.2⟩

end Arrival

namespace Fronts

/-! ## Keeping an arrival -/

section Keeping

variable (f : Fronts) (r : Reference) (a : Arrival)

/-- Whether some kept arrival is at least as good as an arrival. -/
def Covers (f : Fronts) (r : Reference) (a : Arrival) : Prop :=
  ∃ k ∈ f.front r, a.dominatedBy k = true

instance : Decidable (f.Covers r a) :=
  inferInstanceAs (Decidable (∃ k ∈ f.front r, a.dominatedBy k = true))

theorem front_insert_self (as : List Arrival) : front (f.insert r as) r = as := by
  rw [front, Table.get?_insert_self, Option.getD_some]

theorem front_insert_of_ne {q : Reference} (as : List Arrival) (h : q ≠ r) :
    front (f.insert r as) q = f.front q := by
  rw [front, Table.get?_insert_of_ne _ _ h, front]

/-- A covered arrival changes nothing. -/
theorem offer_of_covers (h : f.Covers r a) : f.offer r a = (false, f) := by
  have hany : (f.front r).any a.dominatedBy = true := List.any_eq_true.mpr h
  rw [offer, if_pos hany]

/-- The fronts after keeping an arrival. -/
def keep : Fronts := f.insert r ((f.front r).filter (fun b => !b.dominatedBy a) ++ [a])

/-- An arrival that is not covered is kept. -/
theorem offer_of_not_covers (h : ¬ f.Covers r a) : f.offer r a = (true, f.keep r a) := by
  have hany : (f.front r).any a.dominatedBy ≠ true := fun hc => h (List.any_eq_true.mp hc)
  rw [offer, if_neg hany, keep]

end Keeping

variable {f : Fronts} {r : Reference} {a : Arrival}

/-- A kept arrival comes last, after those that it does not dominate. -/
theorem front_keep_self :
    (f.keep r a).front r = (f.front r).filter (fun b => !b.dominatedBy a) ++ [a] :=
  front_insert_self f r _

theorem front_keep_of_ne {q : Reference} (h : q ≠ r) : (f.keep r a).front q = f.front q :=
  front_insert_of_ne f r _ h

/-- What is kept was kept before, or is the new arrival. -/
theorem mem_front_keep {q : Reference} {k : Arrival} (h : k ∈ (f.keep r a).front q) :
    k ∈ f.front q ∨ (q = r ∧ k = a) := by
  by_cases hq : q = r
  · subst hq
    rw [front_keep_self, List.mem_append, List.mem_singleton] at h
    rcases h with h | h
    · exact .inl (List.mem_filter.mp h).1
    · exact .inr ⟨rfl, h⟩
  · rw [front_keep_of_ne hq] at h
    exact .inl h

theorem covers_keep_self : (f.keep r a).Covers r a := by
  refine ⟨a, ?_, a.dominatedBy_refl⟩
  rw [front_keep_self]
  exact List.mem_append_right _ List.mem_cons_self

/-- What is covered stays covered: an arrival only goes for a better one. -/
theorem Covers.keep {q : Reference} {b : Arrival} (h : f.Covers q b) :
    (f.keep r a).Covers q b := by
  obtain ⟨k, hk, hbk⟩ := h
  by_cases hq : q = r
  · subst hq
    by_cases hka : k.dominatedBy a = true
    · refine ⟨a, ?_, Arrival.dominatedBy_trans hbk hka⟩
      rw [front_keep_self]
      exact List.mem_append_right _ List.mem_cons_self
    · refine ⟨k, ?_, hbk⟩
      rw [front_keep_self]
      refine List.mem_append_left _ (List.mem_filter.mpr ⟨hk, ?_⟩)
      simpa using hka
  · refine ⟨k, ?_, hbk⟩
    rw [front_keep_of_ne hq]
    exact hk

/-- Keeping an arrival that is not covered leaves no arrival that another one beats. -/
theorem antichain_keep (hc : ¬ f.Covers r a)
    (h : ∀ r, (f.front r).Pairwise fun x y => ¬ x.dominatedBy y ∧ ¬ y.dominatedBy x)
    (q : Reference) :
    ((f.keep r a).front q).Pairwise fun x y => ¬ x.dominatedBy y ∧ ¬ y.dominatedBy x := by
  by_cases hq : q = r
  · subst hq
    rw [front_keep_self, List.pairwise_append]
    refine ⟨(h q).filter _, List.pairwise_singleton _ _, fun x hx y hy => ?_⟩
    obtain rfl := List.mem_singleton.mp hy
    obtain ⟨hxf, hxy⟩ := List.mem_filter.mp hx
    refine ⟨by simpa using hxy, fun hyx => hc ⟨x, hxf, hyx⟩⟩
  · rw [front_keep_of_ne hq]
    exact h q

/-! ## The best of an antichain -/

/-- In an antichain only an arrival itself dominates it. -/
theorem eq_of_antichain {as : List Arrival}
    (h : as.Pairwise fun x y => ¬ x.dominatedBy y ∧ ¬ y.dominatedBy x) {x y : Arrival}
    (hx : x ∈ as) (hy : y ∈ as) (hxy : x.dominatedBy y = true) : x = y := by
  have : Std.Symm fun x y : Arrival => ¬ x.dominatedBy y ∧ ¬ y.dominatedBy x :=
    ⟨fun _ _ hne => hne.symm⟩
  by_contra hne
  exact (h.forall hx hy hne).1 hxy

/-- Of an antichain, at most one arrival has a given level. -/
theorem eq_of_level_eq {as : List Arrival}
    (h : as.Pairwise fun x y => ¬ x.dominatedBy y ∧ ¬ y.dominatedBy x) {x y : Arrival}
    (hx : x ∈ as) (hy : y ∈ as) (hl : x.level = y.level) : x = y := by
  have hle : x.level ≤ y.level ∧ y.level ≤ x.level := by
    rw [hl]
    exact ⟨Nat.le_refl _, Nat.le_refl _⟩
  rcases Nat.le_total y.depth x.depth with hd | hd
  · exact eq_of_antichain h hx hy (Arrival.dominatedBy_iff.mpr ⟨hd, hle.1⟩)
  · exact (eq_of_antichain h hy hx (Arrival.dominatedBy_iff.mpr ⟨hd, hle.2⟩)).symm

/-- In an antichain no two arrivals have one level. -/
private theorem filter_level_eq_singleton {as : List Arrival}
    (h : as.Pairwise fun x y => ¬ x.dominatedBy y ∧ ¬ y.dominatedBy x) (ha : a ∈ as) :
    as.filter (·.level == a.level) = [a] := by
  have hne : as.Pairwise (· ≠ ·) := h.imp fun {x y} hxy heq => by
    subst heq
    exact hxy.1 x.dominatedBy_refl
  have hmem : a ∈ as.filter (·.level == a.level) :=
    List.mem_filter.mpr ⟨ha, beq_self_eq_true _⟩
  have hall : ∀ x ∈ as.filter (·.level == a.level), x = a := fun x hx => by
    obtain ⟨hx, hl⟩ := List.mem_filter.mp hx
    exact eq_of_level_eq h hx ha (eq_of_beq hl)
  have hne' := hne.filter (·.level == a.level)
  revert hmem hall hne'
  cases as.filter (·.level == a.level) with
  | nil => intro hmem; cases hmem
  | cons x xs =>
      intro _ hall hne'
      obtain rfl := hall x List.mem_cons_self
      cases xs with
      | nil => rfl
      | cons y ys =>
          have hxy := (List.pairwise_cons.mp hne').1 y List.mem_cons_self
          exact absurd (hall y (List.mem_cons_of_mem _ List.mem_cons_self)).symm hxy

/-- The highest level is one of the levels, and the greatest of them. -/
private theorem highest?_isGreatest {as : List Arrival} {l : Level}
    (h : highest? as = some l) :
    (∃ a ∈ as, a.level = l) ∧ ∀ a ∈ as, a.level ≤ l := by
  constructor
  · exact List.mem_map.mp (mem_of_lastMax? h)
  · intro a ha
    have hle := isLE_of_lastMax? h a.level (List.mem_map.mpr ⟨a, ha, rfl⟩)
    rw [Level.le_iff]
    exact Nat.isLE_compare.mp hle

/-- There is no best arrival exactly if none was kept. -/
theorem best_eq_none_iff : f.best r = none ↔ f.front r = [] := by
  rw [best, Option.map_eq_none_iff, highest?, lastMax?_eq_none_iff, List.map_eq_nil_iff]

/-- Where no kept arrival beats another one, the best level comes with one inheritance:
    nothing that is covered has a higher level, or this one in fewer hops. -/
theorem exists_of_best_eq_some
    (h : (f.front r).Pairwise fun x y => ¬ x.dominatedBy y ∧ ¬ y.dominatedBy x) {l : Level}
    {is : List Inheritance} (hbest : f.best r = some (l, is)) :
    ∃ k ∈ f.front r, l = k.level ∧ is = [k.toInheritance] ∧
      ∀ x, f.Covers r x → x.level ≤ k.level ∧ (x.level = k.level → k.depth ≤ x.depth) := by
  obtain ⟨m, hm, he⟩ := Option.map_eq_some_iff.mp hbest
  obtain ⟨rfl, rfl⟩ := Prod.mk.inj he
  obtain ⟨⟨k, hk, rfl⟩, hmax⟩ := highest?_isGreatest hm
  refine ⟨k, hk, rfl, ?_, ?_⟩
  · rw [filter_level_eq_singleton h hk]
    rfl
  · rintro x ⟨y, hy, hxy⟩
    obtain ⟨hdepth, hlevel⟩ := Arrival.dominatedBy_iff.mp hxy
    refine ⟨Nat.le_trans hlevel (hmax y hy), fun hl => ?_⟩
    -- what covers an arrival as high as the best one is the best one
    obtain rfl : y = k :=
      eq_of_level_eq h hy hk (Level.le_antisymm (hmax y hy) (hl ▸ hlevel))
    exact hdepth

/-! ## A sequence of offers -/

/-- The fronts after some offers. -/
def offerEach (os : List (Reference × Arrival)) : Fronts :=
  os.foldl (fun f o => (f.offer o.1 o.2).2) Table.empty

/-- Offers are made one after another. -/
theorem offerEach_concat (os : List (Reference × Arrival)) (r : Reference) (a : Arrival) :
    offerEach (os ++ [(r, a)]) = ((offerEach os).offer r a).2 := by
  rw [offerEach, List.foldl_append, ← offerEach]
  rfl

/-- An arrival is offered at an object, and none of its depth and level was offered
    there before. -/
def FirstAt (os : List (Reference × Arrival)) (r : Reference) (a : Arrival) : Prop :=
  ∃ before after, os = before ++ (r, a) :: after ∧
    ∀ x, (r, x) ∈ before → x.depth = a.depth → x.level ≠ a.level

namespace FirstAt

variable {os : List (Reference × Arrival)}

/-- A first arrival was offered. -/
theorem mem (h : FirstAt os r a) : (r, a) ∈ os := by
  obtain ⟨before, after, rfl, -⟩ := h
  exact List.mem_append_right _ List.mem_cons_self

/-- More offers leave what came first. -/
theorem concat (h : FirstAt os r a) (o : Reference × Arrival) :
    FirstAt (os ++ [o]) r a := by
  obtain ⟨before, after, rfl, hfirst⟩ := h
  exact ⟨before, after ++ [o], by rw [List.append_assoc, List.cons_append], hfirst⟩

/-- Of the arrivals with one depth and one level only one is the first. -/
theorem unique {b : Arrival} (ha : FirstAt os r a) (hb : FirstAt os r b)
    (hdepth : a.depth = b.depth) (hlevel : a.level = b.level) : a = b := by
  obtain ⟨as, as', rfl, hfirst⟩ := ha
  obtain ⟨bs, bs', hsplit, hfirst'⟩ := hb
  rcases List.append_eq_append_iff.mp hsplit with ⟨xs, rfl, hrest⟩ | ⟨xs, rfl, hrest⟩
  · cases xs with
    | nil => exact (Prod.mk.inj (List.cons.inj hrest).1).2
    | cons x xs =>
        obtain rfl := (List.cons.inj hrest).1
        exact absurd hlevel
          (hfirst' a (List.mem_append_right _ List.mem_cons_self) hdepth)
  · cases xs with
    | nil => exact (Prod.mk.inj (List.cons.inj hrest).1).2.symm
    | cons x xs =>
        obtain rfl := (List.cons.inj hrest).1
        exact absurd hlevel.symm
          (hfirst b (List.mem_append_right _ List.mem_cons_self) hdepth.symm)

end FirstAt

/-- What holds of the fronts after some offers. -/
structure Exact (os : List (Reference × Arrival)) (f : Fronts) : Prop where
  /-- No kept arrival beats another one. -/
  antichain : ∀ r, (f.front r).Pairwise fun x y => ¬ x.dominatedBy y ∧ ¬ y.dominatedBy x
  /-- Every offered arrival is covered. -/
  covers : ∀ {r a}, (r, a) ∈ os → f.Covers r a
  /-- A kept arrival is the first one with its depth and level. -/
  first : ∀ {r a}, a ∈ f.front r → FirstAt os r a

namespace Exact

variable {os : List (Reference × Arrival)}

/-- An offer keeps the invariant. -/
theorem offer (h : Exact os f) (r : Reference) (a : Arrival) :
    Exact (os ++ [(r, a)]) (f.offer r a).2 := by
  by_cases hc : f.Covers r a
  · rw [f.offer_of_covers r a hc]
    refine ⟨h.antichain, ?_, fun hk => (h.first hk).concat _⟩
    intro q x hx
    rcases List.mem_append.mp hx with hx | hx
    · exact h.covers hx
    · obtain ⟨rfl, rfl⟩ := Prod.mk.inj (List.mem_singleton.mp hx)
      exact hc
  · rw [f.offer_of_not_covers r a hc]
    refine ⟨antichain_keep hc h.antichain, ?_, ?_⟩
    · intro q x hx
      rcases List.mem_append.mp hx with hx | hx
      · exact (h.covers hx).keep
      · obtain ⟨rfl, rfl⟩ := Prod.mk.inj (List.mem_singleton.mp hx)
        exact covers_keep_self
    · intro q k hk
      rcases mem_front_keep hk with hk | ⟨rfl, rfl⟩
      · exact (h.first hk).concat _
      · -- one of its depth and level, offered before, would be covered and so cover it
        refine ⟨os, [], rfl, fun x hx hdepth hlevel => hc ?_⟩
        obtain ⟨y, hy, hxy⟩ := h.covers hx
        refine ⟨y, hy, Arrival.dominatedBy_trans (Arrival.dominatedBy_iff.mpr ?_) hxy⟩
        exact ⟨Nat.le_of_eq hdepth, Nat.le_of_eq (congrArg Level.value hlevel.symm)⟩

/-- **The fronts are exact** after any offers. -/
theorem offerEach (os : List (Reference × Arrival)) : Exact os (offerEach os) := by
  induction os using List.reverseRecOn with
  | nil => exact ⟨fun _ => .nil, fun h => (List.not_mem_nil h).elim, fun h => by cases h⟩
  | append_singleton os o ih =>
      obtain ⟨r, a⟩ := o
      rw [offerEach_concat]
      exact ih.offer r a

/-- The kept arrivals are the first ones of those that no offered arrival beats. -/
theorem mem_front_iff (h : Exact os f) {k : Arrival} :
    k ∈ f.front r ↔ FirstAt os r k ∧
      ∀ x, (r, x) ∈ os → k.dominatedBy x = true → x.dominatedBy k = true := by
  constructor
  · intro hk
    refine ⟨h.first hk, fun x hx hkx => ?_⟩
    obtain ⟨y, hy, hxy⟩ := h.covers hx
    obtain rfl := eq_of_antichain (h.antichain r) hk hy (Arrival.dominatedBy_trans hkx hxy)
    exact hxy
  · rintro ⟨hfirst, hbest⟩
    obtain ⟨y, hy, hky⟩ := h.covers hfirst.mem
    obtain ⟨hdepth, hlevel⟩ := Arrival.eq_of_dominatedBy hky (hbest y (h.first hy).mem hky)
    obtain rfl := hfirst.unique (h.first hy) hdepth hlevel
    exact hy

/-- Nothing is best where nothing was offered. -/
theorem best_eq_none_iff (h : Exact os f) : f.best r = none ↔ ∀ a, (r, a) ∉ os := by
  rw [Fronts.best_eq_none_iff]
  constructor
  · intro hnil a ha
    obtain ⟨k, hk, -⟩ := h.covers ha
    rw [hnil] at hk
    cases hk
  · intro hno
    exact List.eq_nil_iff_forall_not_mem.mpr fun k hk => hno k (h.first hk).mem

/-- Where something was offered, one offer has the highest level and, of those, the
    least depth. -/
theorem exists_best (h : Exact os f) (ha : (r, a) ∈ os) :
    ∃ k, (r, k) ∈ os ∧ f.best r = some (k.level, [k.toInheritance]) ∧
      ∀ x, (r, x) ∈ os → x.level ≤ k.level ∧ (x.level = k.level → k.depth ≤ x.depth) := by
  cases hbest : f.best r with
  | none => exact absurd ha (h.best_eq_none_iff.mp hbest a)
  | some best =>
      obtain ⟨l, is⟩ := best
      obtain ⟨k, hk, rfl, rfl, hmax⟩ := exists_of_best_eq_some (h.antichain r) hbest
      exact ⟨k, (h.first hk).mem, rfl, fun x hx => hmax x (h.covers hx)⟩

end Exact

/-- **Fronts are exact after every sequence of offers.** At every object no kept arrival
    beats another one, every offered arrival is covered, and an arrival is kept exactly
    if it is the first with its depth and level and no offered arrival beats it. The
    best level is none exactly where nothing was offered; elsewhere it is the highest
    one offered, with one inheritance, of the least depth offered at that level. -/
theorem offerEach_exact (os : List (Reference × Arrival)) (r : Reference) :
    ((offerEach os).front r).Pairwise (fun x y => ¬ x.dominatedBy y ∧ ¬ y.dominatedBy x) ∧
    (∀ a, (r, a) ∈ os → ∃ k ∈ (offerEach os).front r, a.dominatedBy k = true) ∧
    (∀ k, k ∈ (offerEach os).front r ↔ FirstAt os r k ∧
      ∀ x, (r, x) ∈ os → k.dominatedBy x = true → x.dominatedBy k = true) ∧
    ((offerEach os).best r = none ↔ ∀ a, (r, a) ∉ os) ∧
    ∀ a, (r, a) ∈ os → ∃ k, (r, k) ∈ os ∧
      (offerEach os).best r = some (k.level, [k.toInheritance]) ∧
      ∀ x, (r, x) ∈ os → x.level ≤ k.level ∧ (x.level = k.level → k.depth ≤ x.depth) := by
  have h : Exact os (offerEach os) := .offerEach os
  exact ⟨h.antichain r, fun _ => h.covers, fun _ => h.mem_front_iff, h.best_eq_none_iff,
    fun _ => h.exists_best⟩

end Fronts

end ClearanceGraph
