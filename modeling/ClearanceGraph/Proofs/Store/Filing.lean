import ClearanceGraph.Proofs.Order.Table
import ClearanceGraph.Store.Json

/-! # Filing — contents by their facts

    Contents are filed under their own facts, one after another, so of each fact
    the last content stays.  What is filed ascends by facts, and filing it again
    changes nothing. -/

namespace ClearanceGraph

/-- Every content of a record lies under its own fact. -/
def OriginRecord.Filed (r : OriginRecord) : Prop := ∀ e ∈ r.result.entries, e.2.fact = e.1

/-- Contents that are filed again are filed as they were. -/
theorem Content.byFact_values {t : Table Fact Content}
    (h : ∀ e ∈ t.entries, e.2.fact = e.1) :
    byFact t.values = t := by
  have hentries : t.values.map (fun c => (c.fact, c)) = t.entries.map id := by
    rw [Table.values, List.map_map]
    exact List.map_congr_left fun e he => Prod.ext (h e he) rfl
  rw [byFact, hentries, List.map_id]
  exact Table.ofList_of_perm (.refl _)

/-- Of the contents of one fact the last is filed. -/
theorem Content.mem_values_byFact {cs : List Content} {c : Content} :
    c ∈ (byFact cs).values ↔
      ∃ before after, cs = before ++ c :: after ∧ ∀ a ∈ after, a.fact ≠ c.fact := by
  rw [Table.mem_values_iff]
  constructor
  · rintro ⟨x, hx⟩
    obtain ⟨before, after, hcs, hafter⟩ := Table.get?_ofList_eq_some_iff.mp hx
    obtain ⟨bs, rest, rfl, -, hrest⟩ := List.map_eq_append_iff.mp hcs
    obtain ⟨c', as, rfl, hc, rfl⟩ := List.map_eq_cons_iff.mp hrest
    cases hc
    exact ⟨bs, as, rfl, fun a ha => hafter _ (List.mem_map_of_mem ha)⟩
  · rintro ⟨before, after, rfl, hafter⟩
    refine ⟨c.fact, Table.get?_ofList_eq_some_iff.mpr ⟨before.map fun c => (c.fact, c),
      after.map fun c => (c.fact, c), ?_, fun e he => ?_⟩⟩
    · rw [List.map_append, List.map_cons]
    · obtain ⟨a, ha, rfl⟩ := List.mem_map.mp he
      exact hafter a ha

/-- What is filed lies under its own fact. -/
theorem Content.fact_of_get?_byFact {cs : List Content} {x : Fact} {c : Content}
    (h : (byFact cs).get? x = some c) : c.fact = x := by
  obtain ⟨c', -, hc⟩ := List.mem_map.mp (Table.mem_of_get?_ofList h)
  cases hc
  rfl

/-- Of each fact that has a content one is filed. -/
theorem Content.exists_mem_values_byFact {cs : List Content} {c : Content} (h : c ∈ cs) :
    ∃ a ∈ (byFact cs).values, a.fact = c.fact := by
  obtain ⟨a, ha⟩ := Table.exists_get?_insertMany (t := Table.empty) (k := c.fact)
    (.inl ⟨c, List.mem_map_of_mem (f := fun c => (c.fact, c)) h⟩)
  exact ⟨a, (Table.mem_values_iff _).mpr ⟨_, ha⟩, fact_of_get?_byFact ha⟩

/-- Contents that are filed ascend by their facts. -/
theorem Content.pairwise_values_byFact (cs : List Content) :
    (byFact cs).values.Pairwise fun a b => compare a.fact b.fact = .lt := by
  have hfact : ∀ e ∈ (byFact cs).entries, e.2.fact = e.1 :=
    fun e he => fact_of_get?_byFact ((Table.mem_entries_iff _).mp he)
  rw [Table.values, List.pairwise_map]
  refine (byFact cs).ascending.imp_of_mem fun ha hb hlt => ?_
  rw [hfact _ ha, hfact _ hb]
  exact hlt

end ClearanceGraph
