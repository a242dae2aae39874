import ClearanceGraph.Event.Json
import ClearanceGraph.Proofs.Clearance.Json
import ClearanceGraph.Proofs.Time.Text

/-! # Changes, batches and outbox entries read back

    The number of a commit is read up to a bound.  What else a batch holds is
    read whatever it is. -/

namespace ClearanceGraph

open Json (Rearranges)

/-- Commits are numbered in words of 64 bits. -/
def TransactionId.InBounds (t : TransactionId) : Prop := t.value < UInt64.size

/-- The names of the kinds of change are distinct. -/
theorem ChangeKind.lookup_name (k : ChangeKind) : names.lookup k.name = some k := by
  cases k <;> rfl

variable {f : Json → Json} (hf : Rearranges f)
include hf

/-! ## Scalars -/

/-- An instant is read from its text. -/
theorem Instant.ofJson?_toJson (t : Instant) : ofJson? (f t.toJson) = some t := by
  rw [toJson, ofJson?, hf.asString?, Option.bind_some, ofText?_toText]

theorem OriginId.ofJson?_toJson (o : OriginId) : ofJson? (f o.toJson) = some o := by
  rw [toJson, ofJson?, hf.asString?]
  rfl

/-- The number of a commit is read, if it fits in a word. -/
theorem TransactionId.ofJson?_toJson (t : TransactionId) (h : t.InBounds) :
    ofJson? (f t.toJson) = some t := by
  rw [toJson, ofJson?, hf.asNat? (Nat.le_sub_one_of_lt h)]
  rfl

theorem ChangeKind.read?_toJson (s : Json.Source) (k : ChangeKind) :
    read? s (f k.toJson) = some k := by
  rw [toJson, hf.string, read?, Json.alternative?, lookup_name]

/-! ## Records -/

omit hf in
theorem Change.isReadable_toJson (c : Change) : c.toJson.isReadable = true := by
  obtain ⟨x, k⟩ := c
  cases x <;> rfl

/-- A change is read from its fact and its kind. -/
theorem Change.read?_toJson (s : Json.Source) (c : Change) :
    read? s (f c.toJson) = some c := by
  obtain ⟨r, hr, hshows⟩ :=
    hf.exists_fields [("fact", c.fact.toJson), ("kind", c.kind.toJson)]
    (by simp) ["fact", "kind"]
  simp [read?, toJson, hr, Json.Fields.required, hshows.get?, List.lookup_cons,
    Fact.read?_toJson hf, ChangeKind.read?_toJson hf]

omit hf in
theorem Batch.isReadable_toJson (b : Batch) : b.toJson.isReadable = true := by
  have horigin : (Json.ofOption OriginId.toJson b.origin).isReadable = true := by
    cases b.origin <;> rfl
  simp only [toJson, Json.isReadable_object_iff, Json.isReadable_array_iff,
    List.forall_mem_cons, List.forall_mem_map]
  exact ⟨rfl, horigin, fun c _ => c.isReadable_toJson, fun d _ => d.isReadable_toJson,
    nofun⟩

/-- **A batch is read** from its fields, if its commit has a number in bounds. -/
theorem Batch.read?_toJson (s : Json.Source) (b : Batch) (h : b.transaction.InBounds) :
    read? s (f b.toJson) = some b := by
  obtain ⟨r, hr, hshows⟩ := hf.exists_fields
    [("transaction_id", b.transaction.toJson),
      ("origin", Json.ofOption OriginId.toJson b.origin),
      ("graph_changes", .array (b.changes.map Change.toJson)),
      ("profile_deltas", .array (b.deltas.map Delta.toJson))] (by simp)
    ["transaction_id", "origin", "graph_changes", "profile_deltas"]
  have horigin : r.nullable "origin" OriginId.ofJson? = some b.origin := by
    rw [Json.Fields.nullable, hshows.get?]
    exact hf.asOption? rfl fun o _ => OriginId.ofJson?_toJson hf o
  have hchanges := hf.asList? fun c (_ : c ∈ b.changes) => Change.read?_toJson hf s c
  have hdeltas := hf.asList? fun d (_ : d ∈ b.deltas) => Delta.read?_toJson hf s d
  simp [read?, toJson, hr, horigin, Json.Fields.required, hshows.get?, List.lookup_cons,
    TransactionId.ofJson?_toJson hf _ h, hchanges, hdeltas]

omit hf in
theorem OutboxEntry.isReadable_toJson (e : OutboxEntry) : e.toJson.isReadable = true := by
  simp only [toJson, Json.isReadable_object_iff, List.forall_mem_cons]
  exact ⟨e.batch.isReadable_toJson, rfl, rfl, nofun⟩

/-- **An entry is read** from its fields. -/
theorem OutboxEntry.read?_toJson (s : Json.Source) (e : OutboxEntry)
    (h : e.batch.transaction.InBounds) : read? s (f e.toJson) = some e := by
  obtain ⟨r, hr, hshows⟩ := hf.exists_fields
    [("batch", e.batch.toJson), ("valid_time", e.validTime.toJson),
      ("propagated", .bool e.propagated)]
    (by simp) ["batch", "valid_time", "propagated"]
  simp [read?, toJson, hr, Json.Fields.required, hshows.get?, List.lookup_cons,
    Batch.read?_toJson hf s _ h, Instant.ofJson?_toJson hf, hf.bool, Json.asBool?]

end ClearanceGraph
