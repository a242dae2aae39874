/-!
# Ordered tables — finite maps whose entries ascend by key

  A `Table` lists its entries in strictly ascending order of keys. Two tables
  with the same answers therefore have the same entries, and every walk over a
  table goes through its keys in order. `KeySet` is the table without values.
-/

open Std

namespace ClearanceGraph

universe u v

/-- A finite map from keys to values, its entries in strictly ascending order of keys. -/
structure Table (κ : Type u) (α : Type v) [Ord κ] where
  /-- The entries, by ascending key. -/
  entries : List (κ × α)
  /-- Each key stands before every later one. -/
  ascending : entries.Pairwise fun a b => compare a.1 b.1 = .lt

namespace Table

variable {κ : Type u} {α : Type v} [Ord κ]

/-! ## Entries in ascending order -/

/-- The value filed under `k` in a list of entries. -/
def find (k : κ) : List (κ × α) → Option α
  | [] => none
  | e :: es => if compare k e.1 = .eq then some e.2 else find k es

/-- Files `v` under `k`: replaces the entry of `k`, or takes its place in the order. -/
def place (k : κ) (v : α) : List (κ × α) → List (κ × α)
  | [] => [(k, v)]
  | e :: es =>
    match compare k e.1 with
    | .lt => (k, v) :: e :: es
    | .eq => (k, v) :: es
    | .gt => e :: place k v es

theorem mem_place {k : κ} {v : α} {e : κ × α} {es : List (κ × α)} (h : e ∈ place k v es) :
    e = (k, v) ∨ e ∈ es := by
  induction es with
  | nil => simpa [place] using h
  | cons d ds ih =>
    simp only [place] at h
    split at h
    · simpa using h
    · rcases List.mem_cons.1 h with h | h
      · exact .inl h
      · exact .inr (List.mem_cons_of_mem _ h)
    · rcases List.mem_cons.1 h with h | h
      · exact .inr (h ▸ List.mem_cons_self)
      · exact (ih h).imp_right (List.mem_cons_of_mem _)

theorem pairwise_place [TransOrd κ] {k : κ} {v : α} {es : List (κ × α)}
    (h : es.Pairwise fun a b => compare a.1 b.1 = .lt) :
    (place k v es).Pairwise fun a b => compare a.1 b.1 = .lt := by
  induction es with
  | nil => simp [place]
  | cons d ds ih =>
    obtain ⟨hd, hds⟩ := List.pairwise_cons.1 h
    simp only [place]
    split
    · next hk =>
      refine List.pairwise_cons.2 ⟨fun e he => ?_, h⟩
      rcases List.mem_cons.1 he with rfl | he
      · exact hk
      · exact TransCmp.lt_trans hk (hd e he)
    · next hk =>
      refine List.pairwise_cons.2 ⟨fun e he => ?_, hds⟩
      exact (TransCmp.congr_left hk).trans (hd e he)
    · next hk =>
      refine List.pairwise_cons.2 ⟨fun e he => ?_, ih hds⟩
      rcases mem_place he with rfl | he
      · exact OrientedCmp.lt_of_gt hk
      · exact hd e he

/-! ## Tables -/

def empty : Table κ α := ⟨[], .nil⟩

instance : EmptyCollection (Table κ α) := ⟨empty⟩

instance : Inhabited (Table κ α) := ⟨empty⟩

/-- Two tables agree when their entries do, in order. -/
instance [BEq κ] [BEq α] : BEq (Table κ α) where
  beq s t := s.entries == t.entries

/-- The value under a key, if the table has one. -/
def get? (t : Table κ α) (k : κ) : Option α := find k t.entries

/-- Whether the table has a value under a key. -/
def contains (t : Table κ α) (k : κ) : Bool := (t.get? k).isSome

/-- The keys, ascending. -/
def keys (t : Table κ α) : List κ := t.entries.map (·.1)

/-- The values, by ascending key. -/
def values (t : Table κ α) : List α := t.entries.map (·.2)

def size (t : Table κ α) : Nat := t.entries.length

/-- Whether the table has no entry. -/
def isEmpty (t : Table κ α) : Bool := t.entries.isEmpty

/-- The entries that satisfy `p`. -/
def filter (p : κ → α → Bool) (t : Table κ α) : Table κ α :=
  ⟨t.entries.filter fun e => p e.1 e.2, t.ascending.filter _⟩

/-- The table without the entry of a key. -/
def erase (t : Table κ α) (k : κ) : Table κ α := t.filter fun l _ => compare k l != .eq

/-- The first entry, and the table without it. -/
def popFirst? (t : Table κ α) : Option ((κ × α) × Table κ α) :=
  match t with
  | ⟨[], _⟩ => none
  | ⟨e :: es, h⟩ => some (e, ⟨es, (List.pairwise_cons.1 h).2⟩)

variable [TransOrd κ]

/-- Files a value under a key, in place of any value there. -/
def insert (t : Table κ α) (k : κ) (v : α) : Table κ α :=
  ⟨place k v t.entries, pairwise_place t.ascending⟩

/-- Files what `f` makes of the value under a key. -/
def update (t : Table κ α) (k : κ) (f : Option α → α) : Table κ α :=
  t.insert k (f (t.get? k))

/-- Files the entries of a list one after another: of one key the last value stays. -/
def insertMany (t : Table κ α) (es : List (κ × α)) : Table κ α :=
  es.foldl (fun t e => t.insert e.1 e.2) t

/-- The table of a list of entries: of one key the last value stays. -/
def ofList (es : List (κ × α)) : Table κ α := empty.insertMany es

/-! ## What each operation answers -/

omit [TransOrd κ] in
@[simp] theorem get?_empty (k : κ) : (empty : Table κ α).get? k = none := rfl

theorem find_place [LawfulEqOrd κ] (k l : κ) (v : α) (es : List (κ × α)) :
    find l (place k v es) = if compare l k = .eq then some v else find l es := by
  induction es with
  | nil => simp [place, find]
  | cons e es ih =>
    simp only [place]
    split
    · simp [find]
    · next h =>
      obtain rfl := LawfulEqCmp.eq_of_compare h
      simp only [find]
      split <;> simp
    · next h =>
      simp only [find, ih]
      by_cases h' : compare l e.1 = .eq
      · obtain rfl := LawfulEqCmp.eq_of_compare h'
        have : compare e.1 k ≠ .eq := by
          intro h''
          rw [OrientedCmp.eq_comm.1 h''] at h
          contradiction
        simp [this]
      · simp [h']

@[simp] theorem get?_insert [LawfulEqOrd κ] (t : Table κ α) (k l : κ) (v : α) :
    (t.insert k v).get? l = if compare l k = .eq then some v else t.get? l :=
  find_place k l v t.entries

end Table

/-! ## Sets of keys -/

/-- A finite set of keys, in strictly ascending order. -/
abbrev KeySet (κ : Type u) [Ord κ] := Table κ Unit

namespace KeySet

variable {κ : Type u} [Ord κ]

/-- The members, ascending. -/
def toList (s : KeySet κ) : List κ := s.keys

/-- The least member, and the set without it. -/
def popMin? (s : KeySet κ) : Option (κ × KeySet κ) := s.popFirst?.map fun e => (e.1.1, e.2)

/-- The members of `s` that are not in `t`. -/
def diff (s t : KeySet κ) : KeySet κ := s.filter fun k _ => !t.contains k

variable [TransOrd κ]

/-- The set with one more member. -/
def add (s : KeySet κ) (k : κ) : KeySet κ := s.insert k ()

/-- The set with the members of a list. -/
def addAll (s : KeySet κ) (ks : List κ) : KeySet κ := ks.foldl add s

/-- The set of the members of a list. -/
def ofList (ks : List κ) : KeySet κ := addAll Table.empty ks

/-- The union of two sets. -/
def union (s t : KeySet κ) : KeySet κ := s.addAll t.toList

@[simp] theorem contains_add [LawfulEqOrd κ] (s : KeySet κ) (k l : κ) :
    (s.add k).contains l = (compare l k == .eq || s.contains l) := by
  simp only [Table.contains, add, Table.get?_insert]
  split <;> simp_all

end KeySet

end ClearanceGraph
