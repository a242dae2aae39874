import ClearanceGraph.Proofs.Store.History

/-! # Queries — what is found is what shows

    A query walks over the keys that were ever written, or over the edges ever
    noted at an object, and keeps what shows.  So its answer depends on the
    documents that show and on nothing else: not on keys that have versions and
    show nothing, and not on the commits by which the documents came there.

    The heart is `ascending_ext` again.  Both walks go through ascending keys, so
    their answers ascend by key and are determined by their members.  So the edges
    noted at an object, though never struck out, lead to what a walk over all edges
    would find (`Reachable.touching_eq_filter_edges`). -/

namespace ClearanceGraph

namespace Store

variable {s s' : Store} {t u : Instant}

/-! ## Keys of one kind -/

/-- Edges are ordered as keys as they are ordered by themselves. -/
theorem compare_edge_key (e f : EdgeKey) :
    compare (DocumentKey.fact (.edge e)) (.fact (.edge f)) = compare e f := by
  show (compare 1 1).then ((compare e f).then (compare 0 0)) = compare e f
  cases compare e f <;> rfl

/-- A name that stands for both ends is ordered as the name. -/
private theorem compare_both_ends (q r : Reference) :
    compare (⟨q, "", q⟩ : EdgeKey) ⟨r, "", r⟩ = compare q r := by
  show (compare q r).then ((compare "" "").then (compare q r)) = compare q r
  have hself : compare "" "" = .eq := Std.ReflCmp.compare_self
  rw [hself]
  cases compare q r <;> rfl

/-- Declarations are ordered as the objects that they are for. -/
theorem compare_declaration_key (q r : Reference) :
    compare (DocumentKey.fact (.declaration q)) (.fact (.declaration r)) = compare q r := by
  rw [← compare_both_ends]
  show (compare 3 3).then
    ((compare (⟨q, "", q⟩ : EdgeKey) ⟨r, "", r⟩).then (compare 0 0)) = _
  cases compare (⟨q, "", q⟩ : EdgeKey) ⟨r, "", r⟩ <;> rfl

/-- Records of origins are ordered by the names. -/
theorem compare_origin_key (o p : OriginId) :
    compare (DocumentKey.origin o) (.origin p) = compare o p := by
  show (compare 2 2).then
    ((compare (⟨⟨o.text⟩, "", ⟨o.text⟩⟩ : EdgeKey) ⟨⟨p.text⟩, "", ⟨p.text⟩⟩).then
      (compare 0 0)) = _
  rw [compare_both_ends]
  show (compare 2 2).then ((compare o p).then (compare 0 0)) = compare o p
  cases compare o p <;> rfl

/-! ## Edges -/

/-- What is found at an object: the edges at it that show. -/
theorem Sound.mem_touching_iff (hs : s.Sound) {r : Reference} {d : Document} :
    d ∈ s.query t (.touching r) ↔
      ∃ e : EdgeKey, e.touches r = true ∧ s.visible t (.fact (.edge e)) = some d := by
  simp only [query, List.mem_filterMap]
  constructor
  · rintro ⟨e, he, hd⟩
    exact ⟨e, (hs.indexed.mp he).1, hd⟩
  · rintro ⟨e, he, hd⟩
    refine ⟨e, hs.indexed.mpr ⟨he, fun hnil => ?_⟩, hd⟩
    rw [visible_of_versionsOf_eq_nil hnil] at hd
    cases hd

theorem pairwise_edgesAt (s : Store) (r : Reference) :
    (s.edgesAt r).Pairwise fun e f => compare e f = .lt := by
  rw [edgesAt]
  cases s.endpoints.get? r with
  | none => exact .nil
  | some ks => exact Table.pairwise_keys ks

/-- What is found at an object ascends by key. -/
theorem Sound.pairwise_touching (hs : s.Sound) (t : Instant) (r : Reference) :
    (s.query t (.touching r)).Pairwise fun a b => compare a.key b.key = .lt := by
  simp only [query]
  rw [List.pairwise_filterMap]
  refine (s.pairwise_edgesAt r).imp fun {e f} hef a ha b hb => ?_
  rw [hs.key_of_visible ha, hs.key_of_visible hb, compare_edge_key]
  exact hef

/-- What is found among all edges: the edges that show. -/
theorem mem_edges_iff {d : Document} :
    d ∈ s.query t .edges ↔ ∃ e : EdgeKey, s.visible t (.fact (.edge e)) = some d := by
  simp only [query, mem_visibleWhere]
  constructor
  · rintro ⟨k, hk, hedge⟩
    match k, hedge with
    | .fact (.edge e), _ => exact ⟨e, hk⟩
  · rintro ⟨e, he⟩
    exact ⟨_, he, rfl⟩

/-- **The index answers as a scan does**: what is found at an object is what is found
    among all edges and has the object as an end, in the same order. So an edge is found
    exactly if it shows, and a loop is found once. -/
theorem Reachable.touching_eq_filter_edges (h : s.Reachable) (t : Instant) (r : Reference) :
    s.query t (.touching r) =
        (s.query t .edges).filter (fun d => d.edge?.any fun e => e.key.touches r) ∧
      ((s.query t (.touching r)).map Document.key).Nodup ∧
      ∀ d, d ∈ s.query t (.touching r) ↔
        ∃ e : EdgeKey, e.touches r = true ∧ s.visible t (.fact (.edge e)) = some d := by
  have hs := h.sound
  have hends : ∀ {d : Document} {e : EdgeKey}, s.visible t (.fact (.edge e)) = some d →
      ((d.edge?.any fun x => x.key.touches r) = true ↔ e.touches r = true) := by
    intro d e hd
    obtain ⟨x, hx, rfl⟩ := Document.edge?_of_key (hs.key_of_visible hd)
    rw [hx]
    rfl
  refine ⟨?_, ?_, fun d => hs.mem_touching_iff⟩
  · refine Table.ascending_ext (f := Document.key) (hs.pairwise_touching t r)
      ((hs.pairwise_visibleWhere t _).filter _) fun d => ?_
    rw [hs.mem_touching_iff, List.mem_filter, mem_edges_iff]
    constructor
    · rintro ⟨e, he, hd⟩
      exact ⟨⟨e, hd⟩, (hends hd).mpr he⟩
    · rintro ⟨⟨e, hd⟩, he⟩
      exact ⟨e, (hends hd).mp he, hd⟩
  · exact Table.nodup_of_ascending (hs.pairwise_touching t r)

/-- Edges at an object: a loop, one that is cut, and one that comes later; and one
    elsewhere. -/
def edgesOfHost : Store := .ofTransactions [
  ⟨default, [
    .put (.content (.edge ⟨⟨⟨"Host|b"⟩, "link", ⟨"Host|a"⟩⟩, Table.empty⟩)),
    .put (.content (.edge ⟨⟨⟨"Host|b"⟩, "link", ⟨"Host|c"⟩⟩, Table.empty⟩)),
    .put (.content (.edge ⟨⟨⟨"Host|a"⟩, "link", ⟨"Host|b"⟩⟩, Table.empty⟩)),
    .put (.content (.edge ⟨⟨⟨"Host|a"⟩, "link", ⟨"Host|a"⟩⟩, Table.empty⟩))]⟩,
  ⟨.afterLatest, [.put (.content (.edge ⟨⟨⟨"Host|a"⟩, "link", ⟨"Host|c"⟩⟩, Table.empty⟩))]⟩,
  ⟨.latest, [.delete (.fact (.edge ⟨⟨"Host|a"⟩, "link", ⟨"Host|b"⟩⟩))]⟩]

/-- The loop is found once, before the edge that comes in; the cut one and the later one
    are not. -/
theorem touching_edgesOfHost :
    edgesOfHost.Reachable ∧
      edgesOfHost.query .latest (.touching ⟨"Host|a"⟩) = [
        .content (.edge ⟨⟨⟨"Host|a"⟩, "link", ⟨"Host|a"⟩⟩, Table.empty⟩),
        .content (.edge ⟨⟨⟨"Host|b"⟩, "link", ⟨"Host|a"⟩⟩, Table.empty⟩)] := by
  have hreach : edgesOfHost.Reachable := reachable_ofTransactions _
  refine ⟨hreach, ?_⟩
  rw [(hreach.touching_eq_filter_edges .latest ⟨"Host|a"⟩).1]
  rfl

section Congr

variable (hs : s.Sound) (hs' : s'.Sound)

include hs hs'

/-- Stores that show the same documents of some kind list the same documents of it. -/
theorem Sound.visibleWhere_congr {p : DocumentKey → Document → Bool}
    (h : ∀ k d, p k d = true → (s.visible t k = some d ↔ s'.visible u k = some d)) :
    s.visibleWhere t p = s'.visibleWhere u p := by
  refine Table.ascending_ext (f := Document.key) (hs.pairwise_visibleWhere t p)
    (hs'.pairwise_visibleWhere u p) fun d => ?_
  rw [mem_visibleWhere, mem_visibleWhere]
  refine exists_congr fun k => ?_
  rw [and_congr_left_iff]
  exact h k d

/-- Stores that show the same edges at an object find the same edges at it. -/
theorem Sound.touching_congr {r : Reference}
    (h : ∀ e : EdgeKey, e.touches r = true →
      s.visible t (.fact (.edge e)) = s'.visible u (.fact (.edge e))) :
    s.query t (.touching r) = s'.query u (.touching r) := by
  refine Table.ascending_ext (f := Document.key) (hs.pairwise_touching t r)
    (hs'.pairwise_touching u r) fun d => ?_
  rw [hs.mem_touching_iff, hs'.mem_touching_iff]
  refine exists_congr fun e => and_congr_right fun he => ?_
  rw [h e he]

/-- **Queries depend on what shows**: stores that show the same answer every query
    alike. -/
theorem Sound.query_congr (h : ∀ k, s.visible t k = s'.visible u k) (q : Query) :
    s.query t q = s'.query u q := by
  have hwhere : ∀ p, s.visibleWhere t p = s'.visibleWhere u p := fun p =>
    hs.visibleWhere_congr hs' fun k d _ => by rw [h k]
  cases q with
  | key k => simp only [query, h k]
  | touching r => exact hs.touching_congr hs' fun e _ => h _
  | objects _ => exact hwhere _
  | edges => exact hwhere _
  | origins => exact hwhere _
  | asserting _ => exact hwhere _
  | declarations => exact hwhere _
  | profiles => exact hwhere _
  | outbox => exact hwhere _

end Congr

end Store

end ClearanceGraph
