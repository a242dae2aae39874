import ClearanceGraph.Proofs.Comparison
import ClearanceGraph.Proofs.Evolution
import ClearanceGraph.Proofs.Origin.Ledger
import ClearanceGraph.Proofs.Store.Query
import Mathlib.Data.List.Find

/-! # Likeness — stores that say the same of the graph

    All documents lie in one store and all commits are numbered in one sequence, so the
    number of a commit tells how much else was committed before.  Nothing that is read
    of a key depends on it: a version is chosen by valid time, numbers decide only
    between equal ones, and versions stand in the order of their commits
    (`map_bare_lastMax?`).

    So what is read of a key is read off its course, which is the list of its versions
    without their numbers.  Stores resemble each other if the courses of all facts and
    of all origins are the same; then the same documents show, the same records are the
    latest, and a transaction on the graph is committed to both or refused by both
    (`Resembles.submit`). -/

namespace ClearanceGraph

namespace DocumentKey

/-- Whether a fact or the record of an origin is filed under the key. -/
def isGraph : DocumentKey → Bool
  | fact _ => true
  | origin _ => true
  | _ => false

theorem isGraph_of_isProfile {k : DocumentKey} (h : k.isProfile = true) :
    k.isGraph = false := by
  cases k <;> first | rfl | cases h

end DocumentKey

/-- A version without the commit that wrote it. -/
def Version.bare (v : Version) : Instant × Option Document := (v.validFrom, v.document)

namespace Store

variable {s s' s₁ : Store} {tx : Transaction} {id : TransactionId} {k : DocumentKey}
    {u : Instant}

/-! ## Courses -/

/-- What a key was to hold and since when, in the order of the commits. -/
def course (s : Store) (k : DocumentKey) : List (Instant × Option Document) :=
  (s.versionsOf k).map Version.bare

/-- The last of a course that is not earlier than any other. -/
def last? (c : List (Instant × Option Document)) : Option (Instant × Option Document) :=
  lastMax? (fun a b => compare a.1 b.1) c

/-- Versions stand in the order of their commits. -/
theorem Reachable.pairwise_versionsOf (h : s.Reachable) (k : DocumentKey) :
    (s.versionsOf k).Pairwise fun v w => v.transaction.value ≤ w.transaction.value := by
  induction h with
  | empty => exact .nil
  | submit hreach hsub ih =>
      obtain ⟨-, rfl, -, hvers, -⟩ := submit_eq_ok hsub
      rw [hvers, List.pairwise_append]
      refine ⟨ih, ?_, fun v hv w hw => ?_⟩
      · rw [List.pairwise_map]
        exact List.pairwise_of_forall fun _ _ => Nat.le_refl _
      · obtain ⟨d, -, rfl⟩ := List.mem_map.mp hw
        exact Nat.le_of_lt (hreach.sound.numbered hv)

/-- Of versions in the order of their commits the numbers do not matter to the choice. -/
private theorem map_bare_lastMax? {vs : List Version}
    (h : vs.Pairwise fun v w => v.transaction.value ≤ w.transaction.value) :
    (lastMax? Version.order vs).map Version.bare = last? (vs.map Version.bare) := by
  rw [last?, lastMax?_map]
  refine congrArg (Option.map Version.bare) ?_
  induction vs with
  | nil => rfl
  | cons v vs ih =>
      obtain ⟨hv, hvs⟩ := List.pairwise_cons.mp h
      simp only [lastMax?]
      rw [ih hvs]
      cases hlast : lastMax? (fun a b : Version => compare a.bare.1 b.bare.1) vs with
      | none => rfl
      | some w =>
          have hle : compare v.transaction w.transaction ≠ .gt := by
            show compare v.transaction.value w.transaction.value ≠ .gt
            have := hv w (mem_of_lastMax? hlast)
            rw [Nat.compare_ne_gt]
            exact this
          -- at equal times the later commit wins, and it stands behind
          have horder : Version.order v w = .gt ↔ compare v.bare.1 w.bare.1 = .gt := by
            simp only [Version.order, Version.bare]
            cases compare v.validFrom w.validFrom with
            | lt => rfl
            | gt => rfl
            | eq => simp only [Ordering.eq_then, hle, reduceCtorEq]
          simp only [horder]

theorem Reachable.map_bare_newestOf? (h : s.Reachable) (k : DocumentKey) :
    (s.newestOf? k).map Version.bare = last? (s.course k) :=
  map_bare_lastMax? (h.pairwise_versionsOf k)

/-- **What shows is read off the course** of a key. -/
theorem Reachable.visible_eq_course (h : s.Reachable) (u : Instant) (k : DocumentKey) :
    s.visible u k = (last? ((s.course k).filter fun p => p.1 ≤ u)).bind Prod.snd := by
  have hshowing : (showing u (s.versionsOf k)).map Version.bare =
      last? ((s.course k).filter fun p => p.1 ≤ u) := by
    rw [showing, map_bare_lastMax? ((h.pairwise_versionsOf k).filter _), course,
      List.filter_map]
    rfl
  rw [← hshowing, Option.bind_map]
  rfl

/-- A commit goes on with the courses of the keys that it writes. -/
theorem course_submit (h : s.submit tx = .ok (id, s')) (k : DocumentKey) :
    s'.course k = s.course k ++ (tx.writesTo k).map fun d => (tx.validTime, d) := by
  obtain ⟨-, -, -, hvers, -⟩ := submit_eq_ok h
  rw [course, hvers, List.map_append, List.map_map, course]
  rfl

/-- The first match that fails refuses a transaction. -/
private theorem submit_cases (s : Store) (tx : Transaction) :
    (∃ op, tx.operations.find? (fun op => !s.accepts tx.validTime op) = some op ∧
      s.submit tx = .error (.matchFailed op.key)) ∨
    (tx.operations.find? (fun op => !s.accepts tx.validTime op) = none ∧
      ∃ p, s.submit tx = .ok p) := by
  rw [submit]
  split
  · next op hop => exact .inl ⟨op, hop, rfl⟩
  · next hnone => exact .inr ⟨hnone, _, rfl⟩

/-! ## Stores that resemble each other -/

/-- Stores whose facts and origins took the same course, whatever else was committed. -/
structure Resembles (s s' : Store) : Prop where
  left : s.Reachable
  right : s'.Reachable
  course : ∀ k, k.isGraph = true → s.course k = s'.course k

namespace Resembles

theorem refl (h : s.Reachable) : s.Resembles s := ⟨h, h, fun _ _ => rfl⟩

theorem symm (h : s.Resembles s') : s'.Resembles s :=
  ⟨h.right, h.left, fun k hk => (h.course k hk).symm⟩

theorem trans (h : s.Resembles s₁) (h' : s₁.Resembles s') : s.Resembles s' :=
  ⟨h.left, h'.right, fun k hk => (h.course k hk).trans (h'.course k hk)⟩

/-- Commits that leave facts and origins. -/
theorem of_evolves {A : Transaction → Prop} (h : s.Evolves A s') (hs : s.Reachable)
    (hA : ∀ tx, A tx → ∀ k, tx.Writes k → k.isGraph = false) : s.Resembles s' := by
  refine h.keeps (I := s.Resembles) (fun {s₁ s₂ tx id} hI htx hsub => ?_) (.refl hs)
  refine ⟨hI.left, .submit hI.right hsub, fun k hk => ?_⟩
  have hno : tx.writesTo k = [] := (tx.writesTo_eq_nil_iff k).mpr fun hw =>
    nomatch (hA tx htx k hw).symm.trans hk
  rw [course_submit hsub, hno, List.map_nil, List.append_nil]
  exact hI.course k hk

variable (h : s.Resembles s')

include h

theorem visible_eq (hk : k.isGraph = true) (u : Instant) :
    s.visible u k = s'.visible u k := by
  rw [h.left.visible_eq_course, h.right.visible_eq_course, h.course k hk]

/-- The same record of an origin is the latest. -/
theorem lastRecord?_eq (o : OriginId) : s.lastRecord? o = s'.lastRecord? o := by
  have hread : ∀ {s : Store}, s.Reachable → s.lastRecord? o =
      (last? (s.course (.origin o))).bind fun p => p.2.bind Document.origin? := by
    intro s hs
    rw [lastRecord?, ← hs.map_bare_newestOf?, Option.bind_map]
    rfl
  rw [hread h.left, hread h.right, h.course _ rfl]

/-- The same records keep a fact. -/
theorem owners_eq (f : Fact) : s.owners f = s'.owners f := by
  refine congrArg (List.filterMap Document.origin?) ?_
  refine h.left.sound.visibleWhere_congr h.right.sound fun k d hd => ?_
  -- a key that shows a record is that of an origin
  have hgraph : ∀ {s : Store}, s.Sound → s.visible Instant.latest k = some d →
      k.isGraph = true := by
    intro s hs hvisible
    have hkey := hs.key_of_visible hvisible
    cases d with
    | origin r => exact hkey ▸ rfl
    | content c => cases hd
    | profile p => cases hd
    | outbox e => cases hd
  constructor
  · intro hvisible
    rw [← h.visible_eq (hgraph h.left.sound hvisible)]
    exact hvisible
  · intro hvisible
    rw [h.visible_eq (hgraph h.right.sound hvisible)]
    exact hvisible

/-- **A transaction on the graph** is committed to both stores, or refused by both in
    the same way. -/
theorem submit (htx : ∀ op ∈ tx.operations, op.key.isGraph = true) :
    Accords (fun p p' : TransactionId × Store => p.2.Resembles p'.2) (s.submit tx)
      (s'.submit tx) := by
  have haccepts : ∀ op ∈ tx.operations,
      (!s.accepts tx.validTime op) = !s'.accepts tx.validTime op := by
    intro op hop
    cases op with
    | expect k d => rw [accepts, accepts, h.visible_eq (k := k) (htx _ hop)]
    | put d => rfl
    | delete k => rfl
  have hfind : tx.operations.find? (fun op => !s.accepts tx.validTime op) =
      tx.operations.find? fun op => !s'.accepts tx.validTime op := List.find?_congr haccepts
  rcases submit_cases s tx with ⟨op, hop, hsub⟩ | ⟨hnone, ⟨id, t⟩, hsub⟩
  · rcases submit_cases s' tx with ⟨op', hop', hsub'⟩ | ⟨hnone, -⟩
    · obtain rfl := Option.some.inj (hop.symm.trans (hfind.trans hop'))
      rw [hsub, hsub']
      exact .error _
    · cases hop.symm.trans (hfind.trans hnone)
  · rcases submit_cases s' tx with ⟨op', hop', -⟩ | ⟨-, ⟨id', t'⟩, hsub'⟩
    · cases hnone.symm.trans (hfind.trans hop')
    · rw [hsub, hsub']
      refine .ok ⟨.submit h.left hsub, .submit h.right hsub', fun k hk => ?_⟩
      rw [course_submit hsub, course_submit hsub', h.course k hk]

end Resembles

end Store

end ClearanceGraph
