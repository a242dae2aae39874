import ClearanceGraph.Event.Message
import ClearanceGraph.Proofs.Event.Json
import ClearanceGraph.Proofs.Graph.Display

/-! # Identifiers of messages — which events have the same one

    The name behind an identifier is the number of the commit, the subject and
    the kind of change with bars between them.  A number has no bar and a kind
    has none, so the name splits at its first bar and its last, whatever is
    between: the subject.

    The subject of a message about a level is the name of an object.  That of a
    message about a fact is the kind of fact and what it is about, and an edge
    is displayed as another one is if the two overlap.  So messages about levels
    are told apart by their names, and messages about facts but for edges that
    overlap. -/

namespace ClearanceGraph

/-! ## The parts of a name -/

theorem TransactionId.toList_display (t : TransactionId) :
    t.display.toList = Nat.toDigits 10 t.value := by
  rw [display, Nat.toString_eq_repr, Nat.toList_repr]

theorem TransactionId.display_injective {t t' : TransactionId}
    (h : t.display = t'.display) :
    t = t' := by
  have hdigits := congrArg (fun s => Nat.ofDigitChars 10 s.toList 0) h
  simp only [toList_display, Nat.ofDigitChars_ten_toDigits] at hdigits
  cases t
  cases t'
  exact congrArg mk hdigits

/-- **A name tells its parts**, if no kind has a bar. -/
theorem messageName_eq_iff {t t' : TransactionId} {subject subject' kind kind' : String}
    (hkind : '|' ∉ kind.toList) (hkind' : '|' ∉ kind'.toList) :
    messageName t subject kind = messageName t' subject' kind' ↔
      t = t' ∧ subject = subject' ∧ kind = kind' := by
  refine ⟨fun h => ?_, by rintro ⟨rfl, rfl, rfl⟩; rfl⟩
  have hparts : ∀ (t : TransactionId) (subject kind : String),
    (messageName t subject kind).toList =
      t.display.toList ++ '|' :: (subject.toList ++ '|' :: kind.toList) := by
    intro t subject kind
    simp [messageName]
  have hnumber : ∀ t : TransactionId, '|' ∉ t.display.toList := by
    intro t hbar
    rw [TransactionId.toList_display] at hbar
    exact absurd (Text.isDigit_of_mem_toDigits hbar) (by decide)
  rw [← String.toList_inj, hparts, hparts] at h
  obtain ⟨ht, hrest⟩ := eq_of_append_mark (hnumber t) (hnumber t') h
  -- the last bar is the first one from behind
  have hbehind := congrArg List.reverse hrest
  simp only [List.reverse_append, List.reverse_cons, List.append_assoc,
    List.singleton_append] at hbehind
  obtain ⟨hk, hs⟩ := eq_of_append_mark (mt List.mem_reverse.mp hkind)
    (mt List.mem_reverse.mp hkind') hbehind
  exact ⟨TransactionId.display_injective (String.toList_inj.mp ht),
    String.toList_inj.mp (List.reverse_inj.mp hs),
      String.toList_inj.mp (List.reverse_inj.mp hk)⟩

theorem DeltaKind.name_injective {k k' : DeltaKind} (h : k.name = k'.name) : k = k' :=
  Option.some.inj ((lookup_name k).symm.trans (h ▸ lookup_name k'))

theorem ChangeKind.name_injective {k k' : ChangeKind} (h : k.name = k'.name) : k = k' :=
  Option.some.inj ((lookup_name k).symm.trans (h ▸ lookup_name k'))

/-! ## Displayed facts -/

namespace Fact

/-- The names in a fact are such as can be read. -/
def WellNamed : Fact → Prop
  | object r => Reference.parse r.text = .ok r
  | edge k => k.WellNamed
  | declaration r => Reference.parse r.text = .ok r

/-- Both facts are edges, and one overlaps the other. -/
def Overlap (x y : Fact) : Prop :=
  ∃ k l, x = edge k ∧ y = edge l ∧ (k.Overlaps l ∨ l.Overlaps k)

variable {x y : Fact}

/-- A displayed fact tells the kind of fact and what it is about. -/
theorem display_eq_iff_subjectText :
    x.display = y.display ↔ x.kind = y.kind ∧ x.subjectText = y.subjectText := by
  refine ⟨fun h => ?_, by rintro ⟨hk, hs⟩; rw [display, display, hk, hs]⟩
  have hparts : ∀ z : Fact, z.display.toList = z.kind.toList ++
      ' ' :: z.subjectText.toList := by
    intro z
    simp [display]
  have hkind : ∀ z : Fact, ' ' ∉ z.kind.toList := by
    intro z
    cases z <;> simp [kind]
  rw [← String.toList_inj, hparts, hparts] at h
  obtain ⟨hk, hs⟩ := eq_of_append_mark (hkind x) (hkind y) h
  exact ⟨String.toList_inj.mp hk, String.toList_inj.mp hs⟩

/-- **Facts are displayed alike exactly if they are the same fact, or edges that
    overlap.** -/
theorem display_eq_iff (hx : x.WellNamed) (hy : y.WellNamed) :
    x.display = y.display ↔ x = y ∨ x.Overlap y := by
  rw [display_eq_iff_subjectText]
  cases x with
  | object r =>
      cases y with
      | object r' => simp [Overlap, subjectText, kind, Reference.text_inj]
      | _ => simp [Overlap, kind]
  | edge k =>
      cases y with
      | edge l => simp [Overlap, subjectText, kind, EdgeKey.display_eq_iff hx hy]
      | _ => simp [Overlap, kind]
  | declaration r =>
      cases y with
      | declaration r' => simp [Overlap, subjectText, kind, Reference.text_inj]
      | _ => simp [Overlap, kind]

end Fact

/-! ## Messages -/

/-- The name behind the identifier of a message about a level. -/
def ProfileMessage.name (m : ProfileMessage) : String :=
  messageName m.transaction m.object.text m.kind.name

/-- The name behind the identifier of a message about a fact. -/
def ChangeMessage.name (m : ChangeMessage) : String :=
  messageName m.transaction m.fact.display m.kind.name

/-- **The name of a message tells its event, but for edges that overlap.** An identifier
    is made of a name.  Messages about levels have the same name exactly if they are
    about the same commit, the same object and the same kind of change.  Messages about
    facts whose names can be read have the same name exactly if they are about the same
    commit, the same kind of change and the same fact, or two edges of which one
    overlaps the other. -/
theorem messageName_identifies (t t' : TransactionId) :
    (∀ d, (ProfileMessage.ofDelta t d).id =
      Uuid.ofName messageSpace (ProfileMessage.ofDelta t d).name) ∧
    (∀ o c, (ChangeMessage.ofChange t o c).id =
      Uuid.ofName messageSpace (ChangeMessage.ofChange t o c).name) ∧
    (∀ d d', (ProfileMessage.ofDelta t d).name = (ProfileMessage.ofDelta t' d').name ↔
      t = t' ∧ d.reference = d'.reference ∧ d.kind = d'.kind) ∧
    ∀ o o' (c c' : Change), c.fact.WellNamed → c'.fact.WellNamed →
      ((ChangeMessage.ofChange t o c).name = (ChangeMessage.ofChange t' o' c').name ↔
        t = t' ∧ c.kind = c'.kind ∧ (c.fact = c'.fact ∨ c.fact.Overlap c'.fact)) := by
  have hdelta : ∀ k : DeltaKind, '|' ∉ k.name.toList := by
    intro k
    cases k <;> simp [DeltaKind.name]
  have hchange : ∀ k : ChangeKind, '|' ∉ k.name.toList := by
    intro k
    cases k <;> simp [ChangeKind.name]
  refine ⟨fun d => rfl, fun o c => rfl, fun d d' => ?_, fun o o' c c' hc hc' => ?_⟩
  · rw [ProfileMessage.name, ProfileMessage.name, messageName_eq_iff (hdelta _) (hdelta _)]
    exact and_congr_right' (and_congr Reference.text_inj
      ⟨DeltaKind.name_injective, congrArg DeltaKind.name⟩)
  · rw [ChangeMessage.name, ChangeMessage.name, messageName_eq_iff (hchange _) (hchange _)]
    refine and_congr_right' (and_comm.trans (and_congr ?_ (Fact.display_eq_iff hc hc')))
    exact ⟨ChangeKind.name_injective, congrArg ChangeKind.name⟩

/-- An edge to an object with an arrow in its key. -/
def edgeToArrow : EdgeKey := ⟨⟨"Host|a"⟩, "link", ⟨"Note|b -[link]-> Host|c"⟩⟩

/-- An edge from an object with an arrow in its key. -/
def edgeFromArrow : EdgeKey := ⟨⟨"Host|a -[link]-> Note|b"⟩, "link", ⟨"Host|c"⟩⟩

/-- Two edges that one commit creates have messages with one name. -/
theorem messageName_identifies_arrowInKey :
    (Fact.edge edgeToArrow).WellNamed ∧ (Fact.edge edgeFromArrow).WellNamed ∧
      Fact.edge edgeToArrow ≠ Fact.edge edgeFromArrow ∧
      (ChangeMessage.ofChange ⟨1⟩ ⟨"net"⟩ ⟨.edge edgeToArrow, .created⟩).name =
        (ChangeMessage.ofChange ⟨1⟩ ⟨"net"⟩ ⟨.edge edgeFromArrow, .created⟩).name ∧
      (ChangeMessage.ofChange ⟨1⟩ ⟨"net"⟩ ⟨.edge edgeToArrow, .created⟩).name ≠
        (ChangeMessage.ofChange ⟨1⟩ ⟨"net"⟩ ⟨.edge edgeFromArrow, .updated⟩).name := by
  have hto : (Fact.edge edgeToArrow).WellNamed := ⟨rfl, by decide, rfl⟩
  have hfrom : (Fact.edge edgeFromArrow).WellNamed := ⟨rfl, by decide, rfl⟩
  have hoverlap : (Fact.edge edgeToArrow).Overlap (.edge edgeFromArrow) :=
    ⟨_, _, rfl, rfl, .inl ⟨"Note|b", by decide, by decide⟩⟩
  have hnames := (messageName_identifies ⟨1⟩ ⟨1⟩).2.2.2
  refine ⟨hto, hfrom, by decide, ?_, fun h => ?_⟩
  · exact (hnames _ _ ⟨_, .created⟩ ⟨_, .created⟩ hto hfrom).mpr ⟨rfl, rfl, .inr hoverlap⟩
  · have hkind := ((hnames _ _ ⟨_, .created⟩ ⟨_, .updated⟩ hto hfrom).mp h).2.1
    cases hkind

end ClearanceGraph
