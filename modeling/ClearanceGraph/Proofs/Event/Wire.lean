import ClearanceGraph.Event.Message
import ClearanceGraph.Proofs.Digest.Uuid
import ClearanceGraph.Proofs.Event.Json
import ClearanceGraph.Proofs.Json.Text

/-! # Messages on the wire — encoded and decoded

    A message is encoded as the text of its written form.  The form is plain, so
    the text is read as the form, and the message is read from that: every part
    from what it is written as, and a level before from a field that is there or
    is not.  What is decoded to different messages is not encoded alike. -/

namespace ClearanceGraph

open Json (Plain rearranges_id)

/-! ## The form of messages -/

/-- A level is a small number. -/
theorem Level.plain_toJson {d : Nat} (l : Level) : Plain d l.toJson := by
  have hlevel : l.value ≤ 255 := l.bounded
  refine .int ⟨?_, ?_⟩ <;> simp only [UInt64.size] <;> omega

/-- A number of a commit fits in a word. -/
theorem TransactionId.plain_toJson {d : Nat} {t : TransactionId} (h : t.InBounds) :
    Plain d t.toJson := by
  refine .int ⟨?_, Int.ofNat_lt.mpr h⟩
  simp only [UInt64.size]
  omega

/-- A fact is two levels deep, and has texts only. -/
theorem Fact.plain_toJson {d : Nat} (x : Fact) : Plain (d + 2) x.toJson := by
  cases x with
  | object r =>
      refine .object ?_
      simp only [List.forall_mem_cons]
      exact ⟨.string _, .string _, nofun⟩
  | edge k =>
      refine .object ?_
      simp only [List.forall_mem_cons, EdgeKey.toJson]
      refine ⟨.string _, .object ?_, nofun⟩
      simp only [List.forall_mem_cons]
      exact ⟨.string _, .string _, .string _, nofun⟩
  | declaration r =>
      refine .object ?_
      simp only [List.forall_mem_cons]
      exact ⟨.string _, .string _, nofun⟩

/-- An identifier is read from its text. -/
theorem Uuid.ofJson?_toText (u : Uuid) : ofJson? (.string u.toText) = some u := by
  rw [ofJson?, Json.asString?, Option.bind_some, ofText?_toText]

namespace ProfileMessage

/-- A message about a level is plain. -/
theorem plain_toJson {d : Nat} {m : ProfileMessage} (h : m.transaction.InBounds) :
    Plain (d + 1) m.toJson := by
  refine .object ?_
  have hold : ∀ e ∈ m.oldLevel.toList.map fun l => ("old_level", l.toJson), Plain d e.2 :=
    List.forall_mem_map.mpr fun l _ => l.plain_toJson
  simp only [List.cons_append, List.nil_append, List.forall_mem_cons,
    List.forall_mem_append]
  exact ⟨.string _, TransactionId.plain_toJson h, .string _, hold, m.newLevel.plain_toJson,
    .string _, nofun⟩

/-- It is read from its parts. -/
theorem ofJson?_toJson {m : ProfileMessage} (h : m.transaction.InBounds) :
    ofJson? m.toJson = some m := by
  obtain ⟨r, hr, hshows⟩ := rearranges_id.exists_fields
    ([("message_id", .string m.id.toText), ("transaction_id", m.transaction.toJson),
        ("object_id", m.object.toJson)] ++
      (m.oldLevel.toList.map fun l => ("old_level", l.toJson)) ++
      [("new_level", m.newLevel.toJson), ("kind", m.kind.toJson)])
    (by cases m.oldLevel <;> simp)
    ["message_id", "transaction_id", "object_id", "old_level", "new_level", "kind"]
  have hold : r.defaulted "old_level" none (Json.asOption? Level.ofJson?) =
      some m.oldLevel := by
    rw [Json.Fields.defaulted, hshows.get?]
    cases m.oldLevel with
    | none => rfl
    | some l =>
        exact rearranges_id.asOption? (o := some l) rfl fun l _ =>
          Level.ofJson?_toJson rearranges_id l
  -- behind the level before, which may be missing, the other fields are found in either
  -- case
  have hnew : r.get? "new_level" = some m.newLevel.toJson := by
    rw [hshows.get?]
    cases m.oldLevel <;> rfl
  have hkind : r.get? "kind" = some m.kind.toJson := by
    rw [hshows.get?]
    cases m.oldLevel <;> rfl
  have hid : r.get? "message_id" = some (.string m.id.toText) := hshows.get? _
  have htransaction : r.get? "transaction_id" = some m.transaction.toJson := hshows.get? _
  have hobject : r.get? "object_id" = some m.object.toJson := hshows.get? _
  have ht : TransactionId.ofJson? m.transaction.toJson = some m.transaction :=
    TransactionId.ofJson?_toJson rearranges_id _ h
  have ho : Reference.ofJson? m.object.toJson = some m.object :=
    Reference.ofJson?_toJson rearranges_id _
  have hl : Level.ofJson? m.newLevel.toJson = some m.newLevel :=
    Level.ofJson?_toJson rearranges_id _
  have hk : DeltaKind.ofJson? m.kind.toJson = some m.kind :=
    DeltaKind.read?_toJson rearranges_id _ _
  rw [id_eq] at hr
  rw [ofJson?, toJson, hr]
  simp only [Option.bind_eq_bind, Option.bind_some, Json.Fields.required, hold,
    hnew, hkind, hid, htransaction, hobject, Uuid.ofJson?_toText, ht, ho, hl, hk]
  rfl

end ProfileMessage

namespace ChangeMessage

/-- A message about a change is plain. -/
theorem plain_toJson {d : Nat} {m : ChangeMessage} (h : m.transaction.InBounds) :
    Plain (d + 3) m.toJson := by
  refine .object ?_
  simp only [List.forall_mem_cons]
  exact ⟨.string _, TransactionId.plain_toJson h, .string _, m.fact.plain_toJson,
    .string _, nofun⟩

/-- It is read from its parts. -/
theorem ofJson?_toJson {m : ChangeMessage} (h : m.transaction.InBounds) :
    ofJson? m.toJson = some m := by
  obtain ⟨r, hr, hshows⟩ := rearranges_id.exists_fields
    [("message_id", .string m.id.toText), ("transaction_id", m.transaction.toJson),
      ("origin", m.origin.toJson), ("fact", m.fact.toJson), ("kind", m.kind.toJson)]
        (by simp)
    ["message_id", "transaction_id", "origin", "fact", "kind"]
  have ht : TransactionId.ofJson? m.transaction.toJson = some m.transaction :=
    TransactionId.ofJson?_toJson rearranges_id _ h
  have ho : OriginId.ofJson? m.origin.toJson = some m.origin :=
    OriginId.ofJson?_toJson rearranges_id _
  have hf : Fact.ofJson? m.fact.toJson = some m.fact := Fact.read?_toJson rearranges_id _ _
  have hk : ChangeKind.ofJson? m.kind.toJson = some m.kind :=
    ChangeKind.read?_toJson rearranges_id _ _
  rw [id_eq] at hr
  rw [ofJson?, toJson, hr]
  simp [Json.Fields.required, hshows.get?, List.lookup_cons, Uuid.ofJson?_toText,
    ht, ho, hf, hk]

end ChangeMessage

/-! ## The text of messages -/

/-- **A message about a level survives the wire.** -/
theorem ProfileMessage.decode?_encode {m : ProfileMessage} (h : m.transaction.InBounds) :
    decode? m.encode = some m := by
  rw [decode?, encode, Json.parse?_print (plain_toJson h), Option.bind_some,
    ofJson?_toJson h]

/-- **A message about a change survives the wire.** -/
theorem ChangeMessage.decode?_encode {m : ChangeMessage} (h : m.transaction.InBounds) :
    decode? m.encode = some m := by
  rw [decode?, encode, Json.parse?_print (plain_toJson h), Option.bind_some,
    ofJson?_toJson h]

/-- **Messages survive the wire.** Whatever texts, levels, facts and kinds a message
    holds, it is decoded from what it is encoded as; the number of its commit is a word.
    So no two messages are encoded alike. -/
theorem messages_survive_wire :
    (∀ m : ProfileMessage, m.transaction.InBounds →
      ProfileMessage.decode? m.encode = some m) ∧
    (∀ m : ChangeMessage, m.transaction.InBounds →
      ChangeMessage.decode? m.encode = some m) ∧
    (∀ m m' : ProfileMessage, m.transaction.InBounds → m'.transaction.InBounds →
      m.encode = m'.encode → m = m') ∧
    ∀ m m' : ChangeMessage, m.transaction.InBounds → m'.transaction.InBounds →
      m.encode = m'.encode → m = m' := by
  refine ⟨fun m h => ProfileMessage.decode?_encode h, fun m h =>
    ChangeMessage.decode?_encode h, fun m m' h h' heq => ?_, fun m m' h h' heq => ?_⟩
  · have hm := ProfileMessage.decode?_encode h
    rw [heq, ProfileMessage.decode?_encode h'] at hm
    exact (Option.some.inj hm).symm
  · have hm := ChangeMessage.decode?_encode h
    rw [heq, ChangeMessage.decode?_encode h'] at hm
    exact (Option.some.inj hm).symm

/-- A host that is raised to the top, with a quote, a line break and a control character
in its name. -/
def hostRaised (old : Option Level) : Delta :=
  ⟨⟨"Host|\"a\\b\"\n\x01é😀"⟩, old, ⟨255, by decide⟩, .created⟩

/-- The last commit that has a number. -/
def lastCommit : TransactionId := ⟨UInt64.size - 1⟩

/-- Messages about a host whose name is full of escapes, of the last commit that there
    can be. -/
theorem messages_survive_wire_hostRaised :
    lastCommit.InBounds ∧
      ProfileMessage.decode? (ProfileMessage.ofDelta lastCommit (hostRaised none)).encode =
        some (ProfileMessage.ofDelta lastCommit (hostRaised none)) ∧
      ChangeMessage.decode? (ChangeMessage.ofChange lastCommit ⟨"\\"⟩
          ⟨.declaration (hostRaised none).reference, .updated⟩).encode =
        some (ChangeMessage.ofChange lastCommit ⟨"\\"⟩
          ⟨.declaration (hostRaised none).reference, .updated⟩) ∧
      (ProfileMessage.ofDelta lastCommit (hostRaised none)).encode ≠
        (ProfileMessage.ofDelta lastCommit (hostRaised (some Level.zero))).encode := by
  have hlast : lastCommit.InBounds := Nat.sub_lt (by decide) Nat.one_pos
  obtain ⟨hprofile, hchange, hinj, -⟩ := messages_survive_wire
  refine ⟨hlast, hprofile _ hlast, hchange _ hlast, fun h => ?_⟩
  have hold := congrArg ProfileMessage.oldLevel (hinj _ _ hlast hlast h)
  cases hold

end ClearanceGraph
