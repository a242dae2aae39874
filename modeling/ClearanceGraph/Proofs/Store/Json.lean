import ClearanceGraph.Proofs.Event.Json
import ClearanceGraph.Proofs.Store.Filing

/-! # Documents read back — whatever the order of their fields

    A document is read from what it is written as, and from the canonical form
    of that, in which its parts come before its kind.  The record of an origin
    loses the facts of its contents when it is written; they are found again,
    if every content lies under its own fact.

    A list of documents is read as the contents of a record if all of them are
    contents of facts.  The record has of each fact the last one. -/

namespace ClearanceGraph

open Json (Rearranges)

/-! ## Contents and documents -/

theorem Content.isReadable_toJson (c : Content) : c.toJson.isReadable = true := by
  cases c with
  | object o =>
      simp only [toJson, documentJson, Json.isReadable_object_iff, List.forall_mem_cons]
      exact ⟨rfl, o.isReadable_toJson, nofun⟩
  | edge e =>
      simp only [toJson, documentJson, Json.isReadable_object_iff, List.forall_mem_cons]
      exact ⟨rfl, e.isReadable_toJson, nofun⟩
  | declaration d => rfl

theorem OriginRecord.isReadable_toJson (r : OriginRecord) : r.toJson.isReadable = true := by
  simp only [toJson, Json.isReadable_object_iff, Json.isReadable_array_iff,
    List.forall_mem_cons, List.forall_mem_map]
  exact ⟨rfl, rfl, rfl, fun c _ => c.isReadable_toJson, rfl, nofun⟩

/-- The contents of facts are read as the documents that are about facts. -/
theorem Content.read?_eq (s : Json.Source) (j : Json) :
    read? s j = (Document.read? s j).bind Document.content? := by
  rw [Document.read?, ← Json.tagged?_bind]
  refine congrArg (Json.tagged? s "type" "document" · j) ?_
  -- of each kind that is no content, nothing is left; each other kind is its content
  simp only [List.map_cons, Option.bind_map, Function.comp_def, Document.content?,
    Option.bind_fun_none, List.map_nil, List.cons.injEq, Prod.mk.injEq, true_and, and_true]
  simp only [Option.map_eq_bind, Function.comp_def, and_self]

/-- The names of the methods are distinct. -/
theorem Method.lookup_name (m : Method) : names.lookup m.name = some m := by
  cases m <;> rfl

/-- The fields of a record with something as its result. -/
def OriginRecord.fieldsWith (r : OriginRecord) (result : Json) : List (String × Json) :=
  [("id", r.id.toJson), ("method", .string r.method.name),
    ("valid_time", r.validTime.toJson), ("result", result), ("runs", .int r.runs)]

/-- The numbers of a document are words of 64 or, for hops, of 32 bits. -/
def Document.InBounds : Document → Prop
  | content _ => True
  | origin r => r.runs < UInt64.size
  | profile p => p.InBounds
  | outbox e => e.batch.transaction.InBounds

/-- If the document is the record of an origin, its contents lie under their own facts. -/
def Document.Filed : Document → Prop
  | origin r => r.Filed
  | _ => True

section

variable {f : Json → Json} (hf : Rearranges f)
include hf

theorem Document.read?_content (s : Json.Source) (c : Content) :
    read? s (f c.toJson) = some (content c) := by
  cases c with
  | object o =>
      refine hf.tagged? (by decide) rfl o.isReadable_toJson fun s => ?_
      rw [Object.ofJson?_toJson hf]
      rfl
  | edge e =>
      refine hf.tagged? (by decide) rfl e.isReadable_toJson fun s => ?_
      rw [Edge.ofJson?_toJson hf]
      rfl
  | declaration d =>
      refine hf.tagged? (by decide) rfl rfl fun s => ?_
      rw [DeclaredLevel.ofJson?_toJson hf]
      rfl

/-- A record is read with what its result is read as. -/
theorem OriginRecord.read?_of_perm (s : Json.Source) (r : OriginRecord)
    (hruns : r.runs < UInt64.size) {result : Json} {gs : List (String × Json)}
    (hgs : gs.Perm ((r.fieldsWith result).map fun e => (e.1, f e.2))) :
    read? s (.object gs) = (Json.asList? (Content.read? s) (f result)).map fun cs =>
      { r with result := Content.byFact cs } := by
  obtain ⟨found, hfound, hshows⟩ := Json.exists_fields_of_perm (r.fieldsWith result) hgs
    (by simp [fieldsWith]) ["id", "method", "valid_time", "result", "runs"]
  have hmethod : Json.alternative? s Method.names (f (.string r.method.name)) =
      some r.method := by
    rw [hf.string, Json.alternative?, Method.lookup_name]
  have hcount : Json.asNat? (UInt64.size - 1) (f (.int r.runs)) = some r.runs :=
    hf.asNat? (Nat.le_sub_one_of_lt hruns)
  simp only [read?, hfound, Json.Fields.required, hshows.get?, fieldsWith, List.lookup_cons,
    String.reduceBEq, BEq.rfl, Option.map_some, Option.bind_eq_bind, Option.bind_some,
    OriginId.ofJson?_toJson hf, Instant.ofJson?_toJson hf, hmethod, hcount]
  cases Json.asList? (Content.read? s) (f result) <;> rfl

theorem OriginRecord.read?_toJson (s : Json.Source) (r : OriginRecord)
    (hruns : r.runs < UInt64.size)
    (hfiled : r.Filed) : read? s (f r.toJson) = some r := by
  obtain ⟨gs, hgs, hperm⟩ :=
    hf.object (r.fieldsWith (.array (r.result.values.map Content.toJson)))
    (by simp [fieldsWith])
  have hcontents : Json.asList? (Content.read? s)
    (f (.array (r.result.values.map Content.toJson))) = some r.result.values := by
    refine hf.asList? fun c _ => ?_
    rw [Content.read?_eq, Document.read?_content hf]
    rfl
  have hread := read?_of_perm hf s r hruns hperm
  rw [hcontents, Option.map_some, Content.byFact_values hfiled, ← hgs] at hread
  exact hread

/-- **A document is read from what it is written as**, whatever the order of the
    fields. -/
theorem Document.read?_toJson (s : Json.Source) (d : Document) (hbounds : d.InBounds)
    (hfiled : d.Filed) : read? s (f d.toJson) = some d := by
  cases d with
  | content c => exact read?_content hf s c
  | origin r =>
      refine hf.tagged? (by decide) rfl r.isReadable_toJson fun s => ?_
      rw [OriginRecord.read?_toJson hf s r hbounds hfiled]
      rfl
  | profile p =>
      refine hf.tagged? (by decide) rfl p.isReadable_toJson fun s => ?_
      rw [Profile.read?_toJson hf s p hbounds]
      rfl
  | outbox e =>
      refine hf.tagged? (by decide) rfl e.isReadable_toJson fun s => ?_
      rw [OutboxEntry.read?_toJson hf s e hbounds]
      rfl

end

/-! ## Lists of documents -/

/-- A list of documents is one of contents if nothing else is among them. -/
theorem Document.mapM_content?_eq_some_iff {ds : List Document} {cs : List Content} :
    ds.mapM content? = some cs ↔ ds = cs.map content := by
  induction ds generalizing cs with
  | nil => simp [eq_comm]
  | cons d ds ih =>
      cases d with
      | content c =>
          have hcons : (content c :: ds).mapM content? = (ds.mapM content?).map
              (c :: ·) := by
            rw [List.mapM_cons]
            cases ds.mapM content? <;> rfl
          rw [hcons, Option.map_eq_some_iff]
          simp only [ih]
          constructor
          · rintro ⟨cs, rfl, rfl⟩
            rfl
          · intro h
            obtain ⟨c', cs', rfl, hc, hds⟩ := List.map_eq_cons_iff.mp h.symm
            cases hc
            exact ⟨cs', hds.symm, rfl⟩
      | _ => cases cs <;> simp [content?]

theorem Document.mapM_content?_eq_none_iff {ds : List Document} :
    ds.mapM content? = none ↔
      ∃ d ∈ ds, (∃ p, d = profile p) ∨ (∃ e, d = outbox e) ∨ ∃ r, d = origin r := by
  induction ds with
  | nil => simp
  | cons d ds ih =>
      cases d with
      | content c =>
          rw [List.exists_mem_cons_iff, ← ih, List.mapM_cons]
          cases ds.mapM content? <;> simp [content?]
      | _ => simp [content?]

/-- A record is read with the contents of a list of documents, if they are contents. -/
theorem OriginRecord.read?_documents (s : Json.Source) (r : OriginRecord)
    (hruns : r.runs < UInt64.size)
    {js : List Json} {ds : List Document} (hjs : js.mapM (Document.read? s) = some ds)
    {gs : List (String × Json)} (hgs : gs.Perm (r.fieldsWith (.array js))) :
    read? s (.object gs) = (ds.mapM Document.content?).map fun cs =>
      { r with result := Content.byFact cs } := by
  have hcontents : ∀ {js : List Json} {ds : List Document},
    js.mapM (Document.read? s) = some ds →
      js.mapM (Content.read? s) = ds.mapM Document.content? := by
    intro js
    induction js with
    | nil =>
        intro ds h
        cases h
        rfl
    | cons j js ih =>
        intro ds h
        simp only [List.mapM_cons, Option.bind_eq_bind, Option.bind_eq_some_iff,
          Option.pure_def, Option.some.injEq] at h
        obtain ⟨d, hd, ds, hds, rfl⟩ := h
        rw [List.mapM_cons, List.mapM_cons, Content.read?_eq, hd, ih hds, Option.bind_some]
  rw [← hcontents hjs]
  exact read?_of_perm Json.rearranges_id s r hruns (hgs.trans (.of_eq (List.map_id _).symm))

/-- **Documents survive JSON.** A document whose numbers are in bounds and whose
    contents lie under their own facts is read from what it is written as, and from its
    canonical form.  A list of documents is refused as the result of a record exactly if
    a profile, an outbox entry or another record is among them.  Otherwise the record is
    written with one document of every fact of the list, by ascending facts, and that is
    the last one of its fact. -/
theorem Document.survives_json :
    (∀ d : Document, d.InBounds → d.Filed →
      ofJson? d.toJson = some d ∧ ofJson? d.toJson.canonical = some d) ∧
    ∀ (s : Json.Source) (r : OriginRecord) (js : List Json) (ds : List Document)
      (gs : List (String × Json)), r.runs < UInt64.size → js.mapM (read? s) = some ds →
      gs.Perm (r.fieldsWith (.array js)) →
        (OriginRecord.read? s (.object gs) = none ↔
          ∃ d ∈ ds, (∃ p, d = profile p) ∨ (∃ e, d = outbox e) ∨ ∃ r', d = origin r') ∧
        ∀ r', OriginRecord.read? s (.object gs) = some r' →
          ∃ cs out : List Content, ds = cs.map content ∧
            r'.toJson = .object (r.fieldsWith (.array (out.map Content.toJson))) ∧
            (out.Pairwise fun a b => compare a.fact b.fact = .lt) ∧
            (∀ c ∈ cs, ∃ a ∈ out, a.fact = c.fact) ∧
            ∀ c, c ∈ out ↔
              ∃ before after, cs = before ++ c :: after ∧ ∀ a ∈ after, a.fact ≠ c.fact := by
  refine ⟨fun d hbounds hfiled => ?_, fun s r js ds gs hruns hjs hgs => ?_⟩
  · exact ⟨read?_toJson Json.rearranges_id .inPlace d hbounds hfiled,
      read?_toJson Json.rearranges_canonical .inPlace d hbounds hfiled⟩
  · rw [OriginRecord.read?_documents s r hruns hjs hgs]
    refine ⟨by rw [Option.map_eq_none_iff, mapM_content?_eq_none_iff], fun r' hr' => ?_⟩
    obtain ⟨cs, hcs, rfl⟩ := Option.map_eq_some_iff.mp hr'
    refine ⟨cs, (Content.byFact cs).values, mapM_content?_eq_some_iff.mp hcs, rfl,
      Content.pairwise_values_byFact cs, fun c hc => ?_, fun c => Content.mem_values_byFact⟩
    exact Content.exists_mem_values_byFact hc

/-- A host with a count. -/
def hostCounted (n : Int) : Content :=
  .object ⟨⟨"Host|a"⟩, "Host", Table.ofList [("count", ⟨.int n, rfl⟩)]⟩

/-- The record of an origin that counted in a leap second. -/
def hostRecord : OriginRecord :=
  ⟨⟨"dns"⟩, .observation, ⟨.last, ⟨23, 59, 60, 5, by decide⟩⟩,
    Content.byFact [hostCounted 7], 1⟩

theorem Document.survives_json_hostRecord :
    InBounds (origin hostRecord) ∧ Filed (origin hostRecord) ∧
      ofJson? (origin hostRecord).toJson.canonical = some (origin hostRecord) ∧
      (∃ js, js.mapM (read? .setAside) = some [content (hostCounted 1),
        content (hostCounted 2)] ∧
        ∃ (r' : OriginRecord) (out : List Content),
          OriginRecord.read? .setAside (.object (hostRecord.fieldsWith (.array js))) =
            some r' ∧
            r'.toJson = .object (hostRecord.fieldsWith (.array (out.map Content.toJson))) ∧
            hostCounted 2 ∈ out) ∧
      ∃ js, js.mapM (read? .setAside) =
          some [content (hostCounted 1), profile (.empty ⟨"Host|a"⟩ Level.zero)] ∧
        OriginRecord.read? .setAside (.object (hostRecord.fieldsWith (.array js))) =
          none := by
  have hbounds : InBounds (origin hostRecord) := (by decide : hostRecord.runs < UInt64.size)
  have hfiled : Filed (origin hostRecord) :=
    fun e he => Content.fact_of_get?_byFact ((Table.mem_entries_iff _).mp he)
  have hreads : ∀ n, read? .setAside (hostCounted n).toJson =
    some (content (hostCounted n)) :=
    fun n => read?_content Json.rearranges_id .setAside (hostCounted n)
  have hprofile : read? .setAside (profile (.empty ⟨"Host|a"⟩ Level.zero)).toJson =
      some (profile (.empty ⟨"Host|a"⟩ Level.zero)) :=
    read?_toJson Json.rearranges_id .setAside _ trivial trivial
  -- two contents of one object, and then a list with something else
  have hcontents : [(hostCounted 1).toJson, (hostCounted 2).toJson].mapM (read? .setAside) =
      some [content (hostCounted 1), content (hostCounted 2)] := by
    simp [hreads]
  have hmixed : [(hostCounted 1).toJson,
      (profile (.empty ⟨"Host|a"⟩ Level.zero)).toJson].mapM (read? .setAside) =
      some [content (hostCounted 1), profile (.empty ⟨"Host|a"⟩ Level.zero)] := by
    simp [hreads, hprofile]
  refine ⟨hbounds, hfiled, (survives_json.1 _ hbounds hfiled).2, ⟨_, hcontents, ?_⟩,
    _, hmixed, ?_⟩
  · obtain ⟨hnone, hsome⟩ := survives_json.2 .setAside hostRecord _ _ _ (by decide)
        hcontents (.refl _)
    cases hread : OriginRecord.read? .setAside (.object (hostRecord.fieldsWith
        (.array [(hostCounted 1).toJson, (hostCounted 2).toJson]))) with
    | none =>
        obtain ⟨d, hd, hkind⟩ := hnone.mp hread
        simp only [List.mem_cons, List.not_mem_nil, or_false] at hd
        obtain rfl | rfl := hd <;> obtain ⟨_, h⟩ | ⟨_, h⟩ | ⟨_, h⟩ := hkind <;> cases h
    | some r' =>
        obtain ⟨cs, out, hcs, hjson, -, -, hout⟩ := hsome r' hread
        obtain ⟨c₁, cs, rfl, h₁, hcs⟩ := List.map_eq_cons_iff.mp hcs.symm
        obtain ⟨c₂, cs, rfl, h₂, hcs⟩ := List.map_eq_cons_iff.mp hcs
        obtain rfl := List.map_eq_nil_iff.mp hcs
        cases h₁
        cases h₂
        exact ⟨r', out, rfl, hjson, (hout _).mpr ⟨[hostCounted 1], [], rfl, nofun⟩⟩
  · obtain ⟨hnone, -⟩ := survives_json.2 .setAside hostRecord _ _ _ (by decide)
        hmixed (.refl _)
    exact hnone.mpr ⟨_, List.mem_cons_of_mem _ List.mem_cons_self, .inl ⟨_, rfl⟩⟩

end ClearanceGraph
