import ClearanceGraph.Engine.Recovery
import ClearanceGraph.Proofs.Effects
import ClearanceGraph.Proofs.Engine.Flush
import ClearanceGraph.Proofs.Origin.Holdings

/-! # Rebuilding — the batch of a commit, read back from the log

    At the commit, the kinds of changes are known from what the plan read.  Later on
    they follow from the history of each document: whether it was there before the
    commit is asked of the versions with smaller numbers only, up to the valid time of
    the commit (`existedBefore_eq`).  Commits append, so the answer is the same at any
    later point (`changesOf_gives`).

    A plan notes exactly the changes that its steps make (`Plan.Steps.tallies`), as long
    as the records of origins hold contents of their own facts (`Store.HistoryFiled`),
    which nothing that is done to a store breaks (`Store.Served.kept`).

    `recover_gives_job` puts the two together. -/

namespace ClearanceGraph

/-! ## Histories up to a commit -/

namespace Engine

/-- **Whether a document was there before a commit** is what showed up to the commit
    before it. -/
theorem existedBefore_eq {s : Store} {k : DocumentKey} {ds : List Dated} {tx : Committed}
    (hpos : 0 < tx.id.value)
    (hds : ds.map Dated.version = sortBy Version.order (s.versionsOf k)) :
    existedBefore tx ds = (s.visibleAsOf (tx.id.value - 1) tx.validTime k).isSome := by
  have hnew : (newest? (ds.filter fun v =>
      decide (v.transaction < tx.id) && decide (v.valid.start ≤ tx.validTime))).map
        Dated.version =
      Store.showing tx.validTime
        ((s.versionsOf k).filter fun v => v.transaction.value ≤ tx.id.value - 1) := by
    have hmap : ∀ vs : List Dated,
        lastMax? Version.order (vs.map Dated.version) = (newest? vs).map Dated.version :=
      fun vs => lastMax?_map Dated.version vs
    rw [← hmap]
    have hfilter : (ds.filter fun v => decide (v.transaction < tx.id) &&
        decide (v.valid.start ≤ tx.validTime)).map Dated.version =
        (sortBy Version.order (s.versionsOf k)).filter fun v =>
          decide (v.transaction < tx.id) && decide (v.validFrom ≤ tx.validTime) := by
      rw [← hds, List.filter_map]
      rfl
    rw [hfilter, lastMax?_filter_sortBy, Store.showing, List.filter_filter]
    -- numbers start from one
    refine congrArg _ (List.filter_congr fun v _ => ?_)
    rw [Bool.and_comm]
    refine congrArg _ (decide_eq_decide.mpr ?_)
    show v.transaction.value < tx.id.value ↔ _
    omega
  rw [existedBefore, Store.visibleAsOf, ← hnew]
  cases newest? _ with
  | none => rfl
  | some v => rfl

end Engine

/-! ## Changes of steps -/

/-- The change of a fact that a step makes of what shows in a store at an instant. -/
def Operation.changeOn (s : Store) (t : Instant) : Operation → Option Change
  | expect _ _ => none
  | put d => d.fact?.map fun f =>
      ⟨f, if (s.visible t d.key).isSome then .updated else .created⟩
  | delete k => k.fact?.map fun f => ⟨f, .retracted⟩

namespace Engine

variable {s s' : Store} {tx : Committed} (hpos : 0 < tx.id.value)
  (hbefore : ∀ k, s'.visibleAsOf (tx.id.value - 1) tx.validTime k = s.visible
    tx.validTime k)

include hpos hbefore

private theorem changeOf_gives (op : Operation) :
    (changeOf tx op).Gives s' (op.changeOn s tx.validTime) := by
  have hput : ∀ d : Document, Reading.Gives (do
      let existed := existedBefore tx (← Reading.history d.key)
      return d.fact?.map fun f => ⟨f, if existed then ChangeKind.updated else .created⟩) s'
      ((Operation.put d).changeOn s tx.validTime) := by
    intro d
    obtain ⟨ds, hgives, hds⟩ := s'.exists_history_gives d.key
    refine hgives.bind ?_
    rw [existedBefore_eq hpos hds, hbefore]
    exact Reading.gives_pure s' _
  cases op with
  | expect k d => exact Reading.gives_pure s' _
  | delete k => exact Reading.gives_pure s' _
  | put d =>
      cases d with
      | origin r => exact Reading.gives_pure s' _
      | content c => exact hput _
      | profile p => exact hput _
      | outbox e => exact hput _

/-- **The changes that are read back** are those that the steps made. -/
theorem changesOf_gives (ops : List Operation) :
    (changesOf tx ops).Gives s' (ops.filterMap (Operation.changeOn s tx.validTime)) := by
  induction ops with
  | nil => exact Reading.gives_pure s' _
  | cons op ops ih =>
      refine (changeOf_gives hpos hbefore op).bind (ih.bind ?_)
      have hcons : (op :: ops).filterMap (Operation.changeOn s tx.validTime) =
          (op.changeOn s tx.validTime).toList ++
            ops.filterMap (Operation.changeOn s tx.validTime) := by
        rw [List.filterMap_cons]
        cases op.changeOn s tx.validTime <;> rfl
      rw [hcons]
      exact Reading.gives_pure s' _

end Engine

/-! ## Changes of plans -/

namespace Plan

variable {s : Store} {p q : Plan} {o : OriginId} {asserted : Table Fact Content}

/-- A plan notes the changes that its steps make. -/
def Tallies (s : Store) (p : Plan) : Prop :=
  p.changes = p.transaction.operations.filterMap (Operation.changeOn s p.validTime)

/-- A step and the change that it makes. -/
theorem Tallies.push {op : Operation} {f : Fact} {k : ChangeKind} (h : p.Tallies s)
    (hop : op.changeOn s p.validTime = some ⟨f, k⟩) :
      ((p.push op).record f k).Tallies s := by
  show p.changes ++ [⟨f, k⟩] =
    (p.transaction.operations ++ [op]).filterMap (Operation.changeOn s p.validTime)
  rw [List.filterMap_append, h, List.filterMap_cons, List.filterMap_nil, hop]

/-- Steps of a plan note what they change, if contents are put under their own facts. -/
theorem Steps.tallies (h : p.Steps s (fun f c => c.fact = f) q) (hp : p.Tallies s) :
    q.Tallies s := by
  induction h with
  | refl => exact hp
  | share f _ ih => exact ih
  | put hc _ ih =>
      subst hc
      exact ih.push rfl
  | delete f _ ih => exact ih.push rfl

/-- The ledger makes no changes of facts. -/
theorem Closes.tallies (hp : q.Closes o asserted p) (h : q.Tallies s) : p.Tallies s := by
  have hledger : ∀ a b : Operation, a.changeOn s q.validTime = none →
      b.changeOn s q.validTime = none → q.changes =
        ((q.transaction.operations ++ [a]) ++ [b]).filterMap
          (Operation.changeOn s q.validTime) := by
    intro a b ha hb
    rw [List.filterMap_append, List.filterMap_append, List.filterMap_cons, ha,
      List.filterMap_cons, hb, List.filterMap_nil, List.append_nil, List.append_nil, h]
  cases hp with
  | record previous _ _ => exact hledger _ _ rfl rfl
  | ended _ => exact hledger _ _ rfl rfl

/-- The last record that a plan writes is that of its origin. -/
theorem Closes.originOf? (hp : q.Closes o asserted p) :
    (p.transaction.operations.filterMap Engine.originOf?).getLast? = some o := by
  have hlast : ∀ a b : Operation, Engine.originOf? b = some o →
      (((q.transaction.operations ++ [a]) ++ [b]).filterMap Engine.originOf?).getLast? =
        some o := by
    intro a b hb
    rw [List.filterMap_append, List.filterMap_cons, hb, List.filterMap_nil,
      List.getLast?_concat]
  cases hp with
  | record previous hid _ => exact hlast _ _ (congrArg some hid)
  | ended hid => exact hlast _ _ (congrArg some hid)

end Plan

/-! ## Records with their own contents -/

namespace Store

variable {s s' : Store} {tx : Transaction} {id : TransactionId}

/-- Every record that was ever written holds contents of its own facts. -/
def HistoryFiled (s : Store) : Prop :=
  ∀ o, ∀ v ∈ s.versionsOf (.origin o), ∀ r, v.document = some (.origin r) →
    ∀ f c, r.content? f = some c → c.fact = f

theorem historyFiled_empty : Store.empty.HistoryFiled := by
  intro o v hv
  simp [versionsOf, Store.empty] at hv

theorem HistoryFiled.recordsFiled (h : s.HistoryFiled) : s.RecordsFiled := by
  intro o r f c hr hc
  obtain ⟨d, hd, hrecord⟩ := Option.bind_eq_some_iff.mp hr
  obtain ⟨v, hv, hdoc⟩ := exists_version_of_visible hd
  cases d with
  | origin x =>
      obtain rfl := Option.some.inj hrecord
      exact h _ v hv x hdoc f c hc
  | content x => cases hrecord
  | profile x => cases hrecord
  | outbox x => cases hrecord

theorem HistoryFiled.owners (h : s.HistoryFiled) (hs : s.Sound) :
    ∀ f, ∀ r ∈ s.owners f, ∀ c, r.content? f = some c → c.fact = f :=
  h.recordsFiled.owners hs

/-- A commit keeps records filed, if those that it puts are. -/
theorem HistoryFiled.submit (h : s.HistoryFiled) (hsub : s.submit tx = .ok (id, s'))
    (hput : ∀ r, .put (.origin r) ∈ tx.operations → ∀ f c, r.content? f = some c →
      c.fact = f) :
    s'.HistoryFiled := by
  intro o v hv r hr
  rcases mem_versionsOf_submit_put hsub hv hr with hv | hop
  · exact h o v hv r hr
  · exact hput r hop

/-- Commits that write no records keep them filed. -/
theorem Evolves.historyFiled {A : Transaction → Prop} (h : s.Evolves A s')
    (hA : ∀ tx, A tx → ∀ o, ¬ tx.Writes (.origin o)) (hs : s.HistoryFiled) :
      s'.HistoryFiled :=
  h.keeps (fun hs htx hsub => hs.submit hsub fun r hop =>
    absurd ⟨_, hop, rfl, rfl⟩ (hA _ htx r.id)) hs

end Store

/-! ## Errands -/

/-- What is done to a store: by origins, by passes, and by publishers. -/
inductive Errand where
  | call (levels : LevelConfig) (config : ReconcileConfig) (c : Call)
  | follow (levels : LevelConfig) (c : SpreadConfig) (seed : Batch) (recorded : Bool)
  | full (levels : LevelConfig) (c : SpreadConfig) (t : Instant)
  | publish (c : PublisherConfig) (b : Batch)
  | republish (c : PublisherConfig)

def Errand.perform : Errand → World → World
  | call levels config c, w => (c.perform levels config w).2
  | follow levels c seed recorded, w => (Pass.follow levels c seed recorded w).2
  | full levels c t, w => (Pass.full levels c t w).2
  | publish c b, w => (Publisher.publish c b w).2
  | republish c, w => (Publisher.republishPending c w).2

namespace Store

variable {s s' : Store}

/-- Stores to which errands were done, one at a time. Each of them finds a world of its
    own, with any faults, and is done whether it succeeds or fails. -/
inductive Served : Store → Prop where
  | empty : Served .empty
  | errand {s : Store} {w : World} (e : Errand) :
      Served s → w.Alone s → Served (e.perform w).backend.store

end Store

/-- A world that nobody else writes shows its store and its messages. -/
theorem World.Alone.shows {s : Store} {w : World} (hw : w.Alone s) :
    w.Shows .any ⟨s, w.broker.topics⟩ :=
  ⟨hw.1, rfl, hw.2, fun _ => trivial, fun hfair => hfair.elim⟩

namespace Call

variable {s : Store} {c : Call} {w : World}

/-- What a call made of a store that nobody else writes. -/
theorem perform_store (levels : LevelConfig) (config : ReconcileConfig) (hw : w.Alone s) :
    (c.perform levels config w).2.backend.store = s ∨
    ∃ p id, (c.plan config.cascade).Gives s (some p) ∧
      s.submit p.transaction = .ok (id, (c.perform levels config w).2.backend.store) := by
  obtain ⟨g, hg, hres⟩ := c.leads_perform levels config w hw.shows
  rw [hg.store]
  cases hx : (c.perform levels config w).1 with
  | error e =>
      rw [hx] at hres
      exact .inl (congrArg Scene.store hres)
  | ok x =>
      rw [hx] at hres
      rcases hres with ⟨-, -, rfl⟩ | ⟨p, id, s', hplan, hsub, -, rfl⟩
      · exact .inl rfl
      · exact .inr ⟨p, id, hplan, hsub⟩

/-- A call keeps a store sound. -/
theorem sound_perform (levels : LevelConfig) (config : ReconcileConfig) (c : Call)
    (hs : s.Sound)
    (hw : w.Alone s) : (c.perform levels config w).2.backend.store.Sound := by
  rcases c.perform_store levels config hw with hsame | ⟨p, id, -, hsub⟩
  · exact hsame.symm ▸ hs
  · exact hs.submit hsub

end Call

namespace Errand

variable {s : Store} {w : World}

/-- What an errand made of a store that nobody else writes: it committed the plan of a
    call, or made commits that write no record. -/
theorem perform_store (hs : s.Sound) (hw : w.Alone s) (e : Errand) :
    (∃ levels config c p id, e = .call levels config c ∧
      (c.plan config.cascade).Gives s (some p) ∧
        s.submit p.transaction = .ok (id, (e.perform w).backend.store)) ∨
      s.Evolves (fun tx => ∀ o, ¬ tx.Writes (.origin o)) (e.perform w).backend.store := by
  cases e with
  | call levels config c =>
      rw [perform]
      -- a call commits its plan; all other errands write profiles and notes
      rcases c.perform_store levels config hw with hsame | ⟨p, id, hplan, hsub⟩
      · rw [hsame]
        exact .inr .refl
      · exact .inl ⟨levels, config, c, p, id, rfl, hplan, hsub⟩
  | follow levels c seed recorded =>
      rw [perform]
      exact .inr (((Pass.commits_follow levels c seed recorded).evolves hs hw).mono
        fun tx htx o hw => Store.not_noted_origin o (htx _ hw))
  | full levels c t =>
      rw [perform]
      exact .inr (((Pass.commits_full levels c t).evolves hs hw).mono
        fun tx htx o hw => by cases htx _ hw)
  | publish c b =>
      rw [perform]
      exact .inr (((Publisher.commits_publish c b).evolves hs hw).mono
        fun tx htx o hw => by cases (htx.outbox hw).choose_spec)
  | republish c =>
      rw [perform]
      exact .inr (((Publisher.commits_republishPending c).evolves hs hw).mono
        fun tx htx o hw => by cases (htx.outbox hw).choose_spec)

/-- Whatever fails, an errand only commits. -/
theorem evolves (hs : s.Sound) (hw : w.Alone s) (e : Errand) :
    s.Evolves (fun _ => True) (e.perform w).backend.store := by
  rcases e.perform_store hs hw with ⟨_, _, _, p, id, -, -, hsub⟩ | hquiet
  · exact .of_submit trivial hsub
  · exact hquiet.mono fun _ _ => trivial

end Errand

namespace Store

variable {s s' : Store}

/-- Errands keep a store sound, and its records filed. -/
theorem Served.kept (h : s.Served) : s.Sound ∧ s.HistoryFiled := by
  induction h with
  | empty => exact ⟨sound_empty, historyFiled_empty⟩
  | @errand s w e _ hw ih =>
      obtain ⟨hs, hfiled⟩ := ih
      rcases e.perform_store hs hw with ⟨_, config, c, p, id, -, hplan, hsub⟩ | hquiet
      · refine ⟨hs.submit hsub, hfiled.submit hsub fun r hop f k hk => ?_⟩
        rcases c.plan_puts (F := fun f k => k.fact = f) hs (fun f k => c.filed_asserted)
          (hfiled.owners hs) hplan hop with ⟨_, _, -, hcontent⟩ | ⟨x, hresult, hrecord⟩
        · cases hcontent
        · cases hrecord
          rw [OriginRecord.content?, hresult] at hk
          exact c.filed_asserted hk
      · exact ⟨hquiet.sound hs, hquiet.historyFiled (fun _ htx => htx) hfiled⟩

end Store

/-- A store to which errands were done is one that commits lead to. -/
theorem Store.Served.reachable {s : Store} (h : s.Served) : s.Reachable := by
  induction h with
  | empty => exact .empty
  | errand e _ hw ih => exact (e.evolves ih.sound hw).reachable ih

/-! ## Rebuilt batches -/

namespace Engine

variable {s s' : Store} {levels : LevelConfig} {config : ReconcileConfig}
    {c : Call} {w : World}

/-- **A rebuilt batch is the batch of the commit.** Whatever was done before a call, and
    whatever is committed after it, what is read back of its commit is the work that the
    call left. -/
theorem recover_gives_job (hs : s.Served) (hw : w.Alone s) {x : Outcome}
    (hx : (c.perform levels config w).1 = .ok x) {job : Batch} (hjob : x.job? = some job)
    (hlater : (c.perform levels config w).2.backend.store.Evolves (fun _ => True) s') :
    ∃ tx, s'.transaction? job.transaction = some tx ∧ tx.isGraphTransaction = true ∧
      (recover (tx, .unrecorded)).Gives s' job := by
  obtain ⟨hsound, hfiled⟩ := hs.kept
  obtain ⟨g, hg, hres⟩ := c.leads_perform levels config w hw.shows
  rw [hx] at hres
  rw [hg.store] at hlater
  rcases hres with ⟨-, rfl, -⟩ | ⟨p, id, s₁, hplan, hsub, rfl, rfl⟩
  · cases hjob
  obtain rfl := Option.some.inj hjob
  change s₁.Evolves _ s' at hlater
  change s.submit p.transaction = _ at hsub
  obtain ⟨q, hsteps, hcloses⟩ := c.plan_steps (F := fun f k => k.fact = f) hsound
    (fun f k => c.filed_asserted) (hfiled.owners hsound) hplan
  -- the changes of the plan are read off its operations
  have htallies : p.Tallies s := hcloses.tallies (hsteps.tallies rfl)
  have hgrows : s.Grows (fun _ => True) s' :=
    (Store.Grows.of_submit hsound hsub fun _ _ => trivial).trans
      (hlater.grows (hsound.submit hsub) fun _ _ _ _ => trivial)
  have hid : id.value = s.log.length + 1 := by
    obtain ⟨-, rfl, -⟩ := Store.submit_eq_ok hsub
    exact hsound.nextId_value
  refine ⟨p.transaction.committed id, ?_, ?_, ?_⟩
  · exact (hlater.grows (P := fun _ => True) (hsound.submit hsub) fun _ _ _ _ =>
      trivial).transaction?
      (Store.transaction?_submit hsound hsub)
  · obtain ⟨-, o, ⟨op, hop, hwrite, hkey⟩, -⟩ := hcloses.writesRecord hsteps
    refine List.any_eq_true.mpr ⟨op, hop, ?_⟩
    rw [hwrite, hkey]
    rfl
  · -- what was there before the commit is still there, as of that commit
    have hbefore : ∀ k, s'.visibleAsOf (id.value - 1) p.transaction.validTime k =
        s.visible p.transaction.validTime k := by
      intro k
      rw [hid, Nat.add_sub_cancel, hgrows.visibleAsOf_eq (Nat.le_refl _),
        hsound.visibleAsOf_length]
    have hpos : 0 < (p.transaction.committed id).id.value := by
      show 0 < id.value
      omega
    have hchanges := changesOf_gives hpos hbefore p.transaction.operations
    have horigin := hcloses.originOf?
    refine hchanges.bind ?_
    simp only [horigin]
    rw [show p.changes = _ from htallies]
    exact Reading.gives_pure s' _

/-! ## A host that is lost -/

/-- A run of an origin that finds hosts, up or down, and links between them. -/
def found (origin : String) (t : Instant) (hosts : List (String × Bool))
    (links : List (String × String)) : Call :=
  .reconcile ⟨⟨origin⟩, .observation, t,
    hosts.map fun h => ⟨⟨"Host|" ++ h.1⟩, "Host", Table.ofList [("up", ⟨.bool h.2, rfl⟩)]⟩,
    links.map fun l => ⟨⟨⟨"Host|" ++ l.1⟩, "link", ⟨"Host|" ++ l.2⟩⟩, Table.empty⟩, []⟩

/-- Edges of lost hosts are removed. -/
def cascading : ReconcileConfig := ⟨.retractOrphanedEdges, .standard⟩

/-- Errands in worlds without faults. -/
def doneTo (s : Store) (es : List Errand) : Store :=
  es.foldl (fun s e => (e.perform (World.holding s)).backend.store) s

theorem served_doneTo (es : List Errand) :
    ∀ {s : Store}, s.Served → (doneTo s es).Served := by
  induction es with
  | nil => exact fun hs => hs
  | cons e es ih => exact fun hs => ih (.errand e hs (World.alone_holding _))

private theorem evolves_doneTo (es : List Errand) :
    ∀ {s : Store}, s.Sound → s.Evolves (fun _ => True) (doneTo s es) := by
  induction es with
  | nil => exact fun _ => .refl
  | cons e es ih =>
      intro s hs
      have hone : s.Evolves (fun _ => True) (e.perform (World.holding s)).backend.store :=
        e.evolves hs (World.alone_holding s)
      exact hone.trans (ih (hone.sound hs))

/-- One origin finds two hosts, another one the link between them, a third one of the
    hosts long before. In between levels follow and are published. -/
def hostsFound : List Errand :=
  [.call .standard cascading (found "a" .latest [("x", true), ("y", true)] []),
    .follow .standard .standard ⟨⟨1⟩, some ⟨"a"⟩, [], []⟩ true,
    .call .standard cascading (found "c" .latest [] [("x", "y")]),
    .republish .standard,
    .call .standard cascading (found "b" ⟨.origin, .midnight⟩ [("y", false)] [])]

/-- Then the first origin finds nothing more. -/
def hostsLost (s : Store) : Except GraphError Outcome × World :=
  (found "a" .latest [] []).perform .standard cascading (World.holding s)

/-- A lost host is found again, from long before, and levels follow that. -/
def hostRefound : List Errand :=
  [.call .standard cascading (found "d" ⟨.origin, .midnight⟩ [("x", true)] []),
    .follow .standard .standard ⟨⟨7⟩, some ⟨"d"⟩, [], []⟩ true]

/-- One host is gone, the other one stays as it was found long before, and the link goes
    with the first. This is read back of the commit when the host has been found
    again. -/
theorem recover_hostsLost :
    ∃ s x job, s = doneTo .empty hostsFound ∧ (hostsLost s).1 = .ok x ∧
    x.job? = some job ∧
    job.changes = [⟨.object ⟨"Host|x"⟩, .retracted⟩, ⟨.object ⟨"Host|y"⟩, .updated⟩,
      ⟨.edge ⟨⟨"Host|x"⟩, "link", ⟨"Host|y"⟩⟩, .retracted⟩] ∧
    ∃ tx, (doneTo (hostsLost s).2.backend.store hostRefound).transaction? job.transaction =
        some tx ∧ tx.isGraphTransaction = true ∧
      (recover (tx, .unrecorded)).Gives (doneTo (hostsLost s).2.backend.store hostRefound)
        job := by
  obtain ⟨s, hs⟩ : ∃ s, s = doneTo .empty hostsFound := ⟨_, rfl⟩
  have hserved : s.Served := hs ▸ served_doneTo _ .empty
  have hlost : (hostsLost s).1.toOption.any (fun x => x.job?.any fun job => job.changes =
      [⟨.object ⟨"Host|x"⟩, .retracted⟩, ⟨.object ⟨"Host|y"⟩, .updated⟩,
        ⟨.edge ⟨⟨"Host|x"⟩, "link", ⟨"Host|y"⟩⟩, .retracted⟩]) = true := by
    rw [hs]
    decide +kernel
  obtain ⟨x, hx, hjob⟩ := Act.exists_eq_ok
    (a := (found "a" .latest [] []).perform .standard cascading)
      (w := World.holding s) _ hlost
  obtain ⟨job, hjob, hchanges⟩ := (Option.any_eq_true _ _).mp hjob
  have hok : (hostsLost s).1 = .ok x := congrArg Prod.fst hx
  exact ⟨s, x, job, hs, hok, hjob, of_decide_eq_true hchanges,
    recover_gives_job hserved (World.alone_holding s) hok hjob
      (evolves_doneTo _
        ((found "a" .latest [] []).sound_perform .standard cascading hserved.kept.1
        (World.alone_holding s)))⟩

end Engine

end ClearanceGraph
