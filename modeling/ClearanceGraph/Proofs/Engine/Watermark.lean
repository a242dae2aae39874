import ClearanceGraph.Proofs.Effects
import ClearanceGraph.Proofs.Engine.Deed

/-! # The watermark — what is deferred is found without a walk over the whole log

    An engine walks over the log from its watermark only.  That loses nothing as long as
    levels have followed every commit of reconciliation below it, and whatever fails,
    this holds between any two deeds (`Stage.Marked.performAll`): once levels are known
    to have followed a commit, neither a publisher nor a pass ever takes that back, and
    a new commit is not below the watermark.

    So the list of deferred commits is read off the log and the newest versions of the
    boxes (`System.deferred_eq_owed`).  Unlike what is said of pending commits, this asks
    nothing of valid times, leap seconds at the end of the calendar included. -/

namespace ClearanceGraph

namespace Store

variable {P : DocumentKey → Prop} {s s' : Store} {t : TransactionId} {n : Nat}

/-- The batch of a stopped flush is that of its commit. -/
theorem Sound.transaction_of_stopped (hs : s.Sound) {b : Batch}
    (h : (s.box t).state = .stopped b) : b.transaction = t := by
  have hne : (s.box t).state ≠ .recorded := fun hstate => nomatch h.symm.trans hstate
  rcases Box.state_ne_recorded_iff.mp hne with habsent | ⟨e, he, hpart⟩
  · rw [habsent] at h
    cases h
  · obtain ⟨v, hv, hdoc⟩ := box_eq_entry_iff.mp he
    rw [he, Box.state, hpart] at h
    obtain rfl := Outbox.FlushState.stopped.inj h
    exact DocumentKey.outbox.inj (hs.filed (mem_of_newestOf? hv) hdoc)

/-! ## Below the watermark -/

/-- Below the watermark nothing is undone as long as recorded boxes stay recorded. -/
theorem Marks.of_grows (h : s.Marks n) (hgrows : s.Grows P s')
    (hbox : ∀ t, s.IsGraph t → (s.box t).state = .recorded → (s'.box t).state = .recorded) :
    s'.Marks n := by
  refine ⟨Nat.le_trans h.bounded (Nat.succ_le_succ hgrows.log.length_le),
    fun t ht hgraph => ?_⟩
  -- what is below the watermark was committed before
  have hbounded := h.bounded
  have hgraph := hgrows.isGraph_of_le (by omega) hgraph
  exact hbox t hgraph (h.passed t ht hgraph)

/-- Commits that leave the outbox alone, or write to one box that is not recorded. -/
theorem Marks.of_kept (h : s.Marks n) (hgrows : s.Grows P s')
    (hP : ∀ t, P (.outbox t) → (s.box t).state ≠ .recorded) : s'.Marks n := by
  refine h.of_grows hgrows fun t _ hstate => ?_
  rwa [hgrows.box_eq fun hk => hP t hk hstate]

/-- Work on commits leaves the watermark right, since it writes no graph. -/
theorem Marks.of_discharges (h : s.Marks n) (hs : s.Sound)
    (hevolves : s.Evolves Transaction.Discharges s') : s'.Marks n := by
  have hgrows : s.Grows (fun k => ∃ t, k = .outbox t) s' :=
    hevolves.grows hs fun tx htx k hk => htx.outbox hk
  refine h.of_grows hgrows fun t _ hstate => ?_
  have hkept := hevolves.keeps (I := fun s => s.Sound ∧ (s.box t).state = .recorded)
    (fun hs htx hsub => ⟨hs.1.submit hsub, recorded_submit hs.1 htx hsub hs.2⟩) ⟨hs, hstate⟩
  exact hkept.2

end Store

namespace Stage

/-- Levels have followed all commits of reconciliation below the watermark. -/
structure Marked (a : Stage) : Prop where
  sound : a.store.Sound
  marks : a.store.Marks a.engine.watermark

namespace Marked

variable {a a' : Stage} {b : Barrier} {P : DocumentKey → Prop}

theorem setBarrier (h : a.Marked) : (a.setBarrier b).Marked := ⟨h.sound, h.marks⟩

/-- Looking moves no watermark. -/
theorem looked (h : a.Marked) (hlooked : a.Looked a') : a'.Marked := by
  obtain ⟨n, rfl, hmarks⟩ := hlooked
  exact ⟨h.sound, hmarks⟩

end Marked

end Stage

namespace Engine

variable {sky : Weather} {a : Stage}

/-! ## Parts of a run -/

/-- What is done to the world keeps the mark, if its commits do. -/
private theorem leads_commits {α : Type} {A : Transaction → Prop} {x : Act α} (h : a.Marked)
    (hx : World.Commits A x) (hA : ∀ s, a.store.Evolves A s → s.Marks a.engine.watermark) :
    Leads (System.Shows sky) (Work.act x) a (fun _ a' => a'.Marked)
    (fun _ a' => a'.Marked) := by
  refine (Work.leads_act (hx.leads h.sound)).imp ?_ ?_
  · rintro r a' ⟨g, rfl, hevolves⟩
    exact ⟨hevolves.sound h.sound, hA _ hevolves⟩
  · rintro e a' ⟨g, rfl, hevolves⟩
    exact ⟨hevolves.sound h.sound, hA _ hevolves⟩

/-- What discharges commits keeps a stage marked. -/
private theorem leads_discharges {α : Type} {x : Act α} (h : a.Marked)
    (hx : World.Commits Transaction.Discharges x) :
    Leads (System.Shows sky) (Work.act x) a (fun _ a' => a'.Marked)
    (fun _ a' => a'.Marked) :=
  leads_commits h hx fun _ hevolves => h.marks.of_discharges h.sound hevolves

/-- Reading keeps the mark. -/
private theorem leads_reads {α : Type} (r : Reading α) (h : a.Marked) :
    Leads (System.Shows sky) (Work.act (World.read r)) a
      (fun x a' => r.Gives a'.store x ∧ a'.Marked) (fun _ a' => a'.Marked) := by
  refine (Work.leads_act (leads_read r)).imp ?_ ?_
  · rintro x a' ⟨g, rfl, hx, rfl⟩
    exact ⟨hx, h⟩
  · rintro e a' ⟨g, rfl, -, rfl⟩
    exact h

/-- A pass is only made after commits that levels have not followed everywhere. -/
private theorem leads_carryOn_marked {seed : Batch} (c : Config) (h : a.Marked)
    (hstate : (a.store.box seed.transaction).state ≠ .recorded) :
    Leads (System.Shows sky) (do
        let report ← Work.act (Pass.follow c.levels c.spread seed true)
        Work.act (Publisher.publish c.publisher { seed with deltas := report.deltas }) :
          Work Unit) a
      (fun _ a' => a'.Marked) (fun _ a' => a'.Marked) := by
  refine (leads_commits h (Pass.commits_follow c.levels c.spread seed true)
    fun s hevolves => ?_).bind
    fun report a' h' => leads_discharges h' (Publisher.commits_publish c.publisher _)
  refine h.marks.of_kept (hevolves.grows h.sound fun _ htx => htx) ?_
  rintro t (hk | hk)
  · cases hk
  · exact DocumentKey.outbox.inj hk ▸ hstate

/-- Levels follow, and are published, on a marked stage. -/
private theorem leads_advance_marked (job : Batch) (h : a.Marked) :
    Leads (System.Shows sky) (advance job) a (fun _ a' => a'.Marked)
    (fun _ a' => a'.Marked) := by
  refine Leads.step Work.leads_config (fun _ _ hf => hf.elim) ?_
  rintro c a' ⟨rfl, rfl⟩
  refine (leads_reads _ h).bind ?_
  rintro state a' ⟨hgives, h⟩
  have hstate := (Store.flushState_gives _ _).unique hgives
  cases state with
  | unrecorded =>
      exact leads_carryOn_marked _ h fun hrecorded => nomatch hstate.symm.trans hrecorded
  | stopped b =>
      have hid := h.sound.transaction_of_stopped hstate
      refine leads_carryOn_marked _ h fun hrecorded => ?_
      rw [hid, hstate] at hrecorded
      cases hrecorded
  | recorded =>
      refine (leads_reads _ h).bind ?_
      rintro entry a' ⟨-, h⟩
      cases entry with
      | none => exact Leads.pure h
      | some e => exact leads_discharges h (Publisher.commits_publish _ _)

private theorem ends_setBarrier (f : Barrier → Barrier) (h : a.Marked) :
    Ends (System.Shows sky) (Work.modifyBarrier f) a fun _ a' => a'.Marked :=
  (Work.ends_modifyBarrier f).imp fun _ _ heq => heq ▸ h.setBarrier

/-- A flush leaves it marked, however it ends. -/
private theorem ends_flush_marked (job : Batch) (h : a.Marked) :
    Ends (System.Shows sky) (flush job) a fun _ a' => a'.Marked := by
  refine Ends.bind (leads_advance_marked job h) ?_
  intro r a' hr
  cases r with
  | ok u => exact Ends.bind (ends_setBarrier _ hr) fun _ _ h => Ends.pure h
  | error e => cases e <;> exact Ends.pure hr

/-! ## Deeds -/

/-- A commit of reconciliation is not below the watermark. -/
private theorem leads_perform_marked (c : Call) (levels : LevelConfig)
    (config : ReconcileConfig) (h : a.Marked) :
    Leads (System.Shows sky) (Work.act (c.perform levels config)) a (fun _ a' => a'.Marked)
      (fun _ a' => a'.Marked) := by
  refine (Work.leads_act (Call.leads_perform levels config c)).imp ?_ ?_
  · rintro x a' ⟨g, rfl, ⟨-, -, rfl⟩ | ⟨p, id, s', hplan, hsub, -, rfl⟩⟩
    · exact h
    · have hwrites := Call.plan_writes h.sound hplan
      obtain ⟨-, o, -, honly⟩ := hwrites
      refine ⟨h.sound.submit hsub, h.marks.of_kept (.of_submit h.sound hsub honly)
        fun t hk => ?_⟩
      rcases hk with ⟨f, hf⟩ | ho
      · cases hf
      · cases ho
  · rintro e a' ⟨g, rfl, rfl⟩
    exact h

/-- So does a call that is taken. -/
private theorem leads_take (c : Call) (h : a.Marked) :
    Leads (System.Shows sky) (take c) a (fun _ a' => a'.Marked)
    (fun _ a' => a'.Marked) := by
  rw [take_eq]
  refine Leads.step Work.leads_config (fun _ _ hf => hf.elim) ?_
  rintro config a' ⟨-, rfl⟩
  refine Ends.bind (ends_setBarrier Barrier.begin h) fun _ a₁ h₁ => ?_
  refine Ends.bind (leads_perform_marked c _ _ h₁) ?_
  intro r a₂ h₂
  cases r with
  | error e => exact Ends.bind (ends_setBarrier Barrier.drop h₂) fun _ _ h => Ends.pure h
  | ok x =>
      dsimp only
      split
      · exact Ends.bind (ends_setBarrier Barrier.drop h₂) fun _ _ h => Ends.pure h
      · next job _ =>
        refine Ends.bind (ends_setBarrier (fun b => b.commit job.transaction) h₂)
          fun _ a₃ h₃ => ?_
        exact Ends.bind (ends_flush_marked job h₃) fun _ _ h => Ends.pure h

/-- Unfinished flushes are taken up one after another. -/
private theorem leads_retryAll_marked (us : List Unfinished) : ∀ {a : Stage}, a.Marked →
    Leads (System.Shows sky) (retryAll us) a (fun _ a' => a'.Marked)
    (fun _ a' => a'.Marked) := by
  induction us with
  | nil => exact fun h => Leads.pure h
  | cons u us ih =>
      intro a h
      refine (leads_reads _ h).bind ?_
      rintro job a₁ ⟨-, h₁⟩
      refine (Leads.lift (ends_flush_marked job h₁)).bind fun _ a₂ h₂ => ?_
      exact (ih h₂).bind fun _ _ h => Leads.pure h

/-- A recalculation keeps a stage marked. -/
private theorem leads_recalculate_marked (h : a.Marked) :
    Leads (System.Shows sky) recalculate a (fun _ a' => a'.Marked)
    (fun _ a' => a'.Marked) := by
  refine Leads.step Work.leads_config (fun _ _ hf => hf.elim) ?_
  rintro c a' ⟨-, rfl⟩
  refine (leads_discharges h (Publisher.commits_republishPending c.publisher)).bind
    fun ts a₁ h₁ => ?_
  refine (Leads.lift (ends_setBarrier _ h₁)).bind fun _ a₂ h₂ => ?_
  refine Leads.step (leads_unfinished h₂.sound h₂.marks) (fun _ _ hl => h₂.looked hl.1) ?_
  rintro us a₃ ⟨hlooked, -⟩
  refine (leads_retryAll_marked us (h₂.looked hlooked)).bind fun retried a₄ h₄ => ?_
  refine (leads_discharges h₄ (.of_keeps (.lift (World.conduct_evolves _).now))).bind
    fun t a₅ h₅ => ?_
  refine (leads_commits h₅ (Pass.commits_full c.levels c.spread t) fun s hevolves =>
    ?_).bind ?_
  · exact h₅.marks.of_kept (hevolves.grows h₅.sound fun _ htx => htx) fun t hk => nomatch hk
  · intro full a₆ h₆
    split
    · exact Leads.pure h₆
    · exact (leads_discharges h₆ (Publisher.commits_publish c.publisher _)).bind
        fun _ _ h =>
        Leads.pure h

end Engine

namespace Stage

variable {sky : Weather} {a : Stage} {s : System}

namespace Marked

/-- **A deed** keeps the mark, whatever fails. -/
theorem perform (h : a.Marked) (hs : System.Shows sky a s) (d : Deed) :
    ∃ a', System.Shows sky a' (d.perform s) ∧ a'.Marked := by
  cases d with
  | call c => exact (Engine.leads_take c h).ends (fun _ _ h => h) (fun _ _ h => h) s hs
  | recalculate =>
      exact (Engine.leads_recalculate_marked h).ends (fun _ _ h => h) (fun _ _ h => h) s hs
  | look =>
      exact (Engine.leads_deferred h.sound h.marks).ends (fun _ _ hl => h.looked hl.1)
        (fun _ _ hl => h.looked hl.1) s hs
  | restart c =>
      rw [Deed.perform]
      split
      · next e he => exact ⟨⟨e, a.scene⟩, ⟨rfl, hs.world⟩, h.sound, (marks_of_start he _).1⟩
      · exact ⟨a, hs, h⟩

/-- **A run** keeps the mark. -/
theorem performAll (ds : List Deed) : ∀ {a s}, a.Marked → System.Shows sky a s →
    ∃ a', System.Shows sky a' (Deed.performAll ds s) ∧ a'.Marked := by
  induction ds with
  | nil => exact fun h hs => ⟨_, hs, h⟩
  | cons d ds ih =>
      intro a s h hs
      obtain ⟨a₁, hs₁, h₁⟩ := h.perform hs d
      exact ih h₁ hs₁

end Marked

end Stage

/-! ## The list of deferred commits -/

namespace Store

variable {s : Store} {t : TransactionId}

/-- Whether the newest version of what a commit has to tell is missing, or an entry that
    is not marked as propagated. -/
def isOpen (s : Store) (t : TransactionId) : Bool :=
  match s.newestOf? (.outbox t) with
  | none => true
  | some v =>
    match v.document with
    | some (.outbox e) => !e.propagated
    | _ => false

/-- The commits of the log that write the record of an origin and are open, oldest
    first. -/
def owed (s : Store) : List TransactionId :=
  (s.log.filter fun c => c.isGraphTransaction && s.isOpen c.id).map (·.id)

/-- A commit is open as long as its flush is not recorded. -/
theorem isOpen_iff : s.isOpen t = true ↔ (s.box t).state ≠ .recorded := by
  rw [isOpen, box]
  cases s.newestOf? (.outbox t) with
  | none => simp [Box.state]
  | some v =>
      dsimp only [Option.elim]
      cases v.document with
      | none => simp [Box.ofDocument, Box.state]
      | some x =>
          cases x with
          | outbox e => cases he : e.propagated <;> simp [Box.ofDocument, Box.state, he]
          | content c => simp [Box.ofDocument, Box.state]
          | origin r => simp [Box.ofDocument, Box.state]
          | profile p => simp [Box.ofDocument, Box.state]

/-- What is owed are the open commits of the graph. -/
theorem Sound.mem_owed_iff (hs : s.Sound) :
    t ∈ s.owed ↔ s.IsGraph t ∧ (s.box t).state ≠ .recorded := by
  rw [owed, List.mem_map]
  constructor
  · rintro ⟨c, hc, rfl⟩
    obtain ⟨hmem, hc⟩ := List.mem_filter.mp hc
    obtain ⟨hgraph, hopen⟩ := (Bool.and_eq_true _ _).mp hc
    obtain ⟨i, hi⟩ := List.mem_iff_getElem?.mp hmem
    have hid := hs.logged hi
    refine ⟨⟨c, ?_, hgraph⟩, isOpen_iff.mp hopen⟩
    rw [Store.transaction?, if_neg (by omega), hid, Nat.add_sub_cancel, hi]
  · rintro ⟨⟨c, hc, hgraph⟩, hstate⟩
    obtain ⟨rfl, -, -⟩ := hs.id_of_transaction? hc
    refine ⟨c, List.mem_filter.mpr
      ⟨?_, (Bool.and_eq_true _ _).mpr ⟨hgraph, isOpen_iff.mpr hstate⟩⟩, rfl⟩
    rw [Store.transaction?] at hc
    split at hc
    · cases hc
    · exact List.mem_of_getElem? hc

/-- The log numbers its commits in order. -/
theorem Sound.pairwise_owed (hs : s.Sound) :
    s.owed.Pairwise fun t u => compare t u = .lt := by
  rw [owed, List.pairwise_map]
  refine List.Pairwise.filter _ (List.pairwise_iff_getElem.mpr fun i j hi hj hij => ?_)
  have hi' := hs.logged (List.getElem?_eq_getElem hi)
  have hj' := hs.logged (List.getElem?_eq_getElem hj)
  show compare _ _ = .lt
  exact Nat.compare_eq_lt.mpr (by omega)

end Store

namespace System

variable {sky : Weather} {a : Stage} {s : System}

/-- What is listed as deferred is what is owed. -/
private theorem leads_owed (h : a.Marked) :
    Leads (Shows sky) Engine.deferred a (fun ts _ => ts = a.store.owed)
    (fun _ _ => ¬ sky.fair) := by
  refine Leads.step (Engine.leads_unfinished h.sound h.marks) (fun _ _ hl => hl.2) ?_
  rintro us a' ⟨-, hmem, hpairs⟩
  refine Leads.pure (Table.ascending_ext (f := id) ?_ h.sound.pairwise_owed fun t => ?_)
  · rw [List.pairwise_map]
    exact hpairs.imp fun hlt => Nat.compare_eq_lt.mpr hlt
  · rw [h.sound.mem_owed_iff, List.mem_map]
    constructor
    · rintro ⟨u, hu, rfl⟩
      have howes := (hmem u).mp hu
      exact ⟨howes.isGraph, howes.state ▸ howes.unsettled⟩
    · rintro ⟨hgraph, hstate⟩
      obtain ⟨u, hu, hid⟩ := Store.exists_owes h.sound hgraph hstate
      exact ⟨u, (hmem u).mpr hu, hid⟩

/-- The engine with the watermark at the first commit, in a world without faults. -/
def rescanning (s : System) : System :=
  ⟨{ s.engine with watermark := 1 }, World.holding s.world.backend.store⟩

/-- **The watermark loses nothing.** On a store that only engines wrote, whatever
    failed, a list of deferred commits is what is owed, and what a walk over the whole
    log lists. -/
theorem deferred_eq_owed {c : Config} (hstart : Engine.start c = .ok s.engine)
    (halone : s.world.Alone .empty) (ds : List Deed) {ts : List TransactionId}
    (hok : (Engine.deferred (Deed.performAll ds s)).1 = .ok ts) :
    ts = (Deed.performAll ds s).world.backend.store.owed ∧
      (Engine.deferred (Deed.performAll ds s).rescanning).1 = .ok ts := by
  have hmarked : Stage.Marked ⟨s.engine, ⟨.empty, s.world.broker.topics⟩⟩ :=
    ⟨Store.sound_empty, (Stage.marks_of_start hstart _).1⟩
  have hshows : Shows .any ⟨s.engine, ⟨.empty, s.world.broker.topics⟩⟩ s :=
    ⟨rfl, halone.1, rfl, halone.2, fun _ => trivial, fun hfair => hfair.elim⟩
  obtain ⟨a, hs, h⟩ := hmarked.performAll ds hshows
  have howed : ts = a.store.owed := by
    obtain ⟨a', -, hres⟩ := leads_owed h _ hs
    rw [hok] at hres
    exact hres
  refine ⟨howed.trans (by rw [hs.world.store]), ?_⟩
  -- from the first commit on nothing is below the watermark, and nothing fails
  have hall : Stage.Marked ⟨{ a.engine with watermark := 1 }, ⟨a.store, Table.empty⟩⟩ :=
    ⟨h.sound, a.store.marks_one⟩
  have hcalm : Shows ⟨True, fun _ => True⟩
      ⟨{ a.engine with watermark := 1 }, ⟨a.store, Table.empty⟩⟩
      (Deed.performAll ds s).rescanning :=
    ⟨by rw [rescanning, hs.engine], hs.world.store, rfl, rfl, fun _ => trivial, fun _ =>
      .of_nil ⟨rfl, rfl⟩ ⟨rfl, rfl⟩ rfl rfl rfl⟩
  obtain ⟨us, a', hus, -, rfl⟩ := (leads_owed hall).exists_ok hcalm fun _ _ hno =>
    hno trivial
  rw [hus, howed]

/-- An engine that cannot reach the store for five submits, and later for one call. -/
def shaken : System :=
  ⟨⟨.standard, .empty, 1⟩,
    { World.empty (fun _ => Instant.latest) with
      submitFaults := List.replicate 4 none ++ List.replicate 5 (some storeDown)
      outages := List.replicate 43 false ++ [true] }⟩

/-- Three origins find a host each, and then it is asked what is deferred. -/
def threeHosts : List Deed :=
  (["a", "b", "c"].map fun name => .call (.reconcile ⟨⟨name⟩, .observation, .latest,
    [⟨⟨"Host|" ++ name⟩, "Host", Table.empty⟩], [], []⟩)) ++ [.look]

/-- Levels do not follow the second host, and the walk over the log fails half-way. The
    next one takes up the watermark where it was left. -/
theorem deferred_threeHosts :
    (Deed.performAll threeHosts shaken).engine.watermark = 3 ∧
      (Engine.deferred (Deed.performAll threeHosts shaken)).1 = .ok [⟨4⟩] ∧
      [⟨4⟩] = (Deed.performAll threeHosts shaken).world.backend.store.owed ∧
      (Engine.deferred (Deed.performAll threeHosts shaken).rescanning).1 = .ok [⟨4⟩] := by
  have hok : (Engine.deferred (Deed.performAll threeHosts shaken)).1 = .ok [⟨4⟩] :=
    Act.toOption_eq_some_iff.mp (by decide +kernel)
  exact ⟨by
    decide +kernel, hok, deferred_eq_owed (c := .standard) rfl ⟨rfl, rfl⟩ threeHosts hok⟩

end System

end ClearanceGraph
