import ClearanceGraph.Proofs.Engine.Flush

/-! # Recovery — what was left is found, and can be taken up

    The walk over the log finds a commit exactly if reconciliation made it and levels
    have not followed everywhere (`Store.Owes`): what lies below the watermark is
    settled (`Store.Marks`), and the watermark moves past settled commits only.

    The batch that is rebuilt of such a commit can be flushed (`recover_gives`). -/

namespace ClearanceGraph

theorem TransactionId.eq_of_value {t u : TransactionId} (h : t.value = u.value) :
    t = u := by
  cases t
  cases u
  exact congrArg mk h

namespace Store

variable {s s' : Store} {t : TransactionId} {P : DocumentKey → Prop} {n : Nat}
  {u : Engine.Unfinished}

/-- A commit of reconciliation whose levels have not followed everywhere, and how far
    they are. -/
structure Owes (s : Store) (u : Engine.Unfinished) : Prop where
  logged : s.transaction? u.1.id = some u.1
  graph : u.1.isGraphTransaction = true
  state : (s.box u.1.id).state = u.2
  unsettled : u.2 ≠ .recorded

/-- Levels have followed all commits of reconciliation below a number, which is not
    behind the next commit. -/
structure Marks (s : Store) (n : Nat) : Prop where
  bounded : n ≤ s.log.length + 1
  passed : ∀ t, t.value < n → s.IsGraph t → (s.box t).state = .recorded

/-- A commit that can be looked up has the number that was asked for. -/
theorem Sound.id_of_transaction? (hs : s.Sound) {c : Committed}
    (hc : s.transaction? t = some c) :
    c.id = t ∧ 0 < t.value ∧ t.value ≤ s.log.length := by
  rw [Store.transaction?] at hc
  split at hc
  · cases hc
  · have hid := hs.logged hc
    have hlt := (List.getElem?_eq_some_iff.mp hc).1
    exact ⟨TransactionId.eq_of_value (by omega), by omega, by omega⟩

theorem Owes.isGraph (h : s.Owes u) : s.IsGraph u.1.id := ⟨u.1, h.logged, h.graph⟩

/-- Every commit of reconciliation owes something until levels have followed
    everywhere. -/
theorem exists_owes (hs : s.Sound) (hgraph : s.IsGraph t)
    (hstate : (s.box t).state ≠ .recorded) :
    ∃ u, s.Owes u ∧ u.1.id = t := by
  obtain ⟨c, hc, hisGraph⟩ := hgraph
  obtain ⟨rfl, -, -⟩ := hs.id_of_transaction? hc
  exact ⟨(c, (s.box c.id).state), ⟨hc, hisGraph, rfl, hstate⟩, rfl⟩

/-- Of one commit one flush is owed at most. -/
theorem Owes.eq_of_id (h : s.Owes u) {v : Engine.Unfinished} (hv : s.Owes v)
    (hid : u.1.id = v.1.id) :
    u = v := by
  have hlogged := h.logged
  rw [hid, hv.logged] at hlogged
  have hstate := h.state
  rw [hid, hv.state] at hstate
  exact Prod.ext (Option.some.inj hlogged).symm hstate.symm

/-- No commit comes before the first one. -/
theorem marks_one (s : Store) : s.Marks 1 := by
  refine ⟨by omega, fun t ht hgraph => ?_⟩
  obtain ⟨c, hc, -⟩ := hgraph
  rw [Store.transaction?, if_pos (by omega)] at hc
  cases hc

/-! ## A look at one number -/

/-- What a look at the log at one number shows. -/
def Inspected (s : Store) (t : TransactionId) : Engine.Inspection → Prop
  | .absent => s.transaction? t = none
  | .settled => (∃ c, s.transaction? t = some c) ∧
      (s.IsGraph t → (s.box t).state = .recorded)
  | .unfinished u => s.Owes u ∧ u.1.id = t

/-- **Looking at a commit** never fails, and finds what it is. -/
theorem Sound.exists_inspect_gives (hs : s.Sound) (t : TransactionId) :
    ∃ i, (Engine.inspect t).Gives s i ∧ s.Inspected t i := by
  have hask : (Reading.transaction t).Gives s (s.transaction? t) := Reading.gives_ask _ s
  cases hc : s.transaction? t with
  | none =>
      rw [hc] at hask
      exact ⟨.absent, hask.bind (Reading.gives_pure s _), hc⟩
  | some tx =>
      rw [hc] at hask
      cases hgraph : tx.isGraphTransaction with
      | false =>
          refine ⟨.settled, hask.bind ?_, ⟨tx, hc⟩, ?_⟩
          · simp only [hgraph]
            exact Reading.gives_pure s _
          · rintro ⟨c, hc', hisGraph⟩
            rw [hc] at hc'
            obtain rfl := Option.some.inj hc'
            cases hgraph.symm.trans hisGraph
      | true =>
          have hstate := flushState_gives s t
          -- a commit of the graph is settled once its batch is recorded
          by_cases hrecorded : (s.box t).state = .recorded
          · rw [hrecorded] at hstate
            refine ⟨.settled, hask.bind ?_, ⟨tx, hc⟩, fun _ => hrecorded⟩
            simp only [hgraph]
            exact hstate.bind (Reading.gives_pure s _)
          · obtain ⟨rfl, -, -⟩ := hs.id_of_transaction? hc
            refine ⟨.unfinished (tx, (s.box tx.id).state), hask.bind ?_,
              ⟨hc, hgraph, rfl, hrecorded⟩, rfl⟩
            simp only [hgraph]
            refine hstate.bind ?_
            split
            · next heq => exact absurd heq hrecorded
            · exact Reading.gives_pure s _

end Store

namespace Stage

variable {a a' : Stage}

/-- The stage with a different watermark. -/
def setWatermark (a : Stage) (n : Nat) : Stage :=
  { a with engine := { a.engine with watermark := n } }

/-- A look at the log: only the watermark may have moved. -/
def Looked (a a' : Stage) : Prop := ∃ n, a' = a.setWatermark n ∧ a.store.Marks n

theorem Looked.refl (h : a.store.Marks a.engine.watermark) : a.Looked a :=
  ⟨_, rfl, h⟩

end Stage

namespace Engine

variable {sky : Weather} {a : Stage}

/-! ## The walk -/

/-- The walk finds what is owed at the numbers that it visits. -/
private theorem leads_scan (more : Nat) : ∀ {n contiguous} {a : Stage}, a.store.Sound →
    a.store.Marks a.engine.watermark → (contiguous = true →
      ∀ t, t.value < n → a.store.IsGraph t → (a.store.box t).state = .recorded) →
    Leads (System.Shows sky) (scan more n contiguous) a
      (fun us a' => a.Looked a' ∧
        (∀ u, u ∈ us ↔ a.store.Owes u ∧ n ≤ u.1.id.value ∧ u.1.id.value < n + more) ∧
        us.Pairwise fun u v => u.1.id.value < v.1.id.value)
      (fun _ a' => a.Looked a' ∧ ¬ sky.fair) := by
  -- on the numbers that are still to come
  induction more with
  | zero =>
      intro n contiguous a _ hmarks _
      exact Leads.pure ⟨.refl hmarks, fun u => ⟨fun h => (nomatch h), fun h => by omega⟩,
        .nil⟩
  | succ more ih =>
      intro n contiguous a hs hmarks hpassed
      obtain ⟨i, hgives, hi⟩ := hs.exists_inspect_gives ⟨n⟩
      refine Leads.step (Work.leads_act (leads_read_of_gives hgives)) ?_ ?_
      · rintro e a' ⟨g, rfl, hfair, rfl⟩
        exact ⟨.refl hmarks, hfair⟩
      · rintro i' a' ⟨g, rfl, rfl, rfl⟩
        -- a number where nothing is owed
        have hskip : (∀ u, a.store.Owes u → u.1.id ≠ ⟨n⟩) → ∀ u,
            (a.store.Owes u ∧ n + 1 ≤ u.1.id.value ∧ u.1.id.value < n + 1 + more) ↔
              (a.store.Owes u ∧ n ≤ u.1.id.value ∧ u.1.id.value < n + (more + 1)) := by
          intro hno u
          refine and_congr_right fun hu => ?_
          have hne : u.1.id.value ≠ n := fun heq => hno u hu (TransactionId.eq_of_value heq)
          omega
        cases i' with
        | absent =>
            have hno : ∀ u, a.store.Owes u → u.1.id ≠ ⟨n⟩ := by
              intro u hu heq
              rw [← heq, Store.Inspected, hu.logged] at hi
              cases hi
            refine (ih hs hmarks fun hc t ht hgraph => ?_).imp ?_ fun _ _ h => h
            · rcases Nat.lt_succ_iff_lt_or_eq.mp ht with hlt | heq
              · exact hpassed hc t hlt hgraph
              · obtain ⟨c, hc, -⟩ := hgraph
                rw [TransactionId.eq_of_value (u := ⟨n⟩) heq, hi] at hc
                cases hc
            · rintro us a' ⟨hlooked, hmem, hpairs⟩
              exact ⟨hlooked, fun u => (hmem u).trans (hskip hno u), hpairs⟩
        | settled =>
            obtain ⟨⟨c, hc⟩, hsettled⟩ := hi
            have hno : ∀ u, a.store.Owes u → u.1.id ≠ ⟨n⟩ := by
              intro u hu heq
              have hstate := hsettled (heq ▸ hu.isGraph)
              rw [← heq, hu.state] at hstate
              exact hu.unsettled hstate
            have hbelow : contiguous = true → ∀ t, t.value < n + 1 → a.store.IsGraph t →
                (a.store.box t).state = .recorded := by
              intro hc t ht hgraph
              rcases Nat.lt_succ_iff_lt_or_eq.mp ht with hlt | heq
              · exact hpassed hc t hlt hgraph
              · rw [TransactionId.eq_of_value (u := ⟨n⟩) heq] at hgraph ⊢
                exact hsettled hgraph
            cases contiguous with
            | false =>
                refine (ih hs hmarks hbelow).imp ?_ fun _ _ h => h
                rintro us a' ⟨hlooked, hmem, hpairs⟩
                exact ⟨hlooked, fun u => (hmem u).trans (hskip hno u), hpairs⟩
            | true =>
                have hmarked : a.store.Marks (n + 1) :=
                  ⟨Nat.succ_le_succ (hs.id_of_transaction? hc).2.2, hbelow rfl⟩
                refine Leads.bind (Q := fun _ a' => a' = a.setWatermark (n + 1)) ?_ ?_
                · intro s hs
                  refine ⟨a.setWatermark (n + 1), ⟨?_, hs.world⟩, rfl⟩
                  show { s.engine with watermark := n + 1 } = _
                  rw [hs.engine]
                  rfl
                · rintro - a' rfl
                  refine (ih (a := a.setWatermark (n + 1)) hs hmarked hbelow).imp ?_ ?_
                  · rintro us a' ⟨hlooked, hmem, hpairs⟩
                    exact ⟨hlooked, fun u => (hmem u).trans (hskip hno u), hpairs⟩
                  · rintro e a' ⟨hlooked, hfair⟩
                    exact ⟨hlooked, hfair⟩
        | unfinished u =>
            obtain ⟨howes, hid⟩ := hi
            refine Leads.bind (ih hs hmarks fun hc : false = true => nomatch hc) ?_
            rintro us a' ⟨hlooked, hmem, hpairs⟩
            refine Leads.pure
              ⟨hlooked, fun v => ?_, List.pairwise_cons.mpr ⟨fun v hv => ?_, hpairs⟩⟩
            · rw [List.mem_cons, hmem]
              constructor
              · rintro (rfl | ⟨hv, hle, hlt⟩)
                · rw [hid]
                  exact ⟨howes, Nat.le_refl _, by show n < _; omega⟩
                · exact ⟨hv, by omega, by omega⟩
              · rintro ⟨hv, hle, hlt⟩
                by_cases heq : v.1.id.value = n
                · exact .inl (hv.eq_of_id howes (hid ▸ TransactionId.eq_of_value heq))
                · exact .inr ⟨hv, by omega, by omega⟩
            · obtain ⟨-, hle, -⟩ := (hmem v).mp hv
              rw [hid]
              exact hle

/-- **What is left is found**: the commits that owe something, each once. -/
theorem leads_unfinished (hs : a.store.Sound) (hmarks : a.store.Marks a.engine.watermark) :
    Leads (System.Shows sky) unfinished a
      (fun us a' => a.Looked a' ∧ (∀ u, u ∈ us ↔ a.store.Owes u) ∧
        us.Pairwise fun u v => u.1.id.value < v.1.id.value)
      (fun _ a' => a.Looked a' ∧ ¬ sky.fair) := by
  have hask : Reading.latest.Gives a.store a.store.lastId := Reading.gives_ask _ _
  refine Leads.step (Work.leads_act (leads_read_of_gives hask)) ?_ ?_
  · rintro e a' ⟨g, rfl, hfair, rfl⟩
    exact ⟨.refl hmarks, hfair⟩
  · rintro last a' ⟨g, rfl, rfl, rfl⟩
    -- no commit is owed below the watermark, or behind the last one
    have hrange : ∀ u, a.store.Owes u →
        a.engine.watermark ≤ u.1.id.value ∧ u.1.id.value ≤ a.store.log.length := by
      intro u hu
      refine ⟨Nat.le_of_not_lt fun hlt => ?_, (hs.id_of_transaction? hu.logged).2.2⟩
      have hstate := hmarks.passed _ hlt hu.isGraph
      rw [hu.state] at hstate
      exact hu.unsettled hstate
    have hnext := hs.nextId_value
    cases hlast : a.store.lastId with
    | none =>
        rw [Store.nextId, hlast] at hnext
        refine Leads.pure ⟨.refl hmarks,
          fun u => ⟨fun h => absurd h List.not_mem_nil, fun hu => ?_⟩, .nil⟩
        have hpos := (hs.id_of_transaction? hu.logged).2.1
        have hle := (hrange u hu).2
        change 1 = _ at hnext
        omega
    | some last =>
        rw [Store.nextId, hlast] at hnext
        change last.value + 1 = _ at hnext
        refine Leads.bind (Q := fun s a' => s.engine.watermark = a.engine.watermark ∧
          a' = a) ?_ ?_
        · exact fun s hs => ⟨a, hs, congrArg Engine.watermark hs.engine, rfl⟩
        · rintro s a' ⟨hw, rfl⟩
          rw [hw]
          refine (leads_scan _ hs hmarks fun _ => hmarks.passed).imp ?_ fun _ _ h => h
          rintro us a'' ⟨hlooked, hmem, hpairs⟩
          refine ⟨hlooked, fun u => (hmem u).trans (and_iff_left_of_imp fun hu => ?_),
            hpairs⟩
          have := hrange u hu
          omega

/-- The list of deferred commits. -/
theorem leads_deferred (hs : a.store.Sound) (hmarks : a.store.Marks a.engine.watermark) :
    Leads (System.Shows sky) deferred a
      (fun ts a' => a.Looked a' ∧
        ∀ t, t ∈ ts ↔ a.store.IsGraph t ∧ (a.store.box t).state ≠ .recorded)
      (fun _ a' => a.Looked a' ∧ ¬ sky.fair) := by
  refine (leads_unfinished hs hmarks).bind ?_
  rintro us a' ⟨hlooked, hmem, -⟩
  refine Leads.pure ⟨hlooked, fun t => ?_⟩
  rw [List.mem_map]
  constructor
  · rintro ⟨u, hu, rfl⟩
    have howes := (hmem u).mp hu
    exact ⟨howes.isGraph, howes.state ▸ howes.unsettled⟩
  · rintro ⟨hgraph, hstate⟩
    obtain ⟨u, hu, hid⟩ := Store.exists_owes hs hgraph hstate
    exact ⟨u, (hmem u).mpr hu, hid⟩

/-! ## Rebuilding a batch -/

/-- The changes of a commit can always be read. -/
private theorem exists_changesOf_gives (s : Store) (tx : Committed) (ops : List Operation) :
    ∃ cs, (changesOf tx ops).Gives s cs := by
  induction ops with
  | nil => exact ⟨_, Reading.gives_pure s _⟩
  | cons op ops ih =>
      obtain ⟨cs, hcs⟩ := ih
      obtain ⟨c, hc⟩ : ∃ c, (changeOf tx op).Gives s c := by
        unfold changeOf
        split
        · exact ⟨_, Reading.gives_pure s _⟩
        · exact ⟨_, Reading.gives_pure s _⟩
        · next d _ =>
          obtain ⟨ds, hds, -⟩ := s.exists_history_gives d.key
          exact ⟨_, hds.bind (Reading.gives_pure s _)⟩
        · exact ⟨_, Reading.gives_pure s _⟩
      exact ⟨_, hc.bind (hcs.bind (Reading.gives_pure s _))⟩

/-- **What is owed can be taken up**: a batch is rebuilt of the commit, and awaits its
    flush. -/
theorem recover_gives {s : Store} {u : Unfinished} (h : s.Boxed) (hu : s.Owes u) :
    ∃ job, (recover u).Gives s job ∧ job.transaction = u.1.id ∧ s.Awaits job := by
  obtain ⟨tx, state⟩ := u
  have hstate := hu.state
  cases state with
  | stopped b =>
      -- a flush that stopped has left an entry with its batch
      have hentry : ∃ e, s.box tx.id = .entry e ∧ e.batch = b := by
        rcases Box.state_ne_recorded_iff.mp (hstate ▸ hu.unsettled) with
          habsent | ⟨e, he, hpart⟩
        · rw [habsent] at hstate
          cases hstate
        · rw [he, Box.state, hpart] at hstate
          exact ⟨e, he, Outbox.FlushState.stopped.inj hstate⟩
      obtain ⟨e, he, rfl⟩ := hentry
      have hid := h.transaction_of_box he
      refine ⟨e.batch, Reading.gives_pure s _, hid, hid ▸ hu.isGraph, ?_⟩
      rw [hid, hstate]
      exact hu.unsettled
  | unrecorded =>
      obtain ⟨cs, hcs⟩ := exists_changesOf_gives s tx tx.operations
      -- one that left nothing starts from the changes of the commit
      have hawaits : ∀ o cs, s.Awaits ⟨tx.id, o, cs, []⟩ := fun o cs =>
        ⟨hu.isGraph, hstate ▸ hu.unsettled⟩
      cases ho : (tx.operations.filterMap originOf?).getLast? with
      | none =>
          refine ⟨⟨tx.id, none, [], []⟩, hcs.bind ?_, rfl, hawaits _ _⟩
          simp only [ho]
          exact Reading.gives_pure s _
      | some o =>
          refine ⟨⟨tx.id, some o, cs, []⟩, hcs.bind ?_, rfl, hawaits _ _⟩
          simp only [ho]
          exact Reading.gives_pure s _
  | recorded => exact absurd rfl hu.unsettled

end Engine

end ClearanceGraph
