import ClearanceGraph.Proofs.Engine.Rebuilding

/-! # Owners — the ledger is read in two ways

    The latest record of an origin is looked up in the history of its key, which is
    sorted and searched for its newest version.  The owners of a fact come from one
    query over all keys, answered at the last instant of the calendar.

    Where no version starts after that instant, the two agree
    (`Reachable.owners_are_latest`): records written for earlier instants than others
    before them, several for one instant, and removals in between are told apart in
    the same way, because what shows at the end is the newest version
    (`record?_eq_lastRecord?`). -/

namespace ClearanceGraph

namespace Store

variable {s : Store}

/-- The newest version of the record of an origin has no document. -/
def Retired (s : Store) (o : OriginId) : Prop :=
  ∃ v, s.newestOf? (.origin o) = some v ∧ v.document = none

theorem Retired.lastRecord?_eq_none {o : OriginId} (h : s.Retired o) :
    s.lastRecord? o = none := by
  obtain ⟨v, hv, hnone⟩ := h
  rw [lastRecord?, hv, Option.bind_some, hnone]
  rfl

/-- Where no commit has a valid time after an instant, no version starts after it. -/
theorem Reachable.upto_of_log (h : s.Reachable) {t : Instant}
    (hlog : ∀ c ∈ s.log, c.validTime ≤ t) : s.Upto t := by
  induction h with
  | empty => exact upto_empty t
  | @submit s₁ _ tx id _ hsub ih =>
      obtain ⟨-, -, hlog', -, -⟩ := submit_eq_ok hsub
      rw [hlog'] at hlog
      have hbefore : s₁.Upto t := ih fun c hc => hlog c (List.mem_append_left _ hc)
      have hown : tx.validTime ≤ t :=
        hlog (tx.committed id) (List.mem_append_right _ List.mem_cons_self)
      exact hbefore.submit_of_le hown hsub

/-- Owners are found in the order of their names. -/
theorem Sound.pairwise_owners (hs : s.Sound) (f : Fact) :
    (s.owners f).Pairwise fun q r => compare q.id r.id = .lt := by
  rw [owners, List.pairwise_filterMap]
  refine (hs.pairwise_visibleWhere Instant.latest _).imp fun {a b} hab q hq r hr => ?_
  rcases a with c | x | p | e <;> cases hq
  rcases b with c | x | p | e <;> cases hr
  rwa [Document.key, Document.key, compare_origin_key] at hab

/-- **Owners are the latest records**: the owners of a fact are found in the order of
    their names, and they are those latest records, looked up origin by origin, that
    assert the fact. An origin that was retired is not among them. -/
theorem Reachable.owners_are_latest (h : s.Reachable) (hup : s.Upto Instant.latest)
    (f : Fact) :
    ∃ rs, (Ledger.owners f).Gives s rs ∧
      (∀ r, r ∈ rs ↔ (∃ o, (Ledger.previous o).Gives s (some r)) ∧ r.asserts f = true) ∧
      rs.Pairwise (fun q r => compare q.id r.id = .lt) ∧
      ∀ o, s.Retired o → ∀ r ∈ rs, r.id ≠ o := by
  have hs := h.sound
  have hlatest : ∀ r, r ∈ s.owners f ↔ s.lastRecord? r.id = some r ∧
      r.asserts f = true := by
    intro r
    rw [hs.mem_owners_iff, record?_eq_lastRecord? fun v hv => hup _ v (mem_of_newestOf? hv)]
  refine ⟨s.owners f, s.owners_gives f, fun r => ?_, hs.pairwise_owners f,
    fun o hretired r hr => ?_⟩
  · rw [hlatest]
    refine and_congr_left fun _ => ⟨fun hr => ⟨r.id, hr ▸ hs.previous_gives_last r.id⟩, ?_⟩
    rintro ⟨o, ho⟩
    have hlast := (hs.previous_gives_last o).unique ho
    rwa [← hs.id_of_lastRecord? hlast] at hlast
  · rintro rfl
    cases hretired.lastRecord?_eq_none.symm.trans ((hlatest r).mp hr).1

/-- Two origins find a host, the second of them for an instant long before; a third one
    finds it and is retired for the same instant. -/
def hostShared : Store :=
  Engine.doneTo .empty (Engine.hostsFound ++
    [.call .standard Engine.cascading (Engine.found "d" .latest [("y", true)] []),
      .call .standard Engine.cascading (.retire ⟨"d"⟩ .latest)])

/-- The two own the host, and the one that is retired does not. -/
theorem owners_are_latest_hostShared : ∃ s rs, s = hostShared ∧ s.Reachable ∧
    s.Upto Instant.latest ∧ s.Retired ⟨"d"⟩ ∧
    (Ledger.owners (.object ⟨"Host|y"⟩)).Gives s rs ∧
    rs.map (·.id) = [⟨"a"⟩, ⟨"b"⟩] ∧ (∀ r ∈ rs, (Ledger.previous r.id).Gives s (some r)) ∧
    ∀ r ∈ rs, r.id ≠ ⟨"d"⟩ := by
  obtain ⟨s, hs⟩ : ∃ s, s = hostShared := ⟨_, rfl⟩
  have hreach : s.Reachable := hs ▸ (Engine.served_doneTo _ .empty).reachable
  have hup : s.Upto Instant.latest := by
    refine hreach.upto_of_log ?_
    rw [hs]
    decide +kernel
  -- the newest version of its record is a deletion
  have hretired : s.Retired ⟨"d"⟩ := by
    have hnewest : (s.newestOf? (.origin ⟨"d"⟩)).any (·.document.isNone) = true := by
      rw [hs]
      decide +kernel
    obtain ⟨v, hv, hnone⟩ := (Option.any_eq_true _ _).mp hnewest
    exact ⟨v, hv, Option.isNone_iff_eq_none.mp hnone⟩
  have hnames : (s.owners (.object ⟨"Host|y"⟩)).map (·.id) = [⟨"a"⟩, ⟨"b"⟩] := by
    rw [hs]
    decide +kernel
  obtain ⟨rs, hrs, hmem, -, hgone⟩ := hreach.owners_are_latest hup (.object ⟨"Host|y"⟩)
  obtain rfl := hrs.unique (s.owners_gives _)
  refine ⟨s, _, hs, hreach, hup, hretired, hrs, hnames, fun r hr => ?_, hgone _ hretired⟩
  obtain ⟨⟨o, ho⟩, -⟩ := (hmem r).mp hr
  have hid :=
    hreach.sound.id_of_lastRecord? ((hreach.sound.previous_gives_last o).unique ho)
  exact hid ▸ ho

end Store

end ClearanceGraph
