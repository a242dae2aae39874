import ClearanceGraph.Proofs.Engine.Stranding

/-! # Reporting — no change of a level goes untold

    Whoever listens to the queue is to learn of every level that a flush changes, even
    if flushes are interrupted and other commits are made in between.

    A flush that was interrupted is resumed from the note that is the newest by valid
    time, while every attempt notes again from its first instant on.  An object is
    dropped only where the note written last names it and the newest one does not: of
    all others every change is told once nothing is deferred or unpublished
    (`System.reported_of_carryOn`). -/

namespace ClearanceGraph

namespace Store

variable {s : Store} {t : TransactionId} {r : Reference}

/-- A flush that follows one note at most carries on. -/
theorem carriesOn_of_length_le_one (h : (s.versionsOf (.outbox t)).length ≤ 1) :
    s.CarriesOn t r := by
  refine InStep.carriesOn ?_
  rw [InStep, newestOf?, lastOf?]
  cases hvs : s.versionsOf (.outbox t) with
  | nil => rfl
  | cons v vs =>
      rw [hvs] at h
      obtain rfl : vs = [] :=
        List.eq_nil_of_length_eq_zero (by rw [List.length_cons] at h; omega)
      rfl

end Store

namespace System

variable {a : Stage} {s : System} {t : TransactionId} {r : Reference}

/-- The queue took a message about a level of an object, of a commit. -/
def Reported (s : System) (t : TransactionId) (r : Reference) : Prop :=
  ∃ topic, ∃ m : ProfileMessage, m.transaction = t ∧ m.object = r ∧
    m.encode ∈ s.world.messages topic

/-- Where nothing is left to do, what is safe was told. -/
private theorem told_of_safe (h : a.Orderly) (hdrained : a.store.Drained)
    (hgraph : a.store.IsGraph t) (hsafe : a.scene.Safe t r) : a.scene.Told t r := by
  refine hsafe.resolve_right fun hlast => ?_
  have hstate := hdrained.followed t hgraph
  have hstep := h.boxed.settled t hstate
  -- the note written last is the newest one, so it would be an entry that waits
  obtain ⟨e, he, -⟩ := hstep.carriesOn hlast
  rw [he, Box.state, hdrained.told t e he] at hstate
  cases hstate

/-- **Every change of a level is reported** once nothing is deferred or unpublished, if
    the flushes of its commit start with the object whenever it was noted last. -/
theorem reported_of_carryOn (hstarts : s.Starts Instant.latest) {ds : List Deed}
    (hds : ∀ d ∈ ds, d.Upto Instant.latest)
    (hlists : (Deed.performAll ds s).calmed.Lists [] []) :
    ∀ f ∈ Deed.attemptsAll ds s, ∀ r,
      Attempt.CarryOn (Deed.attemptsAll ds s) f.job.transaction r → f.Changes r →
        (Deed.performAll ds s).Reported f.job.transaction r := by
  obtain ⟨a, hs, horderly, a₀, hmoves⟩ := hstarts.performAll (le_refl _) hds
  have hdrained := (lists_nil_iff horderly hs.calmed trivial).mp hlists
  intro f hf r hcarry hr
  obtain ⟨topic, m, hm, hobject, hmem⟩ :=
    told_of_safe horderly hdrained (hmoves.flushed f hf)
    (hmoves.reported f hf r hcarry hr)
  refine ⟨topic, m, hm, hobject, ?_⟩
  rwa [hs.world.messages]

/-! ## An interrupted flush -/

/-- An engine that cannot reach the store from the sixth submit to the tenth. -/
def interrupted : System :=
  ⟨⟨.standard, .empty, 1⟩,
    { World.empty (fun _ => Instant.latest) with
      submitFaults := List.replicate 5 none ++ List.replicate 5 (some storeDown) }⟩

/-- An origin declares the highest level of a host at an instant. -/
def declaredHost (origin : String) (t : Instant) : Deed :=
  .call (.reconcile ⟨⟨origin⟩, .declaration, t, [⟨⟨"Host|x"⟩, "Host", Table.empty⟩], [],
    [⟨⟨"Host|x"⟩, LevelConfig.standard.highest⟩]⟩)

/-- A host is declared, and then a second time from an earlier instant on. -/
def declaredTwice : List Deed :=
  [declaredHost "a" Instant.latest, declaredHost "b" ⟨.origin, .midnight⟩, .recalculate]

/-- The flush of the second declaration stops between the two instants. The change that
    it made is reported by the flush that takes it up. -/
theorem reported_declaredTwice :
    interrupted.Starts Instant.latest ∧ (∀ d ∈ declaredTwice, d.Upto Instant.latest) ∧
      (Deed.performAll declaredTwice interrupted).calmed.Lists [] [] ∧
      (Deed.attemptsAll declaredTwice interrupted).map (·.job.transaction) =
        [⟨1⟩, ⟨4⟩, ⟨4⟩] ∧
      Attempt.CarryOn (Deed.attemptsAll declaredTwice interrupted) ⟨4⟩ ⟨"Host|x"⟩ ∧
      (Deed.performAll declaredTwice interrupted).Reported ⟨4⟩ ⟨"Host|x"⟩ := by
  have hstarts : interrupted.Starts Instant.latest :=
    ⟨⟨.standard, rfl⟩, ⟨rfl, rfl⟩, fun _ => le_refl Instant.latest⟩
  have hds : ∀ d ∈ declaredTwice, d.Upto Instant.latest := by
    intro d hd
    simp only [declaredTwice, List.mem_cons, List.not_mem_nil, or_false] at hd
    rcases hd with rfl | rfl | rfl
    · exact le_refl Instant.latest
    · show (⟨.origin, .midnight⟩ : Instant) ≤ Instant.latest
      decide
    · trivial
  -- an attempt finds one note at most, which is then the newest one
  have hcarry : Attempt.CarryOn (Deed.attemptsAll declaredTwice interrupted) ⟨4⟩
      ⟨"Host|x"⟩ := by
    have hnotes : ∀ f ∈ Deed.attemptsAll declaredTwice interrupted,
        (f.start.world.backend.store.versionsOf (.outbox f.job.transaction)).length ≤
          1 := by
      decide +kernel
    exact fun f hf _ => Store.carriesOn_of_length_le_one (hnotes f hf)
  have hlists : (Deed.performAll declaredTwice interrupted).calmed.Lists [] [] := by
    decide +kernel
  have hchanges : ∃ f ∈ Deed.attemptsAll declaredTwice interrupted,
      f.job.transaction = ⟨4⟩ ∧ f.Changes ⟨"Host|x"⟩ := by
    decide +kernel
  obtain ⟨f, hf, hid, hr⟩ := hchanges
  refine ⟨hstarts, hds, hlists, by decide +kernel, hcarry, ?_⟩
  rw [← hid] at hcarry ⊢
  exact reported_of_carryOn hstarts hds hlists f hf _ hcarry hr

end System

end ClearanceGraph
