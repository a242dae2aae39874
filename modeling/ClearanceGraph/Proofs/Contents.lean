import ClearanceGraph.Proofs.Conduct
import ClearanceGraph.Proofs.Rivals

/-! # Contents — stores that only ever held documents of a kind

    A store holds documents of the kind `D` if every version and every commit of it puts
    such documents only (`Store.Holds`).  A commit that puts such documents keeps that
    (`Holds.submit`), and whatever shows is of the kind (`Holds.visible`).

    Other writers may be at work in the meantime, as long as they keep to the kind as
    well.  `World.conduct_holds` says that then a program keeps such a store if it
    submits transactions that put documents of the kind; what it has read was of the
    kind, even where a rival was faster. -/

namespace ClearanceGraph

variable {D : Document → Prop} {s s' : Store} {tx : Transaction} {id : TransactionId}

/-- The documents that a transaction puts are of a kind. -/
def Transaction.Puts (D : Document → Prop) (tx : Transaction) : Prop :=
  ∀ d, .put d ∈ tx.operations → D d

namespace Store

/-- Every document that was ever written is of a kind. -/
structure Holds (D : Document → Prop) (s : Store) : Prop where
  sound : s.Sound
  versions : ∀ k, ∀ v ∈ s.versionsOf k, ∀ d, v.document = some d → D d
  /-- The log puts no others. -/
  log : ∀ tx ∈ s.log, ∀ d, .put d ∈ tx.operations → D d

theorem holds_empty : Store.empty.Holds D where
  sound := sound_empty
  versions := by
    intro k v hv
    simp [versionsOf, Store.empty] at hv
  log := List.forall_mem_nil _

namespace Holds

theorem submit (h : s.Holds D) (htx : tx.Puts D) (hsub : s.submit tx = .ok (id, s')) :
    s'.Holds D where
  sound := h.sound.submit hsub
  versions := by
    intro k v hv d hd
    exact (mem_versionsOf_submit_put hsub hv hd).elim (fun hv => h.versions k v hv d hd)
      (htx d)
  log := by
    intro m hm d hd
    obtain ⟨-, -, hlog, -⟩ := submit_eq_ok hsub
    rw [hlog] at hm
    rcases List.mem_append.mp hm with hm | hm
    · exact h.log m hm d hd
    · obtain rfl := List.mem_singleton.mp hm
      exact htx d hd

theorem visible (h : s.Holds D) {t : Instant} {k : DocumentKey} {d : Document}
    (hd : s.visible t k = some d) : D d := by
  obtain ⟨v, hv, hdoc⟩ := exists_version_of_visible hd
  exact h.versions k v hv d hdoc

end Holds

end Store

/-! ## Worlds -/

namespace World

/-- The store holds documents of a kind, and rivals put no others. -/
structure Holds (D : Document → Prop) (w : World) : Prop where
  store : w.backend.store.Holds D
  rivals : ∀ tx, some tx ∈ w.rivals → tx.Puts D

variable {w : World}

/-- A world in which the same is at work on the same store. -/
private theorem Holds.congr {w' : World} (h : w.Holds D)
    (hstore : w'.backend.store = w.backend.store)
    (hrivals : w'.rivals = w.rivals) : w'.Holds D :=
  ⟨hstore ▸ h.store, hrivals ▸ h.rivals⟩

/-- If the one world holds documents of a kind, the other one does. -/
def Retains (D : Document → Prop) (w w' : World) : Prop := w.Holds D → w'.Holds D

instance : IsPreorder World (Retains D) where
  refl _ h := h
  trans _ _ _ h h' hw := h' (h hw)

/-- The store holds documents of a kind amid rivals that put no others. -/
private theorem amid_iff_holds :
    w.Amid (fun _ : Unit => Store.Holds D) (Transaction.Puts D) () ↔ w.Holds D :=
  ⟨fun h => ⟨h.store, h.rivals⟩, fun h => ⟨h.store, h.rivals⟩⟩

private theorem retains_of_leads {α ε : Type} {a : StateM World (Except ε α)}
    {Q : α → Unit → Prop} {E : ε → Unit → Prop}
    (h : Leads (World.Amid (fun _ : Unit => Store.Holds D) (Transaction.Puts D)) a () Q E) :
    Keeps (Retains D) a := by
  intro w hw
  obtain ⟨_, hamid, -⟩ := h w (amid_iff_holds.mpr hw)
  exact amid_iff_holds.mp hamid

private theorem retains_publish (topic text : String) :
    Keeps (Retains D) (World.publish topic text) := by
  have hfault : Keeps (Retains D) nextPublishFault := by
    intro w h
    rw [nextPublishFault]
    split
    · exact h
    · exact h.congr rfl rfl
  refine .bind hfault fun f => ?_
  cases f with
  | some e => exact .pure _
  | none =>
      intro w h
      dsimp only
      rw [deliver]
      split
      · exact h
      · split
        · exact h.congr rfl rfl
        · exact h.congr rfl rfl

/-- **Programs that put documents of a kind** keep a store of such documents, whatever
    fails and whoever is faster. -/
theorem conduct_holds (D : Document → Prop) :
    Conduct (Store.Holds D) (Transaction.Puts D) (Retains D) where
  toIsPreorder := inferInstance
  read := by
    intro α β r f hf w hw
    have hread := retains_of_leads (D := D) (leads_read_amid r) w hw
    rw [Act.bind_apply]
    revert hread
    cases hresult : World.read r w with
    | mk result w' =>
        intro hread
        cases result with
        | error e => exact hread
        | ok x => exact hf _ x hw.store (gives_of_read (congrArg Prod.fst hresult)) w' hread
  submit htx := by
    refine retains_of_leads (leads_submit_amid (Q := fun _ _ => True) ?_ ?_)
    · intro s id s' hs hsub
      exact ⟨(), hs.submit htx hsub, trivial⟩
    · intro _ s tx id s' htx hs hsub
      exact hs.submit htx hsub
  publish := retains_publish
  now _ hw := hw.congr rfl rfl

end World

end ClearanceGraph
