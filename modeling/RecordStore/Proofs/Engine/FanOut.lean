import RecordStore.Proofs.Engine.Follows
/-!
# How an engine fans out

The shape of the state that a run leads to, in terms of the ledger: which slots there are, what each
of them holds and which alternatives lag behind (`Run.state_eq_slots`). A slot that is not late
holds every stored record once; a late one holds those that were put after its index was registered,
in the version that is stored.
-/

namespace RecordStore

open Index

variable {R : Type} {pk : Property R} {choices : List (Index R)} {s : State R} {l : Ledger R}

namespace Index.Tracks

/-- The stored records that an alternative has been there to take. -/
theorem perm_slot (h : Tracks pk choices s l) {i : Nat} {g : Registration}
    (hg : l.registrations[i]? = some g) :
    (slot s i).records.Perm (if lags s i then
      l.stored.records.filter fun r => g.time < l.putAt (pk.get r) else l.stored.records) := by
  obtain ⟨choice, hchoice⟩ := h.choice hg
  have hlayered := (h.chained choice (List.mem_of_getElem? hchoice)).layered
  have hnodup := nodup_records hlayered (h.fanned.laid i choice hchoice)
  have hstored := Store.nodup_records h.keyed
  have hmem := h.mem i g hg
  split
  · next hlate =>
    rw [List.perm_ext_iff_of_nodup hnodup (hstored.filter _)]
    intro x
    rw [hmem, List.mem_filter, Store.mem_records h.keyed]
    simp [hlate]
  · next hcomplete =>
    apply Store.perm_records h.keyed hnodup
    intro x
    rw [hmem]
    exact and_iff_left fun hlate => absurd hlate hcomplete

end Index.Tracks

/-- The state of an engine after a run. Alternatives are counted in the order in which their indexes
were registered. -/
theorem Run.state_eq_slots (run : Run R) :
    run.ledger.registrations.length = run.engine.alternatives.length ∧
      (run.engine.state = .empty ↔ run.ledger.stored.isEmpty = true) ∧
      (run.ledger.stored.isEmpty = false →
        ∃ (slots : List (State R)) (late : List Bool), run.engine.state = .slots slots late ∧
          1 ≤ slots.length ∧ slots.length = late.length ∧
          slots.length ≤ run.engine.alternatives.length ∧ late[0]? = some false ∧
          ∀ (i : Nat) (slot : State R) (g : Registration), slots[i]? = some slot →
            run.ledger.registrations[i]? = some g →
            (late[i]? = some false → slot.records.Perm run.ledger.stored.records) ∧
            (late[i]? = some true → slot.records.Perm (run.ledger.stored.records.filter
              fun r => g.time < run.ledger.putAt (run.primaryKey.get r)))) ∧
      ∀ (i : Nat) (g : Registration), run.ledger.registrations[i]? = some g →
        (lags run.engine.state i = true ↔
          g.amidRecords = true ∧ run.ledger.emptied ≤ g.time) := by
  have h : Tracks run.primaryKey run.engine.alternatives run.engine.state run.ledger :=
    run.follows.tracks
  refine ⟨h.registered, h.holds.eq_empty_iff, fun hstored => ?_, fun i g hg => ?_⟩
  · have hne : run.engine.state ≠ .empty := fun e =>
      Bool.eq_false_iff.1 hstored (h.holds.eq_empty_iff.1 e)
    have hperm (i : Nat) (g : Registration) (hg : run.ledger.registrations[i]? = some g) :=
      h.perm_slot hg
    have hspread := h.fanned.spread
    generalize run.engine.state = s at hne hperm hspread ⊢
    cases hspread with
    | empty => exact absurd rfl hne
    | @slots first rest late hfirst hlen hcount =>
      refine ⟨_, _, rfl, Nat.succ_pos _, congrArg (· + 1) hlen.symm, hcount, rfl, ?_⟩
      intro i slot g hslot hg
      have := hperm i g hg
      rw [Index.slot, slotsOf, lags, List.getD_eq_getElem?_getD, List.getD_eq_getElem?_getD, hslot]
        at this
      constructor
      · intro hflag
        rwa [hflag] at this
      · intro hflag
        rwa [hflag] at this
  · rw [h.lags_eq i g hg, Ledger.lags, Bool.and_eq_true, decide_eq_true_eq]

end RecordStore
