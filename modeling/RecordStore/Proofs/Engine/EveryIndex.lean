import RecordStore.Proofs.Engine.Follows
import RecordStore.Proofs.Index.WellFormed
/-!
# Every index finds the same records

A unique tree finds a primary key by a descent, and any other tree by asking its tails one after the
other, the last of which do not look at the key. Both come to the first record of a walk that has
the key (`State.first?`), whatever has been written. An engine stores one record under a key, so all
its complete alternatives find that one (`finds_first`).
-/

namespace RecordStore

open Index

namespace State

variable {R : Type}

/-- The first record of an ascending walk that is wanted. The walk ends with it. -/
def first? (wanted : R → Bool) (s : State R) : Option R :=
  (s.walk .asc (fun _ record => if wanted record then .done (some record) else .more none) none).state

theorem first?_eq (wanted : R → Bool) (s : State R) : s.first? wanted = s.records.find? wanted := by
  rw [first?, walk_eq, Direction.arrange]
  generalize s.records = records
  induction records with
  | nil => rfl
  | cons record rest ih =>
    rw [Visit.list, List.find?_cons]
    cases wanted record with
    | true => rfl
    | false => exact ih

end State

/-- An index finds the first record of a walk that has the primary key, and none only if there is
none. So each complete alternative of an engine finds what is stored under the key, as the engine
itself does. -/
theorem finds_first {R : Type} (pk : Property R) :
    (∀ ix, Registered pk ix → ∀ (writes : List (Write R)) (key : Key),
        ix.find? key (ix.written writes) = (ix.written writes).first? (pk.get · == key) ∧
          (ix.find? key (ix.written writes) = none ↔
            ∀ record ∈ (ix.written writes).records, pk.get record ≠ key)) ∧
      ∀ (run : Run R) (i : Nat) (choice : Index R), run.engine.alternatives[i]? = some choice →
        lags run.engine.state i = false → ∀ key,
          choice.find? key (slot run.engine.state i) = run.ledger.stored[key]? ∧
            run.engine.view.find? key = run.ledger.stored[key]? := by
  refine ⟨fun ix hix writes key => ?_, fun run i choice hi hlags key => ⟨?_, ?_⟩⟩
  · have hfind := find?_eq hix.chained (laid_written hix.chained.layered writes) key
    refine ⟨hfind.trans (State.first?_eq _ _).symm, ?_⟩
    rw [hfind, List.find?_eq_none]
    simp only [beq_iff_eq, ne_eq]
  · have hchained := run.holds.chained choice (List.mem_of_getElem? hi)
    rw [find?_eq hchained (run.holds.fanned.laid i choice hi)]
    exact run.holds.find?_records (List.getElem?_eq_some_iff.1 hi).1 hlags key
  · exact run.holds.lookup_eq key

namespace Run

/-- An index on amounts. -/
def byAmountIndex : Index (Int × Int) :=
  .secondary amount identifier

/-- One record under two amounts, as an index by itself keeps it. -/
def twice : List (Write (Int × Int)) :=
  [.put (1, 30), .put (2, 20), .put (1, 10)]

/-- By itself the index finds the lesser of two amounts; in an engine, where it was registered late
and is complete again, it finds what is stored. -/
theorem finds_first_amounts :
    Registered identifier byAmountIndex ∧
      byAmountIndex.find? (.int 1) (byAmountIndex.written twice) = some (1, 10) ∧
      amounts.engine.alternatives[1]? = some byAmountIndex ∧ lags amounts.engine.state 1 = false ∧
      byAmountIndex.find? (.int 3) (slot amounts.engine.state 1) = amounts.engine.view.find? (.int 3) := by
  have hregistered : Registered identifier byAmountIndex := .secondary amount
  have hsecond : amounts.engine.alternatives[1]? = some byAmountIndex := rfl
  have hcomplete : lags amounts.engine.state 1 = false := by decide +kernel
  obtain ⟨hfirst, hengine⟩ := finds_first identifier
  obtain ⟨hfound, hview⟩ := hengine amounts 1 byAmountIndex hsecond hcomplete (.int 3)
  refine ⟨hregistered, ?_, hsecond, hcomplete, hfound.trans hview.symm⟩
  exact (hfirst byAmountIndex hregistered twice (.int 1)).1.trans (by decide +kernel)

end Run

end RecordStore
