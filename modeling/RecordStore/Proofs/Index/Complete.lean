import Mathlib.Data.List.Basic
import RecordStore.Plan.Choose
import RecordStore.Proofs.Index.Alternatives
/-!
# The complete alternatives

`Index.complete` lists the alternatives that do not lag behind, each with its slot. It is all that a
plan depends on (`plan_alternatives`), and it never depends on the others: a write acts on each
member by itself (`complete_put`, `complete_remove`), and an index that is added amid records does
not come in (`complete_append`). Two states with the same complete alternatives are therefore
planned alike, however many other indexes there are and wherever they stand between them
(`choose_congr`).
-/

namespace RecordStore

namespace Index

variable {R : Type} {choices choices' : List (Index R)} {s t : State R}

/-- The alternatives that do not lag behind, in order, each with its slot. -/
def complete (choices : List (Index R)) (s : State R) : List (Index R × State R) :=
  choices.zipIdx.filterMap fun c => if lags s c.2 then none else some (c.1, slot s c.2)

theorem mem_complete {a : Index R × State R} :
    a ∈ complete choices s ↔
      ∃ i : Nat, choices[i]? = some a.1 ∧ lags s i = false ∧ slot s i = a.2 := by
  unfold complete
  rw [List.mem_filterMap]
  constructor
  · rintro ⟨⟨choice, i⟩, hmem, hoffer⟩
    dsimp only at hoffer
    split at hoffer
    · cases hoffer
    · next hlags =>
      cases hoffer
      exact ⟨i, List.mem_zipIdx_iff_getElem?.1 hmem, Bool.eq_false_iff.2 hlags, rfl⟩
  · rintro ⟨i, hi, hlags, hslot⟩
    refine ⟨(a.1, i), List.mem_zipIdx_iff_getElem?.2 hi, ?_⟩
    dsimp only
    rw [hlags, hslot]
    rfl

/-! ## Reading -/

theorem usable_eq_filterMap {α : Type} (read : Index R → State R → α) (choices : List (Index R))
    {slots : List (State R)} {late : List Bool} (hlen : late.length = slots.length) :
    usable (choices.map read) slots late = choices.zipIdx.filterMap fun c =>
      if late.getD c.2 true then none else some (read c.1 (slots.getD c.2 .empty)) := by
  induction choices generalizing slots late with
  | nil => rfl
  | cons choice rest ih =>
    rw [List.zipIdx_cons', List.filterMap_cons, List.filterMap_map, List.map_cons]
    match slots, late with
    | [], [] => simp [usable]
    | slot :: slots, flag :: late =>
      have hlen' : late.length = slots.length := by simpa using hlen
      have hrest := ih hlen'
      cases flag with
      | true => exact hrest
      | false => exact congrArg _ hrest

/-- What is read off alternatives is read off the complete ones. -/
theorem usable_eq {α : Type} {slots : List (State R)} {late : List Bool}
    (h : Spread choices.length (.slots slots late)) (read : Index R → State R → α) :
    usable (choices.map read) slots late =
      (complete choices (.slots slots late)).map fun a => read a.1 a.2 := by
  have hlen : late.length = slots.length := by
    cases h with
    | slots _ hlen _ => rw [List.length_cons, List.length_cons, hlen]
  rw [usable_eq_filterMap read choices hlen, complete, List.map_filterMap]
  apply List.filterMap_congr
  intro c _
  have hlags : lags (.slots slots late) c.2 = late.getD c.2 true := rfl
  rw [hlags]
  split <;> rfl

/-- Alternatives take the cheapest plan of the complete ones, the earliest of several. -/
theorem plan_alternatives (h : Spread choices.length s) (predicate : Option (Predicate R))
    (order : Order R) :
    (alternatives choices).plan predicate s order =
      if s.isEmpty || predicate.any Predicate.isNever then .nothing
      else (((complete choices s).map fun a => a.1.plan predicate a.2 order).minOn?
        Plan.cost).getD .nothing := by
  cases h with
  | empty =>
    rw [plan, ite_self]
    · rfl
    · intro _ _ e
      cases e
  | slots hfirst hlen hcount =>
    rw [plan, plans_eq, usable_eq (.slots hfirst hlen hcount)]

/-- States with the same complete alternatives are planned alike. -/
theorem plan_congr (hs : Spread choices.length s) (ht : Spread choices'.length t)
    (hempty : s.isEmpty = t.isEmpty) (hcomplete : complete choices s = complete choices' t)
    (predicate : Option (Predicate R)) (order : Order R) :
    (alternatives choices).plan predicate s order =
      (alternatives choices').plan predicate t order := by
  rw [plan_alternatives hs, plan_alternatives ht, hempty, hcomplete]

theorem choose_congr (hs : Spread choices.length s) (ht : Spread choices'.length t)
    (hempty : s.isEmpty = t.isEmpty) (hcomplete : complete choices s = complete choices' t)
    (q : Query R) : Plan.choose choices s q = Plan.choose choices' t q := by
  unfold Plan.choose
  simp only [plan_congr hs ht hempty hcomplete, hempty]

/-! ## Writing -/

theorem complete_put (h : Spread choices.length s) (record : R) :
    complete choices ((alternatives choices).put record s) =
      (complete choices s).map fun a => (a.1, a.1.put record a.2) := by
  unfold complete
  rw [List.map_filterMap]
  apply List.filterMap_congr
  rintro ⟨choice, i⟩ hmem
  have hi : choices[i]? = some choice := List.mem_zipIdx_iff_getElem?.1 hmem
  dsimp only
  rw [lags_put h record (List.getElem?_eq_some_iff.1 hi).1, slot_put record s hi]
  split <;> rfl

/-- A removal that leaves records acts on each complete alternative. -/
theorem complete_remove (hlayered : ∀ choice ∈ choices, choice.Layered) (hne : choices ≠ [])
    (h : Fanned choices s) (record : R)
    (hleft : ((alternatives choices).remove record s).isEmpty = false) :
    complete choices ((alternatives choices).remove record s) =
      (complete choices s).map fun a => (a.1, a.1.remove record a.2) := by
  have hfirst := List.getElem?_eq_getElem (List.length_pos_iff.2 hne)
  rcases remove_cases hlayered h record hfirst with ⟨hempty, -⟩ | ⟨hslot, hlags, -⟩
  · rw [hempty] at hleft
    cases hleft
  · unfold complete
    rw [List.map_filterMap]
    apply List.filterMap_congr
    rintro ⟨choice, i⟩ hmem
    have hi : choices[i]? = some choice := List.mem_zipIdx_iff_getElem?.1 hmem
    dsimp only
    rw [hlags i, hslot i choice hi]
    split <;> rfl

/-- An index that is added amid records is not complete. -/
theorem complete_append (h : Fanned choices s) (ix : Index R) (hs : s.isEmpty = false) :
    complete (choices ++ [ix]) s = complete choices s := by
  have hlags : lags s choices.length = true := by rw [h.spread.lags_append, hs, Bool.not_false]
  unfold complete
  rw [List.zipIdx_append, List.filterMap_append]
  simp [hlags]

end Index

end RecordStore
