import RecordStore.Proofs.Index.Preferred
import RecordStore.Proofs.Plan.Contents
/-!
# The cheapest plan

Alternatives plan as the preferred one does for its slot: a complete one whose plan costs least, the
earliest of several (`exists_preferred_plan`). No complete alternative has a cheaper plan
(`plan_cost_le`).
-/

namespace RecordStore.Index

variable {R : Type} {choices : List (Index R)} {s : State R}

/-- An alternative that finds nothing without a look is preferred if it comes first. -/
theorem preferred_of_nothing (hne : choices ≠ []) (h : Spread choices.length s)
    (predicate : Option (Predicate R)) (order : Order R)
    (hnothing : ∀ (i : Nat) (choice : Index R), choice.plan predicate (slot s i) order = .nothing) :
    ∃ choice,
      Preferred (fun choice slot => (choice.plan predicate slot order).cost) choices s 0 choice := by
  have hfirst := List.getElem?_eq_getElem (List.length_pos_iff.2 hne)
  refine ⟨_, .of_head h hfirst fun j other _ _ => ?_⟩
  rw [hnothing, hnothing]

/-- Alternatives plan as the first of the cheapest complete ones does for its slot. -/
theorem exists_preferred_plan (hne : choices ≠ []) (h : Spread choices.length s)
    (predicate : Option (Predicate R)) (order : Order R) :
    ∃ (i : Nat) (choice : Index R),
      Preferred (fun choice slot => (choice.plan predicate slot order).cost) choices s i choice ∧
        (alternatives choices).plan predicate s order = choice.plan predicate (slot s i) order := by
  cases hnever : predicate.any Predicate.isNever with
  | true =>
    obtain ⟨first, hfirst⟩ := preferred_of_nothing hne h predicate order fun i choice =>
      plan_of_isNever hnever choice (slot s i)
    exact ⟨0, first, hfirst, (plan_of_isNever hnever _ s).trans (plan_of_isNever hnever _ _).symm⟩
  | false =>
    cases h with
    | empty =>
      obtain ⟨first, hfirst⟩ := preferred_of_nothing hne .empty predicate order fun _ choice =>
        plan_empty choice
      exact ⟨0, first, hfirst, (plan_empty _).trans (plan_empty _).symm⟩
    | @slots front rest late hsize hlen hcount =>
      have hspread : Spread choices.length (.slots (front :: rest) (false :: late)) :=
        .slots hsize hlen hcount
      have hnonempty : (State.slots (front :: rest) (false :: late)).isEmpty = false :=
        decide_eq_false hsize
      obtain ⟨first, hfirst⟩ : ∃ first, choices[0]? = some first :=
        ⟨_, List.getElem?_eq_getElem (List.length_pos_iff.2 hne)⟩
      have hmem : (first, front) ∈ complete choices (.slots (front :: rest) (false :: late)) :=
        mem_complete.2 ⟨0, hfirst, rfl, rfl⟩
      have hmin := List.minOn?_eq_some_minOn (f := Plan.cost) (List.ne_nil_of_mem
        (List.mem_map_of_mem (f := fun c => c.1.plan predicate c.2 order) hmem))
      obtain ⟨i, choice, hi, hread⟩ :=
        exists_preferred (fun choice slot => choice.plan predicate slot order) Plan.cost hmin
      refine ⟨i, choice, hi, ?_⟩
      rw [plan_alternatives hspread, hnonempty, hnever, Bool.false_or, if_neg Bool.false_ne_true, hmin,
        ← hread]
      rfl

/-- No complete alternative has a cheaper plan. -/
theorem plan_cost_le (hne : choices ≠ []) (h : Spread choices.length s) {i : Nat} {choice : Index R}
    (hi : choices[i]? = some choice) (hlags : lags s i = false) (predicate : Option (Predicate R))
    (order : Order R) :
    ((alternatives choices).plan predicate s order).cost ≤
      (choice.plan predicate (slot s i) order).cost := by
  obtain ⟨j, preferred, hj, hplan⟩ := exists_preferred_plan hne h predicate order
  rw [hplan]
  exact hj.least i choice hi hlags

end RecordStore.Index
