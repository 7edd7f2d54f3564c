import Mathlib.Data.List.Perm.Basic
import RecordStore.Proofs.Index.Alternatives
import RecordStore.Proofs.Plan.Contents
import RecordStore.Proofs.Simplify
/-!
# What the chosen plan sends to the sink

`Query.matches` are the records of a list that a query selects, before they are ordered and cut: the
records that its predicate admits, or for a disjunction those of each term in turn. Whichever
complete alternative the plan of a query goes to, and however it goes, what it puts into a sink is
the slice of some arrangement of the matches (`exists_execute_choose`). The arrangement does not
depend on the sink, and it ascends in the query's order if the names in the order are trusted.
-/

namespace RecordStore

variable {R : Type}

/-- The records of a list that a query selects. A disjunction selects a record once for each term
that holds of it. -/
def Query.matches (q : Query R) (records : List R) : List R :=
  match q.predicate with
  | some (.any terms) => terms.flatMap fun term => records.filter term.eval
  | predicate => records.filter (Predicate.admits predicate)

theorem Query.matches_of_not_any {q : Query R} (h : ∀ terms, q.predicate ≠ some (.any terms))
    (records : List R) : q.matches records = records.filter (Predicate.admits q.predicate) := by
  unfold Query.matches
  split
  · next terms hany => exact absurd hany (h terms)
  · rfl

namespace Plan

variable {predicate : Option (Predicate R)} {order : Order R} {records : List R} {plan : Plan R}
  {trusted : Prop}

theorem Serves.matching_eq (h : plan.Serves trusted predicate order records) :
    plan.matching predicate = records.filter (Predicate.admits predicate) := by
  cases plan with
  | nothing => exact h.symm
  | scan walk => exact (Scan.matching_eq h.ordered predicate).trans h.finds
  | union branches => exact h.elim

/-- The plan of one index puts into a sink the slice of the matches in some arrangement. -/
theorem Serves.exists_execute_eq {q : Query R}
    (h : plan.Serves trusted q.predicate q.sortKeys records) :
    ∃ found : List R, found.Perm (records.filter (Predicate.admits q.predicate)) ∧
      (trusted → found.Pairwise fun a b => (q.sortKeys.compare a b).isLE = true) ∧
      ∀ {S : Type} (sink : Sink R S) (s : S),
        plan.execute q sink s = (q.slice found).foldl sink.put s := by
  cases plan with
  | nothing =>
    refine ⟨[], .of_eq h.symm, fun _ => .nil, fun sink s => ?_⟩
    rw [Query.slice_nil]
    rfl
  | scan walk =>
    refine ⟨walk.ranked q.predicate q.sortKeys, ?_, ?_, fun sink s => walk.execute_eq h.ordered q sink s⟩
    · rw [← h.finds, Scan.ranked]
      split
      · rw [Direction.filter_arrange]
        exact Direction.arrange_perm _ _
      · exact Order.sort_perm _ _
    · intro ht
      unfold Scan.ranked
      split
      · next d hd => exact (h.sorted ht d hd).filter _
      · exact Order.pairwise_sort _ _
  | union branches => exact h.elim

end Plan

namespace Index

variable {pk : Property R} {choices : List (Index R)} {s : State R}

/-- Whether the properties that alternatives and an order refer to by one name read the same. -/
def Trusted (choices : List (Index R)) (order : Order R) : Prop :=
  ∀ choice ∈ choices, ∀ p ∈ choice.properties, p.Agrees order.properties

/-- The plan of alternatives serves on the slot of some complete one. -/
theorem exists_serves (hchained : ∀ choice ∈ choices, Chained pk choice) (hne : choices ≠ [])
    (h : Fanned choices s) (predicate : Option (Predicate R)) (order : Order R)
    (hpredicate : ∀ choice ∈ choices, ∀ p ∈ choice.properties,
      p.Agrees (predicate.elim [] Predicate.properties)) :
    ∃ i < choices.length, lags s i = false ∧
      ((alternatives choices).plan predicate s order).Serves (Trusted choices order) predicate order
        (slot s i).records := by
  obtain ⟨i, choice, hi, hlags, hplan⟩ := exists_plan hne h.spread predicate order
  have hchoice := List.mem_of_getElem? hi
  refine ⟨i, (List.getElem?_eq_some_iff.1 hi).1, hlags, ?_⟩
  rw [hplan]
  exact serves_plan (hchained choice hchoice) (h.laid i choice hi) (hpredicate choice hchoice)
    fun ht => ht choice hchoice

end Index

namespace Plan

variable {pk : Property R} {choices : List (Index R)} {s : State R} {records : List R} {q : Query R}

open Index

theorem records_of_isEmpty (hne : choices ≠ []) (h : Fanned choices s)
    (hrecords : ∀ i < choices.length, lags s i = false → (slot s i).records.Perm records)
    (hempty : s.isEmpty = true) : records = [] := by
  cases h.spread with
  | empty => exact List.nil_perm.1 (hrecords 0 (List.length_pos_iff.2 hne) rfl)
  | slots hfirst _ _ => exact absurd (of_decide_eq_true hempty) hfirst

/-- The branches of a union find, between them, the matches of the disjunction. -/
theorem matchingAll_perm (hchained : ∀ choice ∈ choices, Chained pk choice) (hne : choices ≠ [])
    (h : Fanned choices s)
    (hrecords : ∀ i < choices.length, lags s i = false → (slot s i).records.Perm records)
    {terms : List (Predicate R)}
    (hterms : ∀ choice ∈ choices, ∀ p ∈ choice.properties,
      p.Agrees (Predicate.any terms).properties) :
    (matchingAll (terms.map fun term =>
      (term, (alternatives choices).plan (some term) s []))).Perm
      (terms.flatMap fun term => records.filter term.eval) := by
  rw [matchingAll_eq, List.flatMap_map]
  apply List.Perm.flatMap_left
  intro term hterm
  have hpredicate : ∀ choice ∈ choices, ∀ p ∈ choice.properties, p.Agrees term.properties :=
    fun choice hchoice p hp q hq => hterms choice hchoice p hp q (by
      rw [Predicate.properties, Predicate.propertiesOfAll_eq]
      exact List.mem_flatMap.2 ⟨term, hterm, hq⟩)
  obtain ⟨i, hi, hlags, hserves⟩ := exists_serves hchained hne h (some term) [] hpredicate
  show (((alternatives choices).plan (some term) s []).matching (some term)).Perm _
  rw [hserves.matching_eq]
  exact (hrecords i hi hlags).filter _

/-- The plan of a query puts into a sink the slice of its matches in some arrangement. -/
theorem exists_execute_choose (hchained : ∀ choice ∈ choices, Chained pk choice)
    (hne : choices ≠ []) (h : Fanned choices s)
    (hrecords : ∀ i < choices.length, lags s i = false → (slot s i).records.Perm records)
    (hpredicate : ∀ choice ∈ choices, ∀ p ∈ choice.properties,
      p.Agrees (q.predicate.elim [] Predicate.properties)) :
    ∃ found : List R, found.Perm (q.matches records) ∧
      (Trusted choices q.sortKeys →
        found.Pairwise fun a b => (q.sortKeys.compare a b).isLE = true) ∧
      ∀ {S : Type} (sink : Sink R S) (st : S),
        (choose choices s q).execute q sink st = (q.slice found).foldl sink.put st := by
  by_cases hany : ∃ terms, q.predicate = some (.any terms)
  · obtain ⟨terms, hterms⟩ := hany
    have hmatches : q.matches records = terms.flatMap fun term => records.filter term.eval := by
      rw [Query.matches, hterms]
    rw [hterms] at hpredicate
    simp only [choose, hterms]
    split
    · next hempty =>
      rw [hmatches, records_of_isEmpty hne h hrecords hempty]
      exact ⟨[], by simp, fun _ => .nil, fun sink st => by rw [Query.slice_nil]; rfl⟩
    · have hperm := matchingAll_perm hchained hne h hrecords hpredicate
      refine ⟨_, ((Order.sort_perm q.sortKeys _).trans hperm).trans (.of_eq hmatches.symm),
        fun _ => Order.pairwise_sort _ _, fun sink st => ?_⟩
      exact Window.drain_eq _ sink _ st
  · have hsingle : choose choices s q = (alternatives choices).plan q.predicate s q.sortKeys := by
      unfold choose
      dsimp only
      split
      · next terms hterms => exact absurd ⟨terms, hterms⟩ hany
      · rfl
    obtain ⟨i, hi, hlags, hserves⟩ := exists_serves hchained hne h q.predicate q.sortKeys hpredicate
    obtain ⟨found, hfound, hsorted, hexecute⟩ := hserves.exists_execute_eq
    rw [hsingle, Query.matches_of_not_any (not_exists.1 hany)]
    exact ⟨found, hfound.trans ((hrecords i hi hlags).filter _), hsorted, hexecute⟩

end Plan

end RecordStore
