import RecordStore.Proofs.KeyRange
import RecordStore.Query
/-!
# What simplification keeps

A simplified predicate holds of the same records (`eval_simplify`) and compares no property that the
original does not (`properties_simplify`). The two lists that `conjoin` and `disjoin` open up
stand for the terms they come from, so each of the two is the conjunction or the disjunction of its
arguments.
-/

namespace RecordStore

namespace Predicate

variable {R : Type} {record : R} {terms : List (Predicate R)}

/-! ## Truth -/

theorem eval_negate (record : R) (p : Predicate R) : (negate p).eval record = !p.eval record := by
  cases p <;> simp [negate, eval]

theorem all_termsOfAll (p : Predicate R) : (termsOfAll p).all (eval record) = p.eval record := by
  cases p <;> simp [termsOfAll, eval]

theorem any_termsOfAny (p : Predicate R) : (termsOfAny p).any (eval record) = p.eval record := by
  cases p <;> simp [termsOfAny, eval]

theorem eval_conjoin (record : R) (terms : List (Predicate R)) :
    (conjoin terms).eval record = terms.all (eval record) := by
  have hopened : (terms.flatMap termsOfAll).all (eval record) = terms.all (eval record) := by
    rw [List.all_flatMap]
    exact congrArg terms.all (funext all_termsOfAll)
  unfold conjoin
  split
  · next hnever =>
    obtain ⟨term, hterm, hn⟩ := List.any_eq_true.1 hnever
    cases term <;> cases hn
    exact (List.all_eq_false.2 ⟨.never, hterm, by simp [eval]⟩).symm
  · rw [← hopened]
    split
    · next h => rw [h]; rfl
    · next term h => rw [h, List.all_cons, List.all_nil, Bool.and_true]
    · rw [eval, evalAll_eq]

theorem eval_disjoin (record : R) (terms : List (Predicate R)) :
    (disjoin terms).eval record = terms.any (eval record) := by
  have hopened : (terms.flatMap termsOfAny).any (eval record) = terms.any (eval record) := by
    rw [List.any_flatMap]
    exact congrArg terms.any (funext any_termsOfAny)
  unfold disjoin
  split
  · next halways =>
    obtain ⟨term, hterm, ha⟩ := List.any_eq_true.1 halways
    cases term <;> cases ha
    exact (List.any_eq_true.2 ⟨.always, hterm, by simp [eval]⟩).symm
  · rw [← hopened]
    split
    · next h => rw [h]; rfl
    · next term h => rw [h, List.any_cons, List.any_nil, Bool.or_false]
    · rw [eval, evalAny_eq]

theorem eval_simplifyComparison (record : R) (p : Property R) (c : Comparison) :
    (simplifyComparison p c).eval record = c.holds (p.get record) := by
  cases c with
  | oneOf ks =>
    match ks with
    | [] => simp [simplifyComparison, eval, Comparison.holds]
    | [k] => simp [simplifyComparison, eval, Comparison.holds]
    | _ :: _ :: _ => rfl
  | _ k => rfl

theorem eval_simplify (record : R) : ∀ p : Predicate R, p.simplify.eval record = p.eval record
  | .always => rfl
  | .never => rfl
  | .compare p c => eval_simplifyComparison record p c
  | .not term => by rw [simplify, eval_negate, eval_simplify record term, eval]
  | .all terms => by
    have each (term) (_ : term ∈ terms) := eval_simplify record term
    rw [simplify, simplifyList_eq, eval_conjoin, eval, evalAll_eq, List.all_map]
    rw [Bool.eq_iff_iff, List.all_eq_true, List.all_eq_true]
    exact forall₂_congr fun term hterm => by rw [Function.comp_apply, each term hterm]
  | .any terms => by
    have each (term) (_ : term ∈ terms) := eval_simplify record term
    rw [simplify, simplifyList_eq, eval_disjoin, eval, evalAny_eq, List.any_map]
    rw [Bool.eq_iff_iff, List.any_eq_true, List.any_eq_true]
    exact exists_congr fun term => and_congr_right fun hterm => by
      rw [Function.comp_apply, each term hterm]

/-! ## Properties -/

theorem properties_negate (p : Predicate R) : (negate p).properties ⊆ p.properties := by
  cases p <;> simp [negate, properties]

theorem properties_termsOfAll (p : Predicate R) :
    (termsOfAll p).flatMap properties ⊆ p.properties := by
  cases p <;> simp [termsOfAll, properties]

theorem properties_termsOfAny (p : Predicate R) :
    (termsOfAny p).flatMap properties ⊆ p.properties := by
  cases p <;> simp [termsOfAny, properties]

/-- Terms that are opened into others bring in no property of their own. -/
theorem properties_opened (terms : List (Predicate R)) {opened : Predicate R → List (Predicate R)}
    (h : ∀ term, (opened term).flatMap properties ⊆ term.properties) :
    (terms.flatMap opened).flatMap properties ⊆ terms.flatMap properties := by
  intro q hq
  simp only [List.mem_flatMap] at hq ⊢
  obtain ⟨sub, ⟨term, hterm, hsub⟩, hq⟩ := hq
  exact ⟨term, hterm, h term (List.mem_flatMap.2 ⟨sub, hsub, hq⟩)⟩

theorem properties_conjoin (terms : List (Predicate R)) :
    (conjoin terms).properties ⊆ terms.flatMap properties := by
  have hopened := properties_opened terms properties_termsOfAll
  unfold conjoin
  split
  · exact List.nil_subset _
  · split
    · exact List.nil_subset _
    · next term h => simpa [h] using hopened
    · simpa [properties] using hopened

theorem properties_disjoin (terms : List (Predicate R)) :
    (disjoin terms).properties ⊆ terms.flatMap properties := by
  have hopened := properties_opened terms properties_termsOfAny
  unfold disjoin
  split
  · exact List.nil_subset _
  · split
    · exact List.nil_subset _
    · next term h => simpa [h] using hopened
    · simpa [properties] using hopened

theorem properties_simplify : ∀ p : Predicate R, p.simplify.properties ⊆ p.properties
  | .always => List.Subset.refl _
  | .never => List.Subset.refl _
  | .compare p c => by
    rw [simplify]
    unfold simplifyComparison
    split
    · exact List.nil_subset _
    · exact List.Subset.refl _
    · exact List.Subset.refl _
  | .not term => List.Subset.trans (properties_negate term.simplify) (properties_simplify term)
  | .all terms => by
    have each (term) (_ : term ∈ terms) := properties_simplify term
    rw [simplify, simplifyList_eq, properties, propertiesOfAll_eq]
    intro q hq
    obtain ⟨s, hs, hq⟩ := List.mem_flatMap.1 (properties_conjoin _ hq)
    obtain ⟨term, hterm, rfl⟩ := List.mem_map.1 hs
    exact List.mem_flatMap.2 ⟨term, hterm, each term hterm hq⟩
  | .any terms => by
    have each (term) (_ : term ∈ terms) := properties_simplify term
    rw [simplify, simplifyList_eq, properties, propertiesOfAll_eq]
    intro q hq
    obtain ⟨s, hs, hq⟩ := List.mem_flatMap.1 (properties_disjoin _ hq)
    obtain ⟨term, hterm, rfl⟩ := List.mem_map.1 hs
    exact List.mem_flatMap.2 ⟨term, hterm, each term hterm hq⟩

end Predicate

namespace Query

variable {R : Type}

/-- The properties that a query compares or sorts by. -/
def properties (q : Query R) : List (Property R) :=
  q.predicate.elim [] Predicate.properties ++ q.sortKeys.map (·.property)

theorem admits_simplified (q : Query R) (record : R) :
    Predicate.admits q.simplified.predicate record = Predicate.admits q.predicate record := by
  cases hp : q.predicate with
  | none => simp [simplified, hp, Predicate.admits]
  | some p =>
    have heval := Predicate.eval_simplify record p
    simp only [simplified, hp, Option.map_some, Predicate.admits]
    split
    · next h =>
      split at h
      · next halways =>
        rw [Option.some.inj halways] at heval
        exact heval
      · cases h
    · next p' h =>
      split at h
      · cases h
      · rw [← Option.some.inj h, heval]

/-- A predicate and its normal form hold of the same records, and a query that has been simplified
admits the records that it admitted before, also where its predicate has been dropped. -/
theorem simplified_keeps_truth :
    (∀ (p : Predicate R) (record : R), p.simplify.eval record = p.eval record) ∧
      ∀ (q : Query R) (record : R),
        Predicate.admits q.simplified.predicate record = Predicate.admits q.predicate record := by
  constructor
  · intro p record
    exact Predicate.eval_simplify record p
  · intro q record
    exact q.admits_simplified record

theorem properties_simplified (q : Query R) :
    q.simplified.predicate.elim [] Predicate.properties ⊆
      q.predicate.elim [] Predicate.properties := by
  cases hp : q.predicate with
  | none => simp [simplified, hp]
  | some p =>
    simp only [simplified, hp, Option.map_some]
    split
    · exact List.nil_subset _
    · exact Predicate.properties_simplify p

end Query

end RecordStore
