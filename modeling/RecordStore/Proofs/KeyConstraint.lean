import Mathlib.Data.Finset.Lattice.Fold
import RecordStore.Proofs.KeyRange
/-!
# The keys that a predicate demands

A constraint is made by going through the conjuncts of a predicate and narrowing a range. Its parts
have a meaning that knows of no such pass:

* the range of a comparison contains just the keys of its interval, `Comparison.interval`;
* ranges form a semilattice under intersection, so a range that is narrowed step by step is the meet
  of all steps, whatever their order and however often one is repeated (`range_foldl_restrict`);
* `Predicate.Demands` says which comparisons a predicate makes of every record that it holds of,
  along the conjunctions of the tree.

The constraint of a predicate is the intersection of what it demands
(`ofPredicate_isIntersection`).
-/

namespace RecordStore

namespace KeyRange

/-! ## Ranges as a semilattice

The greater range is the laxer one. Only `tighterLower` and `tighterUpper` look at bounds; where two
of them name one key, the one that excludes it is the stricter. -/

theorem tighterLower_comm (a b : Bound) : tighterLower a b = tighterLower b a := by
  rcases a with _ | a | a <;> rcases b with _ | b | b <;> simp only [tighterLower] <;> grind

theorem tighterUpper_comm (a b : Bound) : tighterUpper a b = tighterUpper b a := by
  rcases a with _ | a | a <;> rcases b with _ | b | b <;> simp only [tighterUpper] <;> grind

theorem tighterLower_assoc (a b c : Bound) :
    tighterLower (tighterLower a b) c = tighterLower a (tighterLower b c) := by
  rcases a with _ | a | a <;> rcases b with _ | b | b <;> rcases c with _ | c | c <;>
    simp only [tighterLower] <;> grind [tighterLower]

theorem tighterUpper_assoc (a b c : Bound) :
    tighterUpper (tighterUpper a b) c = tighterUpper a (tighterUpper b c) := by
  rcases a with _ | a | a <;> rcases b with _ | b | b <;> rcases c with _ | c | c <;>
    simp only [tighterUpper] <;> grind [tighterUpper]

theorem tighterLower_self (a : Bound) : tighterLower a a = a := by
  cases a <;> simp [tighterLower]

theorem tighterUpper_self (a : Bound) : tighterUpper a a = a := by
  cases a <;> simp [tighterUpper]

theorem intersect_comm (r s : KeyRange) : r.intersect s = s.intersect r :=
  congrArg₂ mk (tighterLower_comm ..) (tighterUpper_comm ..)

theorem intersect_assoc (r s t : KeyRange) :
    (r.intersect s).intersect t = r.intersect (s.intersect t) :=
  congrArg₂ mk (tighterLower_assoc ..) (tighterUpper_assoc ..)

theorem intersect_self (r : KeyRange) : r.intersect r = r :=
  congrArg₂ mk (tighterLower_self _) (tighterUpper_self _)

instance : Min KeyRange := ⟨intersect⟩

instance : SemilatticeInf KeyRange := .mk' intersect_comm intersect_assoc intersect_self

theorem intersect_eq_inf (r s : KeyRange) : r.intersect s = r ⊓ s := rfl

instance : OrderTop KeyRange where
  top := all
  le_top r := inf_eq_left.1 (intersect_all r)

/-- The meet of some comparisons' ranges contains the keys that lie in all their intervals. -/
theorem contains_inf (cs : Finset Comparison) (k : Key) :
    (cs.inf ofComparison).contains k = true ↔ ∀ c ∈ cs, k ∈ c.interval := by
  induction cs using Finset.induction_on with
  | empty => exact iff_of_true rfl (by simp)
  | insert c cs _ ih =>
    rw [Finset.inf_insert, ← intersect_eq_inf, contains_intersect, Bool.and_eq_true,
      contains_ofComparison, ih, Finset.forall_mem_insert]

end KeyRange

namespace Predicate

variable {R : Type} {p : Property R} {c : Comparison}

/-! ## What a predicate demands -/

/-- Whether a predicate demands that the keys of a property pass a comparison. Terms of disjunctions
and of negations demand nothing. -/
inductive Demands (p : Property R) : Predicate R → Comparison → Prop where
  | compare {q : Property R} {c : Comparison} : q.same p = true → Demands p (.compare q c) c
  | all {terms : List (Predicate R)} {term : Predicate R} {c : Comparison} :
      term ∈ terms → Demands p term c → Demands p (.all terms) c

/-- The comparisons of a property among the conjuncts, in their order. -/
def comparisonsOn (p : Property R) (predicate : Predicate R) : List Comparison :=
  predicate.conjuncts.filterMap (KeyConstraint.comparisonOn? p)

theorem mem_comparisonsOn_iff : ∀ predicate : Predicate R,
    c ∈ predicate.comparisonsOn p ↔ predicate.Demands p c
  | .always => by
    refine iff_of_false ?_ fun h => by cases h
    simp [comparisonsOn, conjuncts]
  | .never => by
    refine iff_of_false ?_ fun h => by cases h
    simp [comparisonsOn, conjuncts, KeyConstraint.comparisonOn?]
  | .any _ => by
    refine iff_of_false ?_ fun h => by cases h
    simp [comparisonsOn, conjuncts, KeyConstraint.comparisonOn?]
  | .not _ => by
    refine iff_of_false ?_ fun h => by cases h
    simp [comparisonsOn, conjuncts, KeyConstraint.comparisonOn?]
  | .compare q d => by
    simp only [comparisonsOn, conjuncts, List.mem_filterMap, List.mem_singleton, exists_eq_left,
      KeyConstraint.comparisonOn?, Option.ite_none_right_eq_some, Option.some.injEq]
    constructor
    · rintro ⟨hsame, rfl⟩
      exact .compare hsame
    · rintro (⟨hsame⟩ | _)
      exact ⟨hsame, rfl⟩
  | .all terms => by
    have each (term) (_ : term ∈ terms) := mem_comparisonsOn_iff term
    simp only [comparisonsOn, conjuncts, conjunctsOfAll_eq, List.filterMap_flatMap,
      List.mem_flatMap]
    constructor
    · rintro ⟨term, hterm, hc⟩
      exact .all hterm ((each term hterm).1 hc)
    · rintro (_ | ⟨hterm, hc⟩)
      exact ⟨_, hterm, (each _ hterm).2 hc⟩

end Predicate

namespace KeyConstraint

variable {R : Type}

/-! ## Narrowing -/

theorem range_foldl_restrict (ds : List Comparison) (c : KeyConstraint) :
    (ds.foldl restrict c).range = c.range ⊓ ds.toFinset.inf .ofComparison := by
  induction ds generalizing c with
  | nil => exact (inf_top_eq c.range).symm
  | cons d ds ih =>
    rw [List.foldl_cons, ih, range_restrict, KeyRange.intersect_eq_inf, List.toFinset_cons,
      Finset.inf_insert, inf_assoc]

/-- The first equality is the one that counts. -/
theorem exact_foldl_restrict (ds : List Comparison) (c : KeyConstraint) :
    (ds.foldl restrict c).exact = c.exact.or (ds.findSome? Comparison.equal?) := by
  induction ds generalizing c with
  | nil => exact Option.or_none.symm
  | cons d ds ih =>
    rw [List.foldl_cons, ih, exact_restrict, List.findSome?_cons, Option.or_assoc]
    cases d.equal? <;> rfl

theorem range_ofPredicate (predicate : Predicate R) (p : Property R) :
    (ofPredicate (some predicate) p).range =
      (predicate.comparisonsOn p).toFinset.inf .ofComparison :=
  (range_foldl_restrict (predicate.comparisonsOn p) {}).trans (top_inf_eq _)

theorem exact_ofPredicate (predicate : Predicate R) (p : Property R) :
    (ofPredicate (some predicate) p).exact =
      (predicate.comparisonsOn p).findSome? Comparison.equal? :=
  exact_foldl_restrict (predicate.comparisonsOn p) {}

/-- The constraint that a predicate puts on a property is the intersection of what it demands: its
range contains the keys that lie in every demanded interval, and it names a key just where equality
is demanded, one of the keys demanded. The range depends on nothing else, so conjuncts may be
rearranged and grouped at will. Records that satisfy the predicate have their keys within it. -/
theorem ofPredicate_isIntersection (predicate : Predicate R) (p : Property R) :
    (∀ k, (ofPredicate (some predicate) p).range.contains k = true ↔
        ∀ c, predicate.Demands p c → k ∈ c.interval) ∧
      ((ofPredicate (some predicate) p).exact.isSome = true ↔
        ∃ k, predicate.Demands p (.eq k)) ∧
      (∀ k, (ofPredicate (some predicate) p).exact = some k → predicate.Demands p (.eq k)) ∧
      (∀ other : Predicate R, (∀ c, other.Demands p c ↔ predicate.Demands p c) →
        (ofPredicate (some other) p).range = (ofPredicate (some predicate) p).range) ∧
      (p.Agrees predicate.properties → ∀ record, predicate.eval record = true →
        (ofPredicate (some predicate) p).range.contains (p.get record) = true ∧
          ∀ k, (ofPredicate (some predicate) p).exact = some k → p.get record = k) := by
  have hmem (c : Comparison) : c ∈ predicate.comparisonsOn p ↔ predicate.Demands p c :=
    Predicate.mem_comparisonsOn_iff predicate
  have hequal (k : Key) (c : Comparison) (hc : c ∈ predicate.comparisonsOn p)
      (hk : c.equal? = some k) : predicate.Demands p (.eq k) :=
    (hmem _).1 (Comparison.equal?_eq_some_iff.1 hk ▸ hc)
  refine ⟨fun k => ?_, ⟨fun h => ?_, ?_⟩, fun k hk => ?_, fun other hother => ?_, ?_⟩
  · rw [range_ofPredicate, KeyRange.contains_inf]
    simp only [List.mem_toFinset, hmem]
  · rw [exact_ofPredicate, List.findSome?_isSome_iff] at h
    obtain ⟨c, hc, hsome⟩ := h
    obtain ⟨k, hk⟩ := Option.isSome_iff_exists.1 hsome
    exact ⟨k, hequal k c hc hk⟩
  · rintro ⟨k, hk⟩
    rw [exact_ofPredicate, List.findSome?_isSome_iff]
    exact ⟨.eq k, (hmem _).2 hk, rfl⟩
  · rw [exact_ofPredicate] at hk
    obtain ⟨c, hc, hk⟩ := List.exists_of_findSome?_eq_some hk
    exact hequal k c hc hk
  · have hset : (other.comparisonsOn p).toFinset = (predicate.comparisonsOn p).toFinset := by
      ext c
      rw [List.mem_toFinset, List.mem_toFinset, hmem, Predicate.mem_comparisonsOn_iff, hother]
    rw [range_ofPredicate, range_ofPredicate, hset]
  · intro hp record heval
    have hadmits : (ofPredicate (some predicate) p).Admits (p.get record) := admits_of_eval hp heval
    exact ⟨hadmits.range, hadmits.exact⟩

/-! ### Three demands on a temperature -/

def temperature : Property Int :=
  ⟨"temperature", .int⟩

/-- Above 3 and one of some values from 3 on, of which 7 is named. The negation demands nothing. -/
def mild : Predicate Int :=
  .all [.compare temperature (.gt (.int 3)),
    .all [.compare temperature (.eq (.int 7)),
      .compare temperature (.oneOf [.int 9, .int 3, .int 7])],
    .not (.compare temperature (.lt (.int 5)))]

/-- The same demands, otherwise arranged and grouped, one of them twice. -/
def mildRearranged : Predicate Int :=
  .all [.all [.compare temperature (.oneOf [.int 9, .int 3, .int 7]),
      .compare temperature (.gt (.int 3))],
    .compare temperature (.eq (.int 7)), .always, .compare temperature (.gt (.int 3))]

theorem mild_isIntersection :
    (∀ c, mildRearranged.Demands temperature c ↔ mild.Demands temperature c) ∧
      temperature.Agrees mild.properties ∧ mild.eval 7 = true ∧
      (ofPredicate (some mildRearranged) temperature).range =
        (ofPredicate (some mild) temperature).range ∧
      (ofPredicate (some mild) temperature).range.contains (.int 7) = true ∧
      mild.Demands temperature (.eq (.int 7)) := by
  have hdemands (c : Comparison) :
      mildRearranged.Demands temperature c ↔ mild.Demands temperature c := by
    rw [← Predicate.mem_comparisonsOn_iff, ← Predicate.mem_comparisonsOn_iff]
    have hmild : mild.comparisonsOn temperature =
      [.gt (.int 3), .eq (.int 7), .oneOf [.int 9, .int 3, .int 7]] := rfl
    have hrearranged : mildRearranged.comparisonsOn temperature =
      [.oneOf [.int 9, .int 3, .int 7], .gt (.int 3), .eq (.int 7), .gt (.int 3)] := rfl
    rw [hmild, hrearranged]
    grind
  have hagrees : temperature.Agrees mild.properties := by
    intro q hq _
    have hproperties : mild.properties = [temperature, temperature, temperature, temperature] := rfl
    rw [hproperties] at hq
    simp only [List.mem_cons, List.not_mem_nil, or_false, or_self] at hq
    rw [hq]
  obtain ⟨-, -, hexact, hrange, hrecords⟩ := ofPredicate_isIntersection mild temperature
  exact ⟨hdemands, hagrees, rfl, hrange mildRearranged hdemands, (hrecords hagrees 7 rfl).1,
    hexact (.int 7) rfl⟩

end KeyConstraint

end RecordStore
