import Mathlib.Data.Set.Operations
import Mathlib.Order.Interval.Set.Defs
import Mathlib.Order.MinMax
import RecordStore.KeyRange
import RecordStore.Proofs.Key
/-!
# What key ranges contain

The two sides of a range are closed away from it (`aboveLower_mono`, `belowUpper_anti`), and
the intersection of ranges contains what both contain (`contains_intersect`). The range of a
comparison contains the keys of its interval (`contains_ofComparison`), among them every key that
passes the comparison (`contains_of_holds`).

`KeyConstraint.Admits` reads a constraint as a set of keys. Every record that satisfies a predicate
has its key in the set that the predicate demands of it (`admits_of_eval`), provided the properties
that share a name with the constrained one read the same.
-/

namespace RecordStore

namespace KeyRange

variable {r s : KeyRange} {j k : Key}

theorem aboveLower_mono (hjk : j ≤ k) (h : r.aboveLower j = true) : r.aboveLower k = true := by
  unfold aboveLower at *
  cases hr : r.lower with
  | unbounded => rfl
  | included low =>
    simp only [hr, decide_eq_true_eq] at h ⊢
    exact le_trans h hjk
  | excluded low =>
    simp only [hr, decide_eq_true_eq] at h ⊢
    exact lt_of_lt_of_le h hjk

theorem belowUpper_anti (hjk : j ≤ k) (h : r.belowUpper k = true) : r.belowUpper j = true := by
  unfold belowUpper at *
  cases hr : r.upper with
  | unbounded => rfl
  | included high =>
    simp only [hr, decide_eq_true_eq] at h ⊢
    exact le_trans hjk h
  | excluded high =>
    simp only [hr, decide_eq_true_eq] at h ⊢
    exact lt_of_le_of_lt hjk h

theorem aboveLower_intersect :
    (r.intersect s).aboveLower k = (r.aboveLower k && s.aboveLower k) := by
  unfold aboveLower intersect
  rcases r.lower with _ | a | a <;> rcases s.lower with _ | b | b <;>
    simp only [tighterLower] <;> grind

theorem belowUpper_intersect :
    (r.intersect s).belowUpper k = (r.belowUpper k && s.belowUpper k) := by
  unfold belowUpper intersect
  rcases r.upper with _ | a | a <;> rcases s.upper with _ | b | b <;>
    simp only [tighterUpper] <;> grind

theorem intersect_all (r : KeyRange) : r.intersect all = r := by
  obtain ⟨lower, upper⟩ := r
  cases lower <;> cases upper <;> rfl

@[simp] theorem contains_intersect :
    (r.intersect s).contains k = (r.contains k && s.contains k) := by
  rw [contains, contains, contains, aboveLower_intersect, belowUpper_intersect]
  cases r.aboveLower k <;> cases s.aboveLower k <;> simp

end KeyRange

/-! ## The range of one comparison -/

namespace Comparison

/-- The keys that a comparison leaves by their order alone: a ray for the ordered comparisons, the
interval from the smallest to the largest operand for a choice among some keys, and all keys
otherwise. -/
def interval : Comparison → Set Key
  | .gt k => Set.Ioi k
  | .ge k => Set.Ici k
  | .lt k => Set.Iio k
  | .le k => Set.Iic k
  | .oneOf ks =>
    match ks.min?, ks.max? with
    | some low, some high => Set.Icc low high
    | _, _ => Set.univ
  | .eq _ => Set.univ
  | .ne _ => Set.univ

/-- The key that a comparison asks values to equal, if it does. -/
def equal? : Comparison → Option Key
  | .eq k => some k
  | _ => none

theorem equal?_eq_some_iff {c : Comparison} {k : Key} : c.equal? = some k ↔ c = .eq k := by
  cases c <;> simp [equal?]

theorem eq_of_holds {value k : Key} (h : holds value (.eq k) = true) : value = k := by
  simp only [holds, Bool.and_eq_true, beq_iff_eq] at h
  exact h.2.2

theorem mem_interval_of_holds {value : Key} {c : Comparison} (h : c.holds value = true) :
    value ∈ c.interval := by
  cases c with
  | eq k => trivial
  | ne k => trivial
  | oneOf ks =>
    simp only [holds, Bool.and_eq_true, List.any_eq_true, beq_iff_eq] at h
    obtain ⟨-, k, hk, -, rfl⟩ := h
    rw [interval]
    split
    · next hlow hhigh =>
      exact ⟨(List.min?_eq_some_iff.1 hlow).2 value hk, (List.max?_eq_some_iff.1 hhigh).2 value hk⟩
    · trivial
  | _ k =>
    simp only [holds, Bool.and_eq_true, decide_eq_true_eq] at h
    exact h.2.2

end Comparison

namespace KeyRange

theorem extremes?_cons (a : Key) (ks : List Key) :
    extremes? (a :: ks) = some (ks.foldl min a, ks.foldl max a) := by
  induction ks generalizing a with
  | nil => rfl
  | cons b ks ih =>
    rw [extremes?, ih, List.foldl_cons, List.foldl_cons, List.foldl_assoc, List.foldl_assoc,
      min_def, max_def_lt]
    grind

theorem contains_ofComparison (c : Comparison) (k : Key) :
    (ofComparison c).contains k = true ↔ k ∈ c.interval := by
  cases c with
  | oneOf ks =>
    cases ks with
    | nil => exact iff_of_true rfl (Set.mem_univ k)
    | cons a ks =>
      rw [ofComparison, extremes?_cons, Comparison.interval, List.min?_cons', List.max?_cons']
      simp [contains, aboveLower, belowUpper]
  | _ k => simp [ofComparison, all, contains, aboveLower, belowUpper, Comparison.interval]

/-- A key that passes a comparison lies in its range. -/
theorem contains_of_holds {value : Key} {c : Comparison} (h : c.holds value = true) :
    (ofComparison c).contains value = true :=
  (contains_ofComparison c value).2 (Comparison.mem_interval_of_holds h)

end KeyRange

namespace Predicate

variable {R : Type}

/-- A predicate holds exactly when all of its conjuncts do. -/
theorem eval_iff_conjuncts (record : R) : ∀ p : Predicate R,
    p.eval record = true ↔ ∀ term ∈ p.conjuncts, term.eval record = true
  | .always => by simp [conjuncts, eval]
  | .never => by simp [conjuncts]
  | .compare _ _ => by simp [conjuncts]
  | .any _ => by simp [conjuncts]
  | .not _ => by simp [conjuncts]
  | .all terms => by
    have each (term) (_ : term ∈ terms) := eval_iff_conjuncts record term
    simp only [eval, evalAll_eq, List.all_eq_true, conjuncts, conjunctsOfAll_eq,
      List.mem_flatMap, forall_exists_index, and_imp]
    exact ⟨fun h sub term hterm hsub => (each term hterm).1 (h term hterm) sub hsub,
      fun h term hterm => (each term hterm).2 fun sub hsub => h sub term hterm hsub⟩

mutual

/-- The properties that a predicate compares. -/
def properties : Predicate R → List (Property R)
  | .always => []
  | .never => []
  | .compare p _ => [p]
  | .all terms => propertiesOfAll terms
  | .any terms => propertiesOfAll terms
  | .not term => properties term

def propertiesOfAll : List (Predicate R) → List (Property R)
  | [] => []
  | term :: rest => properties term ++ propertiesOfAll rest

end

@[simp] theorem propertiesOfAll_eq (terms : List (Predicate R)) :
    propertiesOfAll terms = terms.flatMap properties := by
  induction terms with
  | nil => rfl
  | cons term rest ih => rw [propertiesOfAll, List.flatMap_cons, ih]

theorem properties_of_mem_conjuncts {term : Predicate R} {q : Property R} (hq : q ∈ term.properties) :
    ∀ {p : Predicate R}, term ∈ p.conjuncts → q ∈ p.properties
  | .always, h => by simp [conjuncts] at h
  | .never, h => by simp only [conjuncts, List.mem_singleton] at h; exact h ▸ hq
  | .compare _ _, h => by simp only [conjuncts, List.mem_singleton] at h; exact h ▸ hq
  | .any _, h => by simp only [conjuncts, List.mem_singleton] at h; exact h ▸ hq
  | .not _, h => by simp only [conjuncts, List.mem_singleton] at h; exact h ▸ hq
  | .all terms, h => by
    simp only [conjuncts, conjunctsOfAll_eq, List.mem_flatMap] at h
    obtain ⟨sub, hsub, hterm⟩ := h
    simp only [properties, propertiesOfAll_eq, List.mem_flatMap]
    exact ⟨sub, hsub, properties_of_mem_conjuncts hq hterm⟩

end Predicate

namespace Property

variable {R : Type}

/-- The properties that share a name with this one read the same. -/
def Agrees (p : Property R) (qs : List (Property R)) : Prop :=
  ∀ q ∈ qs, q.same p = true → q.get = p.get

/-- Properties that share a name read the same. -/
def Coherent (ps : List (Property R)) : Prop :=
  ∀ p ∈ ps, p.Agrees ps

theorem Coherent.agrees {ps qs : List (Property R)} (h : Coherent ps) {p : Property R} (hp : p ∈ ps)
    (hqs : qs ⊆ ps) : p.Agrees qs :=
  fun q hq => h p hp q (hqs hq)

theorem Coherent.mono {ps qs : List (Property R)} (h : Coherent ps) (hqs : qs ⊆ ps) : Coherent qs :=
  fun _ hp => h.agrees (hqs hp) hqs

/-- Two properties of different names do not disagree, however often each is mentioned. -/
theorem coherent_of_pair {p q : Property R} (hpq : p.same q = false) {ps : List (Property R)}
    (hps : ∀ r ∈ ps, r = p ∨ r = q) : Coherent ps := by
  have hqp : q.same p = false := BEq.comm.trans hpq
  intro r hr t ht hsame
  rcases hps r hr with rfl | rfl <;> rcases hps t ht with rfl | rfl
  · rfl
  · rw [hqp] at hsame
    cases hsame
  · rw [hpq] at hsame
    cases hsame
  · rfl

end Property

namespace KeyConstraint

variable {R : Type} {p : Property R}

/-- The keys that a constraint leaves. -/
structure Admits (c : KeyConstraint) (k : Key) : Prop where
  exact : ∀ e, c.exact = some e → k = e
  range : c.range.contains k = true

theorem range_restrict (c : KeyConstraint) (d : Comparison) :
    (c.restrict d).range = c.range.intersect (.ofComparison d) := by
  cases d with
  | eq k => exact (KeyRange.intersect_all c.range).symm
  | _ => rfl

theorem exact_restrict (c : KeyConstraint) (d : Comparison) :
    (c.restrict d).exact = c.exact.or d.equal? := by
  cases d with
  | eq k => exact Option.orElse_eq_or
  | _ => exact Option.or_none.symm

theorem Admits.restrict {c : KeyConstraint} {k : Key} {d : Comparison} (h : c.Admits k)
    (hd : d.holds k = true) : (c.restrict d).Admits k := by
  refine ⟨fun e he => ?_, ?_⟩
  · rw [exact_restrict, Option.or_eq_some_iff] at he
    rcases he with he | ⟨-, he⟩
    · exact h.exact e he
    · exact Comparison.eq_of_holds (Comparison.equal?_eq_some_iff.1 he ▸ hd)
  · rw [range_restrict, KeyRange.contains_intersect, h.range, KeyRange.contains_of_holds hd,
      Bool.and_self]

theorem admits_foldl {ds : List Comparison} {k : Key} (hds : ∀ d ∈ ds, d.holds k = true)
    {c : KeyConstraint} (h : c.Admits k) : (ds.foldl KeyConstraint.restrict c).Admits k := by
  induction ds generalizing c with
  | nil => exact h
  | cons d ds ih =>
    exact ih (fun d' hd' => hds d' (List.mem_cons_of_mem _ hd'))
      (h.restrict (hds d List.mem_cons_self))

/-- A record that satisfies a predicate has its key among those that the predicate demands. -/
theorem admits_of_eval {predicate : Option (Predicate R)} {record : R}
    (hp : p.Agrees (predicate.elim [] Predicate.properties))
    (h : Predicate.admits predicate record = true) :
    (ofPredicate predicate p).Admits (p.get record) := by
  refine admits_foldl (fun d hd => ?_) ⟨by simp, rfl⟩
  obtain ⟨term, hterm, hd⟩ := List.mem_filterMap.1 hd
  cases predicate with
  | none => simp at hterm
  | some predicate =>
    cases term with
    | compare q c =>
      simp only [comparisonOn?, Option.ite_none_right_eq_some, Option.some.injEq] at hd
      obtain ⟨hsame, rfl⟩ := hd
      have hread := hp q (Predicate.properties_of_mem_conjuncts (by simp [Predicate.properties]) hterm)
        hsame
      have heval := (Predicate.eval_iff_conjuncts record predicate).1 h _ hterm
      rwa [Predicate.eval, hread] at heval
    | _ => simp [comparisonOn?] at hd

end KeyConstraint

end RecordStore
