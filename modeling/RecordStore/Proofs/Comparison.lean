import RecordStore.Predicate.Basic
import RecordStore.Proofs.Key
/-!
# The laws of comparisons

`Comparison.Apart` says that a value and an operand are not to be compared: one of them is null, or
they are of two kinds. There every comparison is to be false, and everywhere else the comparisons
are to be those of a strict order (`Comparison.Lawful`).

All comparisons keep to this but one. Two keys of different kinds, neither of them null, pass for
unequal, so the laws hold of a value and an operand exactly if the two are of one kind or one of
them is null (`Predicate.lawful_compare_iff`).
-/

namespace RecordStore

namespace Comparison

/-- Whether a value and an operand are not to be compared. -/
def Apart (value operand : Key) : Prop :=
  value = .null ∨ operand = .null ∨ value.kind ≠ operand.kind

instance (value operand : Key) : Decidable (Apart value operand) :=
  inferInstanceAs (Decidable (_ ∨ _ ∨ _))

/-- The comparisons with one operand. -/
def against (k : Key) : List Comparison :=
  [.eq k, .ne k, .gt k, .ge k, .lt k, .le k]

/-- The laws of the comparisons of a value with an operand, where `passes` says which of them hold. -/
structure Lawful (passes : Comparison → Bool) (value operand : Key) : Prop where
  apart : Apart value operand → ∀ c ∈ against operand, passes c = false
  one_of_three : ¬ Apart value operand →
    [Comparison.lt operand, .eq operand, .gt operand].countP passes = 1
  ne_eq : ¬ Apart value operand → passes (.ne operand) = !passes (.eq operand)
  ge_eq : ¬ Apart value operand → passes (.ge operand) = (passes (.gt operand) || passes (.eq operand))
  le_eq : ¬ Apart value operand → passes (.le operand) = (passes (.lt operand) || passes (.eq operand))

variable {value k : Key}

theorem comparable_iff (hvalue : value ≠ .null) : comparable value k = true ↔ ¬ Apart value k := by
  simp [comparable, Apart, Key.isNull, Key.sameKind, hvalue]

theorem holds_null (c : Comparison) : c.holds .null = false := rfl

/-- Inequality asks for nothing but that neither key is null. -/
theorem holds_ne_iff : holds value (.ne k) = true ↔ value ≠ .null ∧ k ≠ .null ∧ value ≠ k := by
  simp [holds, Key.isNull]

/-- What is not to be compared passes no comparison other than inequality. -/
theorem holds_of_apart (h : Apart value k) {c : Comparison} (hc : c ∈ against k) (hne : c ≠ .ne k) :
    c.holds value = false := by
  by_cases hvalue : value = .null
  · rw [hvalue, holds_null]
  have hcomparable : comparable value k = false := by
    rw [← Bool.not_eq_true, comparable_iff hvalue]
    exact not_not_intro h
  simp only [against, List.mem_cons, List.not_mem_nil, or_false] at hc
  rcases hc with rfl | rfl | rfl | rfl | rfl | rfl
  case inr.inl => exact absurd rfl hne
  all_goals simp [holds, hcomparable]

/-- Of keys that are to be compared, the comparisons are those of the order. -/
theorem lawful_of_not_apart (h : ¬ Apart value k) : Lawful (holds value) value k := by
  have hvalue : value ≠ .null := fun e => h (.inl e)
  have hk : k ≠ .null := fun e => h (.inr (.inl e))
  have hcomparable : comparable value k = true := (comparable_iff hvalue).2 h
  refine ⟨fun hapart => absurd hapart h, fun _ => ?_, fun _ => ?_, fun _ => ?_, fun _ => ?_⟩
  · rcases lt_trichotomy value k with hlt | rfl | hgt
    · simp [holds, Key.isNull, hvalue, hcomparable, hlt, hlt.ne, hlt.not_gt]
    · simp [holds, Key.isNull, hvalue, hcomparable]
    · simp [holds, Key.isNull, hvalue, hcomparable, hgt, hgt.ne', hgt.not_gt]
  all_goals rw [Bool.eq_iff_iff]
  · simp [holds, Key.isNull, hvalue, hk, hcomparable]
  · have hge : k ≤ value ↔ k < value ∨ value = k := le_iff_lt_or_eq.trans (or_congr_right eq_comm)
    simp [holds, Key.isNull, hvalue, hcomparable, hge]
  · simp [holds, Key.isNull, hvalue, hcomparable, le_iff_lt_or_eq]

theorem lawful_iff (value k : Key) :
    Lawful (holds value) value k ↔ value = .null ∨ k = .null ∨ value.kind = k.kind := by
  by_cases hapart : Apart value k
  · constructor
    · intro h
      by_contra hmixed
      obtain ⟨hvalue, hk, hkind⟩ : value ≠ .null ∧ k ≠ .null ∧ value.kind ≠ k.kind := by
        simpa only [not_or] using hmixed
      have hpasses : holds value (.ne k) = true :=
        holds_ne_iff.2 ⟨hvalue, hk, fun e => hkind (congrArg Key.kind e)⟩
      rw [h.apart hapart (.ne k) (by simp [against])] at hpasses
      cases hpasses
    · intro h
      refine ⟨fun _ c hc => ?_, absurd hapart, absurd hapart, absurd hapart, absurd hapart⟩
      by_cases hne : c = .ne k
      · subst hne
        rw [← Bool.not_eq_true, holds_ne_iff]
        rintro ⟨hvalue, hk, -⟩
        exact hapart.elim hvalue fun hapart => hapart.elim hk fun hkind =>
          h.elim hvalue fun h => h.elim hk hkind
      · exact holds_of_apart hapart hc hne
  · refine iff_of_true (lawful_of_not_apart hapart) ?_
    exact .inr (.inr (not_not.1 fun hkind => hapart (.inr (.inr hkind))))

end Comparison

variable {R : Type}

open Comparison

/-- The comparisons of a property with an operand are lawful at a record exactly if the property's
value and the operand are of one kind or one of them is null. Elsewhere only inequality goes wrong,
which holds of any two different keys that are not null. A choice among operands holds where
equality with one of them does. -/
theorem Predicate.lawful_compare_iff (p : Property R) (r : R) :
    (∀ k, Lawful (fun c => (compare p c).eval r) (p.get r) k ↔
      p.get r = .null ∨ k = .null ∨ (p.get r).kind = k.kind) ∧
    (∀ k, ∀ c ∈ against k, Apart (p.get r) k → c ≠ .ne k → (compare p c).eval r = false) ∧
    (∀ k, (compare p (.ne k)).eval r = true ↔ p.get r ≠ .null ∧ k ≠ .null ∧ p.get r ≠ k) ∧
    ∀ ks, (compare p (.oneOf ks)).eval r = true ↔ ∃ k ∈ ks, (compare p (.eq k)).eval r = true := by
  refine ⟨Comparison.lawful_iff (p.get r), fun k c hc hapart hne => ?_, fun k => ?_, fun ks => ?_⟩
  · rw [eval, holds_of_apart hapart hc hne]
  · rw [eval, holds_ne_iff]
  · simp only [eval, holds, Bool.and_eq_true, List.any_eq_true]
    exact ⟨fun ⟨hvalue, k, hk, h⟩ => ⟨k, hk, hvalue, h⟩, fun ⟨k, hk, hvalue, h⟩ => ⟨hvalue, k, hk, h⟩⟩

/-- An integer follows the laws next to an integer, and is not less than a text. -/
theorem Predicate.lawful_compare_integer :
    let passes := fun c => (compare (Property.field "a") c).eval (.object [("a", .int 5)])
    Lawful passes (.int 5) (.int 7) ∧ passes (.lt (.text "5")) = false := by
  have h := lawful_compare_iff (Property.field "a") (.object [("a", .int 5)])
  exact ⟨(h.1 (.int 7)).2 (.inr (.inr rfl)), h.2.1 (.text "5") _ (by decide) (by decide) (by decide)⟩

/-- An integer passes for unequal to a text, though the two are not to be compared. -/
theorem Predicate.not_lawful_compare_mixed :
    ¬ Lawful (fun c => (compare (Property.field "a") c).eval (.object [("a", .int 5)]))
      (.int 5) (.text "5") := by
  intro h
  have hfails : (compare (Property.field "a") (.ne (.text "5"))).eval (.object [("a", .int 5)]) = false :=
    h.apart (by decide) (.ne (.text "5")) (by decide)
  have hpasses :
      (compare (Property.field "a") (.ne (.text "5"))).eval (.object [("a", .int 5)]) = true := by
    decide +kernel
  rw [hpasses] at hfails
  cases hfails

end RecordStore
