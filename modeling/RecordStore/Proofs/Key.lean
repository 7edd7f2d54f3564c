import Mathlib.Order.Compare
import RecordStore.Key.Order
/-!
# Keys as a linear order

The order of keys in the form that order lemmas and `order` expect. Comparing two keys gives `lt`,
`eq` or `gt` exactly as they are below, equal or above (`compare_lt_iff_lt` and its relatives).
-/

namespace RecordStore.Key

theorem le_iff_isLE {a b : Key} : a ≤ b ↔ (compare a b).isLE = true := Iff.rfl

theorem lt_iff_compare {a b : Key} : a < b ↔ compare a b = .lt := Iff.rfl

instance : LinearOrder Key where
  le_refl a := by
    have : compare a a = .eq := Std.ReflCmp.compare_self
    rw [le_iff_isLE, this]
    rfl
  le_trans _ _ _ := Std.TransCmp.isLE_trans
  le_antisymm _ _ hab hba := Std.LawfulEqCmp.eq_of_compare (Std.OrientedCmp.isLE_antisymm hab hba)
  le_total a b := by
    have : compare b a = (compare a b).swap := Std.OrientedCmp.eq_swap
    rw [le_iff_isLE, le_iff_isLE, this]
    cases compare a b <;> simp
  lt_iff_le_not_ge a b := by
    have : compare b a = (compare a b).swap := Std.OrientedCmp.eq_swap
    rw [le_iff_isLE, le_iff_isLE, lt_iff_compare, this]
    cases compare a b <;> simp
  toDecidableLE := inferInstance
  compare_eq_compareOfLessAndEq a b := by
    unfold compareOfLessAndEq
    simp only [lt_iff_compare]
    cases hc : compare a b with
    | lt => rfl
    | eq => simp [Std.LawfulEqCmp.eq_of_compare hc]
    | gt =>
      have hne : a ≠ b := by rintro rfl; simp at hc
      simp [hne]

end RecordStore.Key
