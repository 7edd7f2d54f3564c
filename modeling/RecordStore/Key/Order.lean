import RecordStore.Key
/-!
# The order of keys

Keys are ordered by kind first and by value within a kind, and this order is total: comparison is
transitive, swaps with its arguments and finds equal only what is equal.
-/

namespace RecordStore.Key

@[simp] theorem compare_bool (x y : Bool) : compare (bool x) (bool y) = compare x y := rfl

@[simp] theorem compare_int (x y : Int) : compare (int x) (int y) = compare x y := rfl

@[simp] theorem compare_float (x y : UInt64) : compare (float x) (float y) = compare x y := rfl

@[simp] theorem compare_text (x y : String) : compare (text x) (text y) = compare x y := rfl

theorem Kind.rank_inj {a b : Kind} (h : a.rank = b.rank) : a = b := by
  cases a <;> cases b <;> simp_all [Kind.rank]

theorem compare_of_kind_ne {a b : Key} (h : a.kind ≠ b.kind) :
    compare a b = compare a.kind.rank b.kind.rank := by
  cases a <;> cases b <;> first | rfl | exact absurd rfl h

/-- A key whose kind comes first is not above the other. -/
theorem rank_le_of_isLE {a b : Key} (h : (compare a b).isLE) : a.kind.rank ≤ b.kind.rank := by
  by_cases hk : a.kind = b.kind
  · exact Nat.le_of_eq (congrArg Kind.rank hk)
  · rw [compare_of_kind_ne hk, Nat.isLE_compare] at h
    exact h

theorem isLE_of_rank_lt {a b : Key} (h : a.kind.rank < b.kind.rank) : (compare a b).isLE := by
  have hk : a.kind ≠ b.kind := fun e => by rw [e] at h; exact Nat.lt_irrefl _ h
  rw [compare_of_kind_ne hk, Nat.isLE_compare]
  exact Nat.le_of_lt h

instance : Std.OrientedOrd Key where
  eq_swap {a b} := by
    by_cases hk : a.kind = b.kind
    · match a, b with
      | .null, .null => rfl
      | .bool x, .bool y =>
        rw [compare_bool, compare_bool]
        exact Std.OrientedCmp.eq_swap
      | .int x, .int y =>
        rw [compare_int, compare_int]
        exact Std.OrientedCmp.eq_swap
      | .float x, .float y =>
        rw [compare_float, compare_float]
        exact Std.OrientedCmp.eq_swap
      | .text x, .text y =>
        rw [compare_text, compare_text]
        exact Std.OrientedCmp.eq_swap
    · rw [compare_of_kind_ne hk, compare_of_kind_ne (Ne.symm hk)]
      exact Std.OrientedCmp.eq_swap

/-- Transitivity within one kind is that of the values. -/
theorem isLE_trans_of_kind {a b c : Key} (hab : a.kind = b.kind) (hbc : b.kind = c.kind)
    (h₁ : (compare a b).isLE) (h₂ : (compare b c).isLE) : (compare a c).isLE := by
  match a, b, c with
  | .null, .null, .null => rfl
  | .bool x, .bool y, .bool z =>
    rw [compare_bool] at *
    exact Std.TransCmp.isLE_trans h₁ h₂
  | .int x, .int y, .int z =>
    rw [compare_int] at *
    exact Std.TransCmp.isLE_trans h₁ h₂
  | .float x, .float y, .float z =>
    rw [compare_float] at *
    exact Std.TransCmp.isLE_trans h₁ h₂
  | .text x, .text y, .text z =>
    rw [compare_text] at *
    exact Std.TransCmp.isLE_trans h₁ h₂

instance : Std.TransOrd Key where
  isLE_trans {a b c} h₁ h₂ := by
    have hab := rank_le_of_isLE h₁
    have hbc := rank_le_of_isLE h₂
    by_cases h : a.kind.rank < c.kind.rank
    · exact isLE_of_rank_lt h
    · exact isLE_trans_of_kind (Kind.rank_inj (by omega)) (Kind.rank_inj (by omega)) h₁ h₂

instance : Std.LawfulEqOrd Key where
  compare_self {a} := by
    match a with
    | .null => rfl
    | .bool x => exact (compare_bool x x).trans Std.ReflCmp.compare_self
    | .int x => exact (compare_int x x).trans Std.ReflCmp.compare_self
    | .float x => exact (compare_float x x).trans Std.ReflCmp.compare_self
    | .text x => exact (compare_text x x).trans Std.ReflCmp.compare_self
  eq_of_compare {a b} h := by
    by_cases hk : a.kind = b.kind
    · match a, b with
      | .null, .null => rfl
      | .bool x, .bool y => exact congrArg _ (Std.LawfulEqCmp.eq_of_compare (compare_bool x y ▸ h))
      | .int x, .int y => exact congrArg _ (Std.LawfulEqCmp.eq_of_compare (compare_int x y ▸ h))
      | .float x, .float y => exact congrArg _ (Std.LawfulEqCmp.eq_of_compare (compare_float x y ▸ h))
      | .text x, .text y => exact congrArg _ (Std.LawfulEqCmp.eq_of_compare (compare_text x y ▸ h))
    · rw [compare_of_kind_ne hk, Nat.compare_eq_eq] at h
      exact absurd (Kind.rank_inj h) hk

end RecordStore.Key
