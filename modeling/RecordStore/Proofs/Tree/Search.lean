import RecordStore.Index.Tree
import RecordStore.Key.Order
import RecordStore.Proofs.Assoc
/-!
# Search trees as sorted lists

`Tree.Ordered` says that the keys of a tree strictly ascend in order. On an ordered tree every
operation is one on the list of its nodes:

* `get?_eq`: a descent is a lookup in the list;
* `toList_upsert`: writing under a key is `Assoc.upsert`;
* `toList_erase`: erasing shrinks one tail and drops it when nothing is left of it (`shrinkAt`).

The shape of the tree, its heights and its rotations, plays no part here.
-/

namespace RecordStore.Tree

variable {T : Type}

/-- The keys strictly ascend in order. -/
def Ordered (t : Tree T) : Prop :=
  Assoc.Sorted t.toList

theorem ordered_leaf : (leaf : Tree T).Ordered := Assoc.sorted_nil

section

variable {k : Key} {under : T} {l r : Tree T} {h n : Nat}

theorem Ordered.left (ho : (node k under l r h n).Ordered) : l.Ordered :=
  (Assoc.sorted_append_cons ho).1

theorem Ordered.right (ho : (node k under l r h n).Ordered) : r.Ordered :=
  (Assoc.sorted_append_cons ho).2.1

theorem Ordered.lt_root (ho : (node k under l r h n).Ordered) {a : Key × T} (ha : a ∈ l.toList) :
    compare a.1 k = .lt :=
  (Assoc.sorted_append_cons ho).2.2.1 a ha

theorem Ordered.root_lt (ho : (node k under l r h n).Ordered) {a : Key × T} (ha : a ∈ r.toList) :
    compare k a.1 = .lt :=
  (Assoc.sorted_append_cons ho).2.2.2 a ha

/-- A key at or above the root's is above the whole left subtree. -/
theorem Ordered.left_below (ho : (node k under l r h n).Ordered) {key : Key}
    (hk : compare key k ≠ .lt) {a : Key × T} (ha : a ∈ l.toList) : compare key a.1 = .gt := by
  have hlt := ho.lt_root ha
  cases hc : compare key k with
  | lt => exact absurd hc hk
  | eq => rw [Std.LawfulEqCmp.eq_of_compare hc]; exact Std.OrientedCmp.gt_iff_lt.2 hlt
  | gt => exact Std.TransCmp.gt_trans hc (Std.OrientedCmp.gt_iff_lt.2 hlt)

/-- A key at or below the root's is below the whole right subtree. -/
theorem Ordered.right_above (ho : (node k under l r h n).Ordered) {key : Key}
    (hk : compare key k ≠ .gt) {a : Key × T} (ha : a ∈ r.toList) : compare key a.1 = .lt := by
  have hlt := ho.root_lt ha
  cases hc : compare key k with
  | lt => exact Std.TransCmp.lt_trans hc hlt
  | eq => rw [Std.LawfulEqCmp.eq_of_compare hc]; exact hlt
  | gt => exact absurd hc hk

end

/-! ## Lookup -/

theorem get?_eq {t : Tree T} (ho : t.Ordered) (key : Key) : t.get? key = Assoc.get? key t.toList := by
  induction t with
  | leaf => rfl
  | node k under l r h n ihl ihr =>
    rw [get?, subtree, toList]
    cases hc : compare key k with
    | lt =>
      rw [Assoc.get?_append_lt hc]
      exact ihl ho.left
    | eq =>
      rw [Assoc.get?_append_gt fun a ha => ho.left_below (by simp [hc]) ha, Assoc.get?, hc]
      rfl
    | gt =>
      rw [Assoc.get?_append_gt fun a ha => ho.left_below (by simp [hc]) ha, Assoc.get?, hc]
      exact ihr ho.right

theorem get?_eq_some_iff {t : Tree T} (ho : t.Ordered) {key : Key} {under : T} :
    t.get? key = some under ↔ (key, under) ∈ t.toList := by
  rw [get?_eq ho, Assoc.get?_eq_some_iff ho]

theorem findSome?_eq {α : Type} (f : T → Option α) (t : Tree T) :
    t.findSome? f = t.toList.findSome? (f ·.2) := by
  induction t with
  | leaf => rfl
  | node k under l r h n ihl ihr =>
    rw [findSome?, toList, List.findSome?_append, List.findSome?_cons, ihl, ihr]
    cases f under <;> rfl

/-! ## Writing under a key -/

variable [Weighted T]

theorem toList_upsert {t : Tree T} (ho : t.Ordered) (key : Key) (write : Option T → T) :
    (t.upsert key write).toList = Assoc.upsert key write t.toList := by
  induction t with
  | leaf => rfl
  | node k under l r h n ihl ihr =>
    rw [upsert, toList]
    cases hc : compare key k with
    | lt =>
      rw [Assoc.upsert_append_lt hc, ← ihl ho.left]
      exact toList_balance ..
    | eq =>
      rw [Assoc.upsert_append_gt fun a ha => ho.left_below (by simp [hc]) ha, Assoc.upsert, hc]
      obtain rfl := Std.LawfulEqCmp.eq_of_compare hc
      rfl
    | gt =>
      rw [Assoc.upsert_append_gt fun a ha => ho.left_below (by simp [hc]) ha, Assoc.upsert, hc,
        ← ihr ho.right]
      exact toList_balance ..

theorem Ordered.upsert {t : Tree T} (ho : t.Ordered) (key : Key) (write : Option T → T) :
    (t.upsert key write).Ordered := by
  rw [Ordered, toList_upsert ho]
  exact Assoc.sorted_upsert ho key write

theorem mem_upsert {t : Tree T} (ho : t.Ordered) {key k : Key} {under : T} {write : Option T → T} :
    (k, under) ∈ (t.upsert key write).toList ↔
      (k = key ∧ under = write (t.get? key)) ∨ (k ≠ key ∧ (k, under) ∈ t.toList) := by
  rw [toList_upsert ho, Assoc.mem_upsert ho, get?_eq ho]

theorem get?_upsert {t : Tree T} (ho : t.Ordered) (key k : Key) (write : Option T → T) :
    (t.upsert key write).get? k = if k = key then some (write (t.get? key)) else t.get? k := by
  apply Option.ext
  intro under
  rw [get?_eq_some_iff (ho.upsert key write), mem_upsert ho]
  split
  · next h => simp [h, eq_comm]
  · next h => simp [h, get?_eq_some_iff ho]

/-! ## Erasing under a key -/

/-- What erasing leaves of one node. -/
def shrinkAt (key : Key) (shrink : T → T) (a : Key × T) : Option (Key × T) :=
  if a.1 = key then
    if weight (shrink a.2) = 0 then none else some (a.1, shrink a.2)
  else some a

theorem shrinkAt_eq_some {key : Key} {shrink : T → T} {a b : Key × T} :
    shrinkAt key shrink a = some b ↔
      (a.1 = key ∧ weight (shrink a.2) ≠ 0 ∧ b = (key, shrink a.2)) ∨ (a.1 ≠ key ∧ b = a) := by
  unfold shrinkAt
  split
  · next h =>
    split
    · next hw => simp [h, hw]
    · next hw => simp [h, hw, eq_comm]
  · next h => simp [h, eq_comm]

theorem filterMap_shrinkAt_of_ne {key : Key} {shrink : T → T} {as : List (Key × T)}
    (h : ∀ a ∈ as, a.1 ≠ key) : as.filterMap (shrinkAt key shrink) = as := by
  induction as with
  | nil => rfl
  | cons a as ih =>
    have head : shrinkAt key shrink a = some a :=
      shrinkAt_eq_some.2 (.inr ⟨h a List.mem_cons_self, rfl⟩)
    rw [List.filterMap_cons, head, ih fun b hb => h b (List.mem_cons_of_mem _ hb)]

theorem toList_erase {t : Tree T} (ho : t.Ordered) (key : Key) (shrink : T → T) :
    (t.erase key shrink).toList = t.toList.filterMap (shrinkAt key shrink) := by
  induction t with
  | leaf => rfl
  | node k under l r h n ihl ihr =>
    have ne_of_lt {a b : Key} (h : compare a b = .lt) : b ≠ a := by rintro rfl; simp at h
    rw [erase, toList, List.filterMap_append, List.filterMap_cons]
    cases hc : compare key k with
    | lt =>
      have hk : shrinkAt key shrink (k, under) = some (k, under) :=
        shrinkAt_eq_some.2 (.inr ⟨ne_of_lt hc, rfl⟩)
      rw [hk, ← ihl ho.left, filterMap_shrinkAt_of_ne fun a ha =>
        ne_of_lt (ho.right_above (by simp [hc]) ha)]
      exact toList_balance ..
    | eq =>
      obtain rfl := Std.LawfulEqCmp.eq_of_compare hc
      rw [filterMap_shrinkAt_of_ne fun a ha => (ne_of_lt (ho.lt_root ha)).symm,
        filterMap_shrinkAt_of_ne fun a ha => ne_of_lt (ho.root_lt ha), shrinkAt]
      by_cases hw : weight (shrink under) = 0 <;> simp [hw]
    | gt =>
      have hlt := Std.OrientedCmp.gt_iff_lt.1 hc
      have hk : shrinkAt key shrink (k, under) = some (k, under) :=
        shrinkAt_eq_some.2 (.inr ⟨(ne_of_lt hlt).symm, rfl⟩)
      rw [hk, ← ihr ho.right, filterMap_shrinkAt_of_ne fun a ha =>
        (ne_of_lt (Std.OrientedCmp.gt_iff_lt.1 (ho.left_below (by simp [hc]) ha))).symm]
      exact toList_balance ..

theorem mem_erase {t : Tree T} (ho : t.Ordered) {key k : Key} {under : T} {shrink : T → T} :
    (k, under) ∈ (t.erase key shrink).toList ↔
      (k = key ∧ ∃ old, (key, old) ∈ t.toList ∧ weight (shrink old) ≠ 0 ∧ under = shrink old) ∨
        (k ≠ key ∧ (k, under) ∈ t.toList) := by
  rw [toList_erase ho, List.mem_filterMap]
  simp only [shrinkAt_eq_some]
  constructor
  · rintro ⟨⟨k', old⟩, hmem, ⟨rfl, hw, he⟩ | ⟨hne, he⟩⟩
    · cases he
      exact .inl ⟨rfl, old, hmem, hw, rfl⟩
    · cases he
      exact .inr ⟨hne, hmem⟩
  · rintro (⟨rfl, old, hmem, hw, rfl⟩ | ⟨hne, hmem⟩)
    · exact ⟨_, hmem, .inl ⟨rfl, hw, rfl⟩⟩
    · exact ⟨_, hmem, .inr ⟨hne, rfl⟩⟩

theorem Ordered.erase {t : Tree T} (ho : t.Ordered) (key : Key) (shrink : T → T) :
    (t.erase key shrink).Ordered := by
  have key_eq {a b : Key × T} (h : shrinkAt key shrink a = some b) : b.1 = a.1 := by
    rcases shrinkAt_eq_some.1 h with ⟨rfl, -, rfl⟩ | ⟨-, rfl⟩ <;> rfl
  rw [Ordered, toList_erase ho]
  refine List.pairwise_filterMap.2 (List.Pairwise.imp (fun hlt b hb b' hb' => ?_) ho)
  rw [key_eq hb, key_eq hb']
  exact hlt

theorem get?_erase {t : Tree T} (ho : t.Ordered) (key k : Key) (shrink : T → T) :
    (t.erase key shrink).get? k =
      if k = key then ((t.get? key).map shrink).filter (weight · ≠ 0) else t.get? k := by
  apply Option.ext
  intro under
  rw [get?_eq_some_iff (ho.erase key shrink), mem_erase ho]
  split
  · next h =>
    simp only [h, true_and, ne_eq, not_true_eq_false, false_and, or_false,
      Option.filter_eq_some_iff, Option.map_eq_some_iff, get?_eq_some_iff ho, decide_eq_true_eq]
    constructor
    · rintro ⟨old, hold, hw, rfl⟩
      exact ⟨⟨old, hold, rfl⟩, hw⟩
    · rintro ⟨⟨old, hold, rfl⟩, hw⟩
      exact ⟨old, hold, hw, rfl⟩
  · next h => simp [h, get?_eq_some_iff ho]

end RecordStore.Tree
