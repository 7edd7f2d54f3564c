import RecordStore.Proofs.KeyRange
import RecordStore.Proofs.Tree.Search
/-!
# Cached sizes and counting

`Tree.Sized` says that every cached size is the sum of the weights below it. On an ordered tree with
true sizes the count along two paths is the weight of the nodes in the range, also where the bounds
cross or name absent keys (`countRange_eq`).
-/

namespace RecordStore.Tree

variable {T : Type}

@[simp] theorem size_node (k : Key) (under : T) (l r : Tree T) (h n : Nat) :
    (node k under l r h n).size = n := rfl

variable [Weighted T]

/-- Cached sizes are the sums of the weights below. -/
def Sized : Tree T → Prop
  | leaf => True
  | node _ under l r _ n => l.Sized ∧ r.Sized ∧ n = weight under + l.size + r.size

theorem sized_join {k : Key} {under : T} {l r : Tree T} (hl : l.Sized) (hr : r.Sized) :
    (join k under l r).Sized :=
  ⟨hl, hr, rfl⟩

theorem sized_balance {k : Key} {under : T} {l r : Tree T} (hl : l.Sized) (hr : r.Sized) :
    (balance k under l r).Sized := by
  fun_cases balance k under l r with
  | case1 => exact sized_join hl.1 (sized_join hl.2.1 hr)
  | case2 => exact sized_join (sized_join hl.1 hl.2.1.1) (sized_join hl.2.1.2.1 hr)
  | case5 => exact sized_join (sized_join hl hr.1) hr.2.1
  | case6 => exact sized_join (sized_join hl hr.1.1) (sized_join hr.1.2.1 hr.2.1)
  | _ => exact sized_join hl hr

theorem sized_upsert {t : Tree T} (hs : t.Sized) (key : Key) (write : Option T → T) :
    (t.upsert key write).Sized := by
  induction t with
  | leaf => exact sized_join hs hs
  | node k under l r h n ihl ihr =>
    rw [upsert]
    cases compare key k with
    | lt => exact sized_balance (ihl hs.1) hs.2.1
    | eq => exact sized_join hs.1 hs.2.1
    | gt => exact sized_balance hs.1 (ihr hs.2.1)

theorem sized_takeMin (k : Key) (under : T) {l r : Tree T} (hl : l.Sized) (hr : r.Sized) :
    (takeMin k under l r).2.Sized := by
  fun_induction takeMin k under l r with
  | case1 => exact hr
  | case2 k under r lk lt ll lr _ _ first rest h ih =>
    rw [h] at ih
    exact sized_balance (ih hl.1 hl.2.1) hr

theorem sized_merge {l r : Tree T} (hl : l.Sized) (hr : r.Sized) : (merge l r).Sized := by
  fun_cases merge l r with
  | case1 => exact hr
  | case2 => exact hl
  | case3 l rk rt rl rr _ _ _ k under rest h =>
    have := sized_takeMin rk rt hr.1 hr.2.1
    rw [h] at this
    exact sized_balance hl this

theorem sized_erase {t : Tree T} (hs : t.Sized) (key : Key) (shrink : T → T) :
    (t.erase key shrink).Sized := by
  induction t with
  | leaf => exact hs
  | node k under l r h n ihl ihr =>
    rw [erase]
    cases compare key k with
    | lt => exact sized_balance (ihl hs.1) hs.2.1
    | eq =>
      dsimp only
      split
      · exact sized_merge hs.1 hs.2.1
      · exact sized_join hs.1 hs.2.1
    | gt => exact sized_balance hs.1 (ihr hs.2.1)

/-! ## Counting -/

/-- The weight of some nodes together. -/
def total (as : List (Key × T)) : Nat :=
  as.foldr (fun a n => weight a.2 + n) 0

@[simp] theorem total_nil : total ([] : List (Key × T)) = 0 := rfl

@[simp] theorem total_cons (a : Key × T) (as : List (Key × T)) :
    total (a :: as) = weight a.2 + total as := rfl

@[simp] theorem total_append (as bs : List (Key × T)) : total (as ++ bs) = total as + total bs := by
  induction as with
  | nil => simp
  | cons a as ih => rw [List.cons_append, total_cons, total_cons, ih, Nat.add_assoc]

/-- Where the weight of a node is the number of what it holds, a total is a number as well. -/
theorem total_eq_length {α : Type} {held : T → List α} {as : List (Key × T)}
    (heach : ∀ a ∈ as, weight a.2 = (held a.2).length) :
    total as = (as.flatMap fun a => held a.2).length := by
  induction as with
  | nil => rfl
  | cons a as ih =>
    rw [total_cons, List.flatMap_cons, List.length_append, heach a List.mem_cons_self,
      ih fun b hb => heach b (List.mem_cons_of_mem a hb)]

theorem size_eq {t : Tree T} (hs : t.Sized) : t.size = total t.toList := by
  induction t with
  | leaf => rfl
  | node k under l r h n ihl ihr =>
    obtain ⟨hl, hr, rfl⟩ := hs
    rw [size_node, toList, total_append, total_cons, ihl hl, ihr hr, Nat.add_right_comm]
    exact Nat.add_comm ..

theorem keyCount_eq {T : Type} (t : Tree T) : t.keyCount = t.toList.length := by
  induction t with
  | leaf => rfl
  | node k under l r h n ihl ihr =>
    rw [keyCount, toList, List.length_append, List.length_cons, ihl, ihr]
    omega

theorem length_le_total {as : List (Key × T)} (hoccupied : ∀ a ∈ as, 0 < weight a.2) :
    as.length ≤ total as := by
  induction as with
  | nil => exact Nat.le_refl 0
  | cons a as ih =>
    obtain ⟨hfirst, hrest⟩ := List.forall_mem_cons.1 hoccupied
    have hlength := ih hrest
    rw [List.length_cons, total_cons]
    omega

/-- Where every node holds something, there are at most as many keys as the size tells. -/
theorem keyCount_le_size {t : Tree T} (hs : t.Sized) (hoccupied : ∀ a ∈ t.toList, 0 < weight a.2) :
    t.keyCount ≤ t.size := by
  rw [keyCount_eq, size_eq hs]
  exact length_le_total hoccupied

/-- A cut that holds of a key holds of all keys before it, so the count can skip whole subtrees. -/
theorem countBefore_eq {t : Tree T} (ho : t.Ordered) (hs : t.Sized) {before : Key → Bool}
    (hcut : ∀ j k, j ≤ k → before k = true → before j = true) :
    t.countBefore before = total (t.toList.filter (before ·.1)) := by
  induction t with
  | leaf => rfl
  | node k under l r h n ihl ihr =>
    obtain ⟨hl, hr, -⟩ := hs
    rw [countBefore, toList, List.filter_append, List.filter_cons, total_append]
    split
    · next hk =>
      have hleft : l.toList.filter (before ·.1) = l.toList :=
        List.filter_eq_self.2 fun a ha => hcut _ _ (le_of_lt (ho.lt_root ha)) hk
      rw [hleft, total_cons, ← size_eq hl, ihr ho.right hr, Nat.add_assoc]
    · next hk =>
      have hright : r.toList.filter (before ·.1) = [] :=
        List.filter_eq_nil_iff.2 fun a ha hb => hk (hcut _ _ (le_of_lt (ho.root_lt ha)) hb)
      rw [hright, ihl ho.left hl, total_nil, Nat.add_zero]

theorem countUpTo_eq {t : Tree T} (ho : t.Ordered) (hs : t.Sized) (range : KeyRange) :
    t.countUpTo range.upper = total (t.toList.filter (range.belowUpper ·.1)) := by
  unfold countUpTo KeyRange.belowUpper
  cases range.upper with
  | unbounded =>
    rw [List.filter_eq_self.2 fun _ _ => rfl]
    exact size_eq hs
  | included high => exact countBefore_eq ho hs (by grind)
  | excluded high => exact countBefore_eq ho hs (by grind)

theorem countBelow_eq {t : Tree T} (ho : t.Ordered) (hs : t.Sized) (range : KeyRange) :
    t.countBelow range.lower = total (t.toList.filter (!range.aboveLower ·.1)) := by
  unfold countBelow KeyRange.aboveLower
  cases range.lower with
  | unbounded =>
    rw [List.filter_eq_nil_iff.2 fun _ _ => by simp]
    rfl
  | included low =>
    simp only [← decide_not, not_le]
    exact countBefore_eq ho hs (by grind)
  | excluded low =>
    simp only [← decide_not, not_lt]
    exact countBefore_eq ho hs (by grind)

/-- Up to the range, without what is below it. Keys that are on neither side exist only if the
bounds cross. -/
theorem total_range (as : List (Key × T)) (range : KeyRange) :
    total (as.filter (range.belowUpper ·.1)) +
        total (as.filter fun a => !range.belowUpper a.1 && !range.aboveLower a.1) =
      total (as.filter (range.contains ·.1)) + total (as.filter (!range.aboveLower ·.1)) := by
  induction as with
  | nil => rfl
  | cons a as ih =>
    simp only [List.filter_cons, KeyRange.contains] at ih ⊢
    cases range.belowUpper a.1 <;> cases range.aboveLower a.1 <;> simp <;> omega

theorem countRange_eq {t : Tree T} (ho : t.Ordered) (hs : t.Sized) (range : KeyRange) :
    t.countRange range = total (t.toList.filter (range.contains ·.1)) := by
  have hsplit := total_range t.toList range
  have hempty : t.toList.filter (range.contains ·.1) = [] ∨
      t.toList.filter (fun a => !range.belowUpper a.1 && !range.aboveLower a.1) = [] := by
    refine or_iff_not_imp_right.2 fun hne => List.filter_eq_nil_iff.2 fun a _ hin => ?_
    obtain ⟨b, hb⟩ := List.exists_mem_of_ne_nil _ hne
    simp only [List.mem_filter, Bool.and_eq_true, Bool.not_eq_true'] at hb
    simp only [KeyRange.contains, Bool.and_eq_true] at hin
    rcases le_total a.1 b.1 with hab | hab
    · simp [KeyRange.aboveLower_mono hab hin.1] at hb
    · simp [KeyRange.belowUpper_anti hab hin.2] at hb
  rw [countRange, countUpTo_eq ho hs, countBelow_eq ho hs]
  rcases hempty with h | h <;> rw [h, total_nil] at hsplit
  · rw [h, total_nil]
    omega
  · omega

end RecordStore.Tree
