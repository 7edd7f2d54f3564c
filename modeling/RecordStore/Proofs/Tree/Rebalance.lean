import RecordStore.Index.State
import RecordStore.Proofs.Tree.Balance
import RecordStore.Proofs.Tree.Size
/-!
# Rebalancing

`Tree.Avl` says what a search tree in balance is, and takes no cached figure for true: heights are
compared with depths, and sizes with the weights below. It is what the operations on trees keep one
by one (`avl_iff`).

Rebalancing makes such a tree of a node and two subtrees whose heights differ by at most two, of two
subtrees whose heights differ by at most one, and of what the first node leaves behind, and it moves
no node past another (`rebalancing_restores`). It rotates exactly if the heights differ by more than
one (`balance_eq_join_iff`): a higher subtree always has the grandchild that is to be lifted.
-/

namespace RecordStore.Tree

variable {T : Type} [Weighted T]

/-- What a node that is in balance says of itself and of its subtrees. -/
structure Poised (k : Key) (under : T) (l r : Tree T) (height size : Nat) : Prop where
  left_le : l.depth ≤ r.depth + 1
  right_le : r.depth ≤ l.depth + 1
  height_eq : height = 1 + max l.depth r.depth
  size_eq : size = total (l.toList ++ (k, under) :: r.toList)

/-- A search tree in balance: its keys strictly ascend, and every node is poised. -/
structure Avl (t : Tree T) : Prop where
  ascending : t.toList.Pairwise fun a b => a.1 < b.1
  poised : t.Everywhere Poised

instance (k : Key) (under : T) (l r : Tree T) (height size : Nat) :
    Decidable (Poised k under l r height size) :=
  decidable_of_iff
    (l.depth ≤ r.depth + 1 ∧ r.depth ≤ l.depth + 1 ∧ height = 1 + max l.depth r.depth ∧
      size = total (l.toList ++ (k, under) :: r.toList))
    ⟨fun ⟨h1, h2, h3, h4⟩ => ⟨h1, h2, h3, h4⟩, fun ⟨h1, h2, h3, h4⟩ => ⟨h1, h2, h3, h4⟩⟩

instance decidableEverywhere {holds : Key → T → Tree T → Tree T → Nat → Nat → Prop}
    [∀ k under l r h n, Decidable (holds k under l r h n)] : (t : Tree T) → Decidable (t.Everywhere holds)
  | leaf => isTrue trivial
  | node k under l r h n =>
    have : Decidable (l.Everywhere holds) := decidableEverywhere l
    have : Decidable (r.Everywhere holds) := decidableEverywhere r
    inferInstanceAs (Decidable (holds k under l r h n ∧ l.Everywhere holds ∧ r.Everywhere holds))

instance (t : Tree T) : Decidable t.Avl :=
  decidable_of_iff (t.toList.Pairwise (fun a b => a.1 < b.1) ∧ t.Everywhere Poised)
    ⟨fun h => ⟨h.1, h.2⟩, fun h => ⟨h.1, h.2⟩⟩

theorem everywhere_poised_iff {t : Tree T} : t.Everywhere Poised ↔ t.Balanced ∧ t.Sized := by
  induction t with
  | leaf => exact ⟨fun _ => ⟨trivial, trivial⟩, fun _ => trivial⟩
  | node k under l r h n ihl ihr =>
    constructor
    · rintro ⟨hnode, hl, hr⟩
      obtain ⟨hbl, hsl⟩ := ihl.1 hl
      obtain ⟨hbr, hsr⟩ := ihr.1 hr
      obtain ⟨hlr, hrl, hh, hn⟩ := hnode
      rw [← hbl.height_eq, ← hbr.height_eq] at hlr hrl hh
      rw [total_append, total_cons, ← size_eq hsl, ← size_eq hsr] at hn
      dsimp only at hn
      exact ⟨⟨hbl, hbr, hlr, hrl, hh⟩, hsl, hsr, by omega⟩
    · rintro ⟨hb, hs⟩
      have hn : n = total (l.toList ++ (k, under) :: r.toList) := size_eq (t := node k under l r h n) hs
      obtain ⟨hbl, hbr, hlr, hrl, hh⟩ := hb
      rw [hbl.height_eq, hbr.height_eq] at hlr hrl hh
      exact ⟨⟨hlr, hrl, hh, hn⟩, ihl.2 ⟨hbl, hs.1⟩, ihr.2 ⟨hbr, hs.2.1⟩⟩

/-- A search tree in balance is ordered, balanced and truly sized. -/
theorem avl_iff {t : Tree T} : t.Avl ↔ t.Ordered ∧ t.Balanced ∧ t.Sized := by
  rw [← everywhere_poised_iff]
  exact ⟨fun h => ⟨h.ascending, h.poised⟩, fun h => ⟨h.1, h.2⟩⟩

/-! ## Rotations -/

/-- Nothing is rotated exactly if the heights differ by at most one. -/
theorem balance_eq_join_iff {k : Key} {under : T} {l r : Tree T} :
    balance k under l r = join k under l r ↔
      l.height ≤ r.height + 1 ∧ r.height ≤ l.height + 1 := by
  refine ⟨fun heq => ?_, fun h => balance_eq_join h.1 h.2⟩
  -- After a rotation to the right the old root is above the right subtree, which is thus a lower one.
  have lowerRight {k' : Key} {under' : T} {l' r' m : Tree T}
      (h : join k' under' l' (join k under m r') = join k under l r') : False := by
    have hright : join k under m r' = r' := (Tree.node.inj h).2.2.2.1
    have hheight := congrArg height hright
    rw [height_join] at hheight
    omega
  have lowerLeft {k' : Key} {under' : T} {l' r' m : Tree T}
      (h : join k' under' (join k under l' m) r' = join k under l' r) : False := by
    have hleft : join k under l' m = l' := (Tree.node.inj h).2.2.1
    have hheight := congrArg height hleft
    rw [height_join] at hheight
    omega
  revert heq
  fun_cases balance k under l r with
  | case1 => exact fun heq => (lowerRight heq).elim
  | case2 => exact fun heq => (lowerRight heq).elim
  | case3 => exact absurd (Nat.zero_le _) ‹¬leaf.height ≤ _›
  | case4 => exact absurd ‹_ < leaf.height› (Nat.not_lt_zero _)
  | case5 => exact fun heq => (lowerLeft heq).elim
  | case6 => exact fun heq => (lowerLeft heq).elim
  | case7 => exact absurd (Nat.zero_le _) ‹¬leaf.height ≤ _›
  | case8 => exact absurd ‹_ < leaf.height› (Nat.not_lt_zero _)
  | case9 => exact fun _ => ⟨by omega, by omega⟩

/-! ## Trees in balance -/

theorem avl_balance {k : Key} {under : T} {l r : Tree T} (hl : l.Avl) (hr : r.Avl)
    (hascending : (l.toList ++ (k, under) :: r.toList).Pairwise fun a b => a.1 < b.1)
    (hlr : l.height ≤ r.height + 2) (hrl : r.height ≤ l.height + 2) : (balance k under l r).Avl := by
  obtain ⟨-, hbl, hsl⟩ := avl_iff.1 hl
  obtain ⟨-, hbr, hsr⟩ := avl_iff.1 hr
  refine avl_iff.2 ⟨?_, (balanced_balance k under hbl hbr hlr hrl).1, sized_balance hsl hsr⟩
  rw [Ordered, toList_balance]
  exact hascending

theorem avl_merge {l r : Tree T} (hl : l.Avl) (hr : r.Avl)
    (hascending : (l.toList ++ r.toList).Pairwise fun a b => a.1 < b.1)
    (hlr : l.height ≤ r.height + 1) (hrl : r.height ≤ l.height + 1) : (merge l r).Avl := by
  obtain ⟨-, hbl, hsl⟩ := avl_iff.1 hl
  obtain ⟨-, hbr, hsr⟩ := avl_iff.1 hr
  refine avl_iff.2 ⟨?_, (balanced_merge hbl hbr hlr hrl).1, sized_merge hsl hsr⟩
  rw [Ordered, toList_merge]
  exact hascending

theorem avl_takeMin {k : Key} {under : T} {l r : Tree T} {h n : Nat} (ht : (node k under l r h n).Avl) :
    (takeMin k under l r).2.Avl := by
  obtain ⟨ho, ⟨hbl, hbr, hlr, hrl, -⟩, hsl, hsr, -⟩ := avl_iff.1 ht
  refine avl_iff.2 ⟨?_, (balanced_takeMin k under hbl hbr hlr hrl).1, sized_takeMin k under hsl hsr⟩
  have hall : Assoc.Sorted ((takeMin k under l r).1 :: (takeMin k under l r).2.toList) := by
    rw [toList_takeMin]
    exact ho
  exact (Assoc.sorted_cons.1 hall).2

/-- Rebalancing makes search trees in balance, and moves no node past another. -/
theorem rebalancing_restores {l r : Tree T} (hl : l.Avl) (hr : r.Avl) :
    (∀ (k : Key) (under : T), (∀ a ∈ l.toList, a.1 < k) → (∀ a ∈ r.toList, k < a.1) →
        l.height ≤ r.height + 2 → r.height ≤ l.height + 2 →
        (balance k under l r).Avl ∧
        (balance k under l r).toList = l.toList ++ (k, under) :: r.toList ∧
        ((balance k under l r).height = max l.height r.height ∨
          (balance k under l r).height = max l.height r.height + 1) ∧
        (balance k under l r = join k under l r ↔
          l.height ≤ r.height + 1 ∧ r.height ≤ l.height + 1)) ∧
      ((∀ a ∈ l.toList, ∀ b ∈ r.toList, a.1 < b.1) →
        l.height ≤ r.height + 1 → r.height ≤ l.height + 1 →
        (merge l r).Avl ∧
        (merge l r).toList = l.toList ++ r.toList ∧
        ((merge l r).height = max l.height r.height ∨
          (merge l r).height = max l.height r.height + 1)) ∧
      ∀ (k : Key) (under : T) (rl rr : Tree T) (h n : Nat), r = node k under rl rr h n →
        (takeMin k under rl rr).2.Avl ∧
        (takeMin k under rl rr).1 :: (takeMin k under rl rr).2.toList = r.toList ∧
        ((takeMin k under rl rr).2.height = r.height ∨
          (takeMin k under rl rr).2.height + 1 = r.height) := by
  obtain ⟨-, hbl, -⟩ := avl_iff.1 hl
  obtain ⟨-, hbr, -⟩ := avl_iff.1 hr
  refine ⟨fun k under hbelow habove hlr hrl => ?_, fun hapart hlr hrl => ?_,
    fun k under rl rr h n heq => ?_⟩
  · have hascending : (l.toList ++ (k, under) :: r.toList).Pairwise fun a b => a.1 < b.1 := by
      refine List.pairwise_append.2 ⟨hl.ascending, List.pairwise_cons.2 ⟨habove, hr.ascending⟩, ?_⟩
      intro a ha b hb
      rcases List.mem_cons.1 hb with rfl | hb
      · exact hbelow a ha
      · exact (hbelow a ha).trans (habove b hb)
    obtain ⟨-, hlow, hhigh⟩ := balanced_balance k under hbl hbr hlr hrl
    exact ⟨avl_balance hl hr hascending hlr hrl, toList_balance k under l r, by omega, balance_eq_join_iff⟩
  · have hascending : (l.toList ++ r.toList).Pairwise fun a b => a.1 < b.1 :=
      List.pairwise_append.2 ⟨hl.ascending, hr.ascending, hapart⟩
    obtain ⟨-, hlow, hhigh⟩ := balanced_merge hbl hbr hlr hrl
    exact ⟨avl_merge hl hr hascending hlr hrl, toList_merge l r, by omega⟩
  · subst heq
    obtain ⟨hrl, hrr, h1, h2, hh⟩ := hbr
    obtain ⟨-, hhigh, hlow⟩ := balanced_takeMin k under hrl hrr h1 h2
    refine ⟨avl_takeMin hr, toList_takeMin k under rl rr, ?_⟩
    rw [height_node]
    omega

/-! ### Both grandchildren of one height -/

/-- A node without subtrees. -/
def twig (i : Int) : Tree (State Int) :=
  join (.int i) (.single i) leaf leaf

def even : Tree (State Int) :=
  join (.int 50) (.single 50) (twig 40) (twig 60)

def low : Tree (State Int) :=
  join (.int 10) (.single 10) (twig 5) leaf

def high : Tree (State Int) :=
  join (.int 30) (.single 30) (twig 20) even

/-- When the first node is taken out of the higher tree its root has no left subtree any more, and
on the right one with two subtrees of one height. That is rotated, and ends up as high as before. -/
theorem rebalancing_restores_high :
    ((leaf : Tree (State Int)).Avl ∧ even.Avl ∧ (∀ a ∈ even.toList, .int 30 < a.1) ∧ even.height ≤ 2 ∧
        (balance (.int 30) (.single 30) leaf even).Avl ∧
        balance (.int 30) (.single 30) leaf even ≠ join (.int 30) (.single 30) leaf even) ∧
      low.Avl ∧ high.Avl ∧ (∀ a ∈ low.toList, ∀ b ∈ high.toList, a.1 < b.1) ∧
        low.height ≤ high.height + 1 ∧ high.height ≤ low.height + 1 ∧
        (merge low high).Avl ∧ (merge low high).height = high.height + 1 ∧
        (takeMin (.int 30) (.single 30) (twig 20) even).2.Avl ∧
        (takeMin (.int 30) (.single 30) (twig 20) even).2.height = high.height := by
  have hleaf : (leaf : Tree (State Int)).Avl := by decide
  have heven : even.Avl := by decide
  have habove : ∀ a ∈ even.toList, .int 30 < a.1 := by decide
  have hdifference : even.height ≤ 2 := by decide
  have hlow : low.Avl := by decide
  have hhigh : high.Avl := by decide
  have hapart : ∀ a ∈ low.toList, ∀ b ∈ high.toList, a.1 < b.1 := by decide
  have hlr : low.height ≤ high.height + 1 := by decide
  have hrl : high.height ≤ low.height + 1 := by decide
  obtain ⟨hrotated, -, -, hplain⟩ := (rebalancing_restores hleaf heven).1 (.int 30) (.single 30)
    (fun _ h => nomatch h) habove (Nat.zero_le _) hdifference
  obtain ⟨-, hmerge, htake⟩ := rebalancing_restores hlow hhigh
  refine ⟨⟨hleaf, heven, habove, hdifference, hrotated, fun h => ?_⟩, hlow, hhigh, hapart, hlr, hrl,
    (hmerge hapart hlr hrl).1, by decide, (htake _ _ _ _ _ _ rfl).1, by decide⟩
  exact absurd (hplain.1 h).2 (by decide)

end RecordStore.Tree
