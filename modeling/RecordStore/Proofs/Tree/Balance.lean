import RecordStore.Index.Tree
/-!
# Balance

`Tree.Balanced` says that the subtrees of every node differ in height by at most one and that every
cached height is the true one (`Balanced.height_eq`). `balance` restores this between subtrees whose
heights differ by at most two (`rebalance`), so each operation has to show only that it changes a
height by at most one.
-/

namespace RecordStore.Tree

variable {T : Type}

/-- The number of nodes on the longest way down. -/
def depth : Tree T → Nat
  | leaf => 0
  | node _ _ l r _ _ => 1 + max l.depth r.depth

/-- Whether something holds of every node, which is told by its parts. -/
def Everywhere (holds : Key → T → Tree T → Tree T → Nat → Nat → Prop) : Tree T → Prop
  | leaf => True
  | node k under l r h n => holds k under l r h n ∧ l.Everywhere holds ∧ r.Everywhere holds

/-- The subtrees of every node differ in height by at most one, and cached heights are true. -/
def Balanced : Tree T → Prop
  | leaf => True
  | node _ _ l r h _ =>
    l.Balanced ∧ r.Balanced ∧ l.height ≤ r.height + 1 ∧ r.height ≤ l.height + 1 ∧
      h = 1 + max l.height r.height

/-! ## Heights -/

@[simp] theorem height_leaf : (leaf : Tree T).height = 0 := rfl

@[simp] theorem height_node (k : Key) (under : T) (l r : Tree T) (h n : Nat) :
    (node k under l r h n).height = h := rfl

/-- In a balanced tree the cached height is the depth. -/
theorem Balanced.height_eq {t : Tree T} (hb : t.Balanced) : t.height = t.depth := by
  induction t with
  | leaf => rfl
  | node k under l r h n ihl ihr =>
    obtain ⟨hl, hr, -, -, hh⟩ := hb
    rw [height_node, hh, depth, ihl hl, ihr hr]

theorem Balanced.height_le_keyCount {t : Tree T} (hb : t.Balanced) : t.height ≤ t.keyCount := by
  induction t with
  | leaf => exact Nat.le_refl 0
  | node k under l r h n ihl ihr =>
    obtain ⟨hl, hr, -, -, hh⟩ := hb
    have hleft := ihl hl
    have hright := ihr hr
    rw [height_node, keyCount]
    omega

section

variable [Weighted T]

@[simp] theorem height_join (k : Key) (under : T) (l r : Tree T) :
    (join k under l r).height = 1 + max l.height r.height := rfl

theorem balanced_join {k : Key} {under : T} {l r : Tree T} (hl : l.Balanced) (hr : r.Balanced)
    (hlr : l.height ≤ r.height + 1) (hrl : r.height ≤ l.height + 1) :
    (join k under l r).Balanced :=
  ⟨hl, hr, hlr, hrl, rfl⟩

/-- Nothing is rotated between subtrees whose heights differ by at most one. -/
theorem balance_eq_join {k : Key} {under : T} {l r : Tree T} (hlr : l.height ≤ r.height + 1)
    (hrl : r.height ≤ l.height + 1) : balance k under l r = join k under l r := by
  unfold balance
  rw [if_neg (by omega), if_neg (by omega)]

theorem balanced_balance (k : Key) (under : T) {l r : Tree T} (hl : l.Balanced) (hr : r.Balanced)
    (hlr : l.height ≤ r.height + 2) (hrl : r.height ≤ l.height + 2) :
    (balance k under l r).Balanced ∧
      max l.height r.height ≤ (balance k under l r).height ∧
      (balance k under l r).height ≤ max l.height r.height + 1 := by
  fun_cases balance k under l r with
  | case1 =>
    obtain ⟨hll, hlr', h1, h2, rfl⟩ := hl
    simp only [height_node] at *
    refine ⟨balanced_join hll (balanced_join hlr' hr ?_ ?_) ?_ ?_, ?_, ?_⟩ <;>
      simp -failIfUnchanged only [height_join] <;> omega
  | case2 =>
    obtain ⟨hll, ⟨hlrl, hlrr, h3, h4, rfl⟩, h1, h2, rfl⟩ := hl
    simp only [height_node] at *
    refine ⟨balanced_join (balanced_join hll hlrl ?_ ?_) (balanced_join hlrr hr ?_ ?_) ?_ ?_,
      ?_, ?_⟩ <;> simp -failIfUnchanged only [height_join] <;> omega
  | case3 => exact absurd (Nat.zero_le _) ‹¬leaf.height ≤ _›
  | case4 => exact absurd ‹_ < leaf.height› (Nat.not_lt_zero _)
  | case5 =>
    obtain ⟨hrl', hrr, h1, h2, rfl⟩ := hr
    simp only [height_node] at *
    refine ⟨balanced_join (balanced_join hl hrl' ?_ ?_) hrr ?_ ?_, ?_, ?_⟩ <;>
      simp -failIfUnchanged only [height_join] <;> omega
  | case6 =>
    obtain ⟨⟨hrll, hrlr, h3, h4, rfl⟩, hrr, h1, h2, rfl⟩ := hr
    simp only [height_node] at *
    refine ⟨balanced_join (balanced_join hl hrll ?_ ?_) (balanced_join hrlr hrr ?_ ?_) ?_ ?_,
      ?_, ?_⟩ <;> simp -failIfUnchanged only [height_join] <;> omega
  | case7 => exact absurd (Nat.zero_le _) ‹¬leaf.height ≤ _›
  | case8 => exact absurd ‹_ < leaf.height› (Nat.not_lt_zero _)
  | case9 =>
    refine ⟨balanced_join hl hr ?_ ?_, ?_, ?_⟩ <;>
      simp -failIfUnchanged only [height_join] <;> omega

/-- What the writes below need of rebalancing: how the height changes, with one more than that of
the higher subtree where nothing is rotated. -/
theorem rebalance (k : Key) (under : T) {l r : Tree T} (hl : l.Balanced) (hr : r.Balanced)
    (hlr : l.height ≤ r.height + 2) (hrl : r.height ≤ l.height + 2) :
    (balance k under l r).Balanced ∧
      max l.height r.height ≤ (balance k under l r).height ∧
      (balance k under l r).height ≤ max l.height r.height + 1 ∧
      (l.height ≤ r.height + 1 ∧ r.height ≤ l.height + 1 →
        (balance k under l r).height = max l.height r.height + 1) := by
  obtain ⟨hb, hlow, hhigh⟩ := balanced_balance k under hl hr hlr hrl
  refine ⟨hb, hlow, hhigh, ?_⟩
  rintro ⟨h, h'⟩
  rw [balance_eq_join h h', height_join, Nat.add_comm]

theorem balanced_upsert {t : Tree T} (hb : t.Balanced) (key : Key) (write : Option T → T) :
    (t.upsert key write).Balanced ∧
      t.height ≤ (t.upsert key write).height ∧ (t.upsert key write).height ≤ t.height + 1 := by
  induction t with
  | leaf => exact ⟨balanced_join hb hb (by omega) (by omega), by simp [upsert], by simp [upsert]⟩
  | node k under l r h n ihl ihr =>
    obtain ⟨hl, hr, hlr, hrl, rfl⟩ := hb
    rw [upsert, height_node]
    cases compare key k with
    | lt =>
      obtain ⟨hl', hle, hge⟩ := ihl hl
      obtain ⟨hb', hh⟩ := rebalance k under hl' hr (by omega) (by omega)
      exact ⟨hb', by dsimp only; omega, by dsimp only; omega⟩
    | eq => exact ⟨balanced_join hl hr hlr hrl, by simp, by simp⟩
    | gt =>
      obtain ⟨hr', hle, hge⟩ := ihr hr
      obtain ⟨hb', hh⟩ := rebalance k under hl hr' (by omega) (by omega)
      exact ⟨hb', by dsimp only; omega, by dsimp only; omega⟩

/-- Taking the first node lowers the tree by at most one. -/
theorem balanced_takeMin (k : Key) (under : T) {l r : Tree T} (hl : l.Balanced) (hr : r.Balanced)
    (hlr : l.height ≤ r.height + 1) (hrl : r.height ≤ l.height + 1) :
    (takeMin k under l r).2.Balanced ∧
      (takeMin k under l r).2.height ≤ 1 + max l.height r.height ∧
      max l.height r.height ≤ (takeMin k under l r).2.height := by
  fun_induction takeMin k under l r with
  | case1 k under r => exact ⟨hr, by simp, by simp⟩
  | case2 k under r lk lt ll lr lh ln first rest h ih =>
    obtain ⟨hll, hlr', h1, h2, rfl⟩ := hl
    obtain ⟨hrest, hle, hge⟩ := ih hll hlr' h1 h2
    rw [h] at hrest hle hge
    simp only [height_node] at *
    obtain ⟨hb, hh⟩ := rebalance k under hrest hr (by omega) (by omega)
    exact ⟨hb, by omega, by omega⟩

theorem balanced_merge {l r : Tree T} (hl : l.Balanced) (hr : r.Balanced)
    (hlr : l.height ≤ r.height + 1) (hrl : r.height ≤ l.height + 1) :
    (merge l r).Balanced ∧ max l.height r.height ≤ (merge l r).height ∧
      (merge l r).height ≤ max l.height r.height + 1 := by
  fun_cases merge l r with
  | case1 => exact ⟨hr, by simp, by simp⟩
  | case2 => exact ⟨hl, by simp, by simp⟩
  | case3 l rk rt rl rr rh rn _ k under rest h =>
    obtain ⟨hrl', hrr, h1, h2, rfl⟩ := hr
    obtain ⟨hrest, hle, hge⟩ := balanced_takeMin rk rt hrl' hrr h1 h2
    rw [h] at hrest hle hge
    simp only [height_node] at *
    obtain ⟨hb, hh⟩ := rebalance k under hl hrest (by omega) (by omega)
    exact ⟨hb, by omega, by omega⟩

theorem balanced_erase {t : Tree T} (hb : t.Balanced) (key : Key) (shrink : T → T) :
    (t.erase key shrink).Balanced ∧
      (t.erase key shrink).height ≤ t.height ∧ t.height ≤ (t.erase key shrink).height + 1 := by
  induction t with
  | leaf => exact ⟨hb, by simp [erase], by simp [erase]⟩
  | node k under l r h n ihl ihr =>
    obtain ⟨hl, hr, hlr, hrl, rfl⟩ := hb
    rw [erase, height_node]
    cases compare key k with
    | lt =>
      obtain ⟨hl', hle, hge⟩ := ihl hl
      obtain ⟨hb', hh⟩ := rebalance k under hl' hr (by omega) (by omega)
      exact ⟨hb', by dsimp only; omega, by dsimp only; omega⟩
    | eq =>
      dsimp only
      split
      · obtain ⟨hm, hle, hge⟩ := balanced_merge hl hr hlr hrl
        exact ⟨hm, by omega, by omega⟩
      · exact ⟨balanced_join hl hr hlr hrl, by simp, by simp⟩
    | gt =>
      obtain ⟨hr', hle, hge⟩ := ihr hr
      obtain ⟨hb', hh⟩ := rebalance k under hl hr' (by omega) (by omega)
      exact ⟨hb', by dsimp only; omega, by dsimp only; omega⟩

end

end RecordStore.Tree
