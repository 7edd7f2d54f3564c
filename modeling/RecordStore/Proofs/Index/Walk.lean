import Mathlib.Data.List.Flatten
import RecordStore.Proofs.Index.Layout
/-!
# Range walks

`State.within` lists the records of a state whose top-level key lies in a range. On an ordered tree
a range walk is the walk over this list, reversed for the descending direction (`walkRange_eq`): the
subtrees that it does not enter hold no key of the range. For a state that a tree index has laid
out, the list is a filter of all its records (`within_eq_filter`), and its length is what the index
counts (`countRange_eq_length`).
-/

namespace RecordStore

namespace State

variable {R σ : Type}

/-- The records below the keys of a tree that lie in a range. -/
def withinTree (range : KeyRange) (t : Tree (State R)) : List R :=
  (t.toList.filter (range.contains ·.1)).flatMap fun a => a.2.records

/-- The records whose top-level key lies in a range, in the order of a walk. The range restricts a
tree and nothing else. -/
def within (range : KeyRange) : State R → List R
  | tree root => withinTree range root
  | s => s.records

section

variable {range : KeyRange} {k : Key} {under : State R} {l r : Tree (State R)} {h n : Nat}

theorem withinTree_node :
    withinTree range (.node k under l r h n) =
      withinTree range l ++ (if range.contains k then under.records else []) ++ withinTree range r := by
  rw [withinTree, Tree.toList, List.filter_append, List.filter_cons]
  split <;> simp [withinTree]

theorem withinTree_left (ho : (Tree.node k under l r h n).Ordered)
    (hk : range.aboveLower k = false) : withinTree range l = [] := by
  have : l.toList.filter (range.contains ·.1) = [] := by
    rw [List.filter_eq_nil_iff]
    intro a ha hin
    have hle : a.1 ≤ k := le_of_lt (ho.lt_root ha)
    rw [KeyRange.contains, Bool.and_eq_true] at hin
    rw [KeyRange.aboveLower_mono hle hin.1] at hk
    cases hk
  rw [withinTree, this, List.flatMap_nil]

theorem withinTree_right (ho : (Tree.node k under l r h n).Ordered)
    (hk : range.belowUpper k = false) : withinTree range r = [] := by
  have : r.toList.filter (range.contains ·.1) = [] := by
    rw [List.filter_eq_nil_iff]
    intro a ha hin
    have hle : k ≤ a.1 := le_of_lt (ho.root_lt ha)
    rw [KeyRange.contains, Bool.and_eq_true] at hin
    rw [KeyRange.belowUpper_anti hle hin.2] at hk
    cases hk
  rw [withinTree, this, List.flatMap_nil]

end

/-! ## Walking a range -/

/-- A walk that is skipped where there is nothing to visit. -/
theorem list_arrange_ite (direction : Direction) (visit : σ → R → Visit σ) {records : List R}
    {enter : Bool} (h : enter = false → records = []) (s : σ) :
    (if enter then Visit.list visit (direction.arrange records) s else .more s) =
      Visit.list visit (direction.arrange records) s := by
  cases enter with
  | true => rfl
  | false =>
    rw [h rfl]
    cases direction <;> rfl

theorem walkTree_eq (direction : Direction) (range : KeyRange) (visit : σ → R → Visit σ)
    {t : Tree (State R)} (ho : t.Ordered) :
    walkTree direction range visit t = Visit.list visit (direction.arrange (withinTree range t)) := by
  induction t with
  | leaf => cases direction <;> rfl
  | node k under l r h n ihl ihr =>
    have onLeft := list_arrange_ite direction visit fun (hk : range.aboveLower k = false) =>
      withinTree_left ho hk
    have onRight := list_arrange_ite direction visit fun (hk : range.belowUpper k = false) =>
      withinTree_right ho hk
    have here (s : σ) : (if range.contains k then walk direction visit under s else .more s) =
        Visit.list visit (direction.arrange (if range.contains k then under.records else [])) s := by
      rw [walk_eq]
      split
      · rfl
      · cases direction <;> rfl
    funext s
    unfold walkTree
    rw [ihl ho.left, ihr ho.right, withinTree_node]
    simp only [onLeft, onRight, here]
    cases direction <;>
      simp only [Direction.arrange, List.reverse_append, Visit.list_append, Visit.andThen_assoc]

/-- A range walk is the walk over the records of the range. -/
theorem walkRange_eq (direction : Direction) (range : KeyRange) (visit : σ → R → Visit σ)
    {s : State R} (ho : s.root.Ordered) :
    s.walkRange direction range visit = Visit.list visit (direction.arrange (s.within range)) := by
  cases s with
  | tree root => exact walkTree_eq direction range visit ho
  | _ => funext st; exact walk_eq direction visit _ st

theorem within_sublist (range : KeyRange) (s : State R) : (s.within range).Sublist s.records := by
  cases s with
  | tree root =>
    rw [within, withinTree, records_tree, recordsOfTree_eq]
    exact List.filter_sublist.flatMap _
  | _ => exact List.Sublist.refl _

end State

namespace Index

variable {R : Type} {p : Property R} {tail : Index R} {unique : Bool} {s : State R}

theorem Laid.ordered_root {ix : Index R} (h : ix.Laid s) : s.root.Ordered := by
  rcases h with rfl | h
  · exact Tree.ordered_leaf
  · cases ix with
    | value =>
      obtain ⟨_, rfl⟩ := h
      exact Tree.ordered_leaf
    | tree p tail unique =>
      obtain ⟨_, rfl, _, hroot⟩ := h
      exact hroot.ordered
    | alternatives choices => exact h.elim

/-- The range picks nodes by their key, which is what every record below them reads. -/
theorem within_eq_filter (h : (tree p tail unique).Laid s) (range : KeyRange) :
    s.within range = s.records.filter fun record => range.contains (p.get record) := by
  rcases h with rfl | ⟨root, rfl, -, hroot⟩
  · rfl
  · have each : ∀ a ∈ root.toList, ∀ record ∈ a.2.records, p.get record = a.1 := fun a ha =>
      (hroot.of_mem ha).2
    rw [State.within, State.withinTree, State.records_tree, State.recordsOfTree_eq]
    generalize root.toList = as at each
    induction as with
    | nil => rfl
    | cons a as ih =>
      have hrest := ih fun b hb => each b (List.mem_cons_of_mem _ hb)
      have hhead := each a List.mem_cons_self
      have hsame : a.2.records.filter (fun record => range.contains (p.get record)) =
          a.2.records.filter fun _ => range.contains a.1 :=
        List.filter_congr fun x hx => by rw [hhead x hx]
      rw [List.filter_cons, List.flatMap_cons, List.filter_append, ← hrest, hsame]
      split
      · next hin => rw [List.filter_eq_self.2 fun _ _ => hin, List.flatMap_cons]
      · next hin => rw [List.filter_eq_nil_iff.2 fun _ _ => hin, List.nil_append]

theorem countRange_eq_length {root : Tree (State R)} (h : (tree p tail unique).Laid (.tree root))
    (range : KeyRange) : root.countRange range = ((State.tree root).within range).length := by
  have hroot := h.sound_root
  rw [State.root] at hroot
  have each : ∀ a ∈ root.toList.filter (range.contains ·.1), weight a.2 = a.2.records.length :=
    fun a ha => (hroot.of_mem (List.mem_filter.1 ha).1).1.size_eq
  rw [Tree.countRange_eq hroot.ordered hroot.sized, State.within, State.withinTree,
    Tree.total_eq_length each]

end Index

end RecordStore
