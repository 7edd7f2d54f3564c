import RecordStore.Order
import RecordStore.Proofs.KeyRange
/-!
# Sorting by an order

Comparing by an order is total and transitive, whatever its keys and directions, so `Order.sort`
permutes its input into an ascending list. Where only equal records tie, there is one such list:
every permutation of the input is sorted to it (`sort_eq_of_perm`), and a list that is ascending
already is its own sorting (`eq_sort_of_pairwise`).
-/

namespace RecordStore

namespace Direction

variable {α : Type}

theorem orient_then (d : Direction) (o o' : Ordering) :
    d.orient (o.then o') = (d.orient o).then (d.orient o') := by
  cases d with
  | asc => rfl
  | desc => cases o <;> rfl

@[simp] theorem orient_eq (d : Direction) : d.orient .eq = .eq := by
  cases d <;> rfl

@[simp] theorem orient_orient (d : Direction) (o : Ordering) : d.orient (d.orient o) = o := by
  cases d with
  | asc => rfl
  | desc => exact Ordering.swap_swap

theorem arrange_perm (d : Direction) (as : List α) : (d.arrange as).Perm as := by
  cases d with
  | asc => exact .refl as
  | desc => exact as.reverse_perm

@[simp] theorem mem_arrange {d : Direction} {as : List α} {a : α} : a ∈ d.arrange as ↔ a ∈ as :=
  (d.arrange_perm as).mem_iff

theorem filter_arrange (d : Direction) (keep : α → Bool) (as : List α) :
    (d.arrange as).filter keep = d.arrange (as.filter keep) := by
  cases d with
  | asc => rfl
  | desc => exact List.filter_reverse

end Direction

instance SortKey.transCmp {R : Type} (s : SortKey R) : Std.TransCmp s.compare := by
  obtain ⟨p, d⟩ := s
  cases d with
  | asc => exact inferInstanceAs (Std.TransCmp (compareOn p.get))
  | desc =>
    have hswap : SortKey.compare ⟨p, .desc⟩ = fun a b => compareOn p.get b a := by
      funext a b
      exact Std.OrientedCmp.eq_swap.symm
    rw [hswap]
    infer_instance

namespace Order

variable {R : Type} {order : Order R} {a b : R}

/-- The properties that an order sorts by. -/
def properties (order : Order R) : List (Property R) :=
  order.map (·.property)

instance transCmp : ∀ order : Order R, Std.TransCmp order.compare
  | [] => { eq_swap := rfl, isLE_trans := fun _ _ => rfl }
  | s :: rest =>
    have := transCmp rest
    inferInstanceAs (Std.TransCmp (compareLex s.compare (compare rest)))

/-! ## Ties -/

theorem compare_eq_iff :
    order.compare a b = .eq ↔ ∀ s ∈ order, s.property.get a = s.property.get b := by
  induction order with
  | nil => simp [compare]
  | cons s rest ih =>
    have hkey : s.compare a b = .eq ↔ s.property.get a = s.property.get b := by
      rw [SortKey.compare, ← Std.LawfulEqOrd.compare_eq_iff_eq (a := s.property.get a)]
      cases s.direction with
      | asc => rfl
      | desc => exact Ordering.swap_eq_eq
    rw [compare, Ordering.then_eq_eq, hkey, ih, List.forall_mem_cons]

/-- Records that tie in an order that mentions a property read the same key there. -/
theorem get_eq_of_mentions {p : Property R} (hp : p.Agrees order.properties)
    (hmentions : order.mentions p = true) (hab : order.compare a b = .eq) : p.get a = p.get b := by
  obtain ⟨s, hs, hsame⟩ := List.any_eq_true.1 hmentions
  rw [← hp s.property (List.mem_map_of_mem hs) hsame]
  exact compare_eq_iff.1 hab s hs

/-- Leading keys on a property tell no records apart that read the same key there. -/
theorem compare_dropWhile {p : Property R} (hp : p.Agrees order.properties)
    (hab : p.get a = p.get b) :
    compare (order.dropWhile (·.property.same p)) a b = order.compare a b := by
  induction order with
  | nil => rfl
  | cons s rest ih =>
    have hrest : p.Agrees (properties rest) := fun q hq => hp q (List.mem_cons_of_mem _ hq)
    rw [List.dropWhile_cons]
    split
    · next hsame =>
      have hread : s.property.get = p.get := hp s.property List.mem_cons_self hsame
      have htie : compare [s] a b = .eq := compare_eq_iff.2 fun t ht => by
        rw [List.mem_singleton.1 ht, hread, hab]
      rw [compare, compare, Ordering.then_eq] at htie
      rw [ih hrest, compare, htie, Ordering.eq_then]
    · rfl

/-! ## Sorting -/

theorem sort_perm (order : Order R) (records : List R) : (order.sort records).Perm records :=
  List.mergeSort_perm records _

theorem pairwise_sort (order : Order R) (records : List R) :
    (order.sort records).Pairwise fun a b => (order.compare a b).isLE = true := by
  refine List.pairwise_mergeSort (fun _ _ _ => Std.TransCmp.isLE_trans) (fun a b => ?_) records
  have : order.compare b a = (order.compare a b).swap := Std.OrientedCmp.eq_swap
  rw [this]
  cases order.compare a b <;> rfl

/-- An ascending list is what sorting makes of its permutations, if only equal records tie. -/
theorem eq_sort_of_pairwise {as bs : List R} (hperm : as.Perm bs)
    (hties : ∀ a ∈ bs, ∀ b ∈ bs, order.compare a b = .eq → a = b)
    (has : as.Pairwise fun a b => (order.compare a b).isLE = true) : as = order.sort bs := by
  have hsorted := hperm.trans (order.sort_perm bs).symm
  refine hsorted.eq_of_pairwise (fun a b ha hb hab hba => ?_) has (order.pairwise_sort bs)
  exact hties a (hperm.mem_iff.1 ha) b ((order.sort_perm bs).mem_iff.1 hb)
    (Std.OrientedCmp.isLE_antisymm hab hba)

theorem sort_eq_of_perm {as bs : List R} (hperm : as.Perm bs)
    (hties : ∀ a ∈ bs, ∀ b ∈ bs, order.compare a b = .eq → a = b) : order.sort as = order.sort bs :=
  eq_sort_of_pairwise ((order.sort_perm as).trans hperm) hties (order.pairwise_sort as)

/-- A list that is ascending as seen in a direction is ascending once arranged in it. -/
theorem pairwise_arrange {d : Direction} {records : List R}
    (h : records.Pairwise fun a b => (d.orient (order.compare a b)).isLE = true) :
    (d.arrange records).Pairwise fun a b => (order.compare a b).isLE = true := by
  cases d with
  | asc => exact h
  | desc =>
    refine List.pairwise_reverse.2 (h.imp fun {a b} hab => ?_)
    rwa [Direction.orient, ← Std.OrientedCmp.eq_swap] at hab

end Order

end RecordStore
