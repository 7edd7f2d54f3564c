import RecordStore.Proofs.Engine.Select
/-!
# Sorting is stable and leaves no choice

`Order.Lawful` says what makes a comparison by sort keys fit for sorting, and `Order.Sorts` what
makes one list a stable sorting of another. `Order.sort` gives a stable sorting, and there is no
other one (`sorts_iff`).

The order of a query that ends up ordered mentions the primary key. Only records with one primary
key tie in such an order, so the arrangement of a buffer of stored records has no part in how it is
sorted (`sorts_deterministically`).
-/

namespace RecordStore

namespace Order

variable {R : Type} {order : Order R} {a b : R} {records sorted : List R}

/-- Whether two records have the same value for every key of an order. -/
def ties (order : Order R) (a b : R) : Bool :=
  order.all fun s => s.property.get a == s.property.get b

/-- Whether comparing by an order is reflexive, total and transitive, and the same from both sides. -/
structure Lawful (order : Order R) : Prop where
  refl (a : R) : order.compare a a = .eq
  total (a b : R) : (order.compare a b).isLE = true ∨ (order.compare b a).isLE = true
  trans (a b c : R) (hab : (order.compare a b).isLE = true) (hbc : (order.compare b c).isLE = true) :
    (order.compare a c).isLE = true
  swap (a b : R) : order.compare b a = (order.compare a b).swap

/-- Whether a list is a stable sorting of some records: it is ascending, and the records that tie
with any one of them come in the order that they came in. -/
structure Sorts (order : Order R) (records sorted : List R) : Prop where
  perm : sorted.Perm records
  ascending : sorted.Pairwise fun a b => (order.compare a b).isLE = true
  stable (a : R) : sorted.filter (order.ties a) = records.filter (order.ties a)

theorem lawful (order : Order R) : order.Lawful where
  refl _ := Std.ReflCmp.compare_self
  total a b := by
    have hswap : order.compare b a = (order.compare a b).swap := Std.OrientedCmp.eq_swap
    rw [hswap]
    cases order.compare a b <;> simp
  trans _ _ _ := Std.TransCmp.isLE_trans
  swap _ _ := Std.OrientedCmp.eq_swap

/-! ## Stable sorting -/

theorem ties_iff : order.ties a b = true ↔ order.compare a b = .eq := by
  simp only [ties, List.all_eq_true, beq_iff_eq, compare_eq_iff]

theorem compare_eq_of_ties {c : R} (hab : order.ties c a = true) (hb : order.ties c b = true) :
    order.compare a b = .eq := by
  rw [ties_iff] at hab hb
  exact Std.TransCmp.eq_trans (Std.OrientedCmp.eq_symm hab) hb

/-- The records that tie with a given one are ascending in any arrangement, and so they keep it. -/
theorem filter_sort (order : Order R) (records : List R) (a : R) :
    (order.sort records).filter (order.ties a) = records.filter (order.ties a) := by
  have hascending : (records.filter (order.ties a)).Pairwise fun b c =>
      (order.compare b c).isLE = true := by
    refine List.pairwise_of_forall_mem_list fun b hb c hc => ?_
    rw [compare_eq_of_ties (List.mem_filter.1 hb).2 (List.mem_filter.1 hc).2]
    rfl
  have hkept : (records.filter (order.ties a)).Sublist (order.sort records) :=
    List.sublist_mergeSort (fun b c d => order.lawful.trans b c d)
      (fun b c => by simpa using order.lawful.total b c) hascending List.filter_sublist
  have hfiltered := hkept.filter (order.ties a)
  rw [List.filter_filter] at hfiltered
  simp only [Bool.and_self] at hfiltered
  exact (hfiltered.eq_of_length ((order.sort_perm records).filter _).length_eq.symm).symm

theorem sorts_sort (order : Order R) (records : List R) : order.Sorts records (order.sort records) where
  perm := order.sort_perm records
  ascending := order.pairwise_sort records
  stable := order.filter_sort records

theorem le_of_mem_cons {x y : R} (h : (x :: sorted).Pairwise fun a b => (order.compare a b).isLE = true)
    (hy : y ∈ x :: sorted) : (order.compare x y).isLE = true := by
  rcases List.mem_cons.1 hy with rfl | hy
  · rw [order.lawful.refl]
    rfl
  · exact (List.pairwise_cons.1 h).1 y hy

/-- Ascending permutations of each other are equal if they agree on all records that tie. -/
theorem eq_of_filter_ties {as bs : List R} (hperm : as.Perm bs)
    (has : as.Pairwise fun a b => (order.compare a b).isLE = true)
    (hbs : bs.Pairwise fun a b => (order.compare a b).isLE = true)
    (hties : ∀ a, as.filter (order.ties a) = bs.filter (order.ties a)) : as = bs := by
  induction as generalizing bs with
  | nil => exact hperm.nil_eq
  | cons x as ih =>
    cases bs with
    | nil => exact hperm.eq_nil
    | cons y bs =>
      -- Each of the two heads is least, so they tie, and both are the first of the records that do.
      have hxy : order.ties x y = true := ties_iff.2 (Std.OrientedCmp.isLE_antisymm
        (le_of_mem_cons has (hperm.mem_iff.2 List.mem_cons_self))
        (le_of_mem_cons hbs (hperm.mem_iff.1 List.mem_cons_self)))
      have hxx : order.ties x x = true := ties_iff.2 (order.lawful.refl x)
      have hfirst := hties x
      rw [List.filter_cons_of_pos hxx, List.filter_cons_of_pos hxy] at hfirst
      obtain ⟨rfl, -⟩ := List.cons.inj hfirst
      refine congrArg (x :: ·) (ih hperm.cons_inv has.of_cons hbs.of_cons fun a => ?_)
      have hrest := hties a
      rw [List.filter_cons, List.filter_cons] at hrest
      split at hrest
      · exact (List.cons.inj hrest).2
      · exact hrest

/-- Sorting gives the one stable sorting that there is. -/
theorem sorts_iff : order.Sorts records sorted ↔ sorted = order.sort records := by
  constructor
  · intro h
    refine eq_of_filter_ties (h.perm.trans (order.sort_perm records).symm) h.ascending
      (order.pairwise_sort records) fun a => ?_
    rw [h.stable, filter_sort]
  · rintro rfl
    exact order.sorts_sort records

end Order

theorem Query.isSome_order_withTieBreak {R : Type} (q : Query R) (pk : Property R) :
    (q.withTieBreak pk).order.isSome = (q.order.isSome || q.isWindowed) := by
  unfold withTieBreak
  split
  · next order horder => split <;> simp [horder]
  · next horder => split <;> simp_all

/-- Comparing by sort keys is a lawful order, whatever the keys, and sorting by it gives the one
stable sorting of its input. If the keys mention the primary key, only records with the same primary
key tie, and a buffer of stored records, which may hold a record several times, is sorted to the
same list in every arrangement. The keys of a query that ends up ordered mention it. -/
theorem Order.sorts_deterministically {R : Type} (order : Order R) (pk : Property R) :
    order.Lawful ∧
      (∀ records sorted, order.Sorts records sorted ↔ sorted = order.sort records) ∧
      (pk.Agrees order.properties → order.mentions pk = true →
        (∀ a b, order.compare a b = .eq → pk.get a = pk.get b) ∧
          ∀ (run : Run R) (as bs : List R), run.primaryKey = pk → as.Perm bs →
            (∀ a ∈ as, a ∈ run.ledger.stored.records) → order.sort as = order.sort bs) ∧
      ∀ q : Query R, (q.withTieBreak pk).order.isSome = true →
        Order.mentions (q.withTieBreak pk).sortKeys pk = true := by
  refine ⟨order.lawful, fun records sorted => sorts_iff, fun hagrees hmentions => ?_, fun q hq => ?_⟩
  · have hties (a b : R) (hab : order.compare a b = .eq) : pk.get a = pk.get b :=
      get_eq_of_mentions hagrees hmentions hab
    refine ⟨hties, fun run as bs hpk hperm hstored => ?_⟩
    have hkeyed : run.ledger.stored.Keyed pk := hpk ▸ run.follows.tracks.keyed
    refine sort_eq_of_perm hperm fun a ha b hb hab => ?_
    exact Store.eq_of_mem_records hkeyed (hstored a (hperm.mem_iff.2 ha))
      (hstored b (hperm.mem_iff.2 hb)) (hties a b hab)
  · rw [Query.isSome_order_withTieBreak] at hq
    exact Query.mentions_withTieBreak hq pk

namespace Run

/-- Three records, two of them with the same amount. -/
def tied : Run (Int × Int) where
  primaryKey := identifier
  config := {}
  threshold := none
  operations := [.put (1, 30), .put (2, 20), .put (3, 30)]

/-- A buffer of them in which one comes twice. -/
def buffer : List (Int × Int) :=
  [(3, 30), (1, 30), (2, 20), (3, 30)]

/-- The order in which the largest amount comes first. -/
def byAmount : Order (Int × Int) :=
  (largest.withTieBreak identifier).sortKeys

/-- A buffer is sorted to the same list if it is turned around before. -/
theorem byAmount_sorts_tied :
    identifier.Agrees byAmount.properties ∧ byAmount.mentions identifier = true ∧
      (largest.withTieBreak identifier).order.isSome = true ∧
      (∀ a ∈ buffer, a ∈ tied.ledger.stored.records) ∧
      byAmount.sort buffer = byAmount.sort buffer.reverse := by
  have hagrees : identifier.Agrees byAmount.properties := by
    intro p hp hsame
    have hproperties : byAmount.properties = [amount, identifier] := rfl
    rw [hproperties, List.mem_pair] at hp
    rcases hp with rfl | rfl
    · cases hsame
    · rfl
  have hstored : ∀ a ∈ buffer, a ∈ tied.ledger.stored.records := by decide +kernel
  obtain ⟨-, -, hties, hquery⟩ := byAmount.sorts_deterministically identifier
  have hmentions := hquery largest rfl
  exact ⟨hagrees, hmentions, rfl, hstored,
    (hties hagrees hmentions).2 tied _ _ rfl buffer.reverse_perm.symm hstored⟩

end Run

end RecordStore
