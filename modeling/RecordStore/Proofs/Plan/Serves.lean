import RecordStore.Plan.Choose
import RecordStore.Proofs.Index.Chain
import RecordStore.Proofs.Plan.Scan
/-!
# Plans that serve a query

A plan serves a predicate and an order on a list of records if it finds exactly the records of the
list that the predicate admits, and the direction it promises yields them in the order
(`Plan.Serves`). What it promises of an order it keeps only if the names in the order are trusted,
and what it finds does not depend on that. The plan of a chain serves on every state that the chain
has laid out (`serves_plan`):

* a walk is sorted by an order that the chain satisfies: `compare_of_keys_lt`;
* a scan leaves out only keys that no admitted record has: `serves_scanTree`;
* under a key that the predicate names lie all the records that it admits: `filter_under`.

The properties that a chain, a predicate and an order refer to by one name must read the same.
-/

namespace RecordStore

variable {R : Type}

/-- What a scan owes to a predicate and an order on a list of records. -/
structure Scan.Serves (trusted : Prop) (predicate : Option (Predicate R)) (order : Order R)
    (records : List R) (scan : Scan R) : Prop where
  ordered : scan.state.root.Ordered
  visits : ∀ record ∈ scan.visited, record ∈ records
  finds : scan.visited.filter (Predicate.admits predicate) =
    records.filter (Predicate.admits predicate)
  sorted : trusted → ∀ d, scan.direction = some d →
    (d.arrange scan.visited).Pairwise fun a b => (order.compare a b).isLE = true

/-- What the plan of one index owes to a predicate and an order on a list of records. -/
def Plan.Serves (trusted : Prop) (predicate : Option (Predicate R)) (order : Order R)
    (records : List R) : Plan R → Prop
  | nothing => records.filter (Predicate.admits predicate) = []
  | scan walk => walk.Serves trusted predicate order records
  | union _ => False

namespace Index

variable {pk p : Property R} {ix tail : Index R} {unique : Bool} {order : Order R} {d : Direction}
  {predicate : Option (Predicate R)} {s : State R} {trusted : Prop}

/-! ## Orders that a chain satisfies -/

theorem orient_compare_cons {t : SortKey R} {rest : Order R} (hread : t.property.get = p.get)
    (hdir : t.direction = d) (a b : R) :
    d.orient (Order.compare (t :: rest) a b) =
      (compare (p.get a) (p.get b)).then (d.orient (Order.compare rest a b)) := by
  rw [Order.compare, Direction.orient_then, SortKey.compare, hdir, Direction.orient_orient, hread]

/-- What a chain places first comes first in every order that it satisfies. -/
theorem compare_of_keys_lt (hix : Chained pk ix)
    (hnames : ∀ p ∈ ix.properties, p.Agrees order.properties) (hsat : ix.satisfies d order = true)
    {a b : R} (hlt : ix.keys a < ix.keys b) : (d.orient (order.compare a b)).isLE = true := by
  induction hix generalizing order with
  | unique =>
    cases order with
    | nil => simp [Order.compare]
    | cons t rest =>
      simp only [Index.unique, satisfies, Bool.and_eq_true, beq_iff_eq] at hsat
      have hread : t.property.get = pk.get :=
        hnames pk (by simp [Index.unique, properties]) t.property (by simp [Order.properties])
          hsat.1.1
      have hkey : compare (pk.get a) (pk.get b) = .lt := by
        simp only [Index.unique, keys, List.cons_lt_cons_iff, List.lt_irrefl, and_false,
          or_false] at hlt
        exact hlt
      rw [orient_compare_cons hread hsat.1.2, hkey]
      rfl
  | @tree p tail _ ih =>
    cases order with
    | nil => simp [Order.compare]
    | cons t rest =>
      simp only [satisfies, Bool.and_eq_true, Bool.false_or, beq_iff_eq] at hsat
      have hread : t.property.get = p.get :=
        hnames p (by simp [properties]) t.property (by simp [Order.properties]) hsat.1.1
      have hrest : ∀ q ∈ tail.properties, q.Agrees (Order.properties rest) := fun q hq q' hq' =>
        hnames q (List.mem_cons_of_mem p hq) q' (List.mem_cons_of_mem _ hq')
      rw [orient_compare_cons hread hsat.1.2]
      simp only [keys, List.cons_lt_cons_iff] at hlt
      rcases hlt with hlt | ⟨heq, hlt⟩
      · rw [Key.lt_iff_compare.1 hlt]
        rfl
      · rw [heq, Std.ReflOrd.compare_self, Ordering.eq_then]
        exact ih hrest hsat.2 hlt

theorem satisfies_of_direction? (h : (tree p tail unique).direction? order = some d) :
    (tree p tail unique).satisfies d order = true := by
  cases order with
  | nil => rfl
  | cons t rest =>
    simp only [direction?, Option.ite_none_right_eq_some, Option.some.injEq] at h
    exact h.2 ▸ h.1

/-- A walk over a range of a chain, in a direction that it satisfies, is sorted. -/
theorem pairwise_within (hix : Chained pk ix) (hs : ix.Laid s)
    (hnames : ∀ p ∈ ix.properties, p.Agrees order.properties) (hsat : ix.satisfies d order = true)
    (range : KeyRange) :
    (d.arrange (s.within range)).Pairwise fun a b => (order.compare a b).isLE = true := by
  have hkeys := (pairwise_keys hix.layered hs).sublist (State.within_sublist range s)
  exact Order.pairwise_arrange (hkeys.imp (compare_of_keys_lt hix hnames hsat))

/-! ## Scanning -/

/-- A scan serves if its range has the keys of all admitted records. -/
theorem serves_scanTree {root : Tree (State R)} (hs : (tree p tail unique).Laid (.tree root))
    {range : KeyRange}
    (hrange : ∀ record, Predicate.admits predicate record = true →
      range.contains (p.get record) = true)
    (hsorted : trusted → ∀ d, (tree p tail unique).direction? order = some d →
      (d.arrange ((State.tree root).within range)).Pairwise fun a b =>
        (order.compare a b).isLE = true) :
    (scanTree (tree p tail unique) root range order).Serves trusted predicate order
      (State.tree root).records := by
  have hfinds : ((State.tree root).within range).filter (Predicate.admits predicate) =
      (State.tree root).records.filter (Predicate.admits predicate) := by
    rw [within_eq_filter hs, List.filter_filter]
    apply List.filter_congr
    intro record _
    cases hadmits : Predicate.admits predicate record with
    | false => rfl
    | true => rw [hrange record hadmits, Bool.and_true]
  unfold scanTree
  dsimp only
  split
  · next hcount =>
    rw [countRange_eq_length hs, List.length_eq_zero_iff] at hcount
    rw [Plan.Serves, ← hfinds, hcount, List.filter_nil]
  · exact ⟨hs.ordered_root, fun _ h => (State.within_sublist range (.tree root)).subset h, hfinds,
      hsorted⟩

/-! ## Descending -/

/-- Records that must read a key are all under it. -/
theorem filter_under {root : Tree (State R)} (hroot : root.Sound (TailFits p tail)) {key : Key}
    {under : State R} (hget : root.get? key = some under) {keep : R → Bool}
    (honly : ∀ record, keep record = true → p.get record = key) :
    (State.recordsOfTree root).filter keep = under.records.filter keep := by
  have hnone {as : List (Key × State R)} (has : ∀ a ∈ as, a ∈ root.toList ∧ a.1 ≠ key) :
      (as.flatMap fun a => a.2.records).filter keep = [] := by
    rw [List.filter_eq_nil_iff]
    intro record hrecord hkeep
    obtain ⟨a, ha, hrecord⟩ := List.mem_flatMap.1 hrecord
    have htail := hroot.of_mem (has a ha).1
    exact (has a ha).2 (htail.2 record hrecord ▸ honly record hkeep)
  have hordered := hroot.ordered
  have hmem := (Tree.get?_eq_some_iff hroot.ordered).1 hget
  obtain ⟨as, bs, hlist⟩ := List.append_of_mem hmem
  rw [Tree.Ordered, hlist] at hordered
  obtain ⟨-, -, hbefore, hafter⟩ := Assoc.sorted_append_cons hordered
  have has : ∀ a ∈ as, a ∈ root.toList ∧ a.1 ≠ key := fun a ha =>
    ⟨by simp [hlist, ha], fun e => by simpa [e] using hbefore a ha⟩
  have hbs : ∀ b ∈ bs, b ∈ root.toList ∧ b.1 ≠ key := fun b hb =>
    ⟨by simp [hlist, hb], fun e => by simpa [e] using hafter b hb⟩
  rw [State.recordsOfTree_eq, hlist, List.flatMap_append, List.flatMap_cons, List.filter_append,
    List.filter_append, hnone has, hnone hbs, List.nil_append, List.append_nil]

/-- A plan for the records under a key serves on the whole tree if all admitted records read that
key: what it promises about the rest of an order holds of the whole order there. -/
theorem serves_of_under {root : Tree (State R)} (hroot : root.Sound (TailFits p tail)) {key : Key}
    {under : State R} (hget : root.get? key = some under)
    (honly : ∀ record, Predicate.admits predicate record = true → p.get record = key)
    (hnames : trusted → p.Agrees order.properties) {plan : Plan R}
    (h : plan.Serves trusted predicate (order.dropWhile (·.property.same p)) under.records) :
    plan.Serves trusted predicate order (State.recordsOfTree root) := by
  have hfilter := filter_under hroot hget honly
  have hreads := (hroot.tails key under hget).2
  cases plan with
  | nothing => exact hfilter.trans h
  | scan walk =>
    refine ⟨h.ordered, fun record hrecord => ?_, h.finds.trans hfilter.symm, fun ht d hd => ?_⟩
    · rw [mem_recordsOfTree hroot, hreads record (h.visits record hrecord)]
      exact ⟨under, hget, h.visits record hrecord⟩
    · refine (h.sorted ht d hd).imp_of_mem fun {a b} ha hb hab => ?_
      rw [Direction.mem_arrange] at ha hb
      rwa [Order.compare_dropWhile (hnames ht)] at hab
      rw [hreads a (h.visits a ha), hreads b (h.visits b hb)]
  | union branches => exact h.elim

/-! ## The plan of a chain -/

theorem admits_of_isNever (h : predicate.any Predicate.isNever = true) (record : R) :
    Predicate.admits predicate record = false := by
  cases predicate with
  | none => cases h
  | some p =>
    cases p with
    | never => simp [Predicate.admits, Predicate.eval]
    | _ => cases h

theorem serves_of_isNever (h : predicate.any Predicate.isNever = true) (records : List R) :
    Plan.nothing.Serves trusted predicate order records :=
  List.filter_eq_nil_iff.2 fun record _ => by simp [admits_of_isNever h]

/-- To find nothing serves where there are no records or the predicate admits none. -/
theorem serves_nothing (hs : ix.Laid s)
    (h : (s.isEmpty || predicate.any Predicate.isNever) = true) :
    Plan.nothing.Serves trusted predicate order s.records := by
  rcases Bool.or_eq_true_iff.1 h with hempty | hnever
  · have hlen : s.records.length = 0 := by
      rw [← hs.size_eq]
      simpa [State.isEmpty] using hempty
    rw [Plan.Serves, List.length_eq_zero_iff.1 hlen, List.filter_nil]
  · exact serves_of_isNever hnever s.records

theorem serves_plan_value (hs : (value : Index R).Laid s) :
    (value.plan predicate s order).Serves trusted predicate order s.records := by
  rw [plan]
  split
  · next h => exact serves_nothing hs h
  · rcases hs with rfl | ⟨record, rfl⟩
    · next h => simp [State.isEmpty, State.size] at h
    · exact ⟨Tree.ordered_leaf, fun _ h => h, rfl, fun _ d _ => by cases d <;> simp [Scan.visited,
        State.within, Direction.arrange]⟩

/-- The plan of a tree serves if the plans of its tails do, and its walks are sorted. -/
theorem serves_plan_tree (hs : (tree p tail unique).Laid s)
    (hpredicate : p.Agrees (predicate.elim [] Predicate.properties))
    (horder : trusted → p.Agrees order.properties)
    (htail : ∀ under, tail.Fits under →
      (tail.plan predicate under (order.dropWhile (·.property.same p))).Serves trusted predicate
        (order.dropWhile (·.property.same p)) under.records)
    (hsorted : ∀ range, trusted → ∀ d, (tree p tail unique).direction? order = some d →
      (d.arrange (s.within range)).Pairwise fun a b => (order.compare a b).isLE = true) :
    ((tree p tail unique).plan predicate s order).Serves trusted predicate order s.records := by
  have hadmits (record : R) (h : Predicate.admits predicate record = true) :=
    KeyConstraint.admits_of_eval hpredicate h
  have hs' := hs
  rcases hs with rfl | ⟨root, rfl, hne, hroot⟩
  · have hnothing : (tree p tail unique).plan predicate .empty order = .nothing := by
      simp [plan, State.isEmpty, State.size]
    rw [hnothing]
    exact serves_nothing hs' rfl
  · rw [plan]
    split
    · next h => exact serves_nothing hs' h
    · dsimp only
      split
      · next key hexact =>
        have honly (record : R) (h : Predicate.admits predicate record = true) :
            p.get record = key := (hadmits record h).exact key hexact
        split
        · next under hget =>
          exact serves_of_under hroot hget honly horder (htail under (hroot.tails key under hget).1)
        · next hget =>
          apply List.filter_eq_nil_iff.2
          intro record hrecord h
          obtain ⟨under, hunder, -⟩ := (mem_recordsOfTree hroot).1 hrecord
          rw [honly record h, hget] at hunder
          cases hunder
      · exact serves_scanTree hs' (fun record h => (hadmits record h).range) (hsorted _)

/-- The plan of a chain serves on every state that the chain has laid out. -/
theorem serves_plan (hix : Chained pk ix) (hs : ix.Laid s)
    (hpredicate : ∀ p ∈ ix.properties, p.Agrees (predicate.elim [] Predicate.properties))
    (horder : trusted → ∀ p ∈ ix.properties, p.Agrees order.properties) :
    (ix.plan predicate s order).Serves trusted predicate order s.records := by
  have hself := hix
  induction hix generalizing order s with
  | unique =>
    exact serves_plan_tree hs (hpredicate _ List.mem_cons_self)
      (fun ht => horder ht _ List.mem_cons_self) (fun under h => serves_plan_value (.inr h))
      fun range ht d hd => pairwise_within hself hs (horder ht) (satisfies_of_direction? hd) range
  | @tree p tail htail ih =>
    have hdropped (ht : trusted) : ∀ q ∈ tail.properties,
        q.Agrees (Order.properties (order.dropWhile (·.property.same p))) := fun q hq r hr =>
      horder ht q (List.mem_cons_of_mem p hq) r
        (List.map_subset _ (List.dropWhile_subset _) hr)
    exact serves_plan_tree hs (hpredicate _ List.mem_cons_self)
      (fun ht => horder ht _ List.mem_cons_self)
      (fun under h => ih (.inr h) (fun q hq => hpredicate q (List.mem_cons_of_mem p hq)) hdropped htail)
      fun range ht d hd => pairwise_within hself hs (horder ht) (satisfies_of_direction? hd) range

end Index

end RecordStore
