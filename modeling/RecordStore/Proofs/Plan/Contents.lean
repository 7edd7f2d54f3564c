import RecordStore.Proofs.Index.Alternatives
import RecordStore.Proofs.Plan.Serves
/-!
# Plans and the records of a state

The plan of an index reads no more of a state than the records that it lists. It descends to the
records that read a key (`plan_under`, `records_under`) or scans those whose key lies in a range
(`plan_within`), and what it costs is their number.

* A plan visits records of the state only, and what it puts into a sink is a list of its own
  (`Plan.emitted`, `Plan.Reads.execute_eq`).
* What it finds is a filter of the records: a record is found or not by its own keys, whatever else
  is there (`matching_plan`).
-/

namespace RecordStore

variable {R S : Type}

namespace Index

variable {p : Property R} {ix tail : Index R} {unique : Bool} {order : Order R}
  {predicate : Option (Predicate R)} {s : State R} {key : Key}

/-! ## Trees -/

theorem plan_empty (ix : Index R) : ix.plan predicate .empty order = .nothing := by
  unfold plan
  exact if_pos rfl

theorem plan_of_isNever (h : predicate.any Predicate.isNever = true) (ix : Index R) (s : State R) :
    ix.plan predicate s order = .nothing := by
  unfold plan
  rw [h, Bool.or_true, if_pos rfl]

/-- The tail under a key lists the records that read it. -/
theorem records_under (hs : (tree p tail unique).Laid s) (key : Key) :
    ((s.root.get? key).getD .empty).records = s.records.filter (p.get · == key) := by
  have hroot := hs.sound_root
  rw [hs.records_root]
  cases hget : s.root.get? key with
  | none =>
    refine (List.filter_eq_nil_iff.2 fun record hrecord hkey => ?_).symm
    obtain ⟨under, hunder, -⟩ := (mem_recordsOfTree hroot).1 hrecord
    rw [beq_iff_eq.1 hkey, hget] at hunder
    cases hunder
  | some under =>
    have hfilter : (State.recordsOfTree s.root).filter (p.get · == key) =
        under.records.filter (p.get · == key) := filter_under hroot hget fun _ => beq_iff_eq.1
    rw [hfilter]
    refine (List.filter_eq_self.2 fun record hrecord => ?_).symm
    exact beq_iff_eq.2 ((hroot.tails key under hget).2 record hrecord)

/-- Where the predicate names a key, a tree plans as its tail does for the records under it. -/
theorem plan_under (hs : (tree p tail unique).Laid s)
    (hexact : (KeyConstraint.ofPredicate predicate p).exact = some key) :
    (tree p tail unique).plan predicate s order =
      tail.plan predicate ((s.root.get? key).getD .empty)
        (order.dropWhile (·.property.same p)) := by
  cases hnever : predicate.any Predicate.isNever with
  | true => rw [plan_of_isNever hnever, plan_of_isNever hnever]
  | false =>
    rcases hs with rfl | hs
    · exact (plan_empty _).trans (plan_empty _).symm
    · have hnonempty : s.isEmpty = false := decide_eq_false (Nat.ne_of_gt hs.size_pos)
      obtain ⟨root, rfl, -, -⟩ := hs
      rw [plan, hnonempty, hnever, Bool.false_or, if_neg Bool.false_ne_true]
      dsimp only [State.root]
      rw [hexact]
      dsimp only
      cases root.get? key with
      | none => exact (plan_empty _).symm
      | some under => rfl

/-- The scan of a range of a state. -/
def scanOf (ix : Index R) (s : State R) (range : KeyRange) (order : Order R) : Scan R :=
  let count := (s.within range).length
  let direction := ix.direction? order
  let cost := if direction.isSome then count else count + sortPenalty count
  { index := ix, state := s, range, direction, cost }

/-- Where the predicate names no key, a tree scans the range that it leaves. -/
theorem plan_within (hs : (tree p tail unique).Laid s)
    (hexact : (KeyConstraint.ofPredicate predicate p).exact = none) :
    (tree p tail unique).plan predicate s order =
      if (s.within (KeyConstraint.ofPredicate predicate p).range).length = 0 ∨
          predicate.any Predicate.isNever = true then .nothing
      else .scan (scanOf (tree p tail unique) s (KeyConstraint.ofPredicate predicate p).range order) := by
  cases hnever : predicate.any Predicate.isNever with
  | true => rw [plan_of_isNever hnever, if_pos (.inr rfl)]
  | false =>
    have hs' := hs
    rcases hs with rfl | hs
    · exact (plan_empty _).trans (if_pos (.inl rfl)).symm
    · have hnonempty : s.isEmpty = false := decide_eq_false (Nat.ne_of_gt hs.size_pos)
      obtain ⟨root, rfl, -, -⟩ := hs
      rw [plan, hnonempty, hnever, Bool.false_or, if_neg Bool.false_ne_true]
      dsimp only
      rw [hexact]
      dsimp only [scanTree]
      rw [countRange_eq_length hs']
      simp only [Bool.false_eq_true, or_false, scanOf]

end Index

/-! ## What a plan reads -/

namespace Plan

/-- Whether all that a plan visits is on a list of records. -/
inductive Reads (records : List R) : Plan R → Prop where
  | nothing : Reads records .nothing
  | scan {walk : Scan R} : walk.state.root.Ordered → (∀ record ∈ walk.visited, record ∈ records) →
      Reads records (.scan walk)
  | union {branches : List (Predicate R × Plan R)} :
      (∀ branch ∈ branches, Reads records branch.2) → Reads records (.union branches)

/-- What a plan puts into a sink. -/
def emitted (q : Query R) : Plan R → List R
  | nothing => []
  | scan walk => q.slice (walk.ranked q.predicate q.sortKeys)
  | union branches => q.slice (q.sortKeys.sort (matchingAll branches))

variable {records : List R} {plan : Plan R}

theorem Reads.mono (h : plan.Reads records) {records' : List R}
    (hsub : ∀ record ∈ records, record ∈ records') : plan.Reads records' := by
  induction h with
  | nothing => exact .nothing
  | scan ho hvisited => exact .scan ho fun record hr => hsub record (hvisited record hr)
  | union _ ih => exact .union ih

theorem Reads.execute_eq (h : plan.Reads records) (q : Query R) (sink : Sink R S) (st : S) :
    plan.execute q sink st = (plan.emitted q).foldl sink.put st := by
  cases h with
  | nothing => rfl
  | scan ho _ => exact Scan.execute_eq ho q sink st
  | union _ => exact Window.drain_eq _ sink _ st

theorem Reads.mem_of_mem_matching (h : plan.Reads records) {predicate : Option (Predicate R)} {x : R}
    (hx : x ∈ plan.matching predicate) : x ∈ records := by
  induction h generalizing predicate with
  | nothing => cases hx
  | scan ho hvisited =>
    rw [matching, Scan.matching_eq ho] at hx
    exact hvisited x (List.mem_filter.1 hx).1
  | union _ ih =>
    rw [matching, matchingAll_eq] at hx
    obtain ⟨branch, hbranch, hx⟩ := List.mem_flatMap.1 hx
    exact ih branch hbranch hx

theorem Reads.mem_of_mem_emitted (h : plan.Reads records) {q : Query R} {x : R}
    (hx : x ∈ plan.emitted q) : x ∈ records := by
  cases h with
  | nothing => cases hx
  | @scan walk ho hvisited =>
    have hranked := (q.slice_sublist _).subset hx
    rw [Scan.ranked] at hranked
    split at hranked
    · rw [List.mem_filter, Direction.mem_arrange] at hranked
      exact hvisited x hranked.1
    · rw [(Order.sort_perm _ _).mem_iff, List.mem_filter] at hranked
      exact hvisited x hranked.1
  | @union branches hbranches =>
    have hfound : x ∈ (Plan.union branches).matching q.predicate :=
      (Order.sort_perm _ _).mem_iff.1 ((q.slice_sublist _).subset hx)
    exact (Reads.union hbranches).mem_of_mem_matching hfound

end Plan

namespace Index

variable {p : Property R} {ix tail : Index R} {unique : Bool} {order : Order R}
  {predicate : Option (Predicate R)} {s : State R} {choices : List (Index R)} {records : List R}

/-- The plan of an index reads the records of the state that the index has laid out. -/
theorem reads_plan (hix : ix.Layered) (hs : ix.Laid s) :
    (ix.plan predicate s order).Reads s.records := by
  induction hix generalizing s order with
  | value =>
    rw [plan]
    split
    · exact .nothing
    · rcases hs with rfl | ⟨record, rfl⟩ <;> exact .scan Tree.ordered_leaf fun _ h => h
  | @tree p tail unique _ ih =>
    cases hexact : (KeyConstraint.ofPredicate predicate p).exact with
    | some key =>
      rw [plan_under hs hexact]
      have hunder := laid_getD hs.sound_root key
      refine (ih hunder).mono fun record hrecord => ?_
      rw [records_under hs] at hrecord
      exact (List.mem_filter.1 hrecord).1
    | none =>
      rw [plan_within hs hexact]
      split
      · exact .nothing
      · exact .scan hs.ordered_root fun _ h => (State.within_sublist _ s).subset h

/-- Alternatives plan as some complete one does for its slot. -/
theorem exists_plan (hne : choices ≠ []) (h : Spread choices.length s)
    (predicate : Option (Predicate R)) (order : Order R) :
    ∃ (i : Nat) (choice : Index R), choices[i]? = some choice ∧ lags s i = false ∧
      (alternatives choices).plan predicate s order = choice.plan predicate (slot s i) order := by
  have hfirst := List.getElem?_eq_getElem (List.length_pos_iff.2 hne)
  cases hnever : predicate.any Predicate.isNever with
  | true =>
    refine ⟨0, _, hfirst, lags_zero h, ?_⟩
    rw [plan_of_isNever hnever, plan_of_isNever hnever]
  | false =>
    cases h with
    | empty => exact ⟨0, _, hfirst, rfl, (plan_empty _).trans (plan_empty _).symm⟩
    | @slots first rest late hsize hlen hcount =>
      have hnonempty : (State.slots (first :: rest) (false :: late)).isEmpty = false :=
        decide_eq_false hsize
      obtain ⟨i, choice, hi, hlags, hmin⟩ := exists_usable (.slots hsize hlen hcount)
        (fun choice slot => choice.plan predicate slot order) Plan.cost
      refine ⟨i, choice, hi, hlags, ?_⟩
      rw [plan, hnonempty, hnever, Bool.false_or, if_neg Bool.false_ne_true, plans_eq, hmin]
      rfl

theorem reads_choose (hlayered : ∀ choice ∈ choices, choice.Layered) (hne : choices ≠ [])
    (h : Fanned choices s)
    (hrecords : ∀ i < choices.length, lags s i = false → ∀ x ∈ (slot s i).records, x ∈ records)
    (q : Query R) : (Plan.choose choices s q).Reads records := by
  have hreads (predicate : Option (Predicate R)) (order : Order R) :
      ((alternatives choices).plan predicate s order).Reads records := by
    obtain ⟨i, choice, hi, hlags, hplan⟩ := exists_plan hne h.spread predicate order
    rw [hplan]
    exact (reads_plan (hlayered choice (List.mem_of_getElem? hi)) (h.laid i choice hi)).mono
      (hrecords i (List.getElem?_eq_some_iff.1 hi).1 hlags)
  unfold Plan.choose
  dsimp only
  split
  · split
    · exact .nothing
    · refine .union fun branch hbranch => ?_
      obtain ⟨term, -, rfl⟩ := List.mem_map.1 hbranch
      exact hreads _ _
  · exact hreads _ _

/-! ## What a plan finds -/

/-- Whether the plan of an index comes to a record, going by the keys that the record reads. -/
def reaches (predicate : Option (Predicate R)) : Index R → R → Bool
  | tree p tail _, record =>
    match (KeyConstraint.ofPredicate predicate p).exact with
    | some key => p.get record == key && reaches predicate tail record
    | none => (KeyConstraint.ofPredicate predicate p).range.contains (p.get record)
  | value, _ => true
  | alternatives _, _ => true

/-- The plan of an index finds the records that it comes to and the predicate admits, in index
order. -/
theorem matching_plan (hix : ix.Layered) (hs : ix.Laid s) :
    (ix.plan predicate s order).matching predicate =
      s.records.filter fun record =>
        ix.reaches predicate record && Predicate.admits predicate record := by
  induction hix generalizing s order with
  | value =>
    cases hnever : predicate.any Predicate.isNever with
    | true =>
      rw [plan_of_isNever hnever]
      simp [Plan.matching, admits_of_isNever hnever]
    | false =>
      rcases hs with rfl | ⟨record, rfl⟩
      · rw [plan_empty]
        rfl
      · have hnonempty : (State.single record).isEmpty = false := rfl
        rw [plan, hnonempty, hnever, Bool.false_or, if_neg Bool.false_ne_true]
        refine (Scan.matching_eq ?_ predicate).trans rfl
        exact Tree.ordered_leaf
  | @tree p tail unique _ ih =>
    cases hexact : (KeyConstraint.ofPredicate predicate p).exact with
    | some key =>
      rw [plan_under hs hexact, ih (laid_getD hs.sound_root key), records_under hs,
        List.filter_filter]
      refine List.filter_congr fun record _ => ?_
      rw [reaches, hexact]
      simp only [Bool.and_assoc, Bool.and_comm, Bool.and_left_comm]
    | none =>
      have hfound : s.records.filter (fun record =>
          (tree p tail unique).reaches predicate record && Predicate.admits predicate record) =
          (s.within (KeyConstraint.ofPredicate predicate p).range).filter
            (Predicate.admits predicate) := by
        rw [within_eq_filter hs, List.filter_filter]
        refine List.filter_congr fun record _ => ?_
        rw [reaches, hexact, Bool.and_comm]
      rw [hfound, plan_within hs hexact]
      split
      · next hnothing =>
        rcases hnothing with hempty | hnever
        · rw [List.length_eq_zero_iff.1 hempty]
          rfl
        · simp [Plan.matching, admits_of_isNever hnever]
      · exact Scan.matching_eq hs.ordered_root predicate

end Index

end RecordStore
