import Mathlib.Data.List.Forall2
import RecordStore.Plan.Explain
import RecordStore.Proofs.Index.Complete
import RecordStore.Proofs.Plan.Contents
/-!
# Plans that are alike

Two plans are alike if they go the same way over the same records: the same scans with the same
ranges, directions and costs, of states that list the same records there (`Plan.Alike`). The trees
that they walk may be of different shapes, and nothing that comes of a plan shows it:
`Alike.cost_eq`, `Alike.execute_eq`, `Alike.ofPlan_eq`.

An index plans alike on all states that list the same records, however they came about
(`alike_plan`), and so do alternatives of which the same are complete (`Index.Alike.choose`).
-/

namespace RecordStore

variable {R S : Type}

/-- Whether two scans go the same way over the same records. -/
structure Scan.Alike (a b : Scan R) : Prop where
  left : a.state.root.Ordered
  right : b.state.root.Ordered
  index : b.index = a.index
  range : b.range = a.range
  direction : b.direction = a.direction
  cost : b.cost = a.cost
  visited : b.visited = a.visited

theorem Scan.Alike.matching_eq {a b : Scan R} (h : a.Alike b) (predicate : Option (Predicate R)) :
    b.matching predicate = a.matching predicate := by
  rw [Scan.matching_eq h.right, Scan.matching_eq h.left, h.visited]

theorem Scan.Alike.execute_eq {a b : Scan R} (h : a.Alike b) (q : Query R) (sink : Sink R S) (st : S) :
    b.execute q sink st = a.execute q sink st := by
  rw [Scan.execute_eq h.right, Scan.execute_eq h.left, Scan.ranked, Scan.ranked, h.direction, h.visited]

namespace Plan

/-- Whether two plans go the same way over the same records. -/
inductive Alike : Plan R → Plan R → Prop where
  | nothing : Alike .nothing .nothing
  | scan {a b : Scan R} : a.Alike b → Alike (.scan a) (.scan b)
  | union (branches : List (Predicate R × Plan R × Plan R)) :
      (∀ branch ∈ branches, Alike branch.2.1 branch.2.2) →
      Alike (.union (branches.map fun branch => (branch.1, branch.2.1)))
        (.union (branches.map fun branch => (branch.1, branch.2.2)))

variable {a b : Plan R}

namespace Alike

theorem cost_eq (h : Alike a b) : b.cost = a.cost := by
  induction h with
  | nothing => rfl
  | scan h => exact h.cost
  | union branches hbranches ih =>
    show costOfAll _ = costOfAll _
    induction branches with
    | nil => rfl
    | cons branch branches ihrest =>
      rw [List.map_cons, List.map_cons, costOfAll, costOfAll, ih branch List.mem_cons_self,
        ihrest (fun c hc => hbranches c (List.mem_cons_of_mem _ hc)) fun c hc =>
          ih c (List.mem_cons_of_mem _ hc)]

theorem matching_eq (h : Alike a b) (predicate : Option (Predicate R)) :
    b.matching predicate = a.matching predicate := by
  induction h generalizing predicate with
  | nothing => rfl
  | scan h => exact h.matching_eq predicate
  | union branches _ ih =>
    rw [matching, matching, matchingAll_eq, matchingAll_eq, List.flatMap_map, List.flatMap_map]
    exact List.flatMap_congr fun branch hbranch => ih branch hbranch (some branch.1)

/-- Plans that are alike put the same into every sink. -/
theorem execute_eq (h : Alike a b) (q : Query R) (sink : Sink R S) (st : S) :
    b.execute q sink st = a.execute q sink st := by
  cases h with
  | nothing => rfl
  | scan h => exact h.execute_eq q sink st
  | union branches hbranches =>
    have hmatching := (union branches hbranches).matching_eq q.predicate
    rw [matching, matching] at hmatching
    rw [execute, execute, hmatching]

/-- Plans that are alike are explained in the same way. -/
theorem ofPlan_eq (h : Alike a b) (q : Query R) : Explain.ofPlan b q = Explain.ofPlan a q := by
  have hcost := h.cost_eq
  induction h generalizing q with
  | nothing => rfl
  | scan h => rw [Explain.ofPlan, Explain.ofPlan, hcost, h.index, h.range, h.direction]
  | union branches hbranches ih =>
    have hexplained : Explain.ofBranches (branches.map fun branch => (branch.1, branch.2.2)) =
        Explain.ofBranches (branches.map fun branch => (branch.1, branch.2.1)) := by
      clear hcost
      induction branches with
      | nil => rfl
      | cons branch branches ihrest =>
        rw [List.map_cons, List.map_cons, Explain.ofBranches, Explain.ofBranches,
          ih branch List.mem_cons_self _ (hbranches branch List.mem_cons_self).cost_eq,
          ihrest (fun c hc => hbranches c (List.mem_cons_of_mem _ hc)) fun c hc =>
            ih c (List.mem_cons_of_mem _ hc)]
    rw [Explain.ofPlan, Explain.ofPlan, hcost, hexplained]

/-- The cheapest of plans that are alike in pairs are alike. -/
theorem minOn? {as bs : List (Plan R)} (h : List.Forall₂ Alike as bs) :
    Alike ((as.minOn? cost).getD .nothing) ((bs.minOn? cost).getD .nothing) := by
  cases h with
  | nil => exact .nothing
  | @cons a b as bs hab h =>
    show Alike (as.foldl (minOn cost) a) (bs.foldl (minOn cost) b)
    induction h generalizing a b with
    | nil => exact hab
    | @cons a' b' as bs hab' h ih =>
      refine ih ?_
      rw [minOn, minOn, hab.cost_eq, hab'.cost_eq]
      split
      · exact hab
      · exact hab'

end Alike

end Plan

namespace Index

variable {p : Property R} {ix tail : Index R} {unique : Bool} {order : Order R}
  {predicate : Option (Predicate R)} {choices : List (Index R)} {s t : State R}

/-- An index plans alike on states that list the same records. -/
theorem alike_plan (hix : ix.Layered) (hs : ix.Laid s) (ht : ix.Laid t)
    (hrecords : t.records = s.records) :
    (ix.plan predicate s order).Alike (ix.plan predicate t order) := by
  induction hix generalizing s t order with
  | value =>
    have hsame : t = s := by
      rcases hs with rfl | ⟨a, rfl⟩ <;> rcases ht with rfl | ⟨b, rfl⟩
      · rfl
      · cases hrecords
      · cases hrecords
      · rw [List.cons.inj hrecords |>.1]
    subst hsame
    rw [plan]
    split
    · exact .nothing
    · exact .scan ⟨hs.ordered_root, hs.ordered_root, rfl, rfl, rfl, rfl, rfl⟩
  | @tree p tail unique _ ih =>
    cases hexact : (KeyConstraint.ofPredicate predicate p).exact with
    | some key =>
      rw [plan_under hs hexact, plan_under ht hexact]
      refine ih (laid_getD hs.sound_root key) (laid_getD ht.sound_root key) ?_
      rw [records_under hs, records_under ht, hrecords]
    | none =>
      have hwithin : t.within (KeyConstraint.ofPredicate predicate p).range =
          s.within (KeyConstraint.ofPredicate predicate p).range := by
        rw [within_eq_filter hs, within_eq_filter ht, hrecords]
      rw [plan_within hs hexact, plan_within ht hexact, hwithin]
      split
      · exact .nothing
      · refine .scan ⟨hs.ordered_root, ht.ordered_root, rfl, rfl, rfl, ?_, hwithin⟩
        rw [scanOf, scanOf, hwithin]

/-- Whether two states have the same complete alternatives with the same records. -/
structure Alike (choices : List (Index R)) (s t : State R) : Prop where
  left : Fanned choices s
  right : Fanned choices t
  lags : ∀ i < choices.length, lags t i = lags s i
  records : ∀ i < choices.length, Index.lags s i = false → (slot t i).records = (slot s i).records

namespace Alike

theorem isEmpty_eq (h : Alike choices s t) (hne : choices ≠ []) : t.isEmpty = s.isEmpty := by
  have hpos := List.length_pos_iff.2 hne
  have hfirst := List.getElem?_eq_getElem hpos
  have hsize : t.size = s.size := by
    rw [h.left.spread.size_eq, h.right.spread.size_eq, (h.left.laid 0 _ hfirst).size_eq,
      (h.right.laid 0 _ hfirst).size_eq, h.records 0 hpos (lags_zero h.left.spread)]
  rw [State.isEmpty, State.isEmpty, hsize]

theorem complete (h : Alike choices s t) :
    List.Forall₂ (fun a b => a.1 ∈ choices ∧ b.1 = a.1 ∧ a.1.Laid a.2 ∧ a.1.Laid b.2 ∧
      b.2.records = a.2.records) (complete choices s) (complete choices t) := by
  unfold Index.complete
  refine List.rel_filterMap (R := fun c d => d = c ∧ choices[c.2]? = some c.1) ?_ ?_
  · rintro ⟨choice, i⟩ _ ⟨rfl, hi⟩
    have hlt := (List.getElem?_eq_some_iff.1 hi).1
    dsimp only
    rw [h.lags i hlt]
    cases hlags : Index.lags s i with
    | true => exact .none
    | false => exact .some ⟨List.mem_of_getElem? hi, rfl, h.left.laid i choice hi,
        h.right.laid i choice hi, h.records i hlt hlags⟩
  · rw [List.forall₂_same]
    exact fun c hc => ⟨rfl, List.mem_zipIdx_iff_getElem?.1 hc⟩

/-- Alternatives plan alike on states that have the same records in the same complete ones. -/
theorem plan (h : Alike choices s t) (hlayered : ∀ choice ∈ choices, choice.Layered)
    (hne : choices ≠ []) (predicate : Option (Predicate R)) (order : Order R) :
    ((alternatives choices).plan predicate s order).Alike
      ((alternatives choices).plan predicate t order) := by
  rw [plan_alternatives h.left.spread, plan_alternatives h.right.spread, h.isEmpty_eq hne]
  split
  · exact .nothing
  · apply Plan.Alike.minOn?
    rw [List.forall₂_map_left_iff, List.forall₂_map_right_iff]
    refine h.complete.imp ?_
    rintro ⟨_, slot⟩ ⟨choice, slot'⟩ ⟨hmem, rfl, hs, ht, hrecords⟩
    exact alike_plan (hlayered choice hmem) hs ht hrecords

theorem choose (h : Alike choices s t) (hlayered : ∀ choice ∈ choices, choice.Layered)
    (hne : choices ≠ []) (q : Query R) :
    (Plan.choose choices s q).Alike (Plan.choose choices t q) := by
  unfold Plan.choose
  dsimp only
  rw [h.isEmpty_eq hne]
  split
  · next terms _ =>
    split
    · exact .nothing
    · have halike := Plan.Alike.union (terms.map fun term =>
        (term, (alternatives choices).plan (some term) s [],
          (alternatives choices).plan (some term) t [])) fun branch hbranch => by
        obtain ⟨term, -, rfl⟩ := List.mem_map.1 hbranch
        exact h.plan hlayered hne (some term) []
      rw [List.map_map, List.map_map] at halike
      exact halike
  · exact h.plan hlayered hne q.predicate q.sortKeys

end Alike

end Index

end RecordStore
