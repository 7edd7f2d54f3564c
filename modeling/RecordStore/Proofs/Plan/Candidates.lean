import RecordStore.Proofs.Index.WellFormed
import RecordStore.Proofs.Plan.Serves
/-!
# What the plan of each index finds

Alternatives are planned one by one, and only the cheapest plan is carried out. A plan that finds
nothing costs nothing, so it would win over all others: each candidate has to be right by itself.
Whatever has been written to an index, its plan finds the records that the predicate admits, each of
them once, and it gives up only if there are none (`finds_plan`).
-/

namespace RecordStore

namespace Plan

variable {R : Type} {trusted : Prop} {predicate : Option (Predicate R)} {order : Order R}
  {records : List R} {plan : Plan R}

/-- What the plan of one index owes to a predicate, whatever the order: it is a scan that finds the
records that the predicate admits, each once and in their order, or there is no such record. -/
def Finds (predicate : Option (Predicate R)) (records : List R) : Plan R → Prop
  | nothing => ∀ record ∈ records, Predicate.admits predicate record = false
  | scan walk =>
    walk.matching predicate = records.filter (Predicate.admits predicate) ∧
      (walk.matching predicate).Nodup
  | union _ => False

/-- A plan that serves on distinct records finds what it owes. -/
theorem finds_of_serves (h : plan.Serves trusted predicate order records) (hnodup : records.Nodup) :
    plan.Finds predicate records := by
  cases plan with
  | nothing =>
    intro record hrecord
    exact Bool.eq_false_iff.2 (List.filter_eq_nil_iff.1 h record hrecord)
  | scan walk =>
    have hmatching : walk.matching predicate = records.filter (Predicate.admits predicate) :=
      (Scan.matching_eq h.ordered predicate).trans h.finds
    exact ⟨hmatching, hmatching ▸ hnodup.filter _⟩
  | union branches => exact h.elim

end Plan

namespace Index

variable {R : Type} {pk : Property R} {ix : Index R}

/-- The plan of an index finds, in whatever has been written to it, the records that the predicate
admits, for every predicate and every order. -/
theorem finds_plan (hix : Registered pk ix) (writes : List (Write R))
    (predicate : Option (Predicate R)) (order : Order R)
    (hcoherent : Property.Coherent (ix.properties ++ predicate.elim [] Predicate.properties)) :
    (ix.plan predicate (ix.written writes) order).Finds predicate (ix.written writes).records := by
  have hchained : Chained pk ix := hix.chained
  have hlaid : ix.Laid (ix.written writes) := laid_written hchained.layered writes
  have hagrees : ∀ p ∈ ix.properties, p.Agrees (predicate.elim [] Predicate.properties) := by
    intro p hp
    exact hcoherent.agrees (List.mem_append_left _ hp) (List.subset_append_right _ _)
  -- No order is trusted: what is found does not depend on it.
  have hserves : (ix.plan predicate (ix.written writes) order).Serves False predicate order
      (ix.written writes).records := serves_plan hchained hlaid hagrees False.elim
  exact Plan.finds_of_serves hserves (nodup_records hchained.layered hlaid)

/-! ### A chain over pairs -/

/-- The first of a pair, which tells it from others. -/
def number : Property (Int × Int) :=
  ⟨"number", fun pair => .int pair.1⟩

/-- The second of a pair. -/
def weight : Property (Int × Int) :=
  ⟨"weight", fun pair => .int pair.2⟩

/-- Four pairs, of which one goes and another one stays under a second weight as well. -/
def weighings : List (Write (Int × Int)) :=
  [.put (1, 30), .put (2, 20), .put (3, 20), .put (4, 50), .remove (4, 50), .put (1, 10), .remove (3, 0)]

/-- Weights in the hull of two, but not those of the second pair. -/
def chosen : Predicate (Int × Int) :=
  .all [.compare weight (.oneOf [.int 30, .int 20]), .not (.compare number (.eq (.int 2)))]

theorem finds_plan_weighings :
    Registered number (chain [weight] number) ∧
      Property.Coherent ((chain [weight] number).properties ++
        (some chosen).elim [] Predicate.properties) ∧
      ((chain [weight] number).plan (some chosen) ((chain [weight] number).written weighings)
        [⟨number, .desc⟩]).Finds (some chosen) ((chain [weight] number).written weighings).records := by
  have hcoherent : Property.Coherent ((chain [weight] number).properties ++
      (some chosen).elim [] Predicate.properties) := by
    have hproperties : (chain [weight] number).properties ++
      (some chosen).elim [] Predicate.properties = [weight, number, weight, number] := rfl
    rw [hproperties]
    exact Property.coherent_of_pair (p := weight) (q := number) rfl (by simp)
  exact ⟨.chain [weight], hcoherent,
    finds_plan (.chain [weight]) weighings (some chosen) [⟨number, .desc⟩] hcoherent⟩

end Index

end RecordStore
