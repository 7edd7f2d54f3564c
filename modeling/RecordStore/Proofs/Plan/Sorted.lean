import RecordStore.Proofs.Plan.Candidates
/-!
# The order in which a walk comes to its records

A scan that names a direction is streamed and never sorted, so its walk must come to the records in
the order asked for. `State.walked` lists what a range walk comes to, in the order in which it does.
Every index keeps this promise for every predicate and every order, also for the keys of the order
that it leaves out of account when it descends to the records under one key, and so does the walk
over all records of an index that satisfies the order (`pairwise_walked`).
-/

namespace RecordStore

namespace State

variable {R : Type}

/-- The records that a range walk comes to, one after the other. -/
def walked (direction : Direction) (range : KeyRange) (s : State R) : List R :=
  (s.walkRange direction range (fun (seen : Array R) record => .more (seen.push record))
    #[]).state.toList

theorem walked_eq (direction : Direction) (range : KeyRange) {s : State R} (ho : s.root.Ordered) :
    s.walked direction range = direction.arrange (s.within range) := by
  rw [walked, walkRange_eq direction range _ ho, Visit.list_more, Visit.state]
  simp

end State

namespace Index

variable {R : Type} {pk : Property R} {ix : Index R} {order : Order R} {d : Direction}

theorem Chained.satisfies_of_direction? (hix : Chained pk ix) (h : ix.direction? order = some d) :
    ix.satisfies d order = true := by
  cases hix with
  | unique => exact Index.satisfies_of_direction? h
  | tree p _ => exact Index.satisfies_of_direction? h

/-- What an index plans to walk in a direction for an order comes sorted by the order, whatever has
been written to the index; and all its records do in a direction that yields the order. -/
theorem pairwise_walked (hix : Registered pk ix) (writes : List (Write R))
    (predicate : Option (Predicate R)) (order : Order R)
    (hcoherent : Property.Coherent
      (ix.properties ++ predicate.elim [] Predicate.properties ++ order.properties)) :
    (∀ (scan : Scan R) (d : Direction),
        ix.plan predicate (ix.written writes) order = .scan scan → scan.direction = some d →
        (scan.state.walked d scan.range).Pairwise fun a b => (order.compare a b).isLE = true) ∧
      ∀ d : Direction, ix.direction? order = some d →
        ((ix.written writes).walked d .all).Pairwise fun a b => (order.compare a b).isLE = true := by
  have hchained : Chained pk ix := hix.chained
  have hlaid : ix.Laid (ix.written writes) := laid_written hchained.layered writes
  have hindex {p : Property R} (hp : p ∈ ix.properties) :
      p ∈ ix.properties ++ predicate.elim [] Predicate.properties ++ order.properties :=
    List.mem_append_left _ (List.mem_append_left _ hp)
  have hpredicate : ∀ p ∈ ix.properties, p.Agrees (predicate.elim [] Predicate.properties) :=
    fun p hp => hcoherent.agrees (hindex hp) fun q hq =>
      List.mem_append_left _ (List.mem_append_right _ hq)
  have horder : ∀ p ∈ ix.properties, p.Agrees order.properties :=
    fun p hp => hcoherent.agrees (hindex hp) (List.subset_append_right _ _)
  constructor
  · intro scan d hscan hd
    have hserves : (ix.plan predicate (ix.written writes) order).Serves True predicate order
        (ix.written writes).records := serves_plan hchained hlaid hpredicate fun _ => horder
    rw [hscan] at hserves
    rw [State.walked_eq d scan.range hserves.ordered]
    exact hserves.sorted trivial d hd
  · intro d hd
    rw [State.walked_eq d .all hlaid.ordered_root]
    exact pairwise_within hchained hlaid horder (hchained.satisfies_of_direction? hd) .all

/-! ### One weight -/

/-- The pairs of one weight, of which there are two. -/
def twenties : Predicate (Int × Int) :=
  .compare weight (.eq (.int 20))

/-- Weights twice and in both directions, then falling numbers. -/
def fallingNumbers : Order (Int × Int) :=
  [⟨weight, .asc⟩, ⟨weight, .desc⟩, ⟨number, .desc⟩]

theorem pairwise_walked_twenties :
    Registered number (chain [weight] number) ∧
      Property.Coherent ((chain [weight] number).properties ++
        (some twenties).elim [] Predicate.properties ++ fallingNumbers.properties) ∧
      ∃ scan, (chain [weight] number).plan (some twenties) ((chain [weight] number).written weighings)
          fallingNumbers = .scan scan ∧
        scan.direction = some .desc ∧
        scan.state.walked .desc scan.range = [(3, 20), (2, 20)] ∧
        (scan.state.walked .desc scan.range).Pairwise fun a b =>
          (fallingNumbers.compare a b).isLE = true := by
  have hcoherent : Property.Coherent ((chain [weight] number).properties ++
      (some twenties).elim [] Predicate.properties ++ fallingNumbers.properties) := by
    have hproperties : (chain [weight] number).properties ++
        (some twenties).elim [] Predicate.properties ++ fallingNumbers.properties =
      [weight, number, weight, weight, weight, number] := rfl
    rw [hproperties]
    exact Property.coherent_of_pair (p := weight) (q := number) rfl (by simp)
  refine ⟨.chain [weight], hcoherent, _, rfl, rfl, rfl, ?_⟩
  exact (pairwise_walked (.chain [weight]) weighings (some twenties) fallingNumbers hcoherent).1
    _ .desc rfl rfl

end Index

end RecordStore
