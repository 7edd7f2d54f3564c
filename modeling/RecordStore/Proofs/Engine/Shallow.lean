import Mathlib.Data.Nat.Fib.Basic
import Mathlib.Order.SuccPred.Archimedean
import RecordStore.Proofs.Engine.PrimaryLookup
import RecordStore.Proofs.Plan.Candidates
/-!
# Trees stay shallow

A balanced tree of some height has at least as many keys as one in which every node has a subtree
one lower than the other, and their numbers grow like those of Fibonacci (`Tree.Balanced.fib_le`).
So the height of a tree is bounded by the greatest one that its number of keys allows (`Tallest`),
and with it the cost of looking a primary key up. This holds of every tree that an index has
written, the one at the top and those in its tails (`State.Nests`), and of every engine, as that
looks a key up in the tree of the primary key (`trees_shallow`).
-/

namespace RecordStore

open Log Index

/-! ## Heights and numbers of keys -/

namespace Tree

variable {T : Type}

theorem Ordered.nodup_keys {t : Tree T} (ho : t.Ordered) : (t.toList.map (·.1)).Nodup := by
  refine List.pairwise_map.2 (List.Pairwise.imp (fun {a b} hlt heq => ?_) ho)
  simp [heq] at hlt

theorem Balanced.fib_le {t : Tree T} (hb : t.Balanced) : Nat.fib (t.height + 2) ≤ t.keyCount + 1 := by
  induction t with
  | leaf => exact Nat.le_refl 1
  | node k under l r h n ihl ihr =>
    obtain ⟨hbl, hbr, hlr, hrl, hh⟩ := hb
    have hleft := ihl hbl
    have hright := ihr hbr
    rw [height_node, keyCount, Nat.fib_add_two]
    -- One subtree is one lower than the node, the other is at most two lower.
    rcases Nat.le_total l.height r.height with hle | hle
    · have hlow : Nat.fib h ≤ Nat.fib (l.height + 2) := Nat.fib_mono (by omega)
      have hhigh : Nat.fib (h + 1) ≤ Nat.fib (r.height + 2) := Nat.fib_mono (by omega)
      omega
    · have hlow : Nat.fib h ≤ Nat.fib (r.height + 2) := Nat.fib_mono (by omega)
      have hhigh : Nat.fib (h + 1) ≤ Nat.fib (l.height + 2) := Nat.fib_mono (by omega)
      omega

/-- What it says of a tree that it is shallow: its number of distinct keys grows with its height. -/
structure Shallow (t : Tree T) : Prop where
  nodup : (t.toList.map (·.1)).Nodup
  keyCount_eq : t.keyCount = t.toList.length
  height_eq : t.height = t.depth
  fib_le : Nat.fib (t.depth + 2) - 1 ≤ t.keyCount

theorem Ordered.shallow {t : Tree T} (ho : t.Ordered) (hb : t.Balanced) : t.Shallow where
  nodup := ho.nodup_keys
  keyCount_eq := t.keyCount_eq
  height_eq := hb.height_eq
  fib_le := by
    rw [← hb.height_eq]
    exact Nat.sub_le_of_le_add hb.fib_le

end Tree

/-- The greatest height of a balanced tree with at most so many keys. -/
def Tallest (keys height : Nat) : Prop :=
  IsGreatest {h | Nat.fib (h + 2) - 1 ≤ keys} height

theorem exists_tallest (keys : Nat) : ∃ height, Tallest keys height ∧ height ≤ keys := by
  have hbound {h : Nat} (hh : Nat.fib (h + 2) - 1 ≤ keys) : h ≤ keys := by
    have hgrows : h + Nat.fib 2 ≤ Nat.fib (h + 2) := Nat.fib_add_two_strictMono.add_le_nat h 0
    rw [Nat.fib_two] at hgrows
    omega
  obtain ⟨height, hgreatest⟩ := BddAbove.exists_isGreatest_of_nonempty
    (S := {h | Nat.fib (h + 2) - 1 ≤ keys}) ⟨keys, fun _ => hbound⟩ ⟨0, Nat.zero_le _⟩
  exact ⟨height, hgreatest, hbound hgreatest.1⟩

/-! ## The trees of an index -/

/-- The trees of a state: its own, and those of the tails in it. -/
inductive State.Nests {R : Type} : State R → Tree (State R) → Prop where
  | root (t : Tree (State R)) : Nests (.tree t) t
  | tail {t nested : Tree (State R)} {a : Key × State R} :
      a ∈ t.toList → Nests a.2 nested → Nests (.tree t) nested
  | slot {s : State R} {slots : List (State R)} {nested : Tree (State R)} (late : List Bool) :
      s ∈ slots → Nests s nested → Nests (.slots slots late) nested

namespace Index

variable {R : Type} {pk : Property R} {ix : Index R} {s : State R} {t : Tree (State R)}

theorem Fits.exists_sound (hs : ix.Fits (.tree t)) : ∃ p tail, t.Sound (TailFits p tail) := by
  cases ix with
  | value =>
    obtain ⟨_, h⟩ := hs
    cases h
  | tree p tail unique =>
    obtain ⟨_, h, -, hroot⟩ := hs
    cases h
    exact ⟨p, tail, hroot⟩
  | alternatives choices => exact hs.elim

theorem not_fits_slots {slots : List (State R)} {late : List Bool} : ¬ix.Fits (.slots slots late) := by
  intro hs
  cases ix with
  | value =>
    obtain ⟨_, h⟩ := hs
    cases h
  | tree p tail unique =>
    obtain ⟨_, h, -⟩ := hs
    cases h
  | alternatives choices => exact hs.elim

theorem Fits.shallow (hs : ix.Fits s) (ht : s.Nests t) : t.Shallow := by
  induction ht generalizing ix with
  | root t =>
    obtain ⟨_, _, hroot⟩ := hs.exists_sound
    exact hroot.ordered.shallow hroot.balanced
  | tail ha _ ih =>
    obtain ⟨_, _, hroot⟩ := hs.exists_sound
    exact ih (hroot.of_mem ha).1
  | slot late _ _ _ => exact absurd hs not_fits_slots

theorem Laid.shallow (hs : ix.Laid s) (ht : s.Nests t) : t.Shallow := by
  rcases hs with rfl | hs
  · cases ht
  · exact hs.shallow ht

theorem Fanned.shallow {choices : List (Index R)} (hs : Fanned choices s) (ht : s.Nests t) :
    t.Shallow := by
  cases hs.spread with
  | empty => cases ht
  | @slots first rest late _ _ hcount =>
    cases ht with
    | @slot held _ _ _ hmem hnested =>
      obtain ⟨i, hi⟩ := List.mem_iff_getElem?.1 hmem
      have hlt : i < choices.length :=
        Nat.lt_of_lt_of_le (List.getElem?_eq_some_iff.1 hi).1 hcount
      have hslot : slot (.slots (first :: rest) (false :: late)) i = held := by
        rw [slot, slotsOf, List.getD_eq_getElem?_getD, hi, Option.getD_some]
      exact (hslot ▸ hs.laid i _ (List.getElem?_eq_getElem hlt)).shallow hnested

/-- Through any index a lookup takes at most as many steps as there are records. -/
theorem Chained.lookup_cost_le (hix : Chained pk ix) (hs : ix.Laid s) :
    (ix.lookup s).cost ≤ s.records.length := by
  rw [← hs.size_eq]
  rcases hs with rfl | hs
  · cases hix <;> exact Nat.zero_le _
  · cases hix with
    | unique =>
      obtain ⟨root, rfl, -, hroot⟩ := hs
      exact height_le_size hroot
    | tree p _ =>
      obtain ⟨root, rfl, -, -⟩ := hs
      exact Nat.le_refl _

/-- The tree of a primary key is no higher than its number of records allows. -/
theorem lookup_unique_cost_le (hs : (unique pk).Laid s) {height : Nat} (h : Tallest s.size height) :
    ((unique pk).lookup s).cost ≤ height := by
  rcases hs with rfl | ⟨root, rfl, -, hroot⟩
  · exact Nat.zero_le _
  · have hkeys := Tree.keyCount_le_size hroot.sized fun _ ha => (hroot.of_mem ha).1.size_pos
    have hfib := hroot.balanced.fib_le
    apply h.2
    show Nat.fib (root.height + 2) - 1 ≤ root.size
    omega

end Index

/-- Every tree that an index has written is shallow. So no lookup of a primary key in its tree, and
none by an engine, takes more steps than the greatest height that there can be over so many records;
and that height is at most their number. -/
theorem trees_shallow {R : Type} (pk : Property R) :
    (∀ ix, Registered pk ix → ∀ writes : List (Write R),
        (∀ t, (ix.written writes).Nests t → t.Shallow) ∧
          (ix.lookup (ix.written writes)).cost ≤ (ix.written writes).records.length) ∧
      (∀ writes : List (Write R), ∃ height,
        Tallest ((unique pk).written writes).records.length height ∧
          height ≤ ((unique pk).written writes).records.length ∧
          ((unique pk).lookup ((unique pk).written writes)).cost ≤ height) ∧
      ∀ run : Run R,
        (∀ t, run.engine.state.Nests t → t.Shallow) ∧
          ∃ height, Tallest run.engine.size height ∧ height ≤ run.engine.size ∧
            run.engine.view.lookup.cost ≤ height := by
  refine ⟨fun ix hix writes => ?_, fun writes => ?_, fun run => ?_⟩
  · have hlaid : ix.Laid (ix.written writes) := laid_written hix.chained.layered writes
    exact ⟨fun _ => hlaid.shallow, hix.chained.lookup_cost_le hlaid⟩
  · have hlaid : (unique pk).Laid ((unique pk).written writes) :=
      laid_written Chained.unique.layered writes
    obtain ⟨height, htallest, hle⟩ := exists_tallest ((unique pk).written writes).records.length
    exact ⟨height, htallest, hle, lookup_unique_cost_le hlaid (hlaid.size_eq ▸ htallest)⟩
  · obtain ⟨height, htallest, hle⟩ := exists_tallest run.engine.size
    refine ⟨fun _ => run.holds.fanned.shallow, height, htallest, hle, ?_⟩
    have hlookup : run.engine.view.lookup = (unique run.primaryKey).lookup (slot run.engine.state 0) :=
      run.holds.lookup_eq_first run.uniform run.primary_first
    have hsize : run.engine.size = (slot run.engine.state 0).size := run.holds.fanned.spread.size_eq
    rw [hlookup]
    exact lookup_unique_cost_le (run.holds.fanned.laid 0 _ run.primary_first) (hsize ▸ htallest)

namespace Index

/-- Seven pairs of one weight, put so that the tree of their numbers is as high as seven keys allow. -/
def leaning : List (Write (Int × Int)) :=
  [5, 3, 6, 2, 4, 7, 1].map fun i => .put (i, 10)

/-- The tree of the numbers below the one weight. -/
def leaningTree : Tree (State (Int × Int)) :=
  (((secondary weight number).written leaning).root.rootTail?.getD .empty).root

/-- A nested tree of height 4, which takes 7 keys. -/
theorem trees_shallow_leaning :
    Registered number (secondary weight number) ∧
      ((secondary weight number).written leaning).Nests leaningTree ∧
      leaningTree.Shallow ∧ leaningTree.depth = 4 ∧ leaningTree.keyCount = Nat.fib (4 + 2) - 1 := by
  have hnests : ((secondary weight number).written leaning).Nests leaningTree :=
    .tail (a := (.int 10, .tree leaningTree)) (.head _) (.root _)
  have hwritten := (trees_shallow number).1 (secondary weight number) (.secondary weight) leaning
  have hshallow := hwritten.1 _ hnests
  exact ⟨.secondary weight, hnests, hshallow, by decide +kernel, by decide +kernel⟩

end Index

end RecordStore
