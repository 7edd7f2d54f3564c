import RecordStore.Index.Basic
import RecordStore.Proofs.Tree.Balance
import RecordStore.Proofs.Tree.Size
/-!
# How states are laid out

`Index.Fits` says that a state is one that an index has made of at least one record: a search tree,
ordered, balanced and with true sizes, in which every tail fits the tail index and holds only
records that read the key they are under. `Index.Laid` adds the empty state.

* A record is found under the key that it reads: `mem_recordsOfTree`.
* Writes keep the layout and act on the records only by `Index.keys`, the keys by which an index
  places a record: `fits_put`, `laid_remove`.
-/

namespace RecordStore

/-! ## Sound trees -/

namespace Tree

variable {T : Type} [Weighted T] {holds : Key → T → Prop} {t : Tree T}

/-- A tree that is ordered, balanced and truly sized, each of whose tails holds what its key says. -/
structure Sound (holds : Key → T → Prop) (t : Tree T) : Prop where
  ordered : t.Ordered
  balanced : t.Balanced
  sized : t.Sized
  tails : ∀ k under, t.get? k = some under → holds k under

theorem Sound.of_mem (h : t.Sound holds) {a : Key × T} (ha : a ∈ t.toList) : holds a.1 a.2 :=
  h.tails a.1 a.2 ((get?_eq_some_iff h.ordered).2 ha)

theorem Sound.leaf : (leaf : Tree T).Sound holds :=
  ⟨ordered_leaf, trivial, trivial, fun _ _ h => by simp [get?, subtree, rootTail?] at h⟩

theorem Sound.upsert (h : t.Sound holds) (key : Key) (write : Option T → T)
    (hw : holds key (write (t.get? key))) : (t.upsert key write).Sound holds := by
  refine ⟨h.ordered.upsert key write, (balanced_upsert h.balanced key write).1,
    sized_upsert h.sized key write, fun k under hk => ?_⟩
  rw [get?_upsert h.ordered] at hk
  split at hk
  · next e =>
    cases hk
    exact e ▸ hw
  · exact h.tails k under hk

theorem Sound.erase {key : Key} {shrink : T → T} (h : t.Sound holds)
    (hs : ∀ under, holds key under → weight (shrink under) ≠ 0 → holds key (shrink under)) :
    (t.erase key shrink).Sound holds := by
  refine ⟨h.ordered.erase key shrink, (balanced_erase h.balanced key shrink).1,
    sized_erase h.sized key shrink, fun k under hk => ?_⟩
  rw [get?_erase h.ordered] at hk
  split at hk
  · next e =>
    simp only [Option.filter_eq_some_iff, Option.map_eq_some_iff, decide_eq_true_eq] at hk
    obtain ⟨⟨old, hold, rfl⟩, hw⟩ := hk
    exact e ▸ hs old (h.tails key old hold) hw
  · exact h.tails k under hk

end Tree

namespace State

variable {R : Type}

theorem recordsOfTree_eq (t : Tree (State R)) :
    recordsOfTree t = t.toList.flatMap fun a => a.2.records := by
  induction t with
  | leaf => rfl
  | node k under l r h n ihl ihr => simp [recordsOfTree, Tree.toList, ihl, ihr]

@[simp] theorem records_empty : (empty : State R).records = [] := rfl

@[simp] theorem records_single (record : R) : (single record).records = [record] := rfl

@[simp] theorem records_tree (root : Tree (State R)) : (tree root).records = recordsOfTree root := rfl

end State

namespace Index

variable {R : Type}

/-- The keys by which an index places a record, outermost first. -/
def keys : Index R → R → List Key
  | tree p tail _, record => p.get record :: keys tail record
  | value, _ => []
  | alternatives _, _ => []

/-- The properties of an index, outermost first. -/
def properties : Index R → List (Property R)
  | tree p tail _ => p :: properties tail
  | value => []
  | alternatives _ => []

/-- Indexes made of nested trees only. -/
inductive Layered : Index R → Prop where
  | value : Layered value
  | tree (p : Property R) {tail : Index R} (unique : Bool) :
      Layered tail → Layered (tree p tail unique)

/-- Whether a state is what an index makes of some records, at least one. -/
def Fits : Index R → State R → Prop
  | value, s => ∃ record, s = .single record
  | tree p tail _, s => ∃ root, s = .tree root ∧ root ≠ .leaf ∧
      root.Sound fun k under => Fits tail under ∧ ∀ record ∈ under.records, p.get record = k
  | alternatives _, _ => False

/-- Whether a state is what an index makes of some records, perhaps of none. -/
def Laid (ix : Index R) (s : State R) : Prop :=
  s = .empty ∨ ix.Fits s

/-- What the tail under a key of a tree is. -/
def TailFits (p : Property R) (tail : Index R) (k : Key) (under : State R) : Prop :=
  tail.Fits under ∧ ∀ record ∈ under.records, p.get record = k

theorem laid_empty (ix : Index R) : ix.Laid .empty := .inl rfl

theorem Laid.sound_root {p : Property R} {tail : Index R} {unique : Bool} {s : State R}
    (h : (tree p tail unique).Laid s) : s.root.Sound (TailFits p tail) := by
  rcases h with rfl | ⟨root, rfl, -, hroot⟩
  · exact .leaf
  · exact hroot

theorem Laid.records_root {p : Property R} {tail : Index R} {unique : Bool} {s : State R}
    (h : (tree p tail unique).Laid s) : s.records = State.recordsOfTree s.root := by
  rcases h with rfl | ⟨root, rfl, -, -⟩ <;> rfl

theorem laid_tree {p : Property R} {tail : Index R} {unique : Bool} {root : Tree (State R)}
    (hne : root ≠ .leaf) (h : root.Sound (TailFits p tail)) : (tree p tail unique).Fits (.tree root) :=
  ⟨root, rfl, hne, h⟩

/-! ## Sizes -/

theorem Fits.size_eq : ∀ {ix : Index R} {s : State R}, ix.Fits s → s.size = s.records.length
  | value, _, ⟨_, rfl⟩ => rfl
  | tree p tail _, _, ⟨root, rfl, _, h⟩ => by
    have each : ∀ a ∈ root.toList, weight a.2 = a.2.records.length := fun a ha =>
      (h.of_mem ha).1.size_eq
    rw [State.size, Tree.size_eq h.sized, State.records_tree, State.recordsOfTree_eq,
      Tree.total_eq_length each]

theorem Fits.records_ne_nil : ∀ {ix : Index R} {s : State R}, ix.Fits s → s.records ≠ []
  | value, _, ⟨_, rfl⟩ => by simp
  | tree p tail _, _, ⟨root, rfl, hne, h⟩ => by
    cases root with
    | leaf => exact absurd rfl hne
    | node k under l r ht n =>
      have hmem : (k, under) ∈ (Tree.node k under l r ht n).toList := by simp [Tree.toList]
      have := (h.of_mem hmem).1.records_ne_nil
      simp [State.recordsOfTree, this]

theorem Laid.size_eq {ix : Index R} {s : State R} (h : ix.Laid s) : s.size = s.records.length := by
  rcases h with rfl | h
  · rfl
  · exact h.size_eq

theorem Fits.size_pos {ix : Index R} {s : State R} (h : ix.Fits s) : 0 < s.size := by
  rw [h.size_eq]
  exact List.length_pos_iff.2 h.records_ne_nil

/-- A state without records is the empty one. -/
theorem Laid.fits_of_size {ix : Index R} {s : State R} (h : ix.Laid s) (hs : s.size ≠ 0) :
    ix.Fits s := by
  rcases h with rfl | h
  · exact absurd rfl hs
  · exact h

/-! ## Records below a key -/

/-- A record is found under the key that it reads. -/
theorem mem_recordsOfTree {p : Property R} {tail : Index R} {root : Tree (State R)}
    (h : root.Sound (TailFits p tail)) {x : R} :
    x ∈ State.recordsOfTree root ↔ ∃ under, root.get? (p.get x) = some under ∧ x ∈ under.records := by
  rw [State.recordsOfTree_eq, List.mem_flatMap]
  constructor
  · rintro ⟨⟨k, under⟩, hmem, hx⟩
    have hget := (Tree.get?_eq_some_iff h.ordered).2 hmem
    rw [(h.tails k under hget).2 x hx]
    exact ⟨under, hget, hx⟩
  · rintro ⟨under, hget, hx⟩
    exact ⟨_, (Tree.get?_eq_some_iff h.ordered).1 hget, hx⟩

theorem laid_getD {p : Property R} {tail : Index R} {root : Tree (State R)}
    (h : root.Sound (TailFits p tail)) (key : Key) : tail.Laid ((root.get? key).getD .empty) := by
  cases hget : root.get? key with
  | none => exact laid_empty tail
  | some under => exact .inr (h.tails key under hget).1

theorem mem_records_getD {under? : Option (State R)} {x : R} :
    x ∈ (under?.getD .empty).records ↔ ∃ under, under? = some under ∧ x ∈ under.records := by
  cases under? <;> simp

/-! ## Putting -/

/-- Putting a record displaces the one with its keys and no other, and yields a state that fits. -/
theorem fits_put {ix : Index R} (hix : ix.Layered) (record : R) {s : State R} (hs : ix.Laid s) :
    ix.Fits (ix.put record s) ∧
      ∀ x, x ∈ (ix.put record s).records ↔
        x = record ∨ (x ∈ s.records ∧ ix.keys x ≠ ix.keys record) := by
  induction hix generalizing s with
  | value => exact ⟨⟨record, rfl⟩, fun x => by simp [put, keys]⟩
  | @tree p tail unique _ ih =>
    have hroot := hs.sound_root
    obtain ⟨htail, hmem⟩ := ih (laid_getD hroot (p.get record))
    have hreads : ∀ x ∈ (tail.put record ((s.root.get? (p.get record)).getD .empty)).records,
        p.get x = p.get record := by
      intro x hx
      rcases (hmem x).1 hx with rfl | ⟨hx, -⟩
      · rfl
      · obtain ⟨under, hget, hx⟩ := mem_records_getD.1 hx
        exact (hroot.tails _ under hget).2 x hx
    have hnew := hroot.upsert (p.get record) (fun under => put record tail (under.getD .empty))
      ⟨htail, hreads⟩
    refine ⟨laid_tree (fun hleaf => ?_) hnew, fun x => ?_⟩
    · have hget := Tree.get?_upsert hroot.ordered (p.get record) (p.get record)
        fun under => put record tail (under.getD .empty)
      rw [hleaf, if_pos rfl] at hget
      simp [Tree.get?, Tree.subtree, Tree.rootTail?] at hget
    · rw [put, State.records_tree, mem_recordsOfTree hnew, Tree.get?_upsert hroot.ordered,
        hs.records_root, mem_recordsOfTree hroot]
      by_cases hk : p.get x = p.get record
      · simp only [hk, ↓reduceIte, Option.some.injEq, exists_eq_left', hmem x, mem_records_getD,
          keys, ne_eq, List.cons.injEq, true_and]
      · have hne : x ≠ record := fun e => hk (e ▸ rfl)
        simp [hk, hne, keys]

/-! ## Removing -/

section

variable {p : Property R} {tail : Index R} {root : Tree (State R)} {key : Key}
  {shrink : State R → State R}

/-- Shrinking the tail under a key keeps a tree sound if it takes records away and adds none. -/
theorem sound_erase (hroot : root.Sound (TailFits p tail))
    (hshrink : ∀ under, tail.Fits under →
      tail.Laid (shrink under) ∧ ∀ x ∈ (shrink under).records, x ∈ under.records) :
    (root.erase key shrink).Sound (TailFits p tail) := by
  apply hroot.erase
  intro under hunder hw
  obtain ⟨hlaid, hsub⟩ := hshrink under hunder.1
  exact ⟨hlaid.fits_of_size hw, fun x hx => hunder.2 x (hsub x hx)⟩

/-- The records of a tree after the tail under a key has been shrunk. -/
theorem mem_recordsOfTree_erase (hroot : root.Sound (TailFits p tail))
    (hshrink : ∀ under, tail.Fits under →
      tail.Laid (shrink under) ∧ ∀ x ∈ (shrink under).records, x ∈ under.records) {x : R} :
    x ∈ State.recordsOfTree (root.erase key shrink) ↔
      if p.get x = key then ∃ under, root.get? key = some under ∧ x ∈ (shrink under).records
      else x ∈ State.recordsOfTree root := by
  rw [mem_recordsOfTree (sound_erase hroot hshrink), Tree.get?_erase hroot.ordered]
  split
  · next hk =>
    constructor
    · rintro ⟨left, hleft, hx⟩
      obtain ⟨hmap, -⟩ := Option.filter_eq_some_iff.1 hleft
      obtain ⟨under, hget, rfl⟩ := Option.map_eq_some_iff.1 hmap
      exact ⟨under, hget, hx⟩
    · rintro ⟨under, hget, hx⟩
      have hlaid := (hshrink under (hroot.tails key under hget).1).1
      -- A tail that still has a record is not dropped.
      have hpos : weight (shrink under) ≠ 0 := by
        show (shrink under).size ≠ 0
        rw [hlaid.size_eq]
        exact Nat.ne_of_gt (List.length_pos_of_mem hx)
      refine ⟨shrink under, Option.filter_eq_some_iff.2 ⟨?_, decide_eq_true hpos⟩, hx⟩
      rw [hget, Option.map_some]
  · exact (mem_recordsOfTree hroot).symm

end

/-- Removing a record takes away the one with its keys and no other. -/
theorem laid_remove {ix : Index R} (hix : ix.Layered) (record : R) {s : State R} (hs : ix.Laid s) :
    ix.Laid (ix.remove record s) ∧
      ∀ x, x ∈ (ix.remove record s).records ↔ x ∈ s.records ∧ ix.keys x ≠ ix.keys record := by
  induction hix generalizing s with
  | value => exact ⟨laid_empty _, fun x => by simp [remove, keys]⟩
  | @tree p tail unique _ ih =>
    have hroot := hs.sound_root
    have hshrink : ∀ under, tail.Fits under → tail.Laid (tail.remove record under) ∧
        ∀ x ∈ (tail.remove record under).records, x ∈ under.records := fun under hunder =>
      ⟨(ih (.inr hunder)).1, fun x hx => (((ih (.inr hunder)).2 x).1 hx).1⟩
    have hrecords (x : R) :
        x ∈ State.recordsOfTree (s.root.erase (p.get record) (remove record tail)) ↔
          x ∈ s.records ∧ (tree p tail unique).keys x ≠ (tree p tail unique).keys record := by
      rw [mem_recordsOfTree_erase hroot hshrink, hs.records_root, keys, keys]
      split
      · next hk =>
        rw [mem_recordsOfTree hroot, hk]
        constructor
        · rintro ⟨under, hget, hx⟩
          obtain ⟨hold, hkeys⟩ := ((ih (.inr (hroot.tails _ under hget).1)).2 x).1 hx
          exact ⟨⟨under, hget, hold⟩, fun e => hkeys (List.cons.inj e).2⟩
        · rintro ⟨⟨under, hget, hold⟩, hkeys⟩
          have htail := (ih (.inr (hroot.tails _ under hget).1)).2 x
          exact ⟨under, hget, htail.2 ⟨hold, fun e => hkeys (congrArg _ e)⟩⟩
      · next hk => exact (and_iff_left fun hkeys => hk (List.cons.inj hkeys).1).symm
    rw [remove]
    cases hget : s.root.get? (p.get record) with
    | none =>
      refine ⟨hs, fun x => (and_iff_left_of_imp fun hx hkeys => ?_).symm⟩
      rw [hs.records_root, mem_recordsOfTree hroot] at hx
      obtain ⟨under, hunder, -⟩ := hx
      rw [(List.cons.inj hkeys).1, hget] at hunder
      cases hunder
    | some under =>
      dsimp only
      split
      · next hleaf =>
        refine ⟨laid_empty _, fun x => ?_⟩
        rw [← hrecords x, hleaf]
        rfl
      · next hne => exact ⟨.inr (laid_tree hne (sound_erase hroot hshrink)), hrecords⟩

end Index

end RecordStore
