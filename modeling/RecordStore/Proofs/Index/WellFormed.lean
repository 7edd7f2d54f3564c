import RecordStore.Proofs.Index.Chain
/-!
# What the writes of an index make

`Index.written` is the state that a list of writes makes of the empty one. Whatever the writes are,
it is one that the index has laid out (`laid_written`).

`Index.WellFormed` says the same node by node, for the top tree and for every tree nested in it. It
takes no cached figure for true: heights are compared with the depths of the subtrees, and sizes
with the number of records below. The states that an engine's indexes write are empty or well-formed
(`wellFormed_written`).
-/

namespace RecordStore

namespace Index

variable {R : Type} {pk : Property R}

/-! ## Writes -/

/-- A change that an index makes to a state. -/
inductive Write (R : Type) where
  | put (record : R)
  | remove (record : R)

def write (ix : Index R) (s : State R) : Write R → State R
  | .put record => ix.put record s
  | .remove record => ix.remove record s

/-- The state that some writes make, from the empty one on. -/
def written (ix : Index R) (writes : List (Write R)) : State R :=
  writes.foldl ix.write .empty

theorem laid_write {ix : Index R} (hix : ix.Layered) {s : State R} (hs : ix.Laid s) (w : Write R) :
    ix.Laid (ix.write s w) := by
  cases w with
  | put record => exact .inr (fits_put hix record hs).1
  | remove record => exact (laid_remove hix record hs).1

theorem laid_written {ix : Index R} (hix : ix.Layered) (writes : List (Write R)) :
    ix.Laid (ix.written writes) := by
  unfold written
  suffices ∀ s, ix.Laid s → ix.Laid (writes.foldl ix.write s) from this _ (laid_empty ix)
  induction writes with
  | nil => intro s hs; exact hs
  | cons w writes ih => intro s hs; exact ih _ (laid_write hix hs w)

/-! ## Well-formed states -/

/-- What a node of a tree on a property says of itself, of its subtrees and of the records below it. -/
structure NodeShape (p : Property R) (k : Key) (under : State R) (l r : Tree (State R))
    (height size : Nat) : Prop where
  left_le : l.depth ≤ r.depth + 1
  right_le : r.depth ≤ l.depth + 1
  height_eq : height = 1 + max l.depth r.depth
  size_eq : size = (State.recordsOfTree (.node k under l r height size)).length
  occupied : under.records ≠ []
  reads : ∀ record ∈ under.records, p.get record = k

/-- Whether a state is a well-formed representation of some records, at least one. -/
def WellFormed : Index R → State R → Prop
  | value, s => ∃ record, s = .single record
  | tree p tail _, s => ∃ root, s = .tree root ∧ root ≠ .leaf ∧
      root.toList.Pairwise (fun a b => a.1 < b.1) ∧
      root.Everywhere fun k under l r height size =>
        NodeShape p k under l r height size ∧ tail.WellFormed under
  | alternatives _, _ => False

section

variable {p : Property R} {tail : Index R}

theorem size_eq_length {t : Tree (State R)} (hsized : t.Sized)
    (htails : ∀ a ∈ t.toList, TailFits p tail a.1 a.2) :
    t.size = (State.recordsOfTree t).length := by
  rw [Tree.size_eq hsized, State.recordsOfTree_eq]
  exact Tree.total_eq_length fun a ha => (htails a ha).1.size_eq

/-- The nodes of a tree have their shape if their tails fit and the cached figures are true. -/
theorem everywhere_nodeShape {t : Tree (State R)} (hbalanced : t.Balanced) (hsized : t.Sized)
    (htails : ∀ a ∈ t.toList, TailFits p tail a.1 a.2)
    (hwell : ∀ under, tail.Fits under → tail.WellFormed under) :
    t.Everywhere fun k under l r height size =>
      NodeShape p k under l r height size ∧ tail.WellFormed under := by
  induction t with
  | leaf => trivial
  | node k under l r h n ihl ihr =>
    have hsize : n = (State.recordsOfTree (.node k under l r h n)).length :=
      size_eq_length hsized htails
    obtain ⟨hl, hr, hlr, hrl, hh⟩ := hbalanced
    rw [hl.height_eq, hr.height_eq] at hlr hrl hh
    obtain ⟨hfits, hreads⟩ := htails (k, under) (by simp [Tree.toList])
    refine ⟨⟨⟨hlr, hrl, hh, hsize, hfits.records_ne_nil, hreads⟩, hwell under hfits⟩, ?_, ?_⟩
    · exact ihl hl hsized.1 fun a ha => htails a (by simp [Tree.toList, ha])
    · exact ihr hr hsized.2.1 fun a ha => htails a (by simp [Tree.toList, ha])

end

theorem Fits.wellFormed : ∀ {ix : Index R} {s : State R}, ix.Fits s → ix.WellFormed s
  | value, _, h => h
  | tree p tail _, _, ⟨root, hs, hne, hroot⟩ => by
    refine ⟨root, hs, hne, hroot.ordered, ?_⟩
    refine everywhere_nodeShape hroot.balanced hroot.sized (fun a ha => ?_) fun _ h => h.wellFormed
    exact hroot.of_mem ha

theorem Chained.wellFormed_or_empty {ix : Index R} (hix : Chained pk ix) (writes : List (Write R)) :
    ix.written writes = .empty ∨ ix.WellFormed (ix.written writes) :=
  (laid_written hix.layered writes).imp_right Fits.wellFormed

/-- Whatever is put and removed, the tree of a primary key, an index on one property and a chain on
any properties hold the empty state or a well-formed one. -/
theorem wellFormed_written (pk : Property R) (writes : List (Write R)) :
    ((unique pk).written writes = .empty ∨
        (unique pk).WellFormed ((unique pk).written writes)) ∧
      (∀ p : Property R, (secondary p pk).written writes = .empty ∨
        (secondary p pk).WellFormed ((secondary p pk).written writes)) ∧
      ∀ ps : List (Property R), (chain ps pk).written writes = .empty ∨
        (chain ps pk).WellFormed ((chain ps pk).written writes) := by
  refine ⟨?_, fun p => ?_, fun ps => ?_⟩
  · exact Chained.unique.wellFormed_or_empty writes
  · exact (chained_secondary p pk).wellFormed_or_empty writes
  · exact (chained_chain pk ps).wellFormed_or_empty writes

end Index

end RecordStore
