import RecordStore.Proofs.Engine.LateIndexes
import RecordStore.Proofs.Index.Preferred
import RecordStore.Proofs.Index.WellFormed
/-!
# Lookups go to the tree of the primary key

Of all indexes that can be read an engine looks a primary key up in the first, the tree of that key
(`Run.lookup_primaryKey`). A descent takes no more steps than the tree is high, and a tree is never
higher than it has records (`Tree.height_le_size`), while every other tree has to be searched record
by record. A second tree of the primary key is as high as the first: indexes that are equal, and
both complete, hold the very same state (`Index.Uniform`), as they have taken the same writes since
the engine was last empty.
-/

namespace RecordStore

open Log Index

/-- A balanced tree is no higher than it has records. -/
theorem Tree.height_le_size {T : Type} [Weighted T] {t : Tree T} (hb : t.Balanced) (hs : t.Sized)
    (hoccupied : ∀ a ∈ t.toList, 0 < weight a.2) : t.height ≤ t.size :=
  hb.height_le_keyCount.trans (keyCount_le_size hs hoccupied)

/-! ## Equal indexes -/

namespace Index

variable {R : Type} {pk : Property R} {choices choices' : List (Index R)} {s t : State R} {m : Store R}
  {l : Ledger R}

/-- Whether equal indexes among the complete alternatives have the very same state. -/
def Uniform (choices : List (Index R)) (s : State R) : Prop :=
  ∀ a ∈ complete choices s, ∀ b ∈ complete choices s, a.1 = b.1 → a.2 = b.2

theorem uniform_empty (choices : List (Index R)) : Uniform choices .empty := by
  have hall {a : Index R × State R} (ha : a ∈ complete choices .empty) : a.2 = .empty := by
    obtain ⟨i, -, -, hslot⟩ := mem_complete.1 ha
    exact hslot.symm
  intro a ha b hb _
  rw [hall ha, hall hb]

/-- What is done to a state by its index alone keeps equal indexes alike. -/
theorem Uniform.map (h : Uniform choices s) (write : Index R → State R → State R)
    (hcomplete : complete choices' t = (complete choices s).map fun a => (a.1, write a.1 a.2)) :
    Uniform choices' t := by
  intro a ha b hb hab
  rw [hcomplete] at ha hb
  obtain ⟨c, hc, rfl⟩ := List.mem_map.1 ha
  obtain ⟨d, hd, rfl⟩ := List.mem_map.1 hb
  have hstate : c.2 = d.2 := h c hc d hd hab
  dsimp only at hab ⊢
  rw [hab, hstate]

theorem Uniform.put (h : Uniform choices s) (hs : Spread choices.length s) (record : R) :
    Uniform choices ((alternatives choices).put record s) :=
  h.map (fun choice => choice.put record) (complete_put hs record)

theorem Tracks.uniform_without (h : Tracks pk choices s l) (hu : Uniform choices s) (key : Key) :
    Uniform choices ((alternatives choices).without key s) := by
  cases hleft : (l.forget key).stored.isEmpty with
  | true =>
    rw [(h.forget key).holds.eq_empty_iff.2 hleft]
    exact uniform_empty choices
  | false =>
    exact hu.map (fun choice state => l.stored[key]?.elim state fun stored => choice.remove stored state)
      (h.complete_without key hleft)

theorem Tracks.uniform_foldl_without (h : Tracks pk choices s l) (hu : Uniform choices s)
    (keys : List Key) :
    Uniform choices (keys.foldl (fun s key => (alternatives choices).without key s) s) := by
  induction keys generalizing s l with
  | nil => exact hu
  | cons key keys ih => exact ih (h.forget key) (h.uniform_without hu key)

theorem Tracks.uniform_append (h : Tracks pk choices s l) (hu : Uniform choices s) (ix : Index R) :
    Uniform (choices ++ [ix]) s := by
  cases hempty : s.isEmpty with
  | true =>
    have hstored : l.stored.isEmpty = true := h.holds.isEmpty_eq.symm.trans hempty
    rw [h.holds.eq_empty_iff.2 hstored]
    exact uniform_empty _
  | false =>
    unfold Uniform
    rw [complete_append h.fanned ix hempty]
    exact hu

end Index

namespace Session.Follows

variable {R : Type} {pk : Property R} {config : Config} {s : Session R} {l : Ledger R}

/-- Every operation keeps equal indexes in the same state. -/
theorem uniform_perform (h : Follows pk config s l)
    (hu : Uniform s.engine.alternatives s.engine.state) (op : Operation R) (threshold : Threshold) :
    Uniform ((s.perform op).value threshold).2.engine.alternatives
      ((s.perform op).value threshold).2.engine.state := by
  cases op with
  | put record =>
    show Uniform s.engine.alternatives ((s.engine.put record).value threshold).2.state
    rw [Engine.state_put, h.primaryKey]
    exact (h.tracks.uniform_without hu (pk.get record)).put (h.tracks.forget _).fanned.spread record
  | remove record =>
    have hstate := s.engine.state_remove record threshold
    have hsame := (s.engine.sameSetup_remove record threshold).alternatives
    show Uniform ((s.engine.remove record).value threshold).2.alternatives
      ((s.engine.remove record).value threshold).2.state
    rw [hsame, hstate]
    exact h.tracks.uniform_without hu _
  | removeAll q =>
    have hstate := s.engine.state_removeAll q threshold
    have hsame := (s.engine.sameSetup_removeAll q threshold).alternatives
    show Uniform ((s.engine.removeAll q).value threshold).2.alternatives
      ((s.engine.removeAll q).value threshold).2.state
    rw [hsame, hstate]
    split
    · exact h.tracks.uniform_foldl_without hu _
    · exact uniform_empty _
  | addIndex p => exact h.tracks.uniform_append hu (.secondary p _)
  | addCompositeIndex ps => exact h.tracks.uniform_append hu (.chain ps _)
  | snapshot => exact hu
  | ask question =>
    obtain ⟨hsame, hstate⟩ := s.engine.sameSetup_answer question threshold
    show Uniform ((s.engine.answer question).value threshold).2.alternatives
      ((s.engine.answer question).value threshold).2.state
    rw [hsame.alternatives, hstate]
    exact hu
  | askView view question =>
    rw [session_askView]
    exact hu

end Session.Follows

theorem Run.uniform {R : Type} (run : Run R) : Uniform run.engine.alternatives run.engine.state := by
  refine (@Run.invariant R run (fun s l => s.Follows run.primaryKey run.config l ∧
    Uniform s.engine.alternatives s.engine.state) ⟨⟨rfl, rfl, .start run.primaryKey, .nil⟩, ?_⟩ ?_).2
  · exact uniform_empty _
  · rintro s l op ⟨h, hu⟩
    exact ⟨h.perform op run.threshold, h.uniform_perform hu op run.threshold⟩

/-! ## The cheapest lookup -/

namespace Index

variable {R : Type} {pk : Property R} {choices : List (Index R)} {s : State R} {m : Store R}

theorem height_le_size {p : Property R} {tail : Index R} {root : Tree (State R)}
    (hroot : root.Sound (TailFits p tail)) : root.height ≤ root.size :=
  Tree.height_le_size hroot.balanced hroot.sized fun _ ha => (hroot.of_mem ha).1.size_pos

theorem Holds.size_slot (h : Holds pk choices s m) {i : Nat} {choice : Index R}
    (hi : choices[i]? = some choice) (hlags : lags s i = false) : (slot s i).size = s.size := by
  rw [(h.fanned.laid i choice hi).size_eq, h.length_slot (List.getElem?_eq_some_iff.1 hi).1 hlags]

/-- No complete alternative looks a key up in fewer steps than the tree of the primary key, if that
comes first. -/
theorem Holds.lookup_cost_le (h : Holds pk choices s m) (hu : Uniform choices s)
    (hfirst : choices[0]? = some (unique pk)) {j : Nat} {other : Index R} (hj : choices[j]? = some other)
    (hlags : lags s j = false) :
    ((unique pk).lookup (slot s 0)).cost ≤ (other.lookup (slot s j)).cost := by
  have hzero := lags_zero h.fanned.spread
  have hsize : (slot s j).size = (slot s 0).size :=
    (h.size_slot hj hlags).trans (h.size_slot hfirst hzero).symm
  have hlaid := h.fanned.laid j other hj
  cases h.chained other (List.mem_of_getElem? hj) with
  | unique =>
    have hsame : slot s 0 = slot s j :=
      hu (unique pk, slot s 0) (mem_complete.2 ⟨0, hfirst, hzero, rfl⟩) (unique pk, slot s j)
        (mem_complete.2 ⟨j, hj, hlags, rfl⟩) rfl
    rw [hsame]
  | tree p _ =>
    rcases h.fanned.laid 0 _ hfirst with hempty | ⟨root, hroot, -, hsound⟩
    · rw [hempty]
      exact Nat.zero_le _
    · have hheight := height_le_size hsound
      rw [hroot] at hsize ⊢
      rcases hlaid with hempty | ⟨root', hroot', -, -⟩
      · rw [hempty] at hsize
        have hnone : root.size = 0 := hsize.symm
        show root.height ≤ _
        omega
      · rw [hroot'] at hsize ⊢
        have hsame : root'.size = root.size := hsize
        show root.height ≤ root'.size
        omega

/-- The tree of the primary key is preferred for lookups, if it comes first. -/
theorem Holds.preferred_lookup (h : Holds pk choices s m) (hu : Uniform choices s)
    (hfirst : choices[0]? = some (unique pk)) :
    Preferred (fun choice slot => (choice.lookup slot).cost) choices s 0 (unique pk) :=
  .of_head h.fanned.spread hfirst fun _ _ hj hlags => h.lookup_cost_le hu hfirst hj hlags

theorem lookup_empty (choices : List (Index R)) : (alternatives choices).lookup .empty = .absent := by
  rw [lookup]
  intro _ _ e
  cases e

theorem find?_empty (key : Key) (choices : List (Index R)) :
    (alternatives choices).find? key .empty = none := by
  rw [find?]
  intro _ _ e
  cases e

theorem Holds.lookup_eq_first (h : Holds pk choices s m) (hu : Uniform choices s)
    (hfirst : choices[0]? = some (unique pk)) :
    (alternatives choices).lookup s = (unique pk).lookup (slot s 0) := by
  have hmin := Preferred.minOn?_eq lookup Lookup.cost (h.preferred_lookup hu hfirst)
  cases h.fanned.spread with
  | empty => exact lookup_empty choices
  | slots hsize hlen hcount =>
    rw [lookup, lookups_eq, usable_eq (.slots hsize hlen hcount), hmin, Option.getD_some]

theorem Holds.find?_eq_first (h : Holds pk choices s m) (hu : Uniform choices s)
    (hfirst : choices[0]? = some (unique pk)) (key : Key) :
    (alternatives choices).find? key s = (unique pk).find? key (slot s 0) := by
  have hmin := Preferred.minOn?_eq
    (fun choice slot => ((choice.lookup slot).cost, fun _ : Unit => choice.find? key slot)) (·.1)
    (h.preferred_lookup hu hfirst)
  cases h.fanned.spread with
  | empty => exact find?_empty key choices
  | slots hsize hlen hcount =>
    rw [find?, offers_eq, usable_eq (.slots hsize hlen hcount), hmin]
    rfl

end Index

/-! ## Runs -/

namespace Run

variable {R : Type}

theorem primary_first (run : Run R) : run.engine.alternatives[0]? = some (.unique run.primaryKey) := by
  rw [run.alternatives_eq]
  rfl

/-- An engine looks a primary key up nowhere exactly if it is empty, and otherwise in the tree of
that key, in as many steps as the tree is high: the first index is the one that is preferred for
lookups, however many others have been added and whatever has come and gone. -/
theorem lookup_primaryKey (run : Run R) :
    (run.engine.view.lookup = .absent ↔ run.engine.size = 0) ∧
      (run.engine.size ≠ 0 → ∃ root : Tree (State R), slot run.engine.state 0 = .tree root ∧
        run.engine.view.lookup = .through (.unique run.primaryKey) (.tree root) root.depth ∧
        ∀ key, run.engine.view.find? key = (unique run.primaryKey).find? key (.tree root) ∧
          run.engine.index.find? key run.engine.state =
            (unique run.primaryKey).find? key (.tree root)) ∧
      ∀ (i : Nat) (choice : Index R),
        Preferred (fun choice slot => (choice.lookup slot).cost) run.engine.alternatives
            run.engine.state i choice ↔ i = 0 ∧ choice = .unique run.primaryKey := by
  have hpreferred := run.holds.preferred_lookup run.uniform run.primary_first
  have hlookup : run.engine.view.lookup = (unique run.primaryKey).lookup (slot run.engine.state 0) :=
    run.holds.lookup_eq_first run.uniform run.primary_first
  have hfind := run.holds.find?_eq_first run.uniform run.primary_first
  have hsize : run.engine.size = (slot run.engine.state 0).size := run.holds.fanned.spread.size_eq
  have hchoice (i : Nat) (choice : Index R) :
      Preferred (fun choice slot => (choice.lookup slot).cost) run.engine.alternatives
        run.engine.state i choice ↔ i = 0 ∧ choice = .unique run.primaryKey := by
    constructor
    · intro h
      have hzero := h.unique hpreferred
      subst hzero
      exact ⟨rfl, Option.some.inj (h.get.symm.trans run.primary_first)⟩
    · rintro ⟨rfl, rfl⟩
      exact hpreferred
  rcases run.holds.fanned.laid 0 _ run.primary_first with hempty | ⟨root, hroot, hne, hsound⟩
  · rw [hempty] at hlookup hsize
    exact ⟨⟨fun _ => hsize, fun _ => hlookup⟩, fun hsome => absurd hsize hsome, hchoice⟩
  · have hfits : (unique run.primaryKey).Fits (slot run.engine.state 0) := ⟨root, hroot, hne, hsound⟩
    have hpos : run.engine.size ≠ 0 := by
      rw [hsize]
      exact Nat.ne_of_gt hfits.size_pos
    have hsteps : run.engine.view.lookup = .through (.unique run.primaryKey) (.tree root) root.depth := by
      rw [hlookup, hroot, ← hsound.balanced.height_eq]
      rfl
    refine ⟨⟨fun habsent => ?_, fun hsome => absurd hsome hpos⟩,
      fun _ => ⟨root, hroot, hsteps, ?_⟩, hchoice⟩
    · rw [hsteps] at habsent
      cases habsent
    · intro key
      rw [hroot] at hfind
      refine ⟨?_, hfind key⟩
      rw [Snapshot.find?, hsteps]
      rfl

/-- A second tree of the primary key, made by a composite index of no properties, and an index on
that key below itself. Both are complete. -/
def doubled : Run (Int × Int) where
  primaryKey := identifier
  config := {}
  threshold := none
  operations := [.addCompositeIndex [], .addIndex identifier, .put (1, 30), .put (2, 20), .put (3, 10),
    .removeAll {}, .put (4, 40), .put (2, 20), .put (4, 50)]

/-- The two trees of the key cost the same, and yet the first one is looked up. -/
theorem lookup_primaryKey_doubled :
    doubled.engine.size ≠ 0 ∧
      doubled.engine.alternatives =
        [.unique identifier, .unique identifier, .secondary identifier identifier] ∧
      ∃ root : Tree (State (Int × Int)), slot doubled.engine.state 0 = .tree root ∧
        doubled.engine.view.lookup = .through (.unique identifier) (.tree root) root.depth ∧
        doubled.engine.view.find? (.int 4) = (unique identifier).find? (.int 4) (.tree root) := by
  have hsize : doubled.engine.size ≠ 0 := by decide +kernel
  obtain ⟨root, hroot, hlookup, hfind⟩ := (lookup_primaryKey doubled).2.1 hsize
  exact ⟨hsize, alternatives_eq doubled, root, hroot, hlookup, (hfind (.int 4)).1⟩

end Run

end RecordStore
