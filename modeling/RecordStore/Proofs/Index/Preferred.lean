import RecordStore.Proofs.Index.Complete
/-!
# The preferred alternative

`Index.Preferred` singles out one of several alternatives: a complete one, than which no complete
one is cheaper, the earliest of several. There is never more than one of them (`Preferred.unique`),
and whatever is read off alternatives at the least cost is read off the preferred one
(`exists_preferred`): lookups and plans alike. `FirstLeast` is the same for a list some of whose
places are empty.
-/

namespace RecordStore

/-! ## The first least item -/

section

variable {α : Type} {cost : α → Nat} {offers : List (Option α)} {i : Nat} {a b : α}

/-- Whether the item at a place of a list is the first of the cheapest ones. -/
structure FirstLeast (cost : α → Nat) (offers : List (Option α)) (i : Nat) (a : α) : Prop where
  get : offers[i]? = some (some a)
  least : ∀ b, some b ∈ offers → cost a ≤ cost b
  first : ∀ j < i, ∀ b, offers[j]? = some (some b) → cost a < cost b

theorem FirstLeast.zero (h : ∀ b, some b ∈ offers → cost a ≤ cost b) :
    FirstLeast cost (some a :: offers) 0 a where
  get := rfl
  least b hb := by
    rcases List.mem_cons.1 hb with heq | hb
    · cases heq
      exact Nat.le_refl _
    · exact h b hb
  first := nofun

/-- What is dearer, or no item at all, may come before. -/
theorem FirstLeast.succ (h : FirstLeast cost offers i a) {offer : Option α}
    (hoffer : ∀ b, offer = some b → cost a < cost b) : FirstLeast cost (offer :: offers) (i + 1) a where
  get := h.get
  least b hb := by
    rcases List.mem_cons.1 hb with heq | hb
    · exact Nat.le_of_lt (hoffer b heq.symm)
    · exact h.least b hb
  first j hj b hb := by
    cases j with
    | zero => exact hoffer b (Option.some.inj hb)
    | succ j => exact h.first j (Nat.lt_of_succ_lt_succ hj) b hb

/-- The least item by cost is the first of the cheapest ones. -/
theorem exists_firstLeast (hsome : (offers.filterMap id).minOn? cost = some a) :
    ∃ i, FirstLeast cost offers i a := by
  induction offers generalizing a with
  | nil => cases hsome
  | cons offer rest ih =>
    cases offer with
    | none =>
      obtain ⟨i, hi⟩ := ih hsome
      exact ⟨i + 1, hi.succ nofun⟩
    | some b =>
      rw [List.filterMap_cons_some (f := id) rfl, List.minOn?_cons] at hsome
      cases hrest : (rest.filterMap id).minOn? cost with
      | none =>
        rw [hrest] at hsome
        cases hsome
        refine ⟨0, .zero fun c hc => absurd hrest ?_⟩
        have hne := List.ne_nil_of_mem (List.mem_filterMap.2 ⟨some c, hc, rfl⟩ : c ∈ rest.filterMap id)
        rw [List.minOn?_eq_some_minOn hne]
        exact Option.some_ne_none _
      | some c =>
        obtain ⟨i, hi⟩ := ih hrest
        rw [hrest, Option.elim_some, minOn] at hsome
        split at hsome
        · next hle =>
          cases hsome
          exact ⟨0, .zero fun d hd => Nat.le_trans hle (hi.least d hd)⟩
        · next hnle =>
          cases hsome
          refine ⟨i + 1, hi.succ fun d hd => ?_⟩
          cases hd
          exact Nat.lt_of_not_le hnle

end

/-! ## The first of the cheapest alternatives -/

namespace Index

variable {R : Type} {choices : List (Index R)} {s : State R} {cost : Index R → State R → Nat}

/-- Whether an alternative is the first of the cheapest complete ones, each of which has a cost for
its slot. -/
structure Preferred (cost : Index R → State R → Nat) (choices : List (Index R)) (s : State R) (i : Nat)
    (choice : Index R) : Prop where
  get : choices[i]? = some choice
  complete : lags s i = false
  least : ∀ (j : Nat) (other : Index R), choices[j]? = some other → lags s j = false →
    cost choice (slot s i) ≤ cost other (slot s j)
  first : ∀ j < i, ∀ other : Index R, choices[j]? = some other → lags s j = false →
    cost choice (slot s i) < cost other (slot s j)

theorem Preferred.unique {i j : Nat} {choice other : Index R} (hi : Preferred cost choices s i choice)
    (hj : Preferred cost choices s j other) : i = j := by
  rcases Nat.lt_trichotomy i j with hlt | heq | hgt
  · have hless := hj.first i hlt choice hi.get hi.complete
    have hmost := hi.least j other hj.get hj.complete
    omega
  · exact heq
  · have hless := hi.first j hgt other hj.get hj.complete
    have hmost := hj.least i choice hi.get hi.complete
    omega

/-- The first alternative is preferred if no complete one is cheaper. -/
theorem Preferred.of_head (h : Spread choices.length s) {first : Index R}
    (hfirst : choices[0]? = some first)
    (hleast : ∀ (j : Nat) (other : Index R), choices[j]? = some other → lags s j = false →
      cost first (slot s 0) ≤ cost other (slot s j)) : Preferred cost choices s 0 first :=
  ⟨hfirst, lags_zero h, hleast, nofun⟩

/-- What alternatives offer to be read, with none for those that lag behind. -/
def offersOf {α : Type} (read : Index R → State R → α) (choices : List (Index R)) (s : State R) :
    List (Option α) :=
  choices.zipIdx.map fun c => if lags s c.2 then none else some (read c.1 (slot s c.2))

theorem filterMap_offersOf {α : Type} (read : Index R → State R → α) (choices : List (Index R))
    (s : State R) :
    (offersOf read choices s).filterMap id = (complete choices s).map fun a => read a.1 a.2 := by
  unfold offersOf Index.complete
  rw [List.filterMap_map, List.map_filterMap]
  apply List.filterMap_congr
  intro c _
  dsimp only [Function.comp_apply, id]
  split <;> rfl

theorem getElem?_offersOf {α : Type} (read : Index R → State R → α) {i : Nat} {a : α} :
    (offersOf read choices s)[i]? = some (some a) ↔
      ∃ choice, choices[i]? = some choice ∧ lags s i = false ∧ read choice (slot s i) = a := by
  rw [offersOf, List.getElem?_map, List.getElem?_zipIdx, Nat.zero_add]
  cases choices[i]? with
  | none => simp
  | some choice => cases hlags : lags s i <;> simp [hlags]

/-- What is read off complete alternatives at the least cost is read off the preferred one. -/
theorem exists_preferred {α : Type} (read : Index R → State R → α) (cost : α → Nat) {a : α}
    (hmin : ((complete choices s).map fun c => read c.1 c.2).minOn? cost = some a) :
    ∃ (i : Nat) (choice : Index R),
      Preferred (fun choice slot => cost (read choice slot)) choices s i choice ∧
        read choice (slot s i) = a := by
  rw [← filterMap_offersOf] at hmin
  obtain ⟨i, hi⟩ := exists_firstLeast hmin
  obtain ⟨choice, hget, hlags, rfl⟩ := (getElem?_offersOf read).1 hi.get
  refine ⟨i, choice, ⟨hget, hlags, fun j other hj hjlags => ?_, fun j hj other hother hjlags => ?_⟩, rfl⟩
  · have hoffer := (getElem?_offersOf read).2 ⟨other, hj, hjlags, rfl⟩
    exact hi.least _ (List.mem_of_getElem? hoffer)
  · exact hi.first j hj _ ((getElem?_offersOf read).2 ⟨other, hother, hjlags, rfl⟩)

/-- If an alternative is preferred, what is read off at the least cost is read off its slot. -/
theorem Preferred.minOn?_eq {α : Type} (read : Index R → State R → α) (cost : α → Nat) {i : Nat}
    {choice : Index R}
    (h : Preferred (fun choice slot => cost (read choice slot)) choices s i choice) :
    ((Index.complete choices s).map fun c => read c.1 c.2).minOn? cost =
      some (read choice (slot s i)) := by
  have hmem : (choice, slot s i) ∈ Index.complete choices s := mem_complete.2 ⟨i, h.get, h.complete, rfl⟩
  have hne := List.ne_nil_of_mem (List.mem_map_of_mem (f := fun c => read c.1 c.2) hmem)
  have hmin := List.minOn?_eq_some_minOn (f := cost) hne
  obtain ⟨j, other, hj, hread⟩ := exists_preferred read cost hmin
  have hij := h.unique hj
  subst hij
  have hsame := h.get.symm.trans hj.get
  cases hsame
  rw [hmin, hread]

end Index

end RecordStore
