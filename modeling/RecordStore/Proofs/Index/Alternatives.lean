import RecordStore.Index.Lookup
import RecordStore.Proofs.Index.Chain
/-!
# States of alternatives

`Index.Fanned` says that a state is one that a set of alternatives has made: it is empty, or it has
slots with one flag each, at most one for each alternative, the first of them complete and not
empty; and each slot is laid out by its alternative. An alternative is complete (`lags` is false) if
it has a slot that is not late; all of them are on the empty state.

* Writes act on each slot by itself: `slot_put`, `remove_cases`. They let no alternative fall behind
  or catch up, except that a state that has lost its last record is the empty one.
* Whatever is read off the alternatives is read off a complete one: `exists_usable`.
-/

namespace RecordStore.Index

variable {R : Type} {pk : Property R} {choices : List (Index R)} {choice : Index R} {s : State R}
  {i : Nat}

/-- The slot of an alternative. A missing one is empty. -/
def slot (s : State R) (i : Nat) : State R :=
  (slotsOf s).getD i .empty

/-- Whether the slot of an alternative is late or missing. -/
def lags : State R → Nat → Bool
  | .slots _ late, i => late.getD i true
  | _, _ => false

/-- The states of `count` alternatives: the empty one, and slots of which the first is complete and
has records. -/
inductive Spread (count : Nat) : State R → Prop where
  | empty : Spread count .empty
  | slots {first : State R} {rest : List (State R)} {late : List Bool} :
      first.size ≠ 0 → late.length = rest.length → rest.length < count →
      Spread count (.slots (first :: rest) (false :: late))

/-- Whether a state is one that alternatives have made. -/
structure Fanned (choices : List (Index R)) (s : State R) : Prop where
  spread : Spread choices.length s
  laid : ∀ (i : Nat) (choice : Index R), choices[i]? = some choice → choice.Laid (slot s i)

theorem Spread.of_slots {count : Nat} {slots : List (State R)} {late : List Bool}
    (hfirst : (slots.getD 0 .empty).size ≠ 0) (hzero : late.getD 0 true = false)
    (hlen : late.length = slots.length) (hcount : slots.length ≤ count) :
    Spread count (.slots slots late) := by
  match slots, late with
  | first :: rest, flag :: late =>
    rw [List.getD_cons_zero] at hfirst hzero
    rw [hzero]
    exact .slots hfirst (by simpa using hlen) hcount
  | [], _ => exact absurd rfl hfirst

theorem fanned_empty (choices : List (Index R)) : Fanned choices .empty :=
  ⟨.empty, fun _ choice _ => laid_empty choice⟩

/-- Beyond the alternatives there are no slots. -/
theorem Spread.slot_append {count : Nat} (h : Spread count s) (hi : count ≤ i) :
    slot s i = .empty := by
  cases h with
  | empty => rfl
  | slots _ _ hcount =>
    rw [slot, slotsOf, List.getD_eq_getElem?_getD,
      List.getElem?_eq_none (by rw [List.length_cons]; omega), Option.getD_none]

/-- An alternative that is added lags behind if there are records, and holds nothing. -/
theorem Fanned.append (h : Fanned choices s) (ix : Index R) : Fanned (choices ++ [ix]) s := by
  refine ⟨?_, fun i choice hi => ?_⟩
  · cases h.spread with
    | empty => exact .empty
    | slots hfirst hlen hcount =>
      exact .slots hfirst hlen (by rw [List.length_append]; omega)
  · rcases Nat.lt_or_ge i choices.length with hlt | hge
    · rw [List.getElem?_append_left hlt] at hi
      exact h.laid i choice hi
    · have hslot : slot s i = .empty := h.spread.slot_append hge
      rw [hslot]
      exact laid_empty choice

theorem Spread.lags_append (h : Spread choices.length s) :
    lags s choices.length = !s.isEmpty := by
  cases h with
  | empty => rfl
  | @slots first rest late hfirst hlen hcount =>
    rw [lags, List.getD_eq_getElem?_getD,
      List.getElem?_eq_none (by rw [List.length_cons]; omega), Option.getD_none, State.isEmpty,
      State.size, decide_eq_false hfirst]
    rfl

/-- There are as many records as the first alternative holds. -/
theorem Spread.size_eq {count : Nat} (h : Spread count s) : s.size = (slot s 0).size := by
  cases h <;> rfl

theorem Spread.records_eq {count : Nat} (h : Spread count s) : s.records = (slot s 0).records := by
  cases h <;> rfl

@[simp] theorem lags_zero (h : Spread choices.length s) : lags s 0 = false := by
  cases h <;> rfl

/-! ## Writing -/

theorem getD_putAll (record : R) (choices : List (Index R)) (slots : List (State R)) (i : Nat)
    (hi : choices[i]? = some choice) :
    (putAll record choices slots).getD i .empty = choice.put record (slots.getD i .empty) := by
  induction choices generalizing slots i with
  | nil => simp at hi
  | cons c rest ih =>
    cases i with
    | zero =>
      cases hi
      cases slots <;> rfl
    | succ i =>
      rw [List.getElem?_cons_succ] at hi
      have := ih slots.tail i hi
      cases slots <;> simpa [putAll] using this

theorem slot_put (record : R) (s : State R) (hi : choices[i]? = some choice) :
    slot ((alternatives choices).put record s) i = choice.put record (slot s i) :=
  getD_putAll record choices (slotsOf s) i hi

/-- Putting a record lets no alternative fall behind and none catch up. -/
theorem lags_put (h : Spread choices.length s) (record : R) (hi : i < choices.length) :
    lags ((alternatives choices).put record s) i = lags s i := by
  rw [put, lags]
  cases h with
  | empty => simp [lateAfterPut, lags, hi]
  | @slots first rest late hfirst hlen hcount =>
    have hpos : 0 < (State.slots (first :: rest) (false :: late)).size := Nat.pos_of_ne_zero hfirst
    simp only [lateAfterPut, lags, List.getD_eq_getElem?_getD, List.getElem?_map,
      List.getElem?_range hi, Option.map_some, Option.getD_some, hpos, decide_true]
    split
    · next hlt =>
      have hlt' : i < (false :: late).length := by
        rw [List.length_cons] at hlt ⊢
        omega
      rw [List.getElem?_eq_getElem hlt', Option.getD_some, Option.getD_some]
    · next hge =>
      have hge' : (false :: late).length ≤ i := by
        rw [List.length_cons] at hge ⊢
        omega
      rw [List.getElem?_eq_none hge', Option.getD_none]

theorem fanned_put (hlayered : ∀ choice ∈ choices, choice.Layered) (hne : choices ≠ [])
    (h : Fanned choices s) (record : R) : Fanned choices ((alternatives choices).put record s) := by
  have hfits (i : Nat) (choice : Index R) (hi : choices[i]? = some choice) :
      choice.Fits (slot ((alternatives choices).put record s) i) := by
    rw [slot_put record s hi]
    exact (fits_put (hlayered choice (List.mem_of_getElem? hi)) record (h.laid i choice hi)).1
  have hpos := List.length_pos_iff.2 hne
  have hfirst := (hfits 0 choices[0] (List.getElem?_eq_getElem hpos)).size_pos
  have hzero := lags_put h.spread record hpos
  rw [lags_zero h.spread] at hzero
  refine ⟨?_, fun i choice hi => .inr (hfits i choice hi)⟩
  rw [put] at hfirst hzero ⊢
  refine .of_slots (Nat.ne_of_gt hfirst) hzero ?_ (by simp)
  cases s <;> simp [lateAfterPut]

theorem mem_slot_put (hlayered : choice.Layered) (h : Fanned choices s) (record : R)
    (hi : choices[i]? = some choice) {x : R} :
    x ∈ (slot ((alternatives choices).put record s) i).records ↔
      x = record ∨ (x ∈ (slot s i).records ∧ choice.keys x ≠ choice.keys record) := by
  rw [slot_put record s hi]
  exact (fits_put hlayered record (h.laid i choice hi)).2 x

theorem remove_empty (hlayered : choice.Layered) (record : R) :
    choice.remove record .empty = .empty := by
  cases hlayered with
  | value => rfl
  | tree p unique _ => simp [remove, State.root, Tree.get?, Tree.subtree, Tree.rootTail?]

theorem getD_removeAll (hlayered : choice.Layered) (record : R) (slots : List (State R))
    (hi : choices[i]? = some choice) :
    (removeAll record choices slots).getD i .empty = choice.remove record (slots.getD i .empty) := by
  rw [removeAll_eq, List.getD_eq_getElem?_getD, List.getD_eq_getElem?_getD, List.getElem?_zipWith, hi]
  cases slots[i]? with
  | none => exact (remove_empty hlayered record).symm
  | some slot => rfl

/-- Removing acts on each slot by itself and leaves the flags alone, unless the first slot loses its
last record: then nothing is left. -/
theorem remove_cases (hlayered : ∀ choice ∈ choices, choice.Layered) (h : Fanned choices s)
    (record : R) {first : Index R} (hfirst : choices[0]? = some first) :
    ((alternatives choices).remove record s = .empty ∧
        (first.remove record (slot s 0)).records = []) ∨
      ((∀ (i : Nat) (choice : Index R), choices[i]? = some choice →
          slot ((alternatives choices).remove record s) i = choice.remove record (slot s i)) ∧
        (∀ i, lags ((alternatives choices).remove record s) i = lags s i) ∧
        Fanned choices ((alternatives choices).remove record s)) := by
  have hlaid (i : Nat) (choice : Index R) (hi : choices[i]? = some choice) :
      choice.Laid (choice.remove record (slot s i)) :=
    (laid_remove (hlayered choice (List.mem_of_getElem? hi)) record (h.laid i choice hi)).1
  have hslot (i : Nat) (choice : Index R) (hi : choices[i]? = some choice) :
      (removeAll record choices (slotsOf s)).getD i .empty = choice.remove record (slot s i) :=
    getD_removeAll (hlayered choice (List.mem_of_getElem? hi)) record (slotsOf s) hi
  cases h.spread with
  | empty =>
    have hlayered₀ := hlayered first (List.mem_of_getElem? hfirst)
    have hstays : (alternatives choices).remove record .empty = .empty := by
      rw [remove]
      intro _ _ e
      cases e
    have hnothing : first.remove record (slot .empty 0) = .empty := remove_empty hlayered₀ record
    exact .inl ⟨hstays, by rw [hnothing]; rfl⟩
  | @slots f rest late hf hlen hcount =>
    rw [slotsOf] at hslot
    have hcut : (removeAll record choices (f :: rest)).length = (f :: rest).length := by
      rw [removeAll_eq, List.length_zipWith, List.length_cons]
      omega
    rw [remove]
    cases hnew : removeAll record choices (f :: rest) with
    | nil =>
      rw [hnew] at hcut
      cases hcut
    | cons f' rest' =>
      rw [hnew] at hslot hcut
      have hf' : f' = first.remove record (slot (.slots (f :: rest) (false :: late)) 0) :=
        hslot 0 first hfirst
      dsimp only
      split
      · next hempty =>
        refine .inl ⟨rfl, ?_⟩
        have hlen := (hlaid 0 first hfirst).size_eq
        rw [← hf', of_decide_eq_true hempty] at hlen
        rw [← hf']
        exact List.length_eq_zero_iff.1 hlen.symm
      · next hnonempty =>
        refine .inr ⟨hslot, fun _ => rfl, .slots (by simpa [State.isEmpty] using hnonempty) ?_ ?_,
          fun i choice hi => ?_⟩
        · simp only [List.length_cons] at hcut
          omega
        · simp only [List.length_cons] at hcut
          omega
        · have := hlaid i choice hi
          rwa [← hslot i choice hi] at this

/-! ## Reading -/

theorem mem_usable {α : Type} {read : List (State R → α)} {slots : List (State R)}
    {late : List Bool} {a : α} (h : a ∈ usable read slots late) :
    ∃ (i : Nat) (f : State R → α), read[i]? = some f ∧ i < slots.length ∧
      late.getD i false = false ∧ a = f (slots.getD i .empty) := by
  induction read generalizing slots late with
  | nil => simp [usable] at h
  | cons f read ih =>
    cases slots with
    | nil => simp [usable] at h
    | cons slot slots =>
      have hrest (h : a ∈ usable read slots late.tail) :
          ∃ (i : Nat) (g : State R → α), (f :: read)[i]? = some g ∧ i < (slot :: slots).length ∧
            late.getD i false = false ∧ a = g ((slot :: slots).getD i .empty) := by
        obtain ⟨i, g, hg, hi, hlate, ha⟩ := ih h
        refine ⟨i + 1, g, hg, Nat.succ_lt_succ hi, ?_, ha⟩
        cases late with
        | nil => rfl
        | cons flag late => exact hlate
      rw [usable] at h
      split at h
      · exact hrest h
      · next hlate =>
        rcases List.mem_cons.1 h with rfl | h
        · refine ⟨0, f, rfl, Nat.zero_lt_succ _, ?_, rfl⟩
          cases late with
          | nil => rfl
          | cons flag late => exact Bool.eq_false_iff.2 hlate
        · exact hrest h

/-- What is read off alternatives at the least cost is read off a complete one. -/
theorem exists_usable {α : Type} {slots : List (State R)} {late : List Bool}
    (h : Spread choices.length (.slots slots late)) (read : Index R → State R → α) (cost : α → Nat) :
    ∃ (i : Nat) (choice : Index R), choices[i]? = some choice ∧ lags (.slots slots late) i = false ∧
      (usable (choices.map read) slots late).minOn? cost =
        some (read choice (slot (.slots slots late) i)) := by
  have hne : usable (choices.map read) slots late ≠ [] := by
    cases h with
    | slots _ _ hcount =>
      cases choices with
      | nil => simp at hcount
      | cons c rest => simp [usable]
  have hsome := List.minOn?_eq_some_minOn (f := cost) hne
  obtain ⟨i, f, hf, hi, hlate, ha⟩ := mem_usable (List.minOn?_mem hsome)
  rw [List.getElem?_map, Option.map_eq_some_iff] at hf
  obtain ⟨choice, hchoice, rfl⟩ := hf
  refine ⟨i, choice, hchoice, ?_, hsome.trans (congrArg some ha)⟩
  cases h with
  | slots _ hlen _ =>
    have hi' : i < (false :: _).length := Nat.lt_of_lt_of_eq hi (congrArg (· + 1) hlen.symm)
    rw [List.getD_eq_getElem?_getD, List.getElem?_eq_getElem hi', Option.getD_some] at hlate
    rw [lags, List.getD_eq_getElem?_getD, List.getElem?_eq_getElem hi', Option.getD_some, hlate]

theorem find?_lookup (hix : Chained pk choice) (hs : choice.Laid s) (key : Key) :
    (choice.lookup s).find? key = choice.find? key s := by
  rcases hs with rfl | hs
  · cases hix with
    | unique => rfl
    | tree p _ => rfl
  · cases hix with
    | unique =>
      obtain ⟨root, rfl, -, -⟩ := hs
      rfl
    | tree p _ =>
      obtain ⟨root, rfl, -, -⟩ := hs
      rfl

/-- A key is found in the slot of some complete alternative. -/
theorem exists_find?_eq (hchained : ∀ choice ∈ choices, Chained pk choice) (hne : choices ≠ [])
    (h : Fanned choices s) (key : Key) :
    ∃ i < choices.length, lags s i = false ∧
      (alternatives choices).find? key s = (slot s i).records.find? (pk.get · == key) := by
  cases s with
  | slots slots late =>
    obtain ⟨i, choice, hi, hlags, hmin⟩ := exists_usable h.spread
      (fun choice slot => ((choice.lookup slot).cost, fun _ : Unit => choice.find? key slot)) (·.1)
    refine ⟨i, (List.getElem?_eq_some_iff.1 hi).1, hlags, ?_⟩
    rw [find?, offers_eq, hmin]
    exact find?_eq (hchained choice (List.mem_of_getElem? hi)) (h.laid i choice hi) key
  | empty =>
    refine ⟨0, List.length_pos_iff.2 hne, rfl, ?_⟩
    rw [find?]
    · rfl
    · intro _ _ e
      cases e
  | single record => cases h.spread
  | tree root => cases h.spread

/-- A lookup finds a key where a search among the alternatives may. -/
theorem exists_find?_lookup_eq (hchained : ∀ choice ∈ choices, Chained pk choice)
    (hne : choices ≠ []) (h : Fanned choices s) (key : Key) :
    ∃ i < choices.length, lags s i = false ∧
      ((alternatives choices).lookup s).find? key = (slot s i).records.find? (pk.get · == key) := by
  cases s with
  | slots slots late =>
    obtain ⟨i, choice, hi, hlags, hmin⟩ := exists_usable h.spread lookup Lookup.cost
    have hix := hchained choice (List.mem_of_getElem? hi)
    refine ⟨i, (List.getElem?_eq_some_iff.1 hi).1, hlags, ?_⟩
    rw [lookup, lookups_eq, hmin, Option.getD_some, find?_lookup hix (h.laid i choice hi)]
    exact find?_eq hix (h.laid i choice hi) key
  | empty =>
    refine ⟨0, List.length_pos_iff.2 hne, rfl, ?_⟩
    rw [lookup]
    · rfl
    · intro _ _ e
      cases e
  | single record => cases h.spread
  | tree root => cases h.spread

end RecordStore.Index
