import RecordStore.Proofs.Engine.Holds
import RecordStore.Proofs.Engine.Ledger
/-!
# The alternatives of an engine follow its ledger

`Index.Tracks` is the invariant of a run: which records each alternative holds, and which
alternatives lag behind, as the ledger tells it. A lagging alternative holds the records that were
put after it was registered. The invariant is kept by everything that can happen to an engine:

* a record goes (`Tracks.forget`): each slot gives it up under its own keys, and the state is the
  empty one when the last record has gone;
* a record comes under a key that is free (`Tracks.bind`): every slot takes it;
* all records go (`Tracks.clear`), an index is added (`Tracks.register`), time passes
  (`Tracks.tick`).
-/

namespace RecordStore.Index

variable {R : Type} {pk : Property R} {choices : List (Index R)} {s : State R} {l : Ledger R}

/-- The state without the record of a primary key. -/
def without (ix : Index R) (key : Key) (s : State R) : State R :=
  (ix.find? key s).elim s (ix.remove · s)

/-- How alternatives and their state follow a ledger. -/
structure Tracks (pk : Property R) (choices : List (Index R)) (s : State R) (l : Ledger R) :
    Prop where
  chained : ∀ choice ∈ choices, Chained pk choice
  nonempty : choices ≠ []
  fanned : Fanned choices s
  keyed : Store.Keyed pk l.stored
  registered : l.registrations.length = choices.length
  mem : ∀ (i : Nat) (g : Registration), l.registrations[i]? = some g →
    ∀ x, x ∈ (slot s i).records ↔
      l.stored[pk.get x]? = some x ∧ (lags s i = true → g.time < l.putAt (pk.get x))
  lags_eq : ∀ (i : Nat) (g : Registration), l.registrations[i]? = some g → lags s i = l.lags g
  registeredBefore : ∀ g ∈ l.registrations, g.time < l.clock
  putBefore : ∀ k, l.putAt k ≤ l.clock
  emptiedBefore : l.emptied ≤ l.clock

namespace Tracks

theorem registration (h : Tracks pk choices s l) {i : Nat} (hi : i < choices.length) :
    ∃ g, l.registrations[i]? = some g :=
  ⟨_, List.getElem?_eq_getElem (h.registered.symm ▸ hi)⟩

theorem choice (h : Tracks pk choices s l) {i : Nat} {g : Registration}
    (hg : l.registrations[i]? = some g) : ∃ choice, choices[i]? = some choice :=
  ⟨_, List.getElem?_eq_getElem (h.registered ▸ (List.getElem?_eq_some_iff.1 hg).1)⟩

theorem holds (h : Tracks pk choices s l) : Holds pk choices s l.stored := by
  refine ⟨h.chained, h.nonempty, h.fanned, h.keyed, fun i hi hlags x => ?_⟩
  obtain ⟨g, hg⟩ := h.registration hi
  rw [h.mem i g hg, hlags]
  exact and_iff_left fun e => absurd e Bool.false_ne_true

theorem start (pk : Property R) : Tracks pk [Index.unique pk] .empty ({} : Ledger R) where
  chained := by simpa using Chained.unique
  nonempty := List.cons_ne_nil _ _
  fanned := fanned_empty _
  keyed := Store.keyed_empty
  registered := rfl
  mem i g _ x := by simp [slot, slotsOf]
  lags_eq i g hg := by
    cases i with
    | zero =>
      cases hg
      rfl
    | succ i => cases hg
  registeredBefore g hg := by
    rw [List.mem_singleton.1 hg]
    exact Nat.zero_lt_one
  putBefore _ := Nat.zero_le _
  emptiedBefore := Nat.zero_le _

/-! ## Records that go -/

/-- Two stored records are placed alike by an alternative exactly if they are one. -/
theorem keys_eq_iff (h : Tracks pk choices s l) {choice : Index R} (hchoice : choice ∈ choices)
    {x r : R} (hx : l.stored[pk.get x]? = some x) (hr : l.stored[pk.get r]? = some r) :
    choice.keys x = choice.keys r ↔ pk.get x = pk.get r := by
  refine ⟨(h.chained choice hchoice).primaryKey_eq, fun e => ?_⟩
  rw [e, hr] at hx
  cases hx
  rfl

/-- When a stored record is removed, every slot gives up that record and no other. -/
theorem mem_slot_remove (h : Tracks pk choices s l) {r : R} (hr : l.stored[pk.get r]? = some r)
    {i : Nat} {g : Registration} (hg : l.registrations[i]? = some g) (x : R) :
    x ∈ (slot ((alternatives choices).remove r s) i).records ↔
      x ∈ (slot s i).records ∧ pk.get x ≠ pk.get r := by
  have hlayered : ∀ choice ∈ choices, choice.Layered := fun choice hc => (h.chained choice hc).layered
  have hremoved (i : Nat) (g : Registration) (hg : l.registrations[i]? = some g) (choice : Index R)
      (hchoice : choices[i]? = some choice) (x : R) :
      x ∈ (choice.remove r (slot s i)).records ↔ x ∈ (slot s i).records ∧ pk.get x ≠ pk.get r := by
    have hmem := List.mem_of_getElem? hchoice
    rw [(laid_remove (hlayered choice hmem) r (h.fanned.laid i choice hchoice)).2 x]
    refine and_congr_right fun hx => not_congr ?_
    exact h.keys_eq_iff hmem ((h.mem i g hg x).1 hx).1 hr
  obtain ⟨g₀, hg₀⟩ := h.registration (List.length_pos_iff.2 h.nonempty)
  obtain ⟨first, hfirst⟩ := h.choice hg₀
  obtain ⟨choice, hchoice⟩ := h.choice hg
  rcases remove_cases hlayered h.fanned r hfirst with ⟨hempty, hnone⟩ | ⟨hslot, -, -⟩
  · rw [hempty]
    refine ⟨fun hx => absurd hx List.not_mem_nil, fun hx => ?_⟩
    -- The first slot holds all records, so it would still hold this one.
    have hx₀ : x ∈ (first.remove r (slot s 0)).records :=
      (hremoved 0 g₀ hg₀ first hfirst x).2 ⟨(h.mem 0 g₀ hg₀ x).2 ⟨((h.mem i g hg x).1 hx.1).1,
        fun hlags => by rw [lags_zero h.fanned.spread] at hlags; cases hlags⟩, hx.2⟩
    rw [hnone] at hx₀
    cases hx₀
  · rw [hslot i choice hchoice]
    exact hremoved i g hg choice hchoice x

/-- What a state without a key is, slot by slot: no alternative falls behind or catches up unless
nothing is left. -/
theorem without_spec (h : Tracks pk choices s l) (key : Key) :
    Fanned choices ((alternatives choices).without key s) ∧
      ((alternatives choices).without key s = .empty ∨
        ∀ i, lags ((alternatives choices).without key s) i = lags s i) ∧
      ∀ (i : Nat) (g : Registration), l.registrations[i]? = some g →
        ∀ x, x ∈ (slot ((alternatives choices).without key s) i).records ↔
          x ∈ (slot s i).records ∧ pk.get x ≠ key := by
  rw [without, h.holds.find?_eq key]
  cases hget : l.stored[key]? with
  | none =>
    dsimp only [Option.elim_none]
    refine ⟨h.fanned, .inr fun _ => rfl, fun i g hg x => (and_iff_left_of_imp fun hx e => ?_).symm⟩
    rw [h.mem i g hg, e, hget] at hx
    cases hx.1
  | some r =>
    have hkey : pk.get r = key := h.keyed key r hget
    subst hkey
    dsimp only [Option.elim_some]
    have hfirst := List.getElem?_eq_getElem (List.length_pos_iff.2 h.nonempty)
    refine ⟨?_, ?_, fun i g hg x => h.mem_slot_remove hget hg x⟩ <;>
      rcases remove_cases (fun choice hc => (h.chained choice hc).layered) h.fanned r hfirst with
        ⟨hempty, -⟩ | ⟨-, hlags, hfanned⟩
    · exact hempty ▸ fanned_empty choices
    · exact hfanned
    · exact .inl hempty
    · exact .inr hlags

/-- A record goes from the ledger and from every alternative. -/
theorem forget (h : Tracks pk choices s l) (key : Key) :
    Tracks pk choices ((alternatives choices).without key s) (l.forget key) := by
  obtain ⟨hfanned, hlags, hslot⟩ := h.without_spec key
  have hstored (x : R) : (l.forget key).stored[pk.get x]? = some x ↔
      l.stored[pk.get x]? = some x ∧ pk.get x ≠ key := by
    rw [Ledger.forget, Store.getElem?_erase]
    split
    · next e => simp [e]
    · next e => exact (and_iff_left e).symm
  obtain ⟨g₀, hg₀⟩ := h.registration (List.length_pos_iff.2 h.nonempty)
  generalize (alternatives choices).without key s = t at hfanned hlags hslot ⊢
  have hfirst (x : R) : x ∈ (slot t 0).records ↔ (l.forget key).stored[pk.get x]? = some x := by
    rw [hslot 0 g₀ hg₀, h.mem 0 g₀ hg₀, hstored, lags_zero h.fanned.spread]
    simp
  have hmem (i : Nat) (g : Registration) (hg : l.registrations[i]? = some g) (x : R) :
      x ∈ (slot t i).records ↔ (l.forget key).stored[pk.get x]? = some x ∧
        (lags t i = true → g.time < l.putAt (pk.get x)) := by
    rcases hlags with rfl | hlags
    · rw [← hfirst x]
      simp [slot, slotsOf]
    · rw [hslot i g hg, h.mem i g hg, hstored, hlags i]
      exact and_right_comm
  have hempty : t = .empty ↔ (l.forget key).stored.isEmpty = true := by
    refine Holds.eq_empty_iff ⟨h.chained, h.nonempty, hfanned, h.keyed.erase key, fun i hi hlags x => ?_⟩
    obtain ⟨g, hg⟩ := h.registration hi
    rw [hmem i g hg, hlags]
    exact and_iff_left fun e => absurd e Bool.false_ne_true
  refine ⟨h.chained, h.nonempty, hfanned, h.keyed.erase key, h.registered, hmem, fun i g hg => ?_,
    h.registeredBefore, h.putBefore, ?_⟩
  · have hbefore := h.registeredBefore g (List.mem_of_getElem? hg)
    cases hleft : (l.forget key).stored.isEmpty with
    | true =>
      have hemptied : (l.forget key).emptied = l.clock := if_pos hleft
      rw [hempty.2 hleft, Ledger.lags, hemptied, decide_eq_false (Nat.not_le.2 hbefore),
        Bool.and_false]
      rfl
    | false =>
      have hemptied : (l.forget key).emptied = l.emptied := if_neg (Bool.eq_false_iff.1 hleft)
      have hne : t ≠ .empty := fun e => Bool.eq_false_iff.1 hleft (hempty.1 e)
      rw [(hlags.resolve_left hne) i, h.lags_eq i g hg, Ledger.lags, Ledger.lags, hemptied]
  · show (if (l.stored.erase key).isEmpty then l.clock else l.emptied) ≤ l.clock
    split
    · exact Nat.le_refl _
    · exact h.emptiedBefore

/-- Records go one after the other. -/
theorem forgetAll (h : Tracks pk choices s l) (ks : List Key) :
    Tracks pk choices (ks.foldl (fun s key => (alternatives choices).without key s) s)
      (ks.foldl Ledger.forget l) := by
  induction ks generalizing s l with
  | nil => exact h
  | cons key ks ih => exact ih (h.forget key)

/-- All records go at once. -/
theorem clear (h : Tracks pk choices s l) : Tracks pk choices .empty l.clear where
  chained := h.chained
  nonempty := h.nonempty
  fanned := fanned_empty choices
  keyed := Store.keyed_empty
  registered := h.registered
  mem i g _ x := by simp [slot, slotsOf, Ledger.clear]
  lags_eq i g hg := by
    have hbefore := h.registeredBefore g (List.mem_of_getElem? hg)
    rw [Ledger.lags, Ledger.clear, decide_eq_false (Nat.not_le.2 hbefore), Bool.and_false]
    rfl
  registeredBefore := h.registeredBefore
  putBefore := h.putBefore
  emptiedBefore := Nat.le_refl _

/-! ## Records that come -/

/-- A record comes under a free key, in the ledger and in every alternative. -/
theorem bind (h : Tracks pk choices s l) (record : R) (hfree : l.stored[pk.get record]? = none) :
    Tracks pk choices ((alternatives choices).put record s) (l.bind (pk.get record) record) where
  chained := h.chained
  nonempty := h.nonempty
  fanned := fanned_put (fun choice hc => (h.chained choice hc).layered) h.nonempty h.fanned record
  keyed := h.keyed.insert record
  registered := h.registered
  mem i g hg x := by
    obtain ⟨choice, hchoice⟩ := h.choice hg
    have hchained := h.chained choice (List.mem_of_getElem? hchoice)
    have hi := (List.getElem?_eq_some_iff.1 hchoice).1
    have hbefore := h.registeredBefore g (List.mem_of_getElem? hg)
    rw [mem_slot_put hchained.layered h.fanned record hchoice, lags_put h.fanned.spread record hi,
      h.mem i g hg, Ledger.bind, Store.getElem?_insert]
    dsimp only
    by_cases hkey : pk.get x = pk.get record
    · rw [if_pos hkey, if_pos hkey, hkey, hfree]
      simp only [reduceCtorEq, false_and, or_false, Option.some.injEq, hbefore, implies_true, and_true]
      exact eq_comm
    · have hne : x ≠ record := fun e => hkey (e ▸ rfl)
      have hkeys : choice.keys x ≠ choice.keys record := fun e => hkey (hchained.primaryKey_eq e)
      rw [if_neg hkey, if_neg hkey]
      simp [hne, hkeys]
  lags_eq i g hg := by
    obtain ⟨choice, hchoice⟩ := h.choice hg
    rw [lags_put h.fanned.spread record (List.getElem?_eq_some_iff.1 hchoice).1, h.lags_eq i g hg]
    rfl
  registeredBefore := h.registeredBefore
  putBefore k := by
    show (if k = pk.get record then l.clock else l.putAt k) ≤ l.clock
    split
    · exact Nat.le_refl _
    · exact h.putBefore k
  emptiedBefore := h.emptiedBefore

/-! ## Indexes that come, and the passing of time -/

/-- An added index holds nothing, and lags behind if there are records. -/
theorem register (h : Tracks pk choices s l) {ix : Index R} (hix : Chained pk ix) :
    Tracks pk (choices ++ [ix]) s l.register.tick := by
  have hnew : lags s choices.length = !l.stored.isEmpty := by
    rw [h.fanned.spread.lags_append, h.holds.isEmpty_eq]
  have hslot : slot s choices.length = .empty := h.fanned.spread.slot_append (Nat.le_refl _)
  have hcases {i : Nat} {g : Registration} (hg : l.register.tick.registrations[i]? = some g) :
      l.registrations[i]? = some g ∨ (i = choices.length ∧ g = ⟨l.clock, !l.stored.isEmpty⟩) := by
    rw [Ledger.tick, Ledger.register] at hg
    dsimp only at hg
    rw [List.getElem?_append] at hg
    split at hg
    · exact .inl hg
    · next hge =>
      rw [List.getElem?_singleton] at hg
      split at hg
      · next hi =>
        rw [← h.registered]
        exact .inr ⟨by omega, (Option.some.inj hg).symm⟩
      · cases hg
  refine ⟨?_, by simp, h.fanned.append ix, h.keyed, ?_, fun i g hg x => ?_, fun i g hg => ?_, ?_, ?_, ?_⟩
  · intro choice hc
    rcases List.mem_append.1 hc with hc | hc
    · exact h.chained choice hc
    · exact List.mem_singleton.1 hc ▸ hix
  · simp [Ledger.tick, Ledger.register, h.registered]
  · rcases hcases hg with hg | ⟨rfl, rfl⟩
    · exact h.mem i g hg x
    · rw [hslot, hnew]
      refine ⟨fun hx => absurd hx List.not_mem_nil, ?_⟩
      rintro ⟨hx : l.stored[pk.get x]? = some x, hlate⟩
      have hne : (!l.stored.isEmpty) = true := by
        rw [Bool.not_eq_true', Bool.eq_false_iff, Ne, Store.isEmpty_iff_getElem?]
        intro hall
        rw [hall] at hx
        cases hx
      exact absurd (hlate hne) (Nat.not_lt.2 (h.putBefore _))
  · rcases hcases hg with hg | ⟨rfl, rfl⟩
    · exact h.lags_eq i g hg
    · have hbefore : decide (l.emptied ≤ l.clock) = true := decide_eq_true h.emptiedBefore
      rw [hnew]
      show (!l.stored.isEmpty) = (!l.stored.isEmpty && decide (l.emptied ≤ l.clock))
      rw [hbefore, Bool.and_true]
  · intro g hg
    rcases List.mem_append.1 hg with hg | hg
    · exact Nat.lt_succ_of_lt (h.registeredBefore g hg)
    · rw [List.mem_singleton.1 hg]
      exact Nat.lt_succ_self _
  · exact fun k => Nat.le_succ_of_le (h.putBefore k)
  · exact Nat.le_succ_of_le h.emptiedBefore

theorem tick (h : Tracks pk choices s l) : Tracks pk choices s l.tick :=
  { h with
    registeredBefore := fun g hg => Nat.lt_succ_of_lt (h.registeredBefore g hg)
    putBefore := fun k => Nat.le_succ_of_le (h.putBefore k)
    emptiedBefore := Nat.le_succ_of_le h.emptiedBefore }

theorem takeView (h : Tracks pk choices s l) : Tracks pk choices s l.takeView :=
  { h with }

end Tracks

end RecordStore.Index
