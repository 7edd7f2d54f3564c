import RecordStore.Proofs.Engine.NoDearer
/-!
# More indexes never cost more

Two engines are given the same operations, and the second one gets further indexes while it is empty
(`Run.Widens`). What the second one reports for a query is no dearer than what the first one does,
and no dearer than what its own tree of the primary key would cost (`plan_is_first_cheapest`). The
sessions stay `Wider`: they store the same records, and what can be read in the first can be read in
the second.

Only a removal that honours its query asks for more. It takes away what the query selects, under a
plan that may differ between the two, and has to leave the same records in both
(`Session.LeavesSame`). So it does where the properties that indexes and query refer to by one name
read the same (`Run.Widens.of_coherent`).
-/

namespace RecordStore

open Log Index

namespace Session

variable {R : Type} {pk : Property R} {config config' : Config} {s t : Session R} {l m : Ledger R}

/-- Two sessions that store the same, with their ledgers; what can be read in the first can be read
in the second. -/
structure Wider (pk : Property R) (config config' : Config) (s t : Session R) (l m : Ledger R) : Prop where
  left : s.Follows pk config l
  right : t.Follows pk config' m
  honor : config'.honorRemoveAllFilters = config.honorRemoveAllFilters
  stored : m.stored = l.stored
  wider : Index.Wider s.engine.alternatives t.engine.alternatives s.engine.state t.engine.state

/-- Whether an operation, if it is a removal that honours its query, leaves the same records in both
sessions. -/
def LeavesSame (s t : Session R) (threshold threshold' : Threshold) : Operation R → Prop
  | .removeAll q => t.engine.config.honorRemoveAllFilters = true →
    ((s.engine.removeAll q).value threshold).2.state.records.Perm
      ((t.engine.removeAll q).value threshold').2.state.records
  | _ => True

namespace Wider

theorem primaryKey_eq (h : Wider pk config config' s t l m) :
    t.engine.primaryKey = s.engine.primaryKey :=
  h.right.primaryKey.trans h.left.primaryKey.symm

theorem isEmpty_eq (h : Wider pk config config' s t l m) :
    t.engine.state.isEmpty = s.engine.state.isEmpty := by
  rw [h.right.tracks.holds.isEmpty_eq, h.left.tracks.holds.isEmpty_eq, h.stored]

theorem spreads (h : Wider pk config config' s t l m) :
    Spread s.engine.alternatives.length s.engine.state ∧
      Spread t.engine.alternatives.length t.engine.state :=
  ⟨h.left.tracks.fanned.spread, h.right.tracks.fanned.spread⟩

theorem properties_subset (h : Wider pk config config' s t l m) :
    s.engine.view.properties ⊆ t.engine.view.properties := by
  intro p hp
  obtain ⟨ix, hix, hp⟩ := List.mem_flatMap.1 hp
  exact List.mem_flatMap.2 ⟨ix, h.wider.indexes hix, hp⟩

/-- The sessions emit the same records for a query. -/
theorem emitted_perm (h : Wider pk config config' s t l m) {q : Query R}
    (hcoherent : Property.Coherent (t.engine.view.properties ++ q.properties)) :
    (s.engine.view.emitted q).Perm (t.engine.view.emitted q) := by
  have ht : Holds pk t.engine.view.alternatives t.engine.view.state l.stored :=
    h.stored ▸ h.right.tracks.holds
  have hsub : s.engine.view.properties ++ q.properties ⊆ t.engine.view.properties ++ q.properties :=
    List.append_subset.2
      ⟨List.subset_append_of_subset_left _ h.properties_subset, List.subset_append_right _ _⟩
  exact h.left.tracks.holds.emitted_perm ht h.left.primaryKey h.right.primaryKey (hcoherent.mono hsub)
    hcoherent

/-- A removal leaves the same records in both sessions where the properties that they refer to by
one name read the same. -/
theorem leavesSame_of_coherent (h : Wider pk config config' s t l m) {op : Operation R}
    (hcoherent : ∀ q, op = .removeAll q → config'.honorRemoveAllFilters = true →
      Property.Coherent (t.engine.view.properties ++ q.properties)) (threshold threshold' : Threshold) :
    s.LeavesSame t threshold threshold' op := by
  cases op with
  | removeAll q =>
    intro hhonor
    have hright : config'.honorRemoveAllFilters = true := (congrArg _ h.right.config).symm.trans hhonor
    have hleft : config.honorRemoveAllFilters = true := h.honor.symm.trans hright
    have hemitted := h.emitted_perm (hcoherent q rfl hright)
    apply ((h.left.holds_removeAll q threshold).store_eq_iff (h.right.holds_removeAll q threshold')).1
    refine Std.ExtTreeMap.ext_getElem? fun key => Option.ext fun r => ?_
    rw [h.left.stored_removeAll_iff hleft, h.right.stored_removeAll_iff hright, h.stored, hemitted.mem_iff]
  | _ => trivial

/-- An operation stores the same in both sessions, if removals leave the same. -/
theorem stored_after (h : Wider pk config config' s t l m) (op : Operation R)
    {threshold threshold' : Threshold} (hsame : s.LeavesSame t threshold threshold' op) :
    (m.after t.engine op).stored = (l.after s.engine op).stored := by
  have hpk := h.primaryKey_eq
  cases op with
  | put record =>
    show (m.stored.erase (t.engine.primaryKey.get record)).insert _ record = _
    rw [h.stored, hpk]
    rfl
  | remove record =>
    show m.stored.erase (t.engine.primaryKey.get record) = _
    rw [h.stored, hpk]
    rfl
  | removeAll q =>
    cases hhonor : config.honorRemoveAllFilters with
    | false =>
      rw [Ledger.stored_removeAll, Ledger.stored_removeAll, h.right.config, h.left.config, h.honor, hhonor]
      rfl
    | true =>
      have hperm := hsame ((congrArg _ h.right.config).trans (h.honor.trans hhonor))
      have hleft := h.left.holds_removeAll q threshold
      exact ((hleft.store_eq_iff (h.right.holds_removeAll q threshold')).2 hperm).symm
  | _ => exact h.stored

/-! ### Operations on both -/

theorem wider_without (h : Wider pk config config' s t l m) (key : Key) :
    Index.Wider s.engine.alternatives t.engine.alternatives (s.engine.index.without key s.engine.state)
      (t.engine.index.without key t.engine.state) := by
  have hleft : ([key].foldl Ledger.forget m).stored = ([key].foldl Ledger.forget l).stored := by
    rw [Ledger.stored_foldl_forget, Ledger.stored_foldl_forget, h.stored]
  exact h.wider.foldl_without h.left.tracks h.right.tracks hleft

theorem wider_put (h : Wider pk config config' s t l m) (record : R) (threshold threshold' : Threshold) :
    Index.Wider s.engine.alternatives t.engine.alternatives
      ((s.engine.put record).value threshold).2.state
      ((t.engine.put record).value threshold').2.state := by
  rw [Engine.state_put, Engine.state_put, h.left.primaryKey, h.right.primaryKey]
  exact (h.wider_without (pk.get record)).put (h.left.tracks.forget _).fanned.spread
    (h.right.tracks.forget _).fanned.spread record

theorem wider_remove (h : Wider pk config config' s t l m) (record : R)
    (threshold threshold' : Threshold) :
    Index.Wider s.engine.alternatives t.engine.alternatives
      ((s.engine.remove record).value threshold).2.state
      ((t.engine.remove record).value threshold').2.state := by
  rw [Engine.state_remove, Engine.state_remove, h.left.primaryKey, h.right.primaryKey]
  exact h.wider_without (pk.get record)

theorem wider_removeAll (h : Wider pk config config' s t l m) (q : Query R)
    {threshold threshold' : Threshold} (hsame : s.LeavesSame t threshold threshold' (.removeAll q)) :
    Index.Wider s.engine.alternatives t.engine.alternatives
      ((s.engine.removeAll q).value threshold).2.state
      ((t.engine.removeAll q).value threshold').2.state := by
  have hleft := h.stored_after (.removeAll q) hsame
  rw [Ledger.stored_removeAll, Ledger.stored_removeAll, h.right.config, h.left.config, h.honor] at hleft
  rw [Engine.state_removeAll, Engine.state_removeAll, h.right.config, h.left.config, h.honor]
  split
  · next hhonor =>
    rw [if_pos hhonor, if_pos hhonor, ← Ledger.stored_foldl_forget, ← Ledger.stored_foldl_forget] at hleft
    exact h.wider.foldl_without h.left.tracks h.right.tracks hleft
  · exact .of_empty h.wider.indexes

/-- Whatever is done to both sessions, what can be read in the first can be read in the second. -/
theorem wider_perform (h : Wider pk config config' s t l m) (op : Operation R)
    {threshold threshold' : Threshold} (hsame : s.LeavesSame t threshold threshold' op) :
    Index.Wider ((s.perform op).value threshold).2.engine.alternatives
      ((t.perform op).value threshold').2.engine.alternatives
      ((s.perform op).value threshold).2.engine.state
      ((t.perform op).value threshold').2.engine.state := by
  have hpk := h.primaryKey_eq
  have hadded {ix jx : Index R} (hsame : jx = ix) :=
    h.wider.append h.spreads.1 h.spreads.2 h.isEmpty_eq hsame
  cases op with
  | put record => exact h.wider_put record threshold threshold'
  | remove record =>
    have hs := (s.engine.sameSetup_remove record threshold).alternatives
    have ht := (t.engine.sameSetup_remove record threshold').alternatives
    exact hs ▸ ht ▸ h.wider_remove record threshold threshold'
  | removeAll q =>
    have hs := (s.engine.sameSetup_removeAll q threshold).alternatives
    have ht := (t.engine.sameSetup_removeAll q threshold').alternatives
    exact hs ▸ ht ▸ h.wider_removeAll q hsame
  | addIndex p => exact hadded (congrArg (Index.secondary p) hpk)
  | addCompositeIndex ps => exact hadded (congrArg (Index.chain ps) hpk)
  | snapshot => exact h.wider
  | ask question =>
    obtain ⟨hs, hsstate⟩ := s.engine.sameSetup_answer question threshold
    obtain ⟨ht, htstate⟩ := t.engine.sameSetup_answer question threshold'
    have hwider := h.wider
    rw [← hs.alternatives, ← ht.alternatives, ← hsstate, ← htstate] at hwider
    exact hwider
  | askView view question =>
    rw [session_askView, session_askView]
    exact h.wider

theorem perform (h : Wider pk config config' s t l m) (op : Operation R)
    {threshold threshold' : Threshold} (hsame : s.LeavesSame t threshold threshold' op) :
    Wider pk config config' ((s.perform op).value threshold).2 ((t.perform op).value threshold').2
      (l.after s.engine op) (m.after t.engine op) where
  left := h.left.perform op threshold
  right := h.right.perform op threshold'
  honor := h.honor
  stored := h.stored_after op hsame
  wider := h.wider_perform op hsame

/-- A further index of the second session, while there are no records. -/
theorem register (h : Wider pk config config' s t l m) (hempty : t.engine.state.isEmpty = true)
    {ix : Index R} (hix : Chained pk ix) (threshold' : Threshold) :
    Wider pk config config' s { t with engine := (t.engine.register ix).value threshold' } l
      m.register.tick where
  left := h.left
  right := h.right.register hix threshold'
  honor := h.honor
  stored := h.stored
  wider := by
    have hs := h.spreads.1.eq_empty (h.isEmpty_eq.symm.trans hempty)
    have ht := h.spreads.2.eq_empty hempty
    have hwider := h.wider
    show Index.Wider s.engine.alternatives (t.engine.alternatives ++ [ix]) s.engine.state t.engine.state
    rw [hs, ht] at hwider ⊢
    exact hwider.extend ix

end Wider

/-! ## Runs with further indexes -/

open Step

/-- Whether the further indexes of some steps are added only while the engine is empty. -/
def addsWhileEmpty (threshold : Threshold) (s : Session R) : List (Step R) → Bool
  | [] => true
  | step :: rest => (step.given?.isSome || s.engine.state.isEmpty) &&
    addsWhileEmpty threshold ((s.perform step.operation).value threshold).2 rest

/-- Whether each removal among some steps leaves the same records in both sessions, when it is its
turn. -/
def EachLeavesSame (s t : Session R) (threshold threshold' : Threshold) : List (Step R) → Prop
  | [] => True
  | given op :: rest => s.LeavesSame t threshold threshold' op ∧
    EachLeavesSame ((s.perform op).value threshold).2 ((t.perform op).value threshold').2 threshold
      threshold' rest
  | step :: rest =>
    EachLeavesSame s ((t.perform step.operation).value threshold').2 threshold threshold' rest

theorem properties_subset_run (s : Session R) (ops : List (Operation R)) (threshold : Threshold) :
    s.engine.view.properties ⊆ ((s.run ops).value threshold).2.engine.view.properties := by
  have hrun : ((s.run ops).value threshold).2.engine.view.alternatives =
      s.engine.view.alternatives ++ ops.filterMap (Operation.index? s.engine.primaryKey) :=
    s.alternatives_run ops threshold
  rw [Snapshot.properties, Snapshot.properties, hrun, List.flatMap_append]
  exact List.subset_append_left _ _

/-- A further index keeps a session wider than the other one. -/
theorem Wider.add (h : Wider pk config config' s t l m) (hempty : t.engine.state.isEmpty = true)
    (step : Step R) (hstep : step.given? = none) (threshold' : Threshold) :
    Wider pk config config' s ((t.perform step.operation).value threshold').2 l m.register.tick := by
  cases step with
  | given op => cases hstep
  | addIndex p =>
    have hix : Chained pk (.secondary p t.engine.primaryKey) :=
      h.right.primaryKey ▸ chained_secondary p _
    exact h.register hempty hix threshold'
  | addCompositeIndex ps =>
    have hix : Chained pk (.chain ps t.engine.primaryKey) := h.right.primaryKey ▸ chained_chain _ ps
    exact h.register hempty hix threshold'

/-- A session that gets further indexes while it is empty stays wider than the other one. -/
theorem Wider.run (h : Wider pk config config' s t l m) {threshold threshold' : Threshold}
    (steps : List (Step R)) (hempty : t.addsWhileEmpty threshold' steps = true)
    (hsame : s.EachLeavesSame t threshold threshold' steps) :
    ∃ l' m', Wider pk config config' ((s.run (steps.filterMap given?)).value threshold).2
      ((t.run (steps.map operation)).value threshold').2 l' m' := by
  induction steps generalizing s t l m with
  | nil => exact ⟨l, m, h⟩
  | cons step steps ih =>
    obtain ⟨hnow, hlater⟩ := Bool.and_eq_true_iff.1 hempty
    cases step with
    | given op => exact ih (h.perform op hsame.1) hlater hsame.2
    | addIndex p => exact ih (h.add hnow (.addIndex p) rfl threshold') hlater hsame
    | addCompositeIndex ps => exact ih (h.add hnow (.addCompositeIndex ps) rfl threshold') hlater hsame

/-- Each removal leaves the same in both sessions where the properties that the second one's indexes
and the query refer to by one name read the same. -/
theorem Wider.eachLeavesSame_of_coherent (h : Wider pk config config' s t l m)
    {threshold threshold' : Threshold} (steps : List (Step R))
    (hempty : t.addsWhileEmpty threshold' steps = true)
    (hcoherent : ∀ q, given (.removeAll q) ∈ steps → config'.honorRemoveAllFilters = true →
      Property.Coherent (((t.run (steps.map operation)).value threshold').2.engine.view.properties ++
        q.properties)) :
    s.EachLeavesSame t threshold threshold' steps := by
  induction steps generalizing s t l m with
  | nil => trivial
  | cons step steps ih =>
    obtain ⟨hnow, hlater⟩ := Bool.and_eq_true_iff.1 hempty
    have hrest : ∀ q, given (.removeAll q) ∈ steps → config'.honorRemoveAllFilters = true →
        Property.Coherent (((t.run ((step :: steps).map operation)).value
          threshold').2.engine.view.properties ++ q.properties) :=
      fun q hq => hcoherent q (List.mem_cons_of_mem _ hq)
    cases step with
    | given op =>
      have hsame : s.LeavesSame t threshold threshold' op := by
        refine h.leavesSame_of_coherent (fun q hop hhonor => ?_) threshold threshold'
        subst hop
        -- The session has fewer properties now than in the end.
        have hindexes := t.properties_subset_run ((given (.removeAll q) :: steps).map operation) threshold'
        exact (hcoherent q List.mem_cons_self hhonor).mono (List.append_subset.2
          ⟨List.subset_append_of_subset_left q.properties hindexes, List.subset_append_right _ _⟩)
      exact ⟨hsame, ih (h.perform op hsame) hlater hrest⟩
    | addIndex p => exact ih (h.add hnow (.addIndex p) rfl threshold') hlater hrest
    | addCompositeIndex ps => exact ih (h.add hnow (.addCompositeIndex ps) rfl threshold') hlater hrest

end Session

open Step

namespace Run

variable {R : Type}

/-- Whether two runs have the same operations but for indexes that the second one adds while it is
empty, and removals that honour their queries leave the same records in both. -/
structure Widens (a b : Run R) (steps : List (Step R)) : Prop where
  primaryKey : b.primaryKey = a.primaryKey
  honor : b.config.honorRemoveAllFilters = a.config.honorRemoveAllFilters
  narrow : a.operations = steps.filterMap given?
  wide : b.operations = steps.map operation
  whileEmpty : b.start.addsWhileEmpty b.threshold steps = true
  leavesSame : a.start.EachLeavesSame b.start a.threshold b.threshold steps

/-- At the start a run is as wide as any other with the same primary key that removes in the same way. -/
theorem wider_start {a b : Run R} (hpk : b.primaryKey = a.primaryKey)
    (hhonor : b.config.honorRemoveAllFilters = a.config.honorRemoveAllFilters) :
    Session.Wider a.primaryKey a.config b.config a.start b.start {} {} := by
  have hindexes : a.start.engine.alternatives ⊆ b.start.engine.alternatives := by
    show [Index.unique a.primaryKey] ⊆ [Index.unique b.primaryKey]
    rw [hpk]
    exact List.Subset.refl _
  have hright : b.start.Follows a.primaryKey b.config {} := hpk ▸ ⟨rfl, rfl, .start b.primaryKey, .nil⟩
  exact ⟨⟨rfl, rfl, .start a.primaryKey, .nil⟩, hright, hhonor, rfl, .of_empty hindexes⟩

/-- Names that read the same will do for removals that honour their queries. -/
theorem Widens.of_coherent {a b : Run R} {steps : List (Step R)} (hpk : b.primaryKey = a.primaryKey)
    (hhonor : b.config.honorRemoveAllFilters = a.config.honorRemoveAllFilters)
    (hnarrow : a.operations = steps.filterMap given?) (hwide : b.operations = steps.map operation)
    (hempty : b.start.addsWhileEmpty b.threshold steps = true)
    (hcoherent : ∀ q, given (.removeAll q) ∈ steps → b.config.honorRemoveAllFilters = true →
      Property.Coherent (b.engine.view.properties ++ q.properties)) : a.Widens b steps := by
  refine ⟨hpk, hhonor, hnarrow, hwide, hempty, ?_⟩
  unfold Run.engine Run.session at hcoherent
  rw [hwide] at hcoherent
  exact (wider_start hpk hhonor).eachLeavesSame_of_coherent steps hempty hcoherent

theorem Widens.wider {a b : Run R} {steps : List (Step R)} (h : a.Widens b steps) :
    ∃ l m, Session.Wider a.primaryKey a.config b.config a.session b.session l m := by
  unfold Run.session
  rw [h.narrow, h.wide]
  exact (wider_start h.primaryKey h.honor).run steps h.whileEmpty h.leavesSame

/-- Further indexes make no report dearer. -/
theorem Widens.noDearer {a b : Run R} {steps : List (Step R)} (h : a.Widens b steps) (q : Query R) :
    (b.engine.explain q).NoDearer (a.engine.explain q) := by
  obtain ⟨l, m, hwider⟩ := h.wider
  have hb := hwider.right.tracks.holds
  rw [hwider.stored] at hb
  have hpk : b.engine.primaryKey = a.engine.primaryKey := hwider.primaryKey_eq
  rw [Engine.explain_eq, Engine.explain_eq, hpk]
  exact hwider.left.tracks.holds.noDearer hb hwider.wider.readable _

/-- No report is dearer than that of the tree of the primary key alone. -/
theorem noDearer_onPrimary (run : Run R) (q : Query R) :
    (run.engine.explain q).NoDearer (run.engine.view.onPrimary.explain q) :=
  run.holds.firstSlot.noDearer run.holds (fun _ hix => hix.of_firstSlot)
    (q.normalized run.engine.primaryKey)

end Run

/-- An engine plans a predicate and an order as one of its indexes does: the earliest of those whose
plan costs least among the complete ones. Further indexes that are added while there are no records
therefore make no query dearer, and no branch of a query, and none is dearer than on the tree of the
primary key alone. -/
theorem plan_is_first_cheapest {R : Type} :
    (∀ (run : Run R) (predicate : Option (Predicate R)) (order : Order R),
      ∃ (i : Nat) (choice : Index R),
        Preferred (fun choice slot => (choice.plan predicate slot order).cost) run.engine.alternatives
          run.engine.state i choice ∧
        run.engine.index.plan predicate run.engine.state order =
          choice.plan predicate (slot run.engine.state i) order) ∧
      ∀ (a b : Run R) (steps : List (Step R)), a.Widens b steps → ∀ q : Query R,
        (b.engine.explain q).NoDearer (a.engine.explain q) ∧
        (b.engine.explain q).NoDearer (b.engine.view.onPrimary.explain q) := by
  constructor
  · intro run predicate order
    exact exists_preferred_plan run.holds.nonempty run.holds.fanned.spread predicate order
  · intro a b steps h q
    exact ⟨h.noDearer q, b.noDearer_onPrimary q⟩

namespace Run

/-- The larger amounts. -/
def large : Query (Int × Int) where
  predicate := some (.compare amount (.gt (.int 40)))

/-- An engine is filled, emptied and filled again, and the larger amounts are removed. In between
two indexes on amounts come in. -/
def widening : List (Step (Int × Int)) :=
  [given (.put (9, 90)), given (.removeAll {}), .addIndex amount, .addCompositeIndex [amount, identifier],
    given (.put (1, 30)), given (.put (2, 20)), given (.put (7, 50)), given (.put (3, 10)),
    given (.removeAll large)]

/-- The run without the further indexes. -/
def narrow : Run (Int × Int) where
  primaryKey := identifier
  config := { honorRemoveAllFilters := true }
  threshold := none
  operations := widening.filterMap given?

/-- The run with them. -/
def wide : Run (Int × Int) where
  primaryKey := identifier
  config := { honorRemoveAllFilters := true }
  threshold := none
  operations := widening.map operation

theorem widens_wide : narrow.Widens wide widening := by
  have hindexes : wide.engine.view.properties =
      [identifier, amount, identifier, amount, identifier, identifier] := by
    unfold Snapshot.properties Engine.view
    dsimp only
    rw [alternatives_eq]
    rfl
  refine .of_coherent rfl rfl rfl rfl (by decide +kernel) fun q hq _ => ?_
  have hquery : ∀ p ∈ q.properties, p = amount := by
    simp only [widening, List.mem_cons, given.injEq, Operation.removeAll.injEq, reduceCtorEq, false_or,
      List.not_mem_nil, or_false] at hq
    rcases hq with rfl | rfl <;>
      simp [large, Query.properties, Query.sortKeys, Predicate.properties]
  refine Property.coherent_of_pair (p := identifier) (q := amount) rfl fun p hp => ?_
  rcases List.mem_append.1 hp with hp | hp
  · rw [hindexes] at hp
    simp only [List.mem_cons, List.not_mem_nil, or_false] at hp
    rcases hp with h | h | h | h | h | h <;> simp [h]
  · exact .inr (hquery p hp)

/-- With an index on amounts, three records are not read for the smaller amounts but one. -/
theorem plan_is_first_cheapest_wide :
    narrow.Widens wide widening ∧
      (narrow.engine.explain smallOrEarly).cost = 6 ∧ (wide.engine.explain smallOrEarly).cost = 4 ∧
      (wide.engine.explain smallOrEarly).NoDearer (narrow.engine.explain smallOrEarly) ∧
      (wide.engine.explain smallOrEarly).NoDearer (wide.engine.view.onPrimary.explain smallOrEarly) := by
  have hnarrow : (narrow.engine.explain smallOrEarly).cost = 6 := by decide +kernel
  have hwide : (wide.engine.explain smallOrEarly).cost = 4 := by decide +kernel
  exact ⟨widens_wide, hnarrow, hwide,
    plan_is_first_cheapest.2 narrow wide widening widens_wide smallOrEarly⟩

end Run

end RecordStore
