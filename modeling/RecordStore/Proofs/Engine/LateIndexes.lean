import RecordStore.Proofs.Engine.Bindings
import RecordStore.Proofs.Index.Complete
/-!
# Indexes that are added late

An index that is added to an engine with records changes no answer until the engine is empty again
(`Run.ownAnswers_eq`). Two sessions are compared, only one of which gets further indexes. They are
`Level`: they store the same records, and the same alternatives are complete in both, whatever else
lags behind and wherever it stands.

* Level sessions give the same answers: `Level.answer_eq`.
* Operations that leave records keep sessions level (`Level.perform`), and so does a further index
  of one of them (`Level.register`).
-/

namespace RecordStore

open Log

/-! ## Emptying an engine -/

/-- Whether an operation empties the engine, if only for the moment between the record that it
replaces and the one that it puts. -/
def Session.empties {R : Type} (threshold : Threshold) (s : Session R) : Operation R → Bool
  | .put record => (s.engine.index.without (s.engine.primaryKey.get record) s.engine.state).isEmpty
  | op => ((s.perform op).value threshold).2.engine.state.isEmpty

/-- Whether none of some operations empties the engine. -/
def Session.lasts {R : Type} (threshold : Threshold) (s : Session R) : List (Operation R) → Bool
  | [] => true
  | op :: rest =>
    !s.empties threshold op && lasts threshold ((s.perform op).value threshold).2 rest

/-- An operation that does not empty the engine leaves records. -/
theorem Session.Follows.isEmpty_perform {R : Type} {pk : Property R} {config : Config}
    {s : Session R} {l : Ledger R} (h : s.Follows pk config l) {threshold : Threshold}
    {op : Operation R} (hlasts : s.empties threshold op = false) :
    ((s.perform op).value threshold).2.engine.state.isEmpty = false := by
  cases op with
  | put record =>
    rw [(h.perform (.put record) threshold).tracks.holds.isEmpty_eq]
    exact Std.ExtTreeMap.isEmpty_eq_false_iff.2 Std.ExtTreeMap.insert_ne_empty
  | _ => exact hlasts

/-! ## Taking keys out -/

namespace Index

variable {R : Type} {pk : Property R} {choices choices' : List (Index R)} {s t : State R}
  {l m : Ledger R}

/-- A record that goes from among others goes from each complete alternative. -/
theorem Tracks.complete_without (h : Tracks pk choices s l) (key : Key)
    (hleft : (l.forget key).stored.isEmpty = false) :
    complete choices ((alternatives choices).without key s) =
      (complete choices s).map fun a =>
        (a.1, l.stored[key]?.elim a.2 fun stored => a.1.remove stored a.2) := by
  have hstate := (h.forget key).holds.isEmpty_eq
  rw [hleft] at hstate
  unfold without at hstate ⊢
  rw [h.holds.find?_eq key] at hstate ⊢
  cases hget : l.stored[key]? with
  | none => simp
  | some stored =>
    rw [hget] at hstate
    exact complete_remove (fun choice hc => (h.chained choice hc).layered) h.nonempty h.fanned stored
      hstate

theorem stored_foldl_forget_isEmpty (keys : List Key) (hempty : l.stored.isEmpty = true) :
    (keys.foldl Ledger.forget l).stored.isEmpty = true := by
  rw [Store.isEmpty_iff_getElem?] at hempty ⊢
  intro k
  rw [Ledger.stored_foldl_forget, Store.getElem?_foldl_erase, hempty k, ite_self]

/-- What the same keys leave of the same complete alternatives is the same, as long as something is
left. -/
theorem Tracks.complete_foldl_without (hs : Tracks pk choices s l) (ht : Tracks pk choices' t m)
    (hstored : m.stored = l.stored) (hcomplete : complete choices' t = complete choices s)
    (keys : List Key) (hleft : (keys.foldl Ledger.forget l).stored.isEmpty = false) :
    complete choices' (keys.foldl (fun t key => (alternatives choices').without key t) t) =
      complete choices (keys.foldl (fun s key => (alternatives choices).without key s) s) := by
  induction keys generalizing s t l m with
  | nil => exact hcomplete
  | cons key keys ih =>
    have hl : (l.forget key).stored.isEmpty = false := by
      rw [← Bool.not_eq_true]
      intro hempty
      rw [List.foldl_cons, stored_foldl_forget_isEmpty keys hempty] at hleft
      cases hleft
    have hm : (m.forget key).stored = (l.forget key).stored := by
      rw [Ledger.forget, Ledger.forget, hstored]
    refine ih (hs.forget key) (ht.forget key) hm ?_ hleft
    rw [hs.complete_without key hl, ht.complete_without key (hm ▸ hl), hcomplete, hstored]

end Index

/-! ## Level snapshots -/

/-- Whether two snapshots hold one store in the same complete alternatives. -/
structure Snapshot.Level {R : Type} (pk : Property R) (m : Store R) (v w : Snapshot R) : Prop where
  left_pk : v.primaryKey = pk
  right_pk : w.primaryKey = pk
  left : Index.Holds pk v.alternatives v.state m
  right : Index.Holds pk w.alternatives w.state m
  complete : Index.complete w.alternatives w.state = Index.complete v.alternatives v.state

namespace Snapshot.Level

variable {R : Type} {pk : Property R} {m : Store R} {v w : Snapshot R}

theorem plan_eq (h : Level pk m v w) (q : Query R) : w.plan q = v.plan q := by
  have hempty : w.state.isEmpty = v.state.isEmpty := by
    rw [h.left.isEmpty_eq, h.right.isEmpty_eq]
  exact Index.choose_congr h.right.fanned.spread h.left.fanned.spread hempty h.complete q

theorem answer_eq (h : Level pk m v w) (question : Question R) (threshold : Threshold) :
    (w.answer question).value threshold = (v.answer question).value threshold := by
  have hpk : w.primaryKey = v.primaryKey := h.right_pk.trans h.left_pk.symm
  cases question with
  | find key => exact congrArg Answer.record ((h.right.lookup_eq key).trans (h.left.lookup_eq key).symm)
  | findRecord record =>
    show Answer.record (w.find? (w.primaryKey.get record)) =
      Answer.record (v.find? (v.primaryKey.get record))
    rw [hpk]
    exact congrArg Answer.record ((h.right.lookup_eq _).trans (h.left.lookup_eq _).symm)
  | size => exact congrArg Answer.count (h.right.size_eq.trans h.left.size_eq.symm)
  | select q =>
    show Answer.selected ((w.select q .collect {}).value threshold) =
      Answer.selected ((v.select q .collect {}).value threshold)
    have hplan := h.plan_eq (q.normalized v.primaryKey)
    unfold Snapshot.plan at hplan
    rw [Snapshot.value_select, Snapshot.value_select, hpk, hplan]
  | explain q =>
    show Answer.explained (w.explain q) = Answer.explained (v.explain q)
    rw [Snapshot.explain, Snapshot.explain, hpk, h.plan_eq]

end Snapshot.Level

/-! ## Level sessions -/

namespace Session

variable {R : Type} {pk : Property R} {config : Config} {s t : Session R} {l m : Ledger R}
  {threshold : Threshold}

theorem answer_askView (s : Session R) (view : Nat) (question : Question R) (threshold : Threshold) :
    ((s.perform (.askView view question)).value threshold).1 =
      (s.views[view]?).elim .noView fun v => (v.answer question).value threshold := by
  rw [perform]
  cases s.views[view]? <;> rfl

/-- Two sessions that store the same in the same complete alternatives, with their ledgers. -/
structure Level (pk : Property R) (config : Config) (s t : Session R) (l m : Ledger R) : Prop where
  left : s.Follows pk config l
  right : t.Follows pk config m
  stored : m.stored = l.stored
  complete : Index.complete t.engine.alternatives t.engine.state =
    Index.complete s.engine.alternatives s.engine.state
  views : List.Forall₂ (fun v w => ∃ stored, Snapshot.Level pk stored v w) s.views t.views

namespace Level

theorem refl (h : s.Follows pk config l) : Level pk config s s l l where
  left := h
  right := h
  stored := rfl
  complete := rfl
  views := by
    rw [List.forall₂_same]
    intro v hv
    obtain ⟨i, hi⟩ := List.mem_iff_getElem?.1 hv
    obtain ⟨stored, -, hpk, hholds⟩ := h.holds_view hi
    exact ⟨stored, hpk, hpk, hholds, hholds, rfl⟩

theorem view (h : Level pk config s t l m) :
    Snapshot.Level pk l.stored s.engine.view t.engine.view where
  left_pk := h.left.primaryKey
  right_pk := h.right.primaryKey
  left := h.left.tracks.holds
  right := h.stored ▸ h.right.tracks.holds
  complete := h.complete

theorem primaryKey_eq (h : Level pk config s t l m) : t.engine.primaryKey = s.engine.primaryKey :=
  h.right.primaryKey.trans h.left.primaryKey.symm

theorem isEmpty_eq (h : Level pk config s t l m) :
    t.engine.state.isEmpty = s.engine.state.isEmpty :=
  h.view.right.isEmpty_eq.trans h.view.left.isEmpty_eq.symm

theorem selectedKeys_eq (h : Level pk config s t l m) (q : Query R) :
    t.engine.selectedKeys q = s.engine.selectedKeys q := by
  have hplan : Plan.choose t.engine.alternatives t.engine.state (q.normalized s.engine.primaryKey) =
      Plan.choose s.engine.alternatives s.engine.state (q.normalized s.engine.primaryKey) :=
    h.view.plan_eq (q.normalized s.engine.primaryKey)
  rw [Engine.selectedKeys, Engine.selectedKeys, h.primaryKey_eq, hplan]

/-- An operation leaves the same records in level sessions. -/
theorem stored_after (h : Level pk config s t l m) (op : Operation R) :
    (m.after t.engine op).stored = (l.after s.engine op).stored := by
  have hpk := h.primaryKey_eq
  cases op with
  | put record =>
    show (m.stored.erase (t.engine.primaryKey.get record)).insert _ record = _
    rw [h.stored, hpk]
    rfl
  | remove record =>
    show m.stored.erase (t.engine.primaryKey.get record) = _
    rw [h.stored, hpk]
    rfl
  | removeAll q =>
    rw [Ledger.stored_removeAll, Ledger.stored_removeAll, h.right.config, h.left.config,
      h.selectedKeys_eq q, h.stored]
  | _ => exact h.stored

/-- Level sessions remove the same number of records. -/
theorem count_removeAll_eq (h : Level pk config s t l m) (q : Query R) (threshold : Threshold) :
    ((t.engine.removeAll q).value threshold).1 = ((s.engine.removeAll q).value threshold).1 := by
  have hs := h.left.count_removeAll_add q threshold
  have ht := h.right.count_removeAll_add q threshold
  rw [h.stored_after, h.stored] at ht
  omega

/-- Level sessions give the same answers. -/
theorem answer_eq (h : Level pk config s t l m) (op : Operation R) (threshold : Threshold) :
    ((t.perform op).value threshold).1 = ((s.perform op).value threshold).1 := by
  cases op with
  | put record => exact Eq.trans (b := Answer.record (some record)) rfl rfl
  | remove record =>
    have hs := s.engine.removed_remove record threshold
    have ht := t.engine.removed_remove record threshold
    rw [h.left.primaryKey] at hs
    rw [h.right.primaryKey] at ht
    have hfind := (h.view.right.find?_eq (pk.get record)).trans (h.view.left.find?_eq _).symm
    exact congrArg Answer.record (ht.trans (hfind.trans hs.symm))
  | removeAll q => exact congrArg Answer.count (h.count_removeAll_eq q threshold)
  | addIndex p => exact Eq.trans (b := Answer.done) rfl rfl
  | addCompositeIndex ps => exact Eq.trans (b := Answer.done) rfl rfl
  | snapshot => exact Eq.trans (b := Answer.done) rfl rfl
  | ask question =>
    have hview := h.view.answer_eq question threshold
    cases question <;> exact hview
  | askView view question =>
    rw [answer_askView, answer_askView]
    cases hv : s.views[view]? with
    | none =>
      have hw : t.views[view]? = none := by
        rw [List.getElem?_eq_none_iff] at hv ⊢
        exact h.views.length_eq ▸ hv
      rw [hw]
    | some v =>
      obtain ⟨hi, rfl⟩ := List.getElem?_eq_some_iff.1 hv
      have hi' : view < t.views.length := h.views.length_eq ▸ hi
      obtain ⟨stored, hlevel⟩ := h.views.get hi hi'
      rw [List.getElem?_eq_getElem hi']
      exact hlevel.answer_eq question threshold

/-! ### Operations on both -/

/-- Taking the same keys out of level sessions leaves the same in the complete alternatives. -/
theorem complete_foldl_without (h : Level pk config s t l m) (keys : List Key)
    (hleft : (keys.foldl (fun state key => s.engine.index.without key state)
      s.engine.state).isEmpty = false) :
    Index.complete t.engine.alternatives
        (keys.foldl (fun state key => t.engine.index.without key state) t.engine.state) =
      Index.complete s.engine.alternatives
        (keys.foldl (fun state key => s.engine.index.without key state) s.engine.state) := by
  refine h.left.tracks.complete_foldl_without h.right.tracks h.stored h.complete keys ?_
  rw [← (h.left.tracks.forgetAll keys).holds.isEmpty_eq]
  exact hleft

theorem complete_put (h : Level pk config s t l m) (record : R)
    (hlasts : s.empties threshold (.put record) = false) :
    Index.complete t.engine.alternatives ((t.engine.put record).value threshold).2.state =
      Index.complete s.engine.alternatives ((s.engine.put record).value threshold).2.state := by
  have hwithout := h.complete_foldl_without [s.engine.primaryKey.get record] hlasts
  have hs := (h.left.tracks.forget (s.engine.primaryKey.get record)).fanned.spread
  have ht := (h.right.tracks.forget (s.engine.primaryKey.get record)).fanned.spread
  rw [Engine.state_put, Engine.state_put, h.primaryKey_eq]
  exact (Index.complete_put ht record).trans
    ((congrArg _ hwithout).trans (Index.complete_put hs record).symm)

theorem complete_remove (h : Level pk config s t l m) (record : R)
    (hlasts : s.empties threshold (.remove record) = false) :
    Index.complete t.engine.alternatives ((t.engine.remove record).value threshold).2.state =
      Index.complete s.engine.alternatives ((s.engine.remove record).value threshold).2.state := by
  have hleft : ((s.engine.remove record).value threshold).2.state.isEmpty = false := hlasts
  rw [Engine.state_remove] at hleft
  rw [Engine.state_remove, Engine.state_remove, h.primaryKey_eq]
  exact h.complete_foldl_without [s.engine.primaryKey.get record] hleft

theorem complete_removeAll (h : Level pk config s t l m) (q : Query R)
    (hlasts : s.empties threshold (.removeAll q) = false) :
    Index.complete t.engine.alternatives ((t.engine.removeAll q).value threshold).2.state =
      Index.complete s.engine.alternatives ((s.engine.removeAll q).value threshold).2.state := by
  have hleft : ((s.engine.removeAll q).value threshold).2.state.isEmpty = false := hlasts
  rw [Engine.state_removeAll, h.left.config] at hleft
  rw [Engine.state_removeAll, Engine.state_removeAll, h.right.config, h.left.config,
    h.selectedKeys_eq q]
  split at hleft
  · next hhonor =>
    rw [if_pos hhonor, if_pos hhonor]
    exact h.complete_foldl_without _ hleft
  · cases hleft

/-- Indexes that are added amid records do not come in. -/
theorem complete_append (h : Level pk config s t l m) (ix jx : Index R)
    (hleft : s.engine.state.isEmpty = false) :
    Index.complete (t.engine.alternatives ++ [jx]) t.engine.state =
      Index.complete (s.engine.alternatives ++ [ix]) s.engine.state := by
  rw [Index.complete_append h.left.tracks.fanned ix hleft,
    Index.complete_append h.right.tracks.fanned jx (h.isEmpty_eq.trans hleft)]
  exact h.complete

/-- Operations that leave records keep the complete alternatives of level sessions the same. -/
theorem complete_perform (h : Level pk config s t l m) (op : Operation R)
    (hlasts : s.empties threshold op = false) :
    Index.complete ((t.perform op).value threshold).2.engine.alternatives
        ((t.perform op).value threshold).2.engine.state =
      Index.complete ((s.perform op).value threshold).2.engine.alternatives
        ((s.perform op).value threshold).2.engine.state := by
  cases op with
  | put record => exact h.complete_put record hlasts
  | remove record =>
    have hs := (s.engine.sameSetup_remove record threshold).alternatives
    have ht := (t.engine.sameSetup_remove record threshold).alternatives
    exact hs ▸ ht ▸ h.complete_remove record hlasts
  | removeAll q =>
    have hs := (s.engine.sameSetup_removeAll q threshold).alternatives
    have ht := (t.engine.sameSetup_removeAll q threshold).alternatives
    exact hs ▸ ht ▸ h.complete_removeAll q hlasts
  | addIndex p => exact h.complete_append (.secondary p _) (.secondary p _) hlasts
  | addCompositeIndex ps => exact h.complete_append (.chain ps _) (.chain ps _) hlasts
  | snapshot => exact h.complete
  | ask question =>
    obtain ⟨hs, hsstate⟩ := s.engine.sameSetup_answer question threshold
    obtain ⟨ht, htstate⟩ := t.engine.sameSetup_answer question threshold
    show Index.complete ((t.engine.answer question).value threshold).2.alternatives
        ((t.engine.answer question).value threshold).2.state =
      Index.complete ((s.engine.answer question).value threshold).2.alternatives
        ((s.engine.answer question).value threshold).2.state
    rw [hs.alternatives, ht.alternatives, hsstate, htstate]
    exact h.complete
  | askView view question =>
    rw [session_askView, session_askView]
    exact h.complete

theorem views_perform (h : Level pk config s t l m) (op : Operation R) :
    List.Forall₂ (fun v w => ∃ stored, Snapshot.Level pk stored v w)
      ((s.perform op).value threshold).2.views ((t.perform op).value threshold).2.views := by
  cases op with
  | snapshot => exact List.rel_append h.views (.cons ⟨l.stored, h.view⟩ .nil)
  | askView view question =>
    rw [session_askView, session_askView]
    exact h.views
  | _ => exact h.views

/-- An operation that leaves records keeps sessions level. -/
theorem perform (h : Level pk config s t l m) (op : Operation R)
    (hlasts : s.empties threshold op = false) :
    Level pk config ((s.perform op).value threshold).2 ((t.perform op).value threshold).2
      (l.after s.engine op) (m.after t.engine op) where
  left := h.left.perform op threshold
  right := h.right.perform op threshold
  stored := h.stored_after op
  complete := h.complete_perform op hlasts
  views := h.views_perform op

/-- So does a further index of one of them, as long as there are records. -/
theorem register (h : Level pk config s t l m) (hleft : s.engine.state.isEmpty = false)
    {ix : Index R} (hix : Index.Chained pk ix) (threshold : Threshold) :
    Level pk config s { t with engine := (t.engine.register ix).value threshold } l
      m.register.tick where
  left := h.left
  right := h.right.register hix threshold
  stored := h.stored
  complete :=
    (Index.complete_append h.right.tracks.fanned ix (h.isEmpty_eq.trans hleft)).trans h.complete
  views := h.views

end Level

end Session

/-! ## Runs with further indexes -/

/-- A step of a run with further indexes: an operation that is given, or one of those indexes. -/
inductive Step (R : Type) where
  | given (op : Operation R)
  | addIndex (p : Property R)
  | addCompositeIndex (properties : List (Property R))

namespace Step

variable {R : Type}

def operation : Step R → Operation R
  | given op => op
  | addIndex p => .addIndex p
  | addCompositeIndex properties => .addCompositeIndex properties

def given? : Step R → Option (Operation R)
  | given op => some op
  | addIndex _ => none
  | addCompositeIndex _ => none

/-- The answers to the given operations, out of the answers to all. -/
def ownAnswers (steps : List (Step R)) (answers : List (Answer R)) : List (Answer R) :=
  (steps.zip answers).filterMap fun (step, answer) => step.given?.map fun _ => answer

end Step

open Step

/-- A session that gets further indexes answers like a session that it is level with, up to the
operation that empties it. -/
theorem Session.Level.ownAnswers_run {R : Type} {pk : Property R} {config : Config}
    {s t : Session R} {l m : Ledger R} (h : Level pk config s t l m) {threshold : Threshold}
    (steps : List (Step R)) (last : Operation R) (hholds : s.engine.state.isEmpty = false)
    (hlasts : s.lasts threshold (steps.filterMap given?) = true) :
    ownAnswers (steps ++ [given last])
        ((t.run ((steps ++ [given last]).map operation)).value threshold).1 =
      ((s.run ((steps ++ [given last]).filterMap given?)).value threshold).1 := by
  -- The sessions stay level over the steps; a further index goes to the second one only.
  induction steps generalizing s t l m with
  | nil => exact congrArg (· :: []) (h.answer_eq last threshold)
  | cons step steps ih =>
    cases step with
    | given op =>
      obtain ⟨hop, hrest⟩ := Bool.and_eq_true_iff.1 hlasts
      rw [Bool.not_eq_true'] at hop
      exact congrArg₂ _ (h.answer_eq op threshold)
        (ih (h.perform op hop) (h.left.isEmpty_perform hop) hrest)
    | addIndex p =>
      have hix : Index.Chained pk (.secondary p t.engine.primaryKey) :=
        h.right.primaryKey ▸ Index.chained_secondary p _
      exact ih (h.register hholds hix threshold) hholds hlasts
    | addCompositeIndex ps =>
      have hix : Index.Chained pk (.chain ps t.engine.primaryKey) :=
        h.right.primaryKey ▸ Index.chained_chain _ ps
      exact ih (h.register hholds hix threshold) hholds hlasts

/-- Indexes that are added to an engine with records change no answer, up to the operation that
empties it and with that one. -/
theorem Run.ownAnswers_eq {R : Type} (run : Run R) (steps : List (Step R)) (last : Operation R)
    (hholds : run.engine.state.isEmpty = false)
    (hlasts : run.session.lasts run.threshold (steps.filterMap given?) = true) :
    ownAnswers (steps ++ [given last])
        ((run.session.run ((steps ++ [given last]).map operation)).value run.threshold).1 =
      ((run.session.run ((steps ++ [given last]).filterMap given?)).value run.threshold).1 :=
  (Session.Level.refl run.follows).ownAnswers_run steps last hholds hlasts

/-- Two more records and a question about the smaller amounts, with an index on them added between. -/
def Run.indexedLate : List (Step (Int × Int)) :=
  [given (.put (4, 40)), .addIndex amount, given (.put (5, 5)),
    given (.ask (.select { predicate := some (.compare amount (.lt (.int 30))) })),
    .addCompositeIndex [amount, identifier]]

theorem Run.ownAnswers_indexedLate :
    amounts.engine.state.isEmpty = false ∧
      amounts.session.lasts amounts.threshold (indexedLate.filterMap given?) = true ∧
      ownAnswers (indexedLate ++ [given (.removeAll {})])
          ((amounts.session.run
            ((indexedLate ++ [given (.removeAll {})]).map operation)).value amounts.threshold).1 =
        ((amounts.session.run
          ((indexedLate ++ [given (.removeAll {})]).filterMap given?)).value amounts.threshold).1 := by
  have hholds : amounts.engine.state.isEmpty = false := by decide +kernel
  have hlasts : amounts.session.lasts amounts.threshold (indexedLate.filterMap given?) = true := by
    decide +kernel
  exact ⟨hholds, hlasts, ownAnswers_eq amounts indexedLate (.removeAll {}) hholds hlasts⟩

end RecordStore
