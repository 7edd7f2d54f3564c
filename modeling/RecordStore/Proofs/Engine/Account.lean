import RecordStore.Proofs.Engine.Follows
import RecordStore.Proofs.Engine.Origin
import RecordStore.Proofs.Engine.Select
/-!
# The metrics of an engine are an account of its calls

A `Call` is an operation as its caller saw it: with the number of records before it, and the answer
to it. `Counter.counts` says which calls a counter counts, with no word on how an engine keeps its
counters. After every run, of an engine of any origin, each counter is the number of the calls that
it counts, and the number of records is that of the engine (`Origin.metrics_eq`). Both go round at
64 bits.

The count of unions depends on the plan that is chosen: it is a union exactly if there are records
and the simplified predicate is a disjunction (`Plan.isUnion_choose`).
-/

namespace RecordStore

open Log

variable {R : Type}

/-! ## Unions -/

/-- Whether a query asks for any of several terms, once it is simplified. -/
def Query.isDisjunction (q : Query R) : Bool :=
  match q.simplified.predicate with
  | some (.any _) => true
  | _ => false

/-- The plan of an index is never a union. -/
theorem Index.isUnion_plan (predicate : Option (Predicate R)) : ∀ (ix : Index R) (s : State R)
    (order : Order R), (ix.plan predicate s order).isUnion = false
  | value, s, order => by
    rw [plan]
    split <;> rfl
  | tree p tail unique, s, order => by
    have htail := isUnion_plan predicate tail
    cases s with
    | tree root =>
      rw [plan]
      split
      · rfl
      · dsimp only
        split
        · split
          · exact htail _ _
          · rfl
        · unfold scanTree
          dsimp only
          split <;> rfl
    | _ =>
      rw [plan, ite_self]
      · rfl
      · simp
  | alternatives choices, s, order => by
    -- The plan of several alternatives is the cheapest of theirs, if there is any.
    have each (choice) (_ : choice ∈ choices) := isUnion_plan predicate choice
    cases s with
    | slots slots late =>
      rw [plan]
      split
      · rfl
      · rw [plans_eq]
        cases hmin : (usable _ slots late).minOn? Plan.cost with
        | none => rfl
        | some least =>
          obtain ⟨i, f, hf, -, -, rfl⟩ := mem_usable (List.minOn?_mem hmin)
          rw [List.getElem?_map, Option.map_eq_some_iff] at hf
          obtain ⟨choice, hchoice, rfl⟩ := hf
          exact each choice (List.mem_of_getElem? hchoice) _ _
    | _ =>
      rw [plan, ite_self]
      · rfl
      · simp

theorem Query.isDisjunction_eq_false {q : Query R}
    (h : ∀ terms, q.simplified.predicate ≠ some (.any terms)) : q.isDisjunction = false := by
  unfold isDisjunction
  split
  · next terms hany => exact absurd hany (h terms)
  · rfl

theorem Plan.choose_of_not_any {choices : List (Index R)} {s : State R} {q : Query R}
    (h : ∀ terms, q.predicate ≠ some (.any terms)) :
    choose choices s q = (Index.alternatives choices).plan q.predicate s q.sortKeys := by
  unfold choose
  dsimp only
  split
  · next terms hany => exact absurd hany (h terms)
  · rfl

theorem Plan.isUnion_choose (choices : List (Index R)) (s : State R) (q : Query R)
    (pk : Property R) :
    (choose choices s (q.normalized pk)).isUnion = (!s.isEmpty && q.isDisjunction) := by
  have hpredicate : (q.normalized pk).predicate = q.simplified.predicate :=
    Query.predicate_withTieBreak q.simplified pk
  by_cases hany : ∃ terms, q.simplified.predicate = some (.any terms)
  · obtain ⟨terms, hterms⟩ := hany
    unfold choose Query.isDisjunction
    rw [hpredicate, hterms]
    cases s.isEmpty <;> rfl
  · have hnone := not_exists.1 hany
    rw [choose_of_not_any (by rwa [hpredicate]), Index.isUnion_plan,
      Query.isDisjunction_eq_false hnone, Bool.and_false]

/-! ## Calls -/

/-- An operation as its caller saw it: the number of records before it, and the answer to it. -/
structure Call (R : Type) where
  op : Operation R
  size : Nat
  answer : Answer R

/-- Whether a counter counts a call. -/
def Counter.counts : Counter → Call R → Bool
  | .puts, ⟨.put _, _, _⟩ => true
  | .removes, ⟨.remove _, _, .record removed⟩ => removed.isSome
  | .finds, ⟨.ask (.find _), _, _⟩ => true
  | .finds, ⟨.ask (.findRecord _), _, _⟩ => true
  | .selects, ⟨.ask (.select _), _, _⟩ => true
  | .orPlans, ⟨.ask (.select q), size, _⟩ => size ≠ 0 && q.isDisjunction
  | .removeAlls, ⟨.removeAll _, _, _⟩ => true
  | .indexesAdded, ⟨.addIndex _, _, _⟩ => true
  | .indexesAdded, ⟨.addCompositeIndex _, _, _⟩ => true
  | _, _ => false

theorem Counter.counts_select (c : Counter) (q : Query R) (size : Nat) (answer : Answer R) :
    c.counts ⟨.ask (.select q), size, answer⟩ =
      (decide (c = .selects) || (decide (c = .orPlans) && (size ≠ 0 && q.isDisjunction))) := by
  cases c <;> rfl

/-- Every select that runs as a union is a select. -/
theorem Counter.counts_selects_of_orPlans (call : Call R) (h : orPlans.counts call = true) :
    selects.counts call = true := by
  obtain ⟨op, size, answer⟩ := call
  cases op with
  | ask question =>
    cases question with
    | select q => rfl
    | _ => exact absurd h Bool.false_ne_true
  | _ => exact absurd h Bool.false_ne_true

namespace Session

/-- The call that an operation on a session makes. -/
def call (threshold : Threshold) (s : Session R) (op : Operation R) : Call R :=
  { op, size := s.engine.size, answer := ((s.perform op).value threshold).1 }

/-- The calls that operations make, one after the other. -/
def calls (threshold : Threshold) (s : Session R) : List (Operation R) → List (Call R)
  | [] => []
  | op :: rest => s.call threshold op :: calls threshold ((s.perform op).value threshold).2 rest

end Session

/-! ## Counters -/

namespace Metrics

/-- What a counter stands at. -/
def counter (m : Metrics) : Counter → UInt64
  | .puts => m.puts
  | .removes => m.removes
  | .finds => m.finds
  | .selects => m.selects
  | .orPlans => m.orPlans
  | .removeAlls => m.removeAlls
  | .indexesAdded => m.indexesAdded

theorem counter_increment (m : Metrics) (c d : Counter) :
    (m.increment d).counter c = m.counter c + if c = d then 1 else 0 := by
  cases d <;> cases c <;> simp [increment, counter]

theorem counter_setRecords (m : Metrics) (n : Nat) (c : Counter) :
    (m.setRecords n).counter c = m.counter c := by
  cases c <;> rfl

end Metrics

namespace Engine

variable (e : Engine R) (threshold : Threshold)

/-- A removal is counted if there was a record to remove. -/
theorem metrics_remove (record : R) :
    ((e.remove record).value threshold).2.metrics =
      if ((e.remove record).value threshold).1.isSome then
        (e.metrics.setRecords ((e.remove record).value threshold).2.size).increment .removes
      else e.metrics := by
  rw [remove]
  cases e.index.find? (e.primaryKey.get record) e.state <;> rfl

theorem metrics_removeAll (q : Query R) :
    ((e.removeAll q).value threshold).2.metrics =
      (e.metrics.setRecords ((e.removeAll q).value threshold).2.size).increment .removeAlls := by
  rw [removeAll]
  cases e.config.honorRemoveAllFilters <;> rfl

/-- A select is counted, and counted again if it runs as a union. Its sink has no part in that. -/
theorem engine_select {S : Type} (q : Query R) (sink : Sink R S) (s : S) :
    ((e.select q sink s).value threshold).2 =
      { e with
        metrics :=
          if e.size ≠ 0 && q.isDisjunction then (e.metrics.increment .selects).increment .orPlans
          else e.metrics.increment .selects } := by
  have hunion : ((e.view.execute q sink s).value threshold).2 =
      (e.size ≠ 0 && q.isDisjunction) := by
    have hplan := Plan.isUnion_choose e.alternatives e.state q e.primaryKey
    have hempty : (!e.state.isEmpty) = decide (e.size ≠ 0) := decide_not.symm
    rw [← hempty, ← hplan, Snapshot.execute]
    cases e.view.logPlans <;> rfl
  rw [← hunion]
  rfl

/-- What is asked is counted whatever the answer. -/
theorem counter_answer (question : Question R) (answer : Answer R) (c : Counter) :
    ((e.answer question).value threshold).2.metrics.counter c =
      e.metrics.counter c + if c.counts ⟨.ask question, e.size, answer⟩ then 1 else 0 := by
  cases question with
  | find key =>
    show (e.metrics.increment .finds).counter c = _
    rw [Metrics.counter_increment]
    cases c <;> rfl
  | findRecord record =>
    show (e.metrics.increment .finds).counter c = _
    rw [Metrics.counter_increment]
    cases c <;> rfl
  | size => cases c <;> exact (UInt64.add_zero _).symm
  | select q =>
    show ((e.select q .collect {}).value threshold).2.metrics.counter c = _
    rw [engine_select, Counter.counts_select]
    -- A union moves two counters, any other select moves one.
    cases e.size ≠ 0 && q.isDisjunction with
    | true =>
      rw [if_pos rfl, Metrics.counter_increment, Metrics.counter_increment]
      cases c <;> simp
    | false =>
      rw [if_neg Bool.false_ne_true, Metrics.counter_increment]
      cases c <;> simp
  | explain q => cases c <;> exact (UInt64.add_zero _).symm

theorem records_answer (question : Question R) :
    ((e.answer question).value threshold).2.metrics.records = e.metrics.records := by
  cases question with
  | select q =>
    show ((e.select q .collect {}).value threshold).2.metrics.records = _
    rw [engine_select]
    cases e.size ≠ 0 && q.isDisjunction <;> rfl
  | _ => rfl

end Engine

namespace Session

variable (s : Session R) (op : Operation R) (threshold : Threshold)

/-- An operation moves the counters that count its call, by one. -/
theorem counter_perform (c : Counter) :
    ((s.perform op).value threshold).2.engine.metrics.counter c =
      s.engine.metrics.counter c + if c.counts (s.call threshold op) then 1 else 0 := by
  cases op with
  | put record =>
    show ((s.engine.metrics.setRecords _).increment .puts).counter c = _
    rw [Metrics.counter_increment, Metrics.counter_setRecords]
    cases c <;> rfl
  | remove record =>
    have hcall : s.call threshold (.remove record) =
      ⟨.remove record, s.engine.size, .record ((s.engine.remove record).value threshold).1⟩ := rfl
    show ((s.engine.remove record).value threshold).2.metrics.counter c = _
    rw [hcall, Engine.metrics_remove]
    cases ((s.engine.remove record).value threshold).1 with
    | none => cases c <;> exact (UInt64.add_zero _).symm
    | some removed =>
      rw [Option.isSome_some, if_pos rfl, Metrics.counter_increment, Metrics.counter_setRecords]
      cases c <;> rfl
  | removeAll q =>
    show ((s.engine.removeAll q).value threshold).2.metrics.counter c = _
    rw [Engine.metrics_removeAll, Metrics.counter_increment, Metrics.counter_setRecords]
    cases c <;> rfl
  | addIndex p =>
    show (s.engine.metrics.increment .indexesAdded).counter c = _
    rw [Metrics.counter_increment]
    cases c <;> rfl
  | addCompositeIndex properties =>
    show (s.engine.metrics.increment .indexesAdded).counter c = _
    rw [Metrics.counter_increment]
    cases c <;> rfl
  | snapshot => cases c <;> exact (UInt64.add_zero _).symm
  | ask question => exact s.engine.counter_answer threshold question _ c
  | askView view question =>
    rw [session_askView]
    cases c <;> exact (UInt64.add_zero _).symm

/-- The number of records is set by every operation that changes it. -/
theorem records_perform (h : s.engine.metrics.records = .ofNat s.engine.size) :
    ((s.perform op).value threshold).2.engine.metrics.records =
      .ofNat ((s.perform op).value threshold).2.engine.size := by
  cases op with
  | put record => rfl
  | remove record =>
    show ((s.engine.remove record).value threshold).2.metrics.records =
      .ofNat ((s.engine.remove record).value threshold).2.size
    rw [Engine.remove]
    cases s.engine.index.find? (s.engine.primaryKey.get record) s.engine.state with
    | none => exact h
    | some stored => rfl
  | removeAll q =>
    show ((s.engine.removeAll q).value threshold).2.metrics.records = _
    rw [Engine.metrics_removeAll]
    rfl
  | addIndex p => exact h
  | addCompositeIndex properties => exact h
  | snapshot => exact h
  | ask question =>
    have hsize : ((s.engine.answer question).value threshold).2.size = s.engine.size :=
      congrArg State.size (s.engine.sameSetup_answer question threshold).2
    show ((s.engine.answer question).value threshold).2.metrics.records = .ofNat _
    rw [s.engine.records_answer, h]
    exact congrArg UInt64.ofNat hsize.symm
  | askView view question =>
    rw [session_askView]
    exact h

end Session

/-! ## Accounts -/

/-- What the metrics of an engine are, after calls on an engine that began with `registered`
indexes. -/
structure Engine.Accounts (registered : Nat) (calls : List (Call R)) (e : Engine R) : Prop where
  records : e.metrics.records = .ofNat e.size
  counter (c : Counter) : e.metrics.counter c =
    .ofNat ((if c = .indexesAdded then registered else 0) + calls.countP c.counts)

namespace Engine.Accounts

variable {registered : Nat} {calls : List (Call R)} {s : Session R}

theorem perform (h : s.engine.Accounts registered calls) (op : Operation R) (threshold : Threshold) :
    ((s.perform op).value threshold).2.engine.Accounts registered
      (calls ++ [s.call threshold op]) where
  records := s.records_perform op threshold h.records
  counter := by
    intro c
    rw [s.counter_perform op threshold c, h.counter c, List.countP_append, List.countP_singleton,
      ← Nat.add_assoc]
    cases c.counts (s.call threshold op) with
    | true => exact (UInt64.ofNat_add _ 1).symm
    | false => exact UInt64.add_zero _

theorem run (h : s.engine.Accounts registered calls) (ops : List (Operation R))
    (threshold : Threshold) :
    ((s.run ops).value threshold).2.engine.Accounts registered
      (calls ++ s.calls threshold ops) := by
  induction ops generalizing s calls with
  | nil =>
    rw [Session.calls, List.append_nil]
    exact h
  | cons op ops ih =>
    rw [Session.calls, List.append_cons]
    exact ih (h.perform op threshold)

end Engine.Accounts

/-! ## The account of a whole life -/

namespace Engine

variable {registered : Nat} {e : Engine R}

theorem Accounts.register (h : e.Accounts registered []) (ix : Index R) (threshold : Threshold) :
    ((e.register ix).value threshold).Accounts (registered + 1) [] where
  records := h.records
  counter := by
    intro c
    show (e.metrics.increment .indexesAdded).counter c = _
    rw [Metrics.counter_increment, h.counter c]
    by_cases hc : c = .indexesAdded
    · rw [if_pos hc, if_pos hc, if_pos hc]
      exact (UInt64.ofNat_add registered 1).symm
    · rw [if_neg hc, if_neg hc, if_neg hc]
      exact UInt64.add_zero _

theorem Accounts.addCompositeIndexes (h : e.Accounts registered [])
    (indexes : List (List (Property R))) (threshold : Threshold) :
    ((indexes.foldlM addCompositeIndex e).value threshold).Accounts (registered + indexes.length) [] := by
  induction indexes generalizing registered e with
  | nil => exact h
  | cons properties indexes ih =>
    rw [List.length_cons, Nat.add_comm indexes.length, ← Nat.add_assoc, List.foldlM_cons]
    exact ih (h.register (.chain properties e.primaryKey) threshold)

theorem config_addCompositeIndexes (e : Engine R) (indexes : List (List (Property R)))
    (threshold : Threshold) :
    ((indexes.foldlM addCompositeIndex e).value threshold).config = e.config := by
  induction indexes generalizing e with
  | nil => rfl
  | cons properties indexes ih =>
    rw [List.foldlM_cons]
    exact ih ((e.addCompositeIndex properties).value threshold)

theorem accounts_create (pk : Property R) (config : Config) (threshold : Threshold) :
    ((create pk config).value threshold).Accounts 0 [] where
  records := rfl
  counter := by
    intro c
    cases c <;> rfl

theorem accounts_ofConfig {resolve : String → Option (Property R)} {config : Config}
    {threshold : Threshold} (h : (ofConfig resolve config).value threshold = .ok e) :
    e.Accounts e.config.indexes.length [] := by
  rw [ofConfig] at h
  cases hresolved : resolveConfig resolve config with
  | error v =>
    rw [hresolved] at h
    cases h
  | ok resolved =>
    obtain ⟨pk, indexes⟩ := resolved
    rw [hresolved] at h
    have hmade : (indexes.foldlM addCompositeIndex ((create pk config).value threshold)).value
        threshold = e := by
      injection h
    have haccounts := (accounts_create pk config threshold).addCompositeIndexes indexes threshold
    rw [Nat.zero_add, length_of_resolveConfig hresolved, hmade] at haccounts
    rw [← hmade, config_addCompositeIndexes, hmade]
    exact haccounts

end Engine

namespace Origin

variable {o : Origin R} {threshold : Threshold} {e : Engine R}

/-- A new engine has counted the indexes of its configuration, if those were added. -/
theorem accounts_make (h : o.make.value threshold = .ok e) : e.Accounts (o.indexCount e) [] := by
  cases o with
  | created pk config =>
    cases h
    exact Engine.accounts_create pk config threshold
  | configured resolve config => exact Engine.accounts_ofConfig h
  | loaded resolve path file =>
    cases hfile : Config.ofFile path file with
    | error error =>
      rw [make, Config.load, hfile] at h
      cases h
    | ok config =>
      rw [make, Config.load, hfile] at h
      exact Engine.accounts_ofConfig h

end Origin

/-- Whether an operation is one that an engine keeps no count of: it takes or asks a snapshot, or
only tells what would be done or how many records there are. -/
def Operation.isQuiet : Operation R → Bool
  | snapshot => true
  | askView _ _ => true
  | ask (.explain _) => true
  | ask .size => true
  | _ => false

theorem Session.engine_perform_of_isQuiet {s : Session R} {op : Operation R} (h : op.isQuiet = true)
    (threshold : Threshold) : ((s.perform op).value threshold).2.engine = s.engine := by
  cases op with
  | snapshot => rfl
  | askView view question => rw [session_askView]
  | ask question =>
    cases question with
    | explain q => rfl
    | size => rfl
    | _ => exact absurd h Bool.false_ne_true
  | _ => exact absurd h Bool.false_ne_true

namespace Origin

/-- The metrics of an engine are an exact account of its calls, whatever its origin: the number of
records, and each counter as the number of the calls that it counts. Unions are among the selects,
quiet operations change no metric, and what a select counts does not depend on its sink. -/
theorem metrics_eq (o : Origin R) (ops : List (Operation R)) (threshold : Threshold) {e : Engine R}
    (h : o.make.value threshold = .ok e) :
    let start : Session R := { engine := e }
    let calls := start.calls threshold ops
    let reached := ((start.run ops).value threshold).2
    reached.engine.Accounts (o.indexCount e) calls ∧
      calls.countP Counter.orPlans.counts ≤ calls.countP Counter.selects.counts ∧
      (∀ op : Operation R, op.isQuiet = true →
        ((reached.perform op).value threshold).2.engine.metrics = reached.engine.metrics) ∧
      ∀ {S : Type} (q : Query R) (sink : Sink R S) (s : S),
        ((reached.engine.select q sink s).value threshold).2 =
          ((reached.perform (.ask (.select q))).value threshold).2.engine := by
  intro start calls reached
  refine ⟨?_, ?_, ?_, ?_⟩
  · exact (accounts_make h : start.engine.Accounts _ _).run ops threshold
  · exact List.countP_mono_left fun call _ => Counter.counts_selects_of_orPlans call
  · intro op hquiet
    rw [Session.engine_perform_of_isQuiet hquiet]
  · intro S q sink s
    have hcollect := reached.engine.engine_select threshold q .collect {}
    exact (reached.engine.engine_select threshold q sink s).trans hcollect.symm

/-- An engine over amounts that begins with an index on them. -/
def amounts : Origin (Int × Int) :=
  .configured Run.named { indexes := [.single "amount"] }

theorem amounts_accounts :
    ∃ e, amounts.make.value none = .ok e ∧
      let start : Session (Int × Int) := { engine := e }
      (((start.run Run.amounts.operations).value none).2.engine).Accounts 1
        (start.calls none Run.amounts.operations) := by
  refine ⟨_, rfl, ?_⟩
  exact (metrics_eq amounts Run.amounts.operations none rfl).1

/-- The metrics at the end of a life that asks for a union last. -/
example :
    let ops := Run.amounts.operations ++ [.ask (.select Run.smallOrEarly)]
    (((amounts.run ops).value none).toOption.map fun life => life.2.engine.metrics) =
      some { puts := 4, removes := 1, finds := 1, selects := 1, orPlans := 1, removeAlls := 1,
             indexesAdded := 2, records := 1 } := by
  decide +kernel

end Origin

end RecordStore
