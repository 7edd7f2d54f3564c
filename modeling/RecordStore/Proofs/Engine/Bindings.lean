import RecordStore.Proofs.Engine.Select
/-!
# An engine is a finite map

`Bindings` is a finite map from primary keys to records, with a copy for each snapshot: what an
engine means to its callers, with no index, no tree and no plan. A run of an engine gives the
answers that the map gives (`Run.answers_eq_bindings`), step by step (`Follows.bindings_perform`,
`Follows.answer_perform`). The map has no answer to what goes by predicates or costs, and it knows
the removal of all records but not that of some: a removal that honours its query is one of all
records if the query is unfiltered (`Follows.removes_all`).
-/

namespace RecordStore

open Log

/-- A finite map, and the copies that snapshots have made of it. -/
structure Bindings (R : Type) where
  stored : Store R := ∅
  views : List (Store R) := []

namespace Bindings

variable {R : Type}

/-- The answer of a map, if it has one. -/
def answer (pk : Property R) (m : Store R) : Question R → Option (Answer R)
  | .find key => some (.record m[key]?)
  | .findRecord record => some (.record m[pk.get record]?)
  | .size => some (.count m.size)
  | .select _ => none
  | .explain _ => none

/-- Carries out an operation. -/
def perform (pk : Property R) (b : Bindings R) : Operation R → Option (Answer R) × Bindings R
  | .put record =>
    (some (.record (some record)), { b with stored := b.stored.insert (pk.get record) record })
  | .remove record =>
    (some (.record b.stored[pk.get record]?), { b with stored := b.stored.erase (pk.get record) })
  | .removeAll _ => (some (.count b.stored.size), { b with stored := ∅ })
  | .addIndex _ => (some .done, b)
  | .addCompositeIndex _ => (some .done, b)
  | .snapshot => (some .done, { b with views := b.views ++ [b.stored] })
  | .ask question => (answer pk b.stored question, b)
  | .askView view question =>
    ((b.views[view]?).elim (some .noView) (answer pk · question), b)

/-- The answers to operations, in turn. -/
def answers (pk : Property R) (b : Bindings R) : List (Operation R) → List (Option (Answer R))
  | [] => []
  | op :: rest => (b.perform pk op).1 :: answers pk (b.perform pk op).2 rest

end Bindings

/-- The map that a ledger tells of. -/
def Ledger.bindings {R : Type} (l : Ledger R) : Bindings R :=
  { stored := l.stored, views := l.views }

namespace Index.Holds

variable {R : Type} {pk : Property R}

/-- A snapshot gives the answers of the map that it holds. -/
theorem answer_eq {v : Snapshot R} {m : Store R} (h : Holds pk v.alternatives v.state m)
    (hpk : v.primaryKey = pk) {question : Question R} {a : Answer R}
    (ha : Bindings.answer pk m question = some a) (threshold : Threshold) :
    (v.answer question).value threshold = a := by
  cases question with
  | find key =>
    cases ha
    exact congrArg Answer.record (h.lookup_eq key)
  | findRecord record =>
    cases ha
    rw [← hpk]
    exact congrArg Answer.record (h.lookup_eq (v.primaryKey.get record))
  | size =>
    cases ha
    exact congrArg Answer.count h.size_eq
  | select q => cases ha
  | explain q => cases ha

end Index.Holds

/-! ## Removing all records -/

/-- Whether a query selects every record there is. -/
def Query.isUnfiltered {R : Type} (q : Query R) : Bool :=
  q.predicate.isNone && !q.isWindowed

/-- An unfiltered query finds the keys of all records, in whatever order it asks for. -/
theorem Index.Holds.selectedKeys_perm {R : Type} {e : Engine R} {m : Store R}
    (h : Holds e.primaryKey e.alternatives e.state m) {q : Query R} (hall : q.isUnfiltered = true) :
    (e.selectedKeys q).toList.Perm (m.records.map e.primaryKey.get) := by
  rw [Query.isUnfiltered, Bool.and_eq_true, Option.isNone_iff_eq_none, Bool.not_eq_true'] at hall
  obtain ⟨hnone, hwindow⟩ := hall
  have hpredicate : (q.normalized e.primaryKey).predicate = none := by
    rw [Query.normalized, Query.predicate_withTieBreak, Query.simplified, hnone]
    rfl
  obtain ⟨found, hperm, -, hexecute⟩ := h.exists_execute_eq (q := q.normalized e.primaryKey)
    fun _ _ _ _ r hr => by rw [hpredicate] at hr; cases hr
  have hmatches : (q.normalized e.primaryKey).matches m.records = m.records := by
    rw [Query.matches, hpredicate]
    exact List.filter_eq_self.2 fun _ _ => rfl
  have hslice : (q.normalized e.primaryKey).slice found = found :=
    Query.slice_of_not_windowed ((q.simplified.isWindowed_withTieBreak _).trans hwindow) found
  have hkeys : (e.selectedKeys q).toList = found.map e.primaryKey.get := by
    rw [Engine.selectedKeys, hexecute, hslice]
    simp
  rw [hkeys]
  exact (hmatches ▸ hperm).map _

namespace Session.Follows

variable {R : Type} {pk : Property R} {config : Config} {s : Session R} {l : Ledger R}
  {op : Operation R}

/-- Removing all records counts them and leaves none, whether or not the query is honoured. -/
theorem removes_all (h : Follows pk config s l) {q : Query R}
    (hunfiltered : config.honorRemoveAllFilters = true → q.isUnfiltered = true)
    (threshold : Threshold) :
    ((s.engine.removeAll q).value threshold).1 = l.stored.size ∧
      (l.note s.engine (.removeAll q)).bindings = { l.bindings with stored := ∅ } := by
  rw [Engine.count_removeAll, h.config, Ledger.note, h.config]
  cases hhonors : config.honorRemoveAllFilters with
  | false => exact ⟨h.tracks.holds.size_eq, rfl⟩
  | true =>
    have hpk := h.primaryKey
    subst hpk
    have hkeys := h.tracks.holds.selectedKeys_perm (hunfiltered hhonors)
    have hempty : ((s.engine.selectedKeys q).toList.foldl Ledger.forget l).stored = ∅ := by
      rw [Ledger.stored_foldl_forget, ← Std.ExtTreeMap.isEmpty_iff, Store.isEmpty_iff_getElem?]
      intro k
      rw [Store.getElem?_foldl_erase]
      split
      · rfl
      · next hk =>
        cases hget : l.stored[k]? with
        | none => rfl
        | some r =>
          have hrk : s.engine.primaryKey.get r = k := h.tracks.keyed k r hget
          have hr : r ∈ l.stored.records := (Store.mem_records h.tracks.keyed).2 (hrk.symm ▸ hget)
          exact absurd (hkeys.mem_iff.2 (List.mem_map.2 ⟨r, hr, hrk⟩)) hk
    have hcount := h.tracks.count_removeKeys (s.engine.selectedKeys q).toList
    rw [hempty, Std.ExtTreeMap.size_empty, Nat.add_zero] at hcount
    refine ⟨hcount, ?_⟩
    rw [if_pos rfl, Ledger.bindings, Ledger.bindings, hempty, Ledger.views_foldl_forget]

/-- An engine answers as a snapshot of it would. -/
theorem engine_answer_eq (h : Follows pk config s l) {question : Question R} {a : Answer R}
    (ha : Bindings.answer pk l.stored question = some a) (threshold : Threshold) :
    ((s.engine.answer question).value threshold).1 = a := by
  have hview : (s.engine.view.answer question).value threshold = a :=
    Index.Holds.answer_eq h.tracks.holds h.primaryKey ha threshold
  rw [← hview]
  cases question <;> rfl

/-- The map after an operation is the one that the ledger tells of. -/
theorem bindings_perform (h : Follows pk config s l)
    (hunfiltered : config.honorRemoveAllFilters = true →
      ∀ q, op = .removeAll q → q.isUnfiltered = true) :
    (l.bindings.perform pk op).2 = (l.after s.engine op).bindings := by
  have hpk := h.primaryKey
  subst hpk
  cases op with
  | put record =>
    simp only [Bindings.perform, Ledger.bindings, Ledger.after, Ledger.note, Ledger.tick, Ledger.bind,
      Ledger.forget, Store.insert_erase]
  | removeAll q =>
    exact (h.removes_all (fun honors => hunfiltered honors q rfl) none).2.symm
  | _ => rfl

/-- The answer of a session is the one that the map gives. -/
theorem answer_perform (h : Follows pk config s l)
    (hunfiltered : config.honorRemoveAllFilters = true →
      ∀ q, op = .removeAll q → q.isUnfiltered = true) {a : Answer R}
    (ha : (l.bindings.perform pk op).1 = some a) (threshold : Threshold) :
    ((s.perform op).value threshold).1 = a := by
  cases op with
  | remove record =>
    cases ha
    have hremoved := s.engine.removed_remove record threshold
    rw [h.primaryKey] at hremoved
    exact congrArg Answer.record (hremoved.trans (h.tracks.holds.find?_eq (pk.get record)))
  | removeAll q =>
    cases ha
    exact congrArg Answer.count (h.removes_all (fun honors => hunfiltered honors q rfl) threshold).1
  | ask question => exact h.engine_answer_eq ha threshold
  | askView view question =>
    rw [Session.perform]
    cases hv : s.views[view]? with
    | none =>
      have hm : l.views[view]? = none := by
        rw [List.getElem?_eq_none_iff] at hv ⊢
        exact h.views.length_eq ▸ hv
      rw [Bindings.perform, Ledger.bindings, hm] at ha
      cases ha
      rfl
    | some v =>
      obtain ⟨m, hm, hpk, hholds⟩ := h.holds_view hv
      rw [Bindings.perform, Ledger.bindings, hm] at ha
      exact hholds.answer_eq hpk ha threshold
  | put record =>
    cases ha
    rfl
  | addIndex p =>
    cases ha
    rfl
  | addCompositeIndex ps =>
    cases ha
    rfl
  | snapshot =>
    cases ha
    rfl

end Session.Follows

/-- A run gives the answers of the map, wherever the map has one. -/
theorem Run.answers_eq_bindings {R : Type} (run : Run R)
    (hunfiltered : run.config.honorRemoveAllFilters = true →
      ∀ q, .removeAll q ∈ run.operations → q.isUnfiltered = true) :
    List.Forall₂ (fun expected actual => ∀ a, expected = some a → actual = a)
      (Bindings.answers run.primaryKey {} run.operations) run.answers := by
  have hstart : run.start.Follows run.primaryKey run.config {} :=
    ⟨rfl, rfl, .start run.primaryKey, .nil⟩
  have hbindings : ({} : Bindings R) = ({} : Ledger R).bindings := rfl
  unfold Run.answers
  rw [hbindings]
  generalize run.start = s at hstart
  generalize ({} : Ledger R) = l at hstart
  generalize run.operations = ops at hunfiltered
  induction ops generalizing s l with
  | nil => exact .nil
  | cons op rest ih =>
    have hop (honors : run.config.honorRemoveAllFilters = true) (q : Query R)
        (e : op = .removeAll q) : q.isUnfiltered = true :=
      hunfiltered honors q (e ▸ List.mem_cons_self)
    refine .cons (fun a ha => hstart.answer_perform hop ha run.threshold) ?_
    rw [hstart.bindings_perform hop]
    exact ih _ _ (hstart.perform op run.threshold)
      fun honors q hq => hunfiltered honors q (List.mem_cons_of_mem op hq)

/-- A run over amounts that honours the query of a removal. -/
def Run.honouring : Run (Int × Int) :=
  { amounts with config := { honorRemoveAllFilters := true } }

theorem Run.honouring_answers :
    (honouring.config.honorRemoveAllFilters = true →
        ∀ q, .removeAll q ∈ honouring.operations → q.isUnfiltered = true) ∧
      List.Forall₂ (fun expected actual => ∀ a, expected = some a → actual = a)
        (Bindings.answers identifier {} honouring.operations) honouring.answers := by
  have hunfiltered (_ : honouring.config.honorRemoveAllFilters = true) (q : Query (Int × Int))
      (hq : .removeAll q ∈ honouring.operations) : q.isUnfiltered = true := by
    have hsame : q = {} := by simpa [honouring, amounts] using hq
    rw [hsame]
    rfl
  exact ⟨hunfiltered, answers_eq_bindings honouring hunfiltered⟩

end RecordStore
