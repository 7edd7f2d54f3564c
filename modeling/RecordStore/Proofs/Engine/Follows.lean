import RecordStore.Proofs.Engine.Tracks
/-!
# Sessions follow their ledgers

`Session.Follows` lifts the invariant of the alternatives to a session: its engine tracks the
ledger, and each snapshot still holds what was stored when it was taken. Every operation keeps it
(`Follows.perform`), so it holds at the end of every run (`Run.follows`).
-/

namespace RecordStore

open Log

namespace Engine

variable {R : Type}

/-- Removing keys one after the other, with the count. -/
theorem removeKeys_eq (ix : Index R) (keys : List Key) (s : State R) :
    removeKeys ix keys s = keys.foldl (fun removed key =>
      (ix.without key removed.1, removed.2 + (ix.find? key removed.1).toList.length)) (s, 0) := by
  refine congrArg (keys.foldl · (s, 0)) (funext fun removed => funext fun key => ?_)
  obtain ⟨s, count⟩ := removed
  unfold Index.without
  dsimp only
  cases ix.find? key s <;> rfl

theorem state_removeKeys (ix : Index R) (keys : List Key) (s : State R) :
    (removeKeys ix keys s).1 = keys.foldl (fun s key => ix.without key s) s := by
  rw [removeKeys_eq]
  exact (List.foldl_hom Prod.fst fun _ _ => rfl).symm

/-- Putting a record clears its key first. -/
theorem state_put (e : Engine R) (record : R) (threshold : Threshold) :
    ((e.put record).value threshold).2.state =
      e.index.put record (e.index.without (e.primaryKey.get record) e.state) := rfl

theorem state_remove (e : Engine R) (record : R) (threshold : Threshold) :
    ((e.remove record).value threshold).2.state =
      e.index.without (e.primaryKey.get record) e.state := by
  rw [remove, Index.without]
  cases e.index.find? (e.primaryKey.get record) e.state <;> rfl

theorem removed_remove (e : Engine R) (record : R) (threshold : Threshold) :
    ((e.remove record).value threshold).1 = e.index.find? (e.primaryKey.get record) e.state := by
  rw [remove]
  cases e.index.find? (e.primaryKey.get record) e.state <;> rfl

theorem count_removeAll (e : Engine R) (q : Query R) (threshold : Threshold) :
    ((e.removeAll q).value threshold).1 =
      if e.config.honorRemoveAllFilters then
        (removeKeys e.index (e.selectedKeys q).toList e.state).2
      else e.size := by
  rw [removeAll]
  cases e.config.honorRemoveAllFilters <;> rfl

theorem state_removeAll (e : Engine R) (q : Query R) (threshold : Threshold) :
    ((e.removeAll q).value threshold).2.state =
      if e.config.honorRemoveAllFilters then
        (e.selectedKeys q).toList.foldl (fun s key => e.index.without key s) e.state
      else .empty := by
  rw [removeAll]
  cases e.config.honorRemoveAllFilters with
  | true => exact state_removeKeys e.index (e.selectedKeys q).toList e.state
  | false => rfl

/-- Whether an engine has the setup of another: all but its records and metrics. -/
structure SameSetup (e f : Engine R) : Prop where
  primaryKey : f.primaryKey = e.primaryKey
  config : f.config = e.config
  alternatives : f.alternatives = e.alternatives

theorem sameSetup_remove (e : Engine R) (record : R) (threshold : Threshold) :
    e.SameSetup ((e.remove record).value threshold).2 := by
  rw [remove]
  cases e.index.find? (e.primaryKey.get record) e.state <;> exact ⟨rfl, rfl, rfl⟩

theorem sameSetup_removeAll (e : Engine R) (q : Query R) (threshold : Threshold) :
    e.SameSetup ((e.removeAll q).value threshold).2 := by
  rw [removeAll]
  cases e.config.honorRemoveAllFilters <;> exact ⟨rfl, rfl, rfl⟩

/-- Asking changes nothing but the metrics. -/
theorem sameSetup_answer (e : Engine R) (question : Question R) (threshold : Threshold) :
    e.SameSetup ((e.answer question).value threshold).2 ∧
      ((e.answer question).value threshold).2.state = e.state := by
  cases question <;> exact ⟨⟨rfl, rfl, rfl⟩, rfl⟩

end Engine

/-- Removing keys counts the records that go. -/
theorem Index.Tracks.count_removeKeys {R : Type} {pk : Property R} {choices : List (Index R)}
    {s : State R} {l : Ledger R} (h : Tracks pk choices s l) (keys : List Key) :
    (Engine.removeKeys (.alternatives choices) keys s).2 + (keys.foldl Ledger.forget l).stored.size =
      l.stored.size := by
  have hfold (count : Nat) : (keys.foldl (fun removed key =>
      ((alternatives choices).without key removed.1,
        removed.2 + ((alternatives choices).find? key removed.1).toList.length)) (s, count)).2 +
      (keys.foldl Ledger.forget l).stored.size = count + l.stored.size := by
    induction keys generalizing s l count with
    | nil => rfl
    | cons key keys ih =>
      have hsize : (l.forget key).stored.size + l.stored[key]?.toList.length = l.stored.size :=
        Store.size_erase_add l.stored key
      rw [List.foldl_cons, List.foldl_cons, ih (h.forget key), h.holds.find?_eq key]
      omega
  rw [Engine.removeKeys_eq, hfold 0, Nat.zero_add]

/-- The index that an operation adds. -/
def Operation.index? {R : Type} (pk : Property R) : Operation R → Option (Index R)
  | .addIndex p => some (.secondary p pk)
  | .addCompositeIndex properties => some (.chain properties pk)
  | _ => none

namespace Session

variable {R : Type} {pk : Property R} {config : Config} {s : Session R} {l : Ledger R}

/-- Asking a snapshot changes nothing at all. -/
theorem session_askView (s : Session R) (view : Nat) (question : Question R)
    (threshold : Threshold) : ((s.perform (.askView view question)).value threshold).2 = s := by
  rw [perform]
  cases s.views[view]? <;> rfl

/-- An operation adds at most its own index. -/
theorem alternatives_perform (s : Session R) (op : Operation R) (threshold : Threshold) :
    ((s.perform op).value threshold).2.engine.primaryKey = s.engine.primaryKey ∧
      ((s.perform op).value threshold).2.engine.alternatives =
        s.engine.alternatives ++ (op.index? s.engine.primaryKey).toList := by
  cases op with
  | put record => exact ⟨rfl, (List.append_nil _).symm⟩
  | remove record =>
    have hsame := s.engine.sameSetup_remove record threshold
    exact ⟨hsame.primaryKey, hsame.alternatives.trans (List.append_nil _).symm⟩
  | removeAll q =>
    have hsame := s.engine.sameSetup_removeAll q threshold
    exact ⟨hsame.primaryKey, hsame.alternatives.trans (List.append_nil _).symm⟩
  | addIndex p => exact ⟨rfl, rfl⟩
  | addCompositeIndex ps => exact ⟨rfl, rfl⟩
  | snapshot => exact ⟨rfl, (List.append_nil _).symm⟩
  | ask question =>
    have hsame := (s.engine.sameSetup_answer question threshold).1
    exact ⟨hsame.primaryKey, hsame.alternatives.trans (List.append_nil _).symm⟩
  | askView view question =>
    rw [session_askView]
    exact ⟨rfl, (List.append_nil _).symm⟩

/-- The alternatives of a session are those that it had and those that were added, in turn. -/
theorem alternatives_run (s : Session R) (ops : List (Operation R)) (threshold : Threshold) :
    ((s.run ops).value threshold).2.engine.alternatives =
      s.engine.alternatives ++ ops.filterMap (Operation.index? s.engine.primaryKey) := by
  induction ops generalizing s with
  | nil => exact (List.append_nil _).symm
  | cons op ops ih =>
    obtain ⟨hpk, halternatives⟩ := s.alternatives_perform op threshold
    refine (ih ((s.perform op).value threshold).2).trans ?_
    rw [hpk, halternatives, List.append_assoc, List.filterMap_cons]
    cases op.index? s.engine.primaryKey <;> rfl

/-- How a session of a given setup follows a ledger. -/
structure Follows (pk : Property R) (config : Config) (s : Session R) (l : Ledger R) : Prop where
  primaryKey : s.engine.primaryKey = pk
  config : s.engine.config = config
  tracks : Index.Tracks pk s.engine.alternatives s.engine.state l
  views : List.Forall₂ (fun v m => v.primaryKey = pk ∧ Index.Holds pk v.alternatives v.state m)
    s.views l.views

namespace Follows

/-- Every snapshot holds what was stored when it was taken. -/
theorem holds_view (h : Follows pk config s l) {i : Nat} {v : Snapshot R}
    (hv : s.views[i]? = some v) :
    ∃ m, l.views[i]? = some m ∧ v.primaryKey = pk ∧ Index.Holds pk v.alternatives v.state m := by
  obtain ⟨hi, rfl⟩ := List.getElem?_eq_some_iff.1 hv
  have hi' : i < l.views.length := h.views.length_eq ▸ hi
  exact ⟨_, List.getElem?_eq_getElem hi', h.views.get hi hi'⟩

/-- An engine of the same setup follows on if its state does. -/
theorem withEngine (h : Follows pk config s l) {e : Engine R} (hsame : s.engine.SameSetup e)
    {l' : Ledger R} (htracks : Index.Tracks pk s.engine.alternatives e.state l')
    (hviews : l'.views = l.views) : Follows pk config { s with engine := e } l' where
  primaryKey := hsame.primaryKey.trans h.primaryKey
  config := hsame.config.trans h.config
  tracks := hsame.alternatives ▸ htracks
  views := hviews ▸ h.views

theorem tick (h : Follows pk config s l) : Follows pk config s l.tick :=
  { h with tracks := h.tracks.tick }

theorem put (h : Follows pk config s l) (record : R) (threshold : Threshold) :
    Follows pk config ((s.perform (.put record)).value threshold).2
      (l.note s.engine (.put record)) := by
  have hpk := h.primaryKey
  subst hpk
  have hfree : (l.forget (s.engine.primaryKey.get record)).stored[s.engine.primaryKey.get record]? =
      none := by
    rw [Ledger.forget, Store.getElem?_erase, if_pos rfl]
  have htracks := (h.tracks.forget (s.engine.primaryKey.get record)).bind record hfree
  refine h.withEngine (e := ((s.engine.put record).value threshold).2) ⟨rfl, rfl, rfl⟩ ?_ rfl
  rw [Engine.state_put]
  exact htracks

theorem remove (h : Follows pk config s l) (record : R) (threshold : Threshold) :
    Follows pk config ((s.perform (.remove record)).value threshold).2
      (l.note s.engine (.remove record)) := by
  have htracks := h.tracks.forget (s.engine.primaryKey.get record)
  refine h.withEngine (s.engine.sameSetup_remove record threshold) ?_ rfl
  rw [Engine.state_remove]
  exact htracks

theorem removeAll (h : Follows pk config s l) (q : Query R) (threshold : Threshold) :
    Follows pk config ((s.perform (.removeAll q)).value threshold).2
      (l.note s.engine (.removeAll q)) := by
  refine h.withEngine (s.engine.sameSetup_removeAll q threshold) ?_ ?_
  · rw [Engine.state_removeAll, Ledger.note]
    split
    · exact h.tracks.forgetAll _
    · exact h.tracks.clear
  · rw [Ledger.note]
    split
    · exact l.views_foldl_forget _
    · rfl

theorem register (h : Follows pk config s l) {ix : Index R} (hix : Index.Chained pk ix)
    (threshold : Threshold) :
    Follows pk config { s with engine := (s.engine.register ix).value threshold } l.register.tick where
  primaryKey := h.primaryKey
  config := h.config
  tracks := h.tracks.register hix
  views := h.views

theorem snapshot (h : Follows pk config s l) (threshold : Threshold) :
    Follows pk config ((s.perform .snapshot).value threshold).2 (l.note s.engine .snapshot) where
  primaryKey := h.primaryKey
  config := h.config
  tracks := h.tracks.takeView
  views := List.rel_append h.views (.cons ⟨h.primaryKey, h.tracks.holds⟩ .nil)

/-- Every operation keeps a session in step with its ledger. -/
theorem perform (h : Follows pk config s l) (op : Operation R) (threshold : Threshold) :
    Follows pk config ((s.perform op).value threshold).2 (l.after s.engine op) := by
  cases op with
  | put record => exact (h.put record threshold).tick
  | remove record => exact (h.remove record threshold).tick
  | removeAll q => exact (h.removeAll q threshold).tick
  | addIndex p => exact h.register (h.primaryKey ▸ Index.chained_secondary p _) threshold
  | addCompositeIndex ps => exact h.register (h.primaryKey ▸ Index.chained_chain _ ps) threshold
  | snapshot => exact (h.snapshot threshold).tick
  | ask question =>
    obtain ⟨hsame, hstate⟩ := s.engine.sameSetup_answer question threshold
    exact (h.withEngine hsame (hstate ▸ h.tracks) rfl).tick
  | askView view question =>
    rw [session_askView]
    exact h.tick

/-- A removal counts the records that go. -/
theorem count_removeAll_add (h : Follows pk config s l) (q : Query R) (threshold : Threshold) :
    ((s.engine.removeAll q).value threshold).1 + (l.after s.engine (.removeAll q)).stored.size =
      l.stored.size := by
  rw [Engine.count_removeAll, Ledger.stored_removeAll]
  split
  · rw [← Ledger.stored_foldl_forget]
    exact h.tracks.count_removeKeys _
  · exact h.tracks.holds.size_eq

/-- What a removal leaves is what the ledger keeps. -/
theorem holds_removeAll (h : Follows pk config s l) (q : Query R) (threshold : Threshold) :
    Index.Holds pk s.engine.alternatives ((s.engine.removeAll q).value threshold).2.state
      (l.after s.engine (.removeAll q)).stored := by
  have hsame := s.engine.sameSetup_removeAll q threshold
  have hholds := (h.perform (.removeAll q) threshold).tracks.holds
  exact hsame.alternatives ▸ hholds

theorem find?_removeAll (h : Follows pk config s l) (q : Query R) (threshold : Threshold)
    (key : Key) : ((s.engine.removeAll q).value threshold).2.view.find? key =
      (l.after s.engine (.removeAll q)).stored[key]? := by
  have hsame := s.engine.sameSetup_removeAll q threshold
  have hfind := (h.holds_removeAll q threshold).lookup_eq key
  rw [← hsame.alternatives] at hfind
  exact hfind

end Follows

end Session

/-- Every run ends with a session that follows the ledger of the run. -/
theorem Run.follows {R : Type} (run : Run R) :
    run.session.Follows run.primaryKey run.config run.ledger :=
  run.invariant ⟨rfl, rfl, .start run.primaryKey, .nil⟩ fun _ _ op h =>
    h.perform op run.threshold

/-- The engine of every run holds what its ledger says is stored. -/
theorem Run.holds {R : Type} (run : Run R) :
    Index.Holds run.primaryKey run.engine.alternatives run.engine.state run.ledger.stored :=
  run.follows.tracks.holds

/-- The alternatives of an engine are the tree of the primary key and the indexes that were added. -/
theorem Run.alternatives_eq {R : Type} (run : Run R) :
    run.engine.alternatives =
      .unique run.primaryKey :: run.operations.filterMap (Operation.index? run.primaryKey) :=
  run.start.alternatives_run run.operations run.threshold

end RecordStore
