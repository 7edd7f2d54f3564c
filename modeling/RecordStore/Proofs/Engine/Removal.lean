import RecordStore.Proofs.Engine.Bindings
import RecordStore.Proofs.Plan.Contents
/-!
# Removing what a query selects

A removal that honours its query takes away exactly the records that selecting by the query emits,
each of them once however often it is emitted (`Run.removeAll_eq_select`). The keys are collected
under one plan and then removed one after the other; the plan visits stored records only
(`Holds.reads_choose`), so each key stands for the record that was emitted. What is left is, in
every complete alternative, what there was without those records: listed in the same order, found
under the same keys and planned for in the same way (`Index.Spares`).
-/

namespace RecordStore

open Log

variable {R : Type}

/-- What a snapshot emits for a query, in turn. -/
def Snapshot.emitted (v : Snapshot R) (q : Query R) : List R :=
  (v.plan (q.normalized v.primaryKey)).emitted (q.normalized v.primaryKey)

open Classical in
/-- Whether an index lists, finds and plans in a state what it does in another one, less some
records. -/
structure Index.Spares (ix : Index R) (gone : List R) (s t : State R) : Prop where
  records : t.records = s.records.filter (· ∉ gone)
  find? : ∀ key, ix.find? key t = (ix.find? key s).filter (· ∉ gone)
  matching : ∀ (predicate : Option (Predicate R)) (order : Order R),
    (ix.plan predicate t order).matching predicate =
      ((ix.plan predicate s order).matching predicate).filter (· ∉ gone)

namespace Index

variable {pk : Property R} {choices : List (Index R)} {s t : State R} {m m' : Store R}
  {gone : List R} {l : Ledger R}

/-! ## What is emitted -/

/-- A plan visits stored records only. -/
theorem Holds.reads_choose (h : Holds pk choices s m) (q : Query R) :
    (Plan.choose choices s q).Reads m.records := by
  refine Index.reads_choose (fun choice hc => (h.chained choice hc).layered) h.nonempty h.fanned
    (fun i hi hlags x hx => ?_) q
  rw [Store.mem_records h.keyed]
  exact (h.mem i hi hlags x).1 hx

theorem Holds.select_eq_emitted {v : Snapshot R} (h : Holds pk v.alternatives v.state m) (q : Query R)
    {S : Type} (sink : Sink R S) (st : S) (threshold : Threshold) :
    (v.select q sink st).value threshold = sink.close ((v.emitted q).foldl sink.put st) := by
  rw [Snapshot.value_select]
  exact congrArg sink.close ((h.reads_choose _).execute_eq _ sink st)

theorem Holds.get_of_mem_emitted {v : Snapshot R} (h : Holds pk v.alternatives v.state m) {q : Query R}
    {x : R} (hx : x ∈ v.emitted q) : m[pk.get x]? = some x :=
  (Store.mem_records h.keyed).1 ((h.reads_choose _).mem_of_mem_emitted hx)

theorem Holds.toList_selectedKeys {e : Engine R} (h : Holds pk e.alternatives e.state m) (q : Query R) :
    (e.selectedKeys q).toList = (e.view.emitted q).map e.primaryKey.get := by
  unfold Engine.selectedKeys
  rw [(h.reads_choose _).execute_eq]
  dsimp only
  rw [List.foldl_push_eq_append]
  simp [Snapshot.emitted, Snapshot.plan, Engine.view]

/-! ## What is left -/

theorem Tracks.lags_foldl_without (h : Tracks pk choices s l) (keys : List Key) {i : Nat}
    (hlags : lags s i = false) :
    lags (keys.foldl (fun s key => (alternatives choices).without key s) s) i = false := by
  induction keys generalizing s l with
  | nil => exact hlags
  | cons key keys ih =>
    have hnext : lags ((alternatives choices).without key s) i = false := by
      rcases (h.without_spec key).2.1 with hempty | hsame
      · rw [hempty]
        rfl
      · exact (hsame i).trans hlags
    exact ih (h.forget key) hnext

/-- A complete alternative spares what its store does. -/
theorem Holds.spares (hs : Holds pk choices s m) (ht : Holds pk choices t m')
    (hleft : ∀ (key : Key) (r : R), m'[key]? = some r ↔ m[key]? = some r ∧ r ∉ gone) {i : Nat}
    {choice : Index R} (hi : choices[i]? = some choice) (hslags : lags s i = false)
    (htlags : lags t i = false) :
    choice.Spares gone (slot s i) (slot t i) := by
  classical
  have hlt := (List.getElem?_eq_some_iff.1 hi).1
  have hchained := hs.chained choice (List.mem_of_getElem? hi)
  have hslaid := hs.fanned.laid i choice hi
  have htlaid := ht.fanned.laid i choice hi
  have hrecords : (slot t i).records = (slot s i).records.filter (· ∉ gone) := by
    refine (eq_records hchained.layered htlaid
      ((pairwise_keys hchained.layered hslaid).filter _) fun x => ?_).symm
    rw [List.mem_filter, decide_eq_true_eq, hs.mem i hlt hslags, ht.mem i hlt htlags, hleft]
  refine ⟨hrecords, fun key => ?_, fun predicate order => ?_⟩
  · rw [Index.find?_eq hchained htlaid, Index.find?_eq hchained hslaid, ht.find?_records hlt htlags,
      hs.find?_records hlt hslags]
    apply Option.ext
    intro r
    rw [hleft, Option.filter_eq_some_iff, decide_eq_true_eq]
  · rw [matching_plan hchained.layered htlaid, matching_plan hchained.layered hslaid, hrecords,
      List.filter_comm]

end Index

/-! ## Removing -/

namespace Session.Follows

variable {pk : Property R} {config : Config} {s : Session R} {l : Ledger R}

/-- A removal that is honoured leaves the records that are not selected. -/
theorem stored_removeAll_iff (h : Follows pk config s l)
    (hhonor : config.honorRemoveAllFilters = true) (q : Query R) (key : Key) (r : R) :
    (l.after s.engine (.removeAll q)).stored[key]? = some r ↔
      l.stored[key]? = some r ∧ r ∉ s.engine.view.emitted q := by
  have hholds := h.tracks.holds
  rw [Ledger.stored_removeAll, h.config, if_pos hhonor, Store.getElem?_foldl_erase,
    hholds.toList_selectedKeys q, h.primaryKey]
  split
  · next hkey =>
    obtain ⟨x, hx, rfl⟩ := List.mem_map.1 hkey
    have hstored : l.stored[pk.get x]? = some x := hholds.get_of_mem_emitted hx
    rw [hstored]
    constructor
    · intro hnone
      cases hnone
    · rintro ⟨hsame, hr⟩
      cases hsame
      exact absurd hx hr
  · next hkey =>
    refine (and_iff_left_of_imp fun hget hr => hkey ?_).symm
    exact List.mem_map.2 ⟨r, hr, hholds.keyed key r hget⟩

/-- It counts the records that are selected, each once. -/
theorem count_removeAll_eq (h : Follows pk config s l)
    (hhonor : config.honorRemoveAllFilters = true) (q : Query R) (threshold : Threshold) :
    ((s.engine.removeAll q).value threshold).1 = {r | r ∈ s.engine.view.emitted q}.ncard := by
  have hholds := h.tracks.holds
  have hsize : (l.after s.engine (.removeAll q)).stored.size +
      {r | r ∈ s.engine.view.emitted q}.ncard = l.stored.size :=
    Store.size_add_ncard hholds.keyed (h.holds_removeAll q threshold).keyed
      (fun r hr => hholds.get_of_mem_emitted hr) fun r => h.stored_removeAll_iff hhonor q (pk.get r) r
  have hcount := h.count_removeAll_add q threshold
  omega

theorem size_removeAll_add (h : Follows pk config s l) (q : Query R) (threshold : Threshold) :
    ((s.engine.removeAll q).value threshold).2.size + ((s.engine.removeAll q).value threshold).1 =
      s.engine.size := by
  have hbefore : s.engine.size = l.stored.size := h.tracks.holds.size_eq
  have hafter : ((s.engine.removeAll q).value threshold).2.size =
      (l.after s.engine (.removeAll q)).stored.size := (h.holds_removeAll q threshold).size_eq
  have hcount := h.count_removeAll_add q threshold
  omega

/-- Every complete alternative stays complete, and spares what is not selected. -/
theorem spares_removeAll (h : Follows pk config s l) (hhonor : config.honorRemoveAllFilters = true)
    (q : Query R) (threshold : Threshold) {i : Nat} {choice : Index R}
    (hi : s.engine.alternatives[i]? = some choice) (hlags : Index.lags s.engine.state i = false) :
    Index.lags ((s.engine.removeAll q).value threshold).2.state i = false ∧
      choice.Spares (s.engine.view.emitted q) (Index.slot s.engine.state i)
        (Index.slot ((s.engine.removeAll q).value threshold).2.state i) := by
  have hafter : Index.lags ((s.engine.removeAll q).value threshold).2.state i = false := by
    rw [Engine.state_removeAll, h.config, if_pos hhonor]
    exact h.tracks.lags_foldl_without _ hlags
  exact ⟨hafter, h.tracks.holds.spares (h.holds_removeAll q threshold)
    (h.stored_removeAll_iff hhonor q) hi hlags hafter⟩

end Session.Follows

/-- A removal that honours its query removes what selecting by the query emits, and nothing else. -/
theorem Run.removeAll_eq_select (run : Run R) (hhonor : run.config.honorRemoveAllFilters = true)
    (q : Query R) (threshold : Threshold) :
    ∃ emitted : List R,
      (∀ {S : Type} (sink : Sink R S) (st : S),
        ((run.engine.select q sink st).value threshold).1 =
          sink.close (emitted.foldl sink.put st)) ∧
      (∀ key r, ((run.engine.removeAll q).value threshold).2.view.find? key = some r ↔
        run.engine.view.find? key = some r ∧ r ∉ emitted) ∧
      ((run.engine.removeAll q).value threshold).1 = {r | r ∈ emitted}.ncard ∧
      ((run.engine.removeAll q).value threshold).2.size +
        ((run.engine.removeAll q).value threshold).1 = run.engine.size ∧
      ∀ (i : Nat) (choice : Index R), run.engine.alternatives[i]? = some choice →
        Index.lags run.engine.state i = false →
        Index.lags ((run.engine.removeAll q).value threshold).2.state i = false ∧
          choice.Spares emitted (Index.slot run.engine.state i)
            (Index.slot ((run.engine.removeAll q).value threshold).2.state i) := by
  have h := run.follows
  refine ⟨run.engine.view.emitted q, fun sink st => ?_, fun key r => ?_,
    h.count_removeAll_eq hhonor q threshold, h.size_removeAll_add q threshold,
    fun i choice hi hlags => h.spares_removeAll hhonor q threshold hi hlags⟩
  · rw [Engine.value_select]
    exact run.holds.select_eq_emitted q sink st threshold
  · have hbefore : run.engine.view.find? key = run.ledger.stored[key]? := run.holds.lookup_eq key
    have hafter := h.find?_removeAll q threshold key
    have hiff := h.stored_removeAll_iff hhonor q key r
    rw [← hafter, ← hbefore] at hiff
    exact hiff

/-- The terms of a disjunction overlap: a record of both is emitted twice and removed once. -/
theorem Run.honouring_removeAll :
    honouring.config.honorRemoveAllFilters = true ∧
      ∃ emitted : List (Int × Int),
        ((honouring.engine.select smallOrEarly .collect {}).value none).1 =
          Sink.collect.close (emitted.foldl Sink.collect.put {}) ∧
        (∀ key r, ((honouring.engine.removeAll smallOrEarly).value none).2.view.find? key = some r ↔
          honouring.engine.view.find? key = some r ∧ r ∉ emitted) ∧
        ((honouring.engine.removeAll smallOrEarly).value none).1 = {r | r ∈ emitted}.ncard ∧
        ((honouring.engine.removeAll smallOrEarly).value none).2.size +
          ((honouring.engine.removeAll smallOrEarly).value none).1 = honouring.engine.size := by
  obtain ⟨emitted, hselect, hfind, hcount, hsize, -⟩ :=
    removeAll_eq_select honouring rfl smallOrEarly none
  exact ⟨rfl, emitted, hselect .collect {}, hfind, hcount, hsize⟩

end RecordStore
