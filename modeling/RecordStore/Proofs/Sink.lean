import Mathlib
import RecordStore.Proofs.Assoc
import RecordStore.Proofs.Key
import RecordStore.Sink
/-!
# What sinks receive

A sink sees nothing but calls. `Sink.transcript` writes them down, and `Sink.Feeds` says of a way to
run sinks that there is one list of records which every sink is given in turn, and then the end.

Grouping is a partition of that list (`Sink.Partitions`): one group for each key that there is, in
key order, and in it the records of that key as they came. One more record keeps it so
(`Partitions.put`), hence a whole list of them does (`partitions_groupBy`).
-/

namespace RecordStore.Sink

/-- A call that a sink gets. -/
inductive Call (R : Type) where
  | put (record : R)
  | close
  deriving DecidableEq

variable {R S T : Type} {p : Property R}

/-- Writes down the calls it gets. -/
def transcript : Sink R (List (Call R)) where
  put calls record := calls ++ [.put record]
  close calls := calls ++ [.close]

/-- What a sink makes of some records and their end. -/
def gather (sink : Sink R S) (s : S) (records : List R) : S :=
  sink.close (records.foldl sink.put s)

theorem gather_transcript (records : List R) (calls : List (Call R)) :
    transcript.gather calls records = calls ++ records.map .put ++ [.close] := by
  have hputs : records.foldl transcript.put calls = calls ++ records.map .put := by
    induction records generalizing calls with
    | nil => exact (List.append_nil calls).symm
    | cons record records ih =>
      rw [List.foldl_cons, ih, List.map_cons, ← List.singleton_append, ← List.append_assoc]
      rfl
  exact congrArg (· ++ [.close]) hputs

/-! ## Groups -/

/-- Whether groups are records parted by a property. -/
structure Partitions (p : Property R) (records : List R) (made : List R → S) (groups : List (Key × S)) :
    Prop where
  ascending : groups.Pairwise fun a b => a.1 < b.1
  mem_iff : ∀ key group, (key, group) ∈ groups ↔
    (∃ r ∈ records, p.get r = key) ∧ group = made (records.filter (p.get · == key))

namespace Partitions

variable {records : List R} {made : List R → S} {groups : List (Key × S)}

theorem sorted (h : Partitions p records made groups) : Assoc.Sorted groups :=
  h.ascending

protected theorem map (h : Partitions p records made groups) (f : S → T) :
    Partitions p records (f ∘ made) (groups.map fun (key, group) => (key, f group)) where
  ascending := List.pairwise_map.2 h.ascending
  mem_iff key group := by
    rw [List.mem_map]
    constructor
    · rintro ⟨⟨k, g⟩, hmem, heq⟩
      cases heq
      obtain ⟨hexists, rfl⟩ := (h.mem_iff _ _).1 hmem
      exact ⟨hexists, rfl⟩
    · rintro ⟨hexists, rfl⟩
      exact ⟨_, (h.mem_iff key _).2 ⟨hexists, rfl⟩, rfl⟩

variable {inner : Sink R S} {empty : S}

/-- A key without a group is one that no record has. -/
theorem getD_get? (h : Partitions p records (·.foldl inner.put empty) groups) (key : Key) :
    (Assoc.get? key groups).getD empty = (records.filter (p.get · == key)).foldl inner.put empty := by
  cases hget : Assoc.get? key groups with
  | some group =>
    rw [Assoc.get?_eq_some_iff h.sorted, h.mem_iff] at hget
    exact hget.2
  | none =>
    have hnone : records.filter (p.get · == key) = [] := by
      rw [List.filter_eq_nil_iff]
      intro r hr hkey
      rw [Assoc.get?_eq_none_iff h.sorted] at hget
      exact hget _ ((h.mem_iff key _).2 ⟨⟨r, hr, beq_iff_eq.1 hkey⟩, rfl⟩)
    rw [hnone]
    rfl

/-- A record joins the group of its key. -/
theorem put (h : Partitions p records (·.foldl inner.put empty) groups) (record : R) :
    Partitions p (records ++ [record]) (·.foldl inner.put empty)
      ((groupBy p inner empty).put groups record) where
  ascending := Assoc.sorted_upsert h.sorted (p.get record) _
  mem_iff key group := by
    refine (Assoc.mem_upsert h.sorted).trans ?_
    rw [h.getD_get?, h.mem_iff, List.filter_append]
    -- The group of the record's key takes it in, any other group stays as it is.
    by_cases hkey : key = p.get record
    · subst hkey
      simp
    · have hother : (p.get record == key) = false := beq_eq_false_iff_ne.2 (Ne.symm hkey)
      simp [hkey, hother, Ne.symm hkey]

end Partitions

variable {inner : Sink R S} {empty : S}

theorem partitions_foldl_groupBy (records : List R) :
    Partitions p records (·.foldl inner.put empty) (records.foldl (groupBy p inner empty).put []) := by
  induction records using List.reverseRecOn with
  | nil => exact ⟨.nil, by simp⟩
  | append_singleton records record ih =>
    rw [List.foldl_append]
    exact ih.put record

/-- Grouping parts the records by the property, and each group is told its end. -/
theorem partitions_groupBy (p : Property R) (inner : Sink R S) (empty : S) (records : List R) :
    Partitions p records (inner.gather empty) ((groupBy p inner empty).gather [] records) :=
  (partitions_foldl_groupBy records).map inner.close

theorem sum_upsert_succ (key : Key) (groups : List (Key × Nat)) :
    ((Assoc.upsert key (fun n? => n?.getD 0 + 1) groups).map (·.2)).sum = (groups.map (·.2)).sum + 1 := by
  induction groups with
  | nil => rfl
  | cons group groups ih =>
    rw [Assoc.upsert]
    cases compare key group.1 with
    | lt =>
      simp
      omega
    | eq =>
      simp
      omega
    | gt =>
      simp [ih]
      omega

theorem sum_foldl_groupBy_count (records : List R) (groups : List (Key × Nat)) :
    ((records.foldl (groupBy p count 0).put groups).map (·.2)).sum =
      records.foldl count.put (groups.map (·.2)).sum := by
  induction records generalizing groups with
  | nil => rfl
  | cons record records ih =>
    rw [List.foldl_cons, ih]
    exact congrArg (records.foldl count.put) (sum_upsert_succ (p.get record) groups)

/-- Counting by groups misses no record and counts none twice. -/
theorem sum_groupBy_count (p : Property R) (records : List R) :
    (((groupBy p count 0).gather [] records).map (·.2)).sum = count.gather 0 records := by
  have hclose : ((groupBy p count 0).gather [] records).map (·.2) =
      (records.foldl (groupBy p count 0).put []).map (·.2) := List.map_map ..
  rw [hclose]
  exact sum_foldl_groupBy_count records []

/-! ## Streams -/

/-- Whether every sink that is run is given the same records in turn, and then the end. -/
structure Feeds (run : ∀ {S : Type}, Sink R S → S → S) (emitted : List R) : Prop where
  gathers : ∀ {S : Type} (sink : Sink R S) (s : S), run sink s = sink.gather s emitted
  calls : run transcript [] = emitted.map .put ++ [.close]
  groups : ∀ (p : Property R) {S : Type} (inner : Sink R S) (empty : S),
    Partitions p emitted (inner.gather empty) (run (groupBy p inner empty) [])
  groupCalls : ∀ p : Property R,
    Partitions p emitted (fun taken => taken.map .put ++ [.close]) (run (groupBy p transcript []) [])
  total : ∀ p : Property R, ((run (groupBy p count 0) []).map (·.2)).sum = run count 0

theorem feeds_of_gathers {run : ∀ {S : Type}, Sink R S → S → S} {emitted : List R}
    (h : ∀ {S : Type} (sink : Sink R S) (s : S), run sink s = sink.gather s emitted) :
    Feeds run emitted where
  gathers := h
  calls := by rw [h, gather_transcript, List.nil_append]
  groups p _ inner empty := by
    rw [h]
    exact partitions_groupBy p inner empty emitted
  groupCalls p := by
    have hmade : transcript.gather [] = fun taken : List R => taken.map .put ++ [.close] :=
      funext fun taken => gather_transcript taken []
    rw [h, ← hmade]
    exact partitions_groupBy p transcript [] emitted
  total p := by rw [h, h, sum_groupBy_count]

end RecordStore.Sink
