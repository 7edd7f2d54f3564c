import RecordStore.Plan.Scan
import RecordStore.Proofs.Index.Walk
import RecordStore.Proofs.Order
import RecordStore.Proofs.Window
/-!
# What a scan sends to the sink

A scan puts into the sink the slice that the query takes from the matches in their final order,
`Scan.ranked` (`execute_eq`). Where the walk yields the order asked for, the matches are streamed as
they come, and otherwise they are gathered and sorted; in both cases the predicate is applied to the
records in range.
-/

namespace RecordStore.Scan

variable {R S : Type} {scan : Scan R}

/-- The records in the range of a scan, in index order. -/
def visited (scan : Scan R) : List R :=
  scan.state.within scan.range

/-- The matches of a scan in the order in which they come to the window. -/
def ranked (scan : Scan R) (predicate : Option (Predicate R)) (order : Order R) : List R :=
  match scan.direction with
  | some direction => (direction.arrange scan.visited).filter (Predicate.admits predicate)
  | none => order.sort (scan.visited.filter (Predicate.admits predicate))

theorem foldl_push_filter (keep : R → Bool) (records : List R) (kept : Array R) :
    (records.foldl (fun kept record => if keep record then kept.push record else kept) kept).toList =
      kept.toList ++ records.filter keep := by
  induction records generalizing kept with
  | nil => simp
  | cons record records ih =>
    rw [List.foldl_cons, ih, List.filter_cons]
    cases keep record <;> simp

theorem matching_eq (ho : scan.state.root.Ordered) (predicate : Option (Predicate R)) :
    scan.matching predicate = scan.visited.filter (Predicate.admits predicate) := by
  have hwalk := State.walkRange_eq .asc scan.range (fun (kept : Array R) record =>
    .more (if Predicate.admits predicate record then kept.push record else kept)) ho
  have hfold := foldl_push_filter (Predicate.admits predicate) scan.visited #[]
  rw [matching, hwalk, Visit.list_more, Visit.state]
  exact hfold

theorem stream_eq (ho : scan.state.root.Ordered) (direction : Direction) (q : Query R)
    (sink : Sink R S) (w : Window) (s : S) :
    (scan.stream direction q sink w s).2 =
      (w.admitted ((direction.arrange scan.visited).filter
        (Predicate.admits q.predicate))).foldl sink.put s := by
  rw [stream, State.walkRange_eq direction scan.range _ ho,
    Visit.list_filter (Window.offer sink) (Predicate.admits q.predicate)]
  exact Window.list_offer sink w _ s

/-- A scan puts the slice of the query into the sink, in the final order. -/
theorem execute_eq (ho : scan.state.root.Ordered) (q : Query R) (sink : Sink R S) (s : S) :
    scan.execute q sink s = (q.slice (scan.ranked q.predicate q.sortKeys)).foldl sink.put s := by
  rw [execute]
  split
  · next hfull => rw [← Window.admitted_eq_slice, Window.admitted_of_isFull hfull, List.foldl_nil]
  · unfold ranked
    cases scan.direction with
    | some direction => exact stream_eq ho direction q sink _ s
    | none =>
      dsimp only
      rw [Window.drain_eq, matching_eq ho]
      rfl

end RecordStore.Scan
