import RecordStore.Proofs.Engine.Removal
import RecordStore.Proofs.Sink
/-!
# One stream for all sinks

Whatever plan is made for a query, running it offers the records that it emits to the sink, in turn,
and then signals the end: the sink has no say in it. An engine and every snapshot taken on the way
to it therefore feed all sinks alike (`Run.select_feeds`).
-/

namespace RecordStore

open Log Sink

variable {R : Type}

/-- A snapshot that holds a store feeds every sink what it emits. -/
theorem Index.Holds.feeds {pk : Property R} {m : Store R} {v : Snapshot R}
    (h : Holds pk v.alternatives v.state m) (q : Query R) (threshold : Threshold) :
    Feeds (fun sink s => (v.select q sink s).value threshold) (v.emitted q) :=
  feeds_of_gathers fun sink s => h.select_eq_emitted q sink s threshold

namespace Run

/-- A query sends one stream to every sink, from the engine and from each of its snapshots. -/
theorem select_feeds (run : Run R) (q : Query R) :
    (∃ emitted, ∀ threshold,
        Feeds (fun sink s => ((run.engine.select q sink s).value threshold).1) emitted) ∧
      ∀ v ∈ run.session.views, ∃ emitted, ∀ threshold,
        Feeds (fun sink s => (v.select q sink s).value threshold) emitted := by
  refine ⟨⟨run.engine.view.emitted q, fun threshold => ?_⟩, fun v hv => ?_⟩
  · have hfeeds := Index.Holds.feeds (v := run.engine.view) run.holds q threshold
    exact feeds_of_gathers fun sink s => hfeeds.gathers sink s
  · obtain ⟨i, hi⟩ := List.mem_iff_getElem?.1 hv
    obtain ⟨m, -, -, hholds⟩ := run.follows.holds_view hi
    exact ⟨v.emitted q, fun threshold => hholds.feeds q threshold⟩

/-- A snapshot of two records, asked for the first with an amount of at most 20. -/
theorem select_feeds_amounts :
    let q : Query (Int × Int) := { predicate := some (.compare amount (.le (.int 20))), limit := some 1 }
    ∃ v ∈ amounts.session.views, ∃ emitted : List (Int × Int),
      (∀ threshold, Feeds (fun sink s => (v.select q sink s).value threshold) emitted) ∧
        emitted.map Call.put ++ [.close] = [.put (1, 10), .close] := by
  intro q
  obtain ⟨emitted, hfeeds⟩ := (amounts.select_feeds q).2 _
    (List.get_mem amounts.session.views ⟨0, by decide +kernel⟩)
  exact ⟨_, List.get_mem _ _, emitted, hfeeds, (hfeeds none).calls.symm.trans (by decide +kernel)⟩

end Run

end RecordStore
