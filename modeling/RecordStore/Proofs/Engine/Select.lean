import RecordStore.Proofs.Engine.Follows
/-!
# What a query selects

The answer of a query, told from the stored records and without any index: `Query.reference` where
the query is ordered, and `Query.occurrences`, as a multiset, where it is not. An engine and its
snapshots give this answer to every sink, whichever indexes there are, complete or not, and
whichever plan is chosen (`Run.select_eq_reference`, `Run.select_perm_occurrences`). The properties
that the indexes and the query refer to by one name must read the same.
-/

namespace RecordStore

open Log

variable {R : Type}

namespace Query

/-- The answer of an ordered query: the matches, sorted, and of these the part in the window. -/
def reference (q : Query R) (pk : Property R) (records : List R) : List R :=
  let q := q.normalized pk
  q.slice (q.sortKeys.sort (q.matches records))

/-- The answer of a query without order and window, in no particular order. A record comes once for
each term of a disjunction that holds of it. -/
def occurrences (q : Query R) (records : List R) : List R :=
  match q.simplified.predicate with
  | some (.any terms) => records.flatMap fun r => List.replicate (terms.countP (·.eval r)) r
  | _ => records.filter (Predicate.admits q.predicate)

theorem mem_of_mem_matches {q : Query R} {records : List R} {x : R} (h : x ∈ q.matches records) :
    x ∈ records := by
  unfold Query.matches at h
  split at h
  · obtain ⟨term, -, hx⟩ := List.mem_flatMap.1 h
    exact (List.mem_filter.1 hx).1
  · exact (List.mem_filter.1 h).1

theorem filter_eq_flatMap (keep : R → Bool) (records : List R) :
    records.filter keep = records.flatMap fun r => List.replicate (if keep r then 1 else 0) r := by
  induction records with
  | nil => rfl
  | cons r records ih =>
    rw [List.filter_cons, List.flatMap_cons, ← ih]
    cases keep r <;> rfl

/-- Taking the records of each term in turn is taking each record as often as terms hold of it. -/
theorem flatMap_filter_perm (terms : List (Predicate R)) (records : List R) :
    (terms.flatMap fun term => records.filter term.eval).Perm
      (records.flatMap fun r => List.replicate (terms.countP (·.eval r)) r) := by
  induction terms with
  | nil => simp
  | cons term terms ih =>
    have hsum (r : R) : List.replicate (if term.eval r then 1 else 0) r ++
        List.replicate (terms.countP (·.eval r)) r =
        List.replicate ((term :: terms).countP (·.eval r)) r := by
      rw [List.replicate_append_replicate, List.countP_cons, Nat.add_comm]
    rw [List.flatMap_cons, filter_eq_flatMap]
    refine (ih.append_left _).trans ((List.flatMap_append_perm records _ _).trans (.of_eq ?_))
    exact congrArg (records.flatMap ·) (funext hsum)

theorem matches_perm_occurrences (q : Query R) (records : List R) :
    (q.simplified.matches records).Perm (q.occurrences records) := by
  by_cases hany : ∃ terms, q.simplified.predicate = some (.any terms)
  · obtain ⟨terms, hterms⟩ := hany
    rw [Query.matches, occurrences, hterms]
    exact flatMap_filter_perm terms records
  · rw [Query.matches_of_not_any (not_exists.1 hany), occurrences]
    split
    · next terms hterms => exact absurd ⟨terms, hterms⟩ hany
    · exact .of_eq (List.filter_congr fun r _ => q.admits_simplified r)

/-! ## Ties -/

theorem mentions_withTieBreak {q : Query R} (h : (q.order.isSome || q.isWindowed) = true)
    (pk : Property R) : Order.mentions (q.withTieBreak pk).sortKeys pk = true := by
  have happended (order : Order R) : Order.mentions (order ++ Order.ascending pk) pk = true := by
    simp [Order.mentions, Order.ascending, Property.same]
  unfold withTieBreak
  split
  · next order horder =>
    split
    · next hmentions =>
      rw [sortKeys, horder]
      exact hmentions
    · exact happended order
  · next horder =>
    rw [horder, Option.isSome_none, Bool.false_or] at h
    rw [if_pos h]
    exact happended []

theorem predicate_withTieBreak (q : Query R) (pk : Property R) :
    (q.withTieBreak pk).predicate = q.predicate := by
  unfold withTieBreak
  split <;> split <;> rfl

theorem isWindowed_withTieBreak (q : Query R) (pk : Property R) :
    (q.withTieBreak pk).isWindowed = q.isWindowed := by
  unfold withTieBreak
  split <;> split <;> rfl

theorem properties_withTieBreak (q : Query R) (pk : Property R) :
    Order.properties (q.withTieBreak pk).sortKeys ⊆ pk :: Order.properties q.sortKeys := by
  unfold withTieBreak
  split
  · next order horder =>
    split
    · exact List.subset_cons_self _ _
    · intro p hp
      simpa [sortKeys, horder, Order.properties, Order.ascending, or_comm] using hp
  · split
    · simp [sortKeys, Order.properties, Order.ascending]
    · exact List.subset_cons_self _ _

theorem withTieBreak_of_plain {q : Query R} {pk : Property R} (horder : q.order = none)
    (hwindow : q.isWindowed = false) : q.withTieBreak pk = q := by
  unfold withTieBreak
  rw [horder]
  exact if_neg (Bool.eq_false_iff.1 hwindow)

end Query

namespace Index.Holds

variable {pk : Property R} {choices : List (Index R)} {s : State R} {m : Store R}

/-- Where names are coherent, the indexes agree with the query that is planned. -/
theorem agrees_normalized (h : Holds pk choices s m) {q : Query R}
    (hcoherent : Property.Coherent (choices.flatMap Index.properties ++ q.properties)) :
    ∀ choice ∈ choices, ∀ p ∈ choice.properties,
      p.Agrees ((q.normalized pk).predicate.elim [] Predicate.properties) ∧
        p.Agrees (Order.properties (q.normalized pk).sortKeys) := by
  intro choice hchoice p hp
  have hmem {p : Property R} (hp : p ∈ choice.properties) :
      p ∈ choices.flatMap Index.properties ++ q.properties :=
    List.mem_append_left _ (List.mem_flatMap.2 ⟨choice, hchoice, hp⟩)
  refine ⟨hcoherent.agrees (hmem hp) fun r hr => ?_, hcoherent.agrees (hmem hp) fun r hr => ?_⟩
  · rw [Query.normalized, Query.predicate_withTieBreak] at hr
    exact List.mem_append_right _ (List.mem_append_left _ (q.properties_simplified hr))
  · rcases List.mem_cons.1 (q.simplified.properties_withTieBreak pk hr) with rfl | hr
    · exact hmem (h.chained choice hchoice).mem_properties
    · exact List.mem_append_right _ (List.mem_append_right _ hr)

/-- An ordered query puts its reference answer into the sink. -/
theorem execute_eq_reference (h : Holds pk choices s m) {q : Query R}
    (hcoherent : Property.Coherent (choices.flatMap Index.properties ++ q.properties))
    (hordered : (q.order.isSome || q.isWindowed) = true) {S : Type} (sink : Sink R S) (st : S) :
    (Plan.choose choices s (q.normalized pk)).execute (q.normalized pk) sink st =
      (q.reference pk m.records).foldl sink.put st := by
  have hagrees := h.agrees_normalized hcoherent
  obtain ⟨found, hperm, hsorted, hexecute⟩ := h.exists_execute_eq
    fun choice hc p hp => (hagrees choice hc p hp).1
  have htrusted : Index.Trusted choices (q.normalized pk).sortKeys := fun choice hc p hp =>
    (hagrees choice hc p hp).2
  obtain ⟨choice, hchoice⟩ := List.exists_mem_of_ne_nil choices h.nonempty
  have hpk := htrusted choice hchoice pk (h.chained choice hchoice).mem_properties
  have hties : ∀ a ∈ (q.normalized pk).matches m.records, ∀ b ∈ (q.normalized pk).matches m.records,
      (q.normalized pk).sortKeys.compare a b = .eq → a = b := fun a ha b hb hab =>
    Store.eq_of_mem_records h.keyed (Query.mem_of_mem_matches ha) (Query.mem_of_mem_matches hb)
      (Order.get_eq_of_mentions hpk (Query.mentions_withTieBreak (q := q.simplified) hordered pk) hab)
  rw [hexecute, Order.eq_sort_of_pairwise hperm hties (hsorted htrusted)]
  rfl

/-- A query without order and window puts the same arrangement of its matches into every sink. -/
theorem exists_execute_perm (h : Holds pk choices s m) {q : Query R}
    (hcoherent : Property.Coherent (choices.flatMap Index.properties ++ q.properties))
    (horder : q.order = none) (hwindow : q.isWindowed = false) :
    ∃ found : List R, found.Perm (q.occurrences m.records) ∧
      ∀ {S : Type} (sink : Sink R S) (st : S),
        (Plan.choose choices s (q.normalized pk)).execute (q.normalized pk) sink st =
          found.foldl sink.put st := by
  have hagrees := h.agrees_normalized hcoherent
  obtain ⟨found, hperm, -, hexecute⟩ := h.exists_execute_eq
    fun choice hc p hp => (hagrees choice hc p hp).1
  have hnormalized : q.normalized pk = q.simplified :=
    Query.withTieBreak_of_plain (q := q.simplified) horder hwindow
  rw [hnormalized] at hperm hexecute ⊢
  refine ⟨found, hperm.trans (q.matches_perm_occurrences m.records), fun sink st => ?_⟩
  rw [hexecute, Query.slice_of_not_windowed (q := q.simplified) hwindow]

end Index.Holds

/-! ## Runs -/

theorem Snapshot.value_select {S : Type} (v : Snapshot R) (q : Query R) (sink : Sink R S) (st : S)
    (threshold : Threshold) :
    (v.select q sink st).value threshold = sink.close ((Plan.choose v.alternatives v.state
      (q.normalized v.primaryKey)).execute (q.normalized v.primaryKey) sink st) := by
  unfold select execute plan
  cases v.logPlans <;> rfl

theorem Engine.value_select {S : Type} (e : Engine R) (q : Query R) (sink : Sink R S) (st : S)
    (threshold : Threshold) :
    ((e.select q sink st).value threshold).1 = (e.view.select q sink st).value threshold := rfl

/-- The properties of the indexes in view. -/
def Snapshot.properties (v : Snapshot R) : List (Property R) :=
  v.alternatives.flatMap Index.properties

namespace Run

/-- An engine and its snapshots give the reference answer to an ordered query, the engine from what
is stored and a snapshot from what was stored when it was taken. -/
theorem select_eq_reference (run : Run R) {q : Query R}
    (hordered : (q.order.isSome || q.isWindowed) = true) {S : Type} (sink : Sink R S) (st : S)
    (threshold : Threshold) :
    (Property.Coherent (run.engine.view.properties ++ q.properties) →
      ((run.engine.select q sink st).value threshold).1 =
        sink.close ((q.reference run.primaryKey run.ledger.stored.records).foldl sink.put st)) ∧
      ∀ (i : Nat) (v : Snapshot R), run.session.views[i]? = some v →
        ∃ m, run.ledger.views[i]? = some m ∧
          (Property.Coherent (v.properties ++ q.properties) →
            (v.select q sink st).value threshold =
              sink.close ((q.reference run.primaryKey m.records).foldl sink.put st)) := by
  constructor
  · intro hcoherent
    have hpk : run.engine.view.primaryKey = run.primaryKey := run.follows.primaryKey
    rw [Engine.value_select, Snapshot.value_select, hpk]
    exact congrArg sink.close
      (run.follows.tracks.holds.execute_eq_reference hcoherent hordered sink st)
  · intro i v hv
    obtain ⟨m, hm, hpk, hholds⟩ := run.follows.holds_view hv
    refine ⟨m, hm, fun hcoherent => ?_⟩
    rw [Snapshot.value_select, hpk]
    exact congrArg sink.close (hholds.execute_eq_reference hcoherent hordered sink st)

theorem coherent_amounts {q : Query (Int × Int)} (hq : ∀ p ∈ q.properties, p = identifier ∨ p = amount) :
    Property.Coherent (amounts.engine.view.properties ++ q.properties) := by
  have hindexes : amounts.engine.view.properties = [identifier, amount, identifier] := rfl
  refine Property.coherent_of_pair (p := identifier) (q := amount) rfl fun p hp => ?_
  rcases List.mem_append.1 hp with hp | hp
  · simp only [hindexes, List.mem_cons, List.not_mem_nil, or_false] at hp
    rcases hp with hp | hp | hp
    · exact .inl hp
    · exact .inr hp
    · exact .inl hp
  · exact hq p hp

/-- The largest amount. -/
def largest : Query (Int × Int) where
  order := some [⟨amount, .desc⟩]
  limit := some 1

theorem amounts_largest :
    (largest.order.isSome || largest.isWindowed) = true ∧
      Property.Coherent (amounts.engine.view.properties ++ largest.properties) ∧
      ((amounts.engine.select largest .collect {}).value none).1 =
        Sink.collect.close ((largest.reference identifier amounts.ledger.stored.records).foldl
          Sink.collect.put {}) := by
  have hcoherent := coherent_amounts (q := largest) (by simp [largest, Query.properties, Query.sortKeys])
  exact ⟨rfl, hcoherent, (select_eq_reference amounts rfl .collect {} none).1 hcoherent⟩

/-- An engine and its snapshots select the same multiset of records for a query without order and
window, to every sink in one arrangement. -/
theorem select_perm_occurrences (run : Run R) {q : Query R} (horder : q.order = none)
    (hskip : q.skip = 0) (hlimit : q.limit = none) :
    (Property.Coherent (run.engine.view.properties ++ q.properties) →
      ∃ emitted : List R, emitted.Perm (q.occurrences run.ledger.stored.records) ∧
        ∀ {S : Type} (sink : Sink R S) (st : S) (threshold : Threshold),
          ((run.engine.select q sink st).value threshold).1 =
            sink.close (emitted.foldl sink.put st)) ∧
      ∀ (i : Nat) (v : Snapshot R), run.session.views[i]? = some v →
        ∃ m, run.ledger.views[i]? = some m ∧
          (Property.Coherent (v.properties ++ q.properties) →
            ∃ emitted : List R, emitted.Perm (q.occurrences m.records) ∧
              ∀ {S : Type} (sink : Sink R S) (st : S) (threshold : Threshold),
                (v.select q sink st).value threshold = sink.close (emitted.foldl sink.put st)) := by
  have hwindow : q.isWindowed = false := by simp [Query.isWindowed, hskip, hlimit]
  constructor
  · intro hcoherent
    have hpk : run.engine.view.primaryKey = run.primaryKey := run.follows.primaryKey
    obtain ⟨emitted, hperm, hexecute⟩ :=
      run.follows.tracks.holds.exists_execute_perm hcoherent horder hwindow
    refine ⟨emitted, hperm, fun sink st threshold => ?_⟩
    rw [Engine.value_select, Snapshot.value_select, hpk]
    exact congrArg sink.close (hexecute sink st)
  · intro i v hv
    obtain ⟨m, hm, hpk, hholds⟩ := run.follows.holds_view hv
    refine ⟨m, hm, fun hcoherent => ?_⟩
    obtain ⟨emitted, hperm, hexecute⟩ := hholds.exists_execute_perm hcoherent horder hwindow
    refine ⟨emitted, hperm, fun sink st threshold => ?_⟩
    rw [Snapshot.value_select, hpk]
    exact congrArg sink.close (hexecute sink st)

/-- Small amounts and early identifiers. -/
def smallOrEarly : Query (Int × Int) where
  predicate := some (.any [.compare amount (.le (.int 10)), .compare identifier (.lt (.int 5))])

theorem amounts_smallOrEarly :
    smallOrEarly.order = none ∧ smallOrEarly.skip = 0 ∧ smallOrEarly.limit = none ∧
      Property.Coherent (amounts.engine.view.properties ++ smallOrEarly.properties) ∧
      ∃ emitted : List (Int × Int),
        emitted.Perm (smallOrEarly.occurrences amounts.ledger.stored.records) ∧
        ∀ {S : Type} (sink : Sink (Int × Int) S) (st : S) (threshold : Threshold),
          ((amounts.engine.select smallOrEarly sink st).value threshold).1 =
            sink.close (emitted.foldl sink.put st) := by
  have hcoherent := coherent_amounts (q := smallOrEarly) (by
    simp [smallOrEarly, Query.properties, Query.sortKeys, Predicate.properties])
  exact ⟨rfl, rfl, rfl, hcoherent,
    (select_perm_occurrences amounts rfl rfl rfl).1 hcoherent⟩

end Run

end RecordStore
