import RecordStore.Proofs.Engine.LateIndexes
import RecordStore.Proofs.Engine.Removal
/-!
# Which indexes can be read

`Index.Readable` says that an index is among the complete alternatives. Writes that leave records
neither add to the readable indexes nor take any away, and once there are no records all of them are
readable (`Tracks.readable_foldl_without`); an index that is added amid records is not
(`readable_append`).

`Index.Wider` compares two engines: each index of the first is one of the second, and is readable
there if it is in the first. It is kept by whatever befalls both (`Wider.put`,
`Wider.foldl_without`, `Wider.append`).
-/

namespace RecordStore

namespace Index

variable {R : Type} {pk : Property R} {choices choices' : List (Index R)} {s t : State R} {ix : Index R}
  {l m : Ledger R}

/-- Whether an index is among the alternatives and does not lag behind. -/
def Readable (choices : List (Index R)) (s : State R) (ix : Index R) : Prop :=
  ∃ i : Nat, choices[i]? = some ix ∧ lags s i = false

theorem readable_empty : Readable choices .empty ix ↔ ix ∈ choices := by
  rw [List.mem_iff_getElem?]
  exact exists_congr fun i => and_iff_left rfl

theorem readable_put (h : Spread choices.length s) (record : R) :
    Readable choices ((alternatives choices).put record s) ix ↔ Readable choices s ix := by
  refine exists_congr fun i => and_congr_right fun hi => ?_
  rw [lags_put h record (List.getElem?_eq_some_iff.1 hi).1]

/-- An index that is added amid records is not readable, and leaves the others as they are. -/
theorem readable_append (h : Spread choices.length s) (hs : s.isEmpty = false) (jx : Index R) :
    Readable (choices ++ [jx]) s ix ↔ Readable choices s ix := by
  refine exists_congr fun i => ?_
  rcases Nat.lt_trichotomy i choices.length with hlt | rfl | hgt
  · rw [List.getElem?_append_left hlt]
  · have hlags : lags s choices.length = true := by rw [h.lags_append, hs, Bool.not_false]
    simp [hlags]
  · rw [List.getElem?_eq_none (by rw [List.length_append, List.length_singleton]; omega),
      List.getElem?_eq_none (by omega)]

theorem Spread.eq_empty {count : Nat} (h : Spread count s) (hs : s.isEmpty = true) : s = .empty := by
  cases h with
  | empty => rfl
  | slots hfirst _ _ => exact absurd (of_decide_eq_true hs) hfirst

/-- When keys are taken out, the readable indexes stay the same as long as there are records, and
are all of them afterwards. -/
theorem Tracks.readable_foldl_without (h : Tracks pk choices s l) (keys : List Key) :
    Readable choices (keys.foldl (fun s key => (alternatives choices).without key s) s) ix ↔
      if (keys.foldl Ledger.forget l).stored.isEmpty then ix ∈ choices else Readable choices s ix := by
  induction keys generalizing s l with
  | nil =>
    show Readable choices s ix ↔ if l.stored.isEmpty then _ else _
    split
    · next hempty =>
      rw [h.holds.eq_empty_iff.2 hempty]
      exact readable_empty
    · exact Iff.rfl
  | cons key keys ih =>
    rw [List.foldl_cons, List.foldl_cons, ih (h.forget key)]
    split
    · exact Iff.rfl
    · next hleft =>
      refine exists_congr fun i => and_congr_right fun _ => ?_
      rcases (h.without_spec key).2.1 with hempty | hsame
      · have hnone := (h.forget key).holds.eq_empty_iff.1 hempty
        exact absurd (stored_foldl_forget_isEmpty keys hnone) hleft
      · rw [hsame i]

/-! ## Wider engines -/

/-- Whether the second alternatives are those of the first and others, and can be read where those
can. -/
structure Wider (choices choices' : List (Index R)) (s t : State R) : Prop where
  indexes : choices ⊆ choices'
  readable : ∀ ix, Readable choices s ix → Readable choices' t ix

namespace Wider

theorem of_empty (h : choices ⊆ choices') : Wider choices choices' .empty .empty :=
  ⟨h, fun _ hix => readable_empty.2 (h (readable_empty.1 hix))⟩

theorem put (h : Wider choices choices' s t) (hs : Spread choices.length s)
    (ht : Spread choices'.length t) (record : R) :
    Wider choices choices' ((alternatives choices).put record s)
      ((alternatives choices').put record t) :=
  ⟨h.indexes, fun ix hix => (readable_put ht record).2 (h.readable ix ((readable_put hs record).1 hix))⟩

/-- The keys that are taken out of one may come in another order, and more often, than those of the
other one, as long as the same is left. -/
theorem foldl_without (h : Wider choices choices' s t) (hs : Tracks pk choices s l)
    (ht : Tracks pk choices' t m) {keys keys' : List Key}
    (hleft : (keys'.foldl Ledger.forget m).stored = (keys.foldl Ledger.forget l).stored) :
    Wider choices choices' (keys.foldl (fun s key => (alternatives choices).without key s) s)
      (keys'.foldl (fun t key => (alternatives choices').without key t) t) := by
  refine ⟨h.indexes, fun ix hix => ?_⟩
  rw [hs.readable_foldl_without] at hix
  rw [ht.readable_foldl_without, hleft]
  split at hix
  · next hempty =>
    rw [if_pos hempty]
    exact h.indexes hix
  · next hsome =>
    rw [if_neg hsome]
    exact h.readable ix hix

/-- An index that is added to both. -/
theorem append (h : Wider choices choices' s t) (hs : Spread choices.length s)
    (ht : Spread choices'.length t) (hempty : t.isEmpty = s.isEmpty) {jx kx : Index R} (hsame : kx = jx) :
    Wider (choices ++ [jx]) (choices' ++ [kx]) s t := by
  subst hsame
  have hindexes : choices ++ [kx] ⊆ choices' ++ [kx] :=
    List.append_subset.2 ⟨List.subset_append_of_subset_left _ h.indexes, List.subset_append_right _ _⟩
  cases hsome : s.isEmpty with
  | true =>
    rw [hs.eq_empty hsome, ht.eq_empty (hempty.trans hsome)]
    exact of_empty hindexes
  | false =>
    refine ⟨hindexes, fun ix hix => ?_⟩
    rw [readable_append hs hsome] at hix
    rw [readable_append ht (hempty.trans hsome)]
    exact h.readable ix hix

/-- An index that is added to the second one while there are no records. -/
theorem extend (h : Wider choices choices' .empty .empty) (jx : Index R) :
    Wider choices (choices' ++ [jx]) .empty .empty :=
  of_empty (List.subset_append_of_subset_left _ h.indexes)

end Wider

end Index

/-! ## What engines emit that store the same -/

variable {R : Type} {pk : Property R} {m : Store R} {v w : Snapshot R} {q : Query R}

/-- Lists that put the same into every sink are equal. -/
theorem Sink.eq_of_foldl_put {as bs : List R}
    (h : ∀ {S : Type} (sink : Sink R S) (s : S), as.foldl sink.put s = bs.foldl sink.put s) : as = bs := by
  have hlists : as.foldl (fun seen record => record :: seen) [] =
      bs.foldl (fun seen record => record :: seen) [] :=
    h { put := fun seen record => record :: seen } ([] : List R)
  have hreversed (cs : List R) : cs.foldl (fun seen record => record :: seen) [] = cs.reverse := by
    simp
  rw [hreversed, hreversed] at hlists
  exact List.reverse_inj.1 hlists

namespace Index.Holds

theorem emitted_eq_reference (h : Holds pk v.alternatives v.state m) (hpk : v.primaryKey = pk)
    (hcoherent : Property.Coherent (v.properties ++ q.properties))
    (hordered : (q.order.isSome || q.isWindowed) = true) : v.emitted q = q.reference pk m.records := by
  subst hpk
  refine Sink.eq_of_foldl_put fun sink st => ?_
  exact ((h.reads_choose _).execute_eq _ sink st).symm.trans
    (h.execute_eq_reference hcoherent hordered sink st)

theorem emitted_perm_occurrences (h : Holds pk v.alternatives v.state m) (hpk : v.primaryKey = pk)
    (hcoherent : Property.Coherent (v.properties ++ q.properties)) (horder : q.order = none)
    (hwindow : q.isWindowed = false) : (v.emitted q).Perm (q.occurrences m.records) := by
  subst hpk
  obtain ⟨found, hperm, hexecute⟩ := h.exists_execute_perm hcoherent horder hwindow
  have hfound : v.emitted q = found := Sink.eq_of_foldl_put fun sink st =>
    ((h.reads_choose _).execute_eq _ sink st).symm.trans (hexecute sink st)
  exact hfound ▸ hperm

/-- Snapshots of the same records emit the same records for a query, each as often. -/
theorem emitted_perm (hv : Holds pk v.alternatives v.state m) (hw : Holds pk w.alternatives w.state m)
    (hvpk : v.primaryKey = pk) (hwpk : w.primaryKey = pk)
    (hvcoherent : Property.Coherent (v.properties ++ q.properties))
    (hwcoherent : Property.Coherent (w.properties ++ q.properties)) :
    (v.emitted q).Perm (w.emitted q) := by
  cases hordered : q.order.isSome || q.isWindowed with
  | true =>
    rw [hv.emitted_eq_reference hvpk hvcoherent hordered, hw.emitted_eq_reference hwpk hwcoherent hordered]
  | false =>
    obtain ⟨horder, hwindow⟩ := Bool.or_eq_false_iff.1 hordered
    rw [Option.isSome_eq_false_iff, Option.isNone_iff_eq_none] at horder
    exact (hv.emitted_perm_occurrences hvpk hvcoherent horder hwindow).trans
      (hw.emitted_perm_occurrences hwpk hwcoherent horder hwindow).symm

end Index.Holds

end RecordStore
