import RecordStore.Proofs.Index.Updates
import RecordStore.Proofs.Index.Walk
/-!
# What a walk shows to its visitor

A range walk shows its visitor the records in range, one after the other in the order of the keys or
against it, and ends with the record at which the visitor has had enough, however deep in the tails
that record lies (`walkRange_shows`). `Visit.recording` notes down what a visitor is shown, and
`Visit.Takes` says that a visitor takes the items of a list without ending the walk.
-/

namespace RecordStore

namespace Visit

variable {σ α : Type} {visit : σ → α → Visit σ} {s next last : σ} {as : List α} {a : α}

/-- The visitor that notes down, beside its own state, each item that it is shown. -/
def recording (visit : σ → α → Visit σ) (s : σ × List α) (a : α) : Visit (σ × List α) :=
  match visit s.1 a with
  | more next => more (next, s.2 ++ [a])
  | done last => done (last, s.2 ++ [a])

/-- Whether a visitor takes the items of a list in turn and wants more after each of them. -/
inductive Takes (visit : σ → α → Visit σ) : σ → List α → σ → Prop where
  | nil (s : σ) : Takes visit s [] s
  | cons {s next last : σ} {a : α} {rest : List α} :
      visit s a = more next → Takes visit next rest last → Takes visit s (a :: rest) last

namespace Takes

theorem list_append (h : Takes visit s as last) (bs : List α) :
    list visit (as ++ bs) s = list visit bs last := by
  induction h with
  | nil s => rfl
  | cons hmore _ ih =>
    rw [List.cons_append, list, hmore, andThen_more]
    exact ih

theorem list_eq (h : Takes visit s as last) : list visit as s = more last := by
  have hall := h.list_append []
  rw [List.append_nil] at hall
  exact hall

/-- The walk over a list ends with the first item after which the visitor wants no more. -/
theorem list_stop (h : Takes visit s as next) (hdone : visit next a = done last) (bs : List α) :
    list visit (as ++ a :: bs) s = done last := by
  rw [h.list_append, list, hdone, andThen_done]

theorem recorded (h : Takes visit s as last) (seen : List α) :
    Takes (recording visit) (s, seen) as (last, seen ++ as) := by
  induction h generalizing seen with
  | nil s => rw [List.append_nil]; exact .nil _
  | @cons s next last a rest hmore _ ih =>
    have hrest := ih (seen ++ [a])
    rw [List.append_assoc] at hrest
    exact .cons (by rw [recording, hmore]) hrest

end Takes

theorem recording_done (hdone : visit next a = done last) (seen : List α) :
    recording visit (next, seen) a = done (last, seen ++ [a]) := by
  rw [recording, hdone]

end Visit

namespace Index

variable {R σ : Type}

/-- The records of a chain whose first key lies in a range. -/
theorem within_chain (ps : List (Property R)) (pk : Property R) {s : State R}
    (hs : (chain ps pk).Laid s) (range : KeyRange) :
    s.within range = s.records.filter fun record => range.contains ((ps.headD pk).get record) := by
  cases ps with
  | nil => exact within_eq_filter hs range
  | cons p ps => exact within_eq_filter hs range

open Visit in
/-- A walk over a range of whatever has been written to a chain shows every visitor the records
whose first key lies in the range, in their order or in the reverse of it: all of them if the
visitor takes them all, and otherwise those up to the first one, itself included, after which the
visitor wants no more. -/
theorem walkRange_shows (pk : Property R) (ps : List (Property R)) (writes : List (Write R))
    (range : KeyRange) (direction : Direction) (visit : σ → R → Visit σ) (s : σ) :
    let state := (chain ps pk).written writes
    let inRange := direction.arrange
      (state.records.filter fun record => range.contains ((ps.headD pk).get record))
    (∀ last, Takes visit s inRange last →
        state.walkRange direction range visit s = .more last ∧
        state.walkRange direction range (recording visit) (s, []) = .more (last, inRange)) ∧
      ∀ (j : Nat) (record : R) (next last : σ), inRange[j]? = some record →
        Takes visit s (inRange.take j) next → visit next record = .done last →
        state.walkRange direction range visit s = .done last ∧
        state.walkRange direction range (recording visit) (s, []) =
          .done (last, inRange.take (j + 1)) := by
  intro state inRange
  have hlaid : (chain ps pk).Laid state := laid_written (chained_chain pk ps).layered writes
  have hwalk {τ : Type} (visit : τ → R → Visit τ) (s : τ) :
      state.walkRange direction range visit s = Visit.list visit inRange s := by
    rw [State.walkRange_eq direction range visit hlaid.ordered_root, within_chain ps pk hlaid]
  constructor
  · intro last htakes
    rw [hwalk, hwalk]
    exact ⟨htakes.list_eq, (htakes.recorded []).list_eq⟩
  · intro j record next last hj htakes hdone
    obtain ⟨hlt, rfl⟩ := List.getElem?_eq_some_iff.1 hj
    have hsplit : inRange = inRange.take j ++ inRange[j] :: inRange.drop (j + 1) := by
      rw [← List.drop_eq_getElem_cons hlt, List.take_append_drop]
    have hshown : inRange.take (j + 1) = inRange.take j ++ [inRange[j]] :=
      List.take_succ_eq_append_getElem hlt
    have hplain := htakes.list_stop hdone (inRange.drop (j + 1))
    have hrecorded := (htakes.recorded []).list_stop (recording_done hdone _) (inRange.drop (j + 1))
    rw [← hsplit] at hplain hrecorded
    rw [hwalk, hwalk, hshown]
    exact ⟨hplain, hrecorded⟩

namespace House

/-- Houses in three districts. -/
def settled : List (Write House) :=
  [.put ⟨1, 2, 30⟩, .put ⟨2, 1, 50⟩, .put ⟨1, 2, 10⟩, .put ⟨1, 7, 20⟩, .put ⟨0, 4, 40⟩, .remove ⟨1, 2, 10⟩,
    .put ⟨1, 2, 15⟩]

/-- The range of one district: above the one before it. -/
def districtRange (d : Int) : KeyRange :=
  ⟨.excluded (.int (d - 1)), .included (.int d)⟩

/-- The houses of one district. -/
def housesIn (d : Int) : List House :=
  ((chain places houseNumber).written settled).records.filter fun house =>
    (districtRange d).contains ((places.headD houseNumber).get house)

/-- Counts houses up to the one with the number 30. -/
def countTo30 (count : Nat) (house : House) : Visit Nat :=
  if house.number = 30 then .done count else .more (count + 1)

open Visit in
/-- The walk over one district goes to its end; against the order, that over another one ends in the
middle of a street. -/
theorem walkRange_shows_settled :
    (Takes countTo30 0 (Direction.asc.arrange (housesIn 2)) 1 ∧
      ((chain places houseNumber).written settled).walkRange .asc (districtRange 2)
        (recording countTo30) (0, []) = .more (1, [⟨2, 1, 50⟩])) ∧
      (Direction.desc.arrange (housesIn 1))[1]? = some ⟨1, 2, 30⟩ ∧
      Takes countTo30 0 ((Direction.desc.arrange (housesIn 1)).take 1) 1 ∧
      countTo30 1 ⟨1, 2, 30⟩ = .done 1 ∧
      ((chain places houseNumber).written settled).walkRange .desc (districtRange 1)
        (recording countTo30) (0, []) = .done (1, [⟨1, 7, 20⟩, ⟨1, 2, 30⟩]) := by
  have hsecond : Direction.asc.arrange (housesIn 2) = [⟨2, 1, 50⟩] := by decide +kernel
  have hfirst : Direction.desc.arrange (housesIn 1) = [⟨1, 7, 20⟩, ⟨1, 2, 30⟩, ⟨1, 2, 15⟩] := by
    decide +kernel
  have hall : Takes countTo30 0 (Direction.asc.arrange (housesIn 2)) 1 := by
    rw [hsecond]
    exact .cons rfl (.nil 1)
  have hsome : Takes countTo30 0 ((Direction.desc.arrange (housesIn 1)).take 1) 1 := by
    rw [hfirst]
    exact .cons rfl (.nil 1)
  have hthird : (Direction.desc.arrange (housesIn 1))[1]? = some ⟨1, 2, 30⟩ := by rw [hfirst]; rfl
  have hwhole :=
    ((walkRange_shows houseNumber places settled (districtRange 2) .asc countTo30 0).1 1 hall).2
  have hpart := ((walkRange_shows houseNumber places settled (districtRange 1) .desc countTo30 0).2 1
    ⟨1, 2, 30⟩ 1 1 hthird hsome rfl).2
  refine ⟨⟨hall, hwhole.trans ?_⟩, hthird, hsome, rfl, hpart.trans ?_⟩
  · exact congrArg (fun shown => Visit.more (1, shown)) hsecond
  · exact congrArg (fun shown => Visit.done (1, shown.take 2)) hfirst

end House

end Index

end RecordStore
