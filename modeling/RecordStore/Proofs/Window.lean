import RecordStore.Query
import RecordStore.Window
/-!
# What a window lets through

`Window.admitted` is the part of a list that a window will let pass from the point it has come to:
what is left to skip is dropped, and what is left of the limit is taken. Offering a list to a window
puts exactly that part into the sink (`drain_eq`), although the walk ends at the record that fills
the window. For a fresh window the part is `Query.slice`.
-/

namespace RecordStore

namespace Visit

variable {σ α : Type}

/-- A visitor that passes over some items visits the others. -/
theorem list_filter (visit : σ → α → Visit σ) (keep : α → Bool) (as : List α) :
    list (fun s a => if keep a then visit s a else .more s) as = list visit (as.filter keep) := by
  induction as with
  | nil => rfl
  | cons a as ih =>
    funext s
    rw [list, ih, List.filter_cons]
    cases keep a <;> rfl

/-- A visitor that never ends the walk folds over the items. -/
theorem list_more (f : σ → α → σ) (as : List α) (s : σ) :
    list (fun s a => .more (f s a)) as s = .more (as.foldl f s) := by
  induction as generalizing s with
  | nil => rfl
  | cons a as ih => exact ih (f s a)

end Visit

/-- The part of a sorted list that a query takes. -/
def Query.slice {R : Type} (q : Query R) (records : List R) : List R :=
  match q.limit with
  | none => records.drop q.skip
  | some limit => (records.drop q.skip).take limit

namespace Window

variable {R S : Type} {w : Window}

/-- The part of a list that a window will let pass. -/
def admitted (w : Window) (records : List R) : List R :=
  match w.limit with
  | none => records.drop (w.skip - w.skipped)
  | some limit => (records.drop (w.skip - w.skipped)).take (limit - w.emitted)

@[simp] theorem admitted_nil (w : Window) : w.admitted ([] : List R) = [] := by
  unfold admitted
  split <;> simp

theorem admitted_of_isFull (h : w.isFull = true) (records : List R) : w.admitted records = [] := by
  unfold isFull at h
  cases hlimit : w.limit with
  | none => simp [hlimit] at h
  | some limit =>
    simp only [hlimit, decide_eq_true_eq] at h
    have hleft : limit - w.emitted = 0 := by omega
    simp only [admitted, hlimit, hleft, List.take_zero]

theorem admitted_cons (record : R) (records : List R) :
    w.admitted (record :: records) =
      (if w.passes then [record] else []) ++ w.advance.admitted records := by
  cases hfull : w.isFull with
  | true => simp [passes, advance, hfull, admitted_of_isFull hfull]
  | false =>
    by_cases hskip : w.skipped < w.skip
    · have hpasses : w.passes = false := by simp [passes, hfull]; omega
      have hleft : w.skip - w.skipped = w.skip - (w.skipped + 1) + 1 := by omega
      rw [hpasses, advance, hfull, if_neg Bool.false_ne_true, if_pos hskip]
      unfold admitted
      rw [hleft]
      cases w.limit <;> rfl
    · have hpasses : w.passes = true := by simp [passes, hfull]; omega
      have hleft : w.skip - w.skipped = 0 := by omega
      rw [hpasses, advance, hfull, if_neg Bool.false_ne_true, if_neg hskip]
      unfold admitted
      rw [hleft]
      cases hlimit : w.limit with
      | none => rfl
      | some limit =>
        simp only [isFull, hlimit, decide_eq_false_iff_not] at hfull
        have htake : limit - w.emitted = limit - (w.emitted + 1) + 1 := by omega
        dsimp only
        rw [htake]
        rfl

/-- A window puts into the sink what it admits, and nothing once it is full. -/
theorem list_offer (sink : Sink R S) (w : Window) (records : List R) (s : S) :
    (Visit.list (offer sink) records (w, s)).state.2 = (w.admitted records).foldl sink.put s := by
  induction records generalizing w s with
  | nil => simp [Visit.list, Visit.state]
  | cons record records ih =>
    have hput : (w.admitted (record :: records)).foldl sink.put s =
        (w.advance.admitted records).foldl sink.put
          (if w.passes then sink.put s record else s) := by
      rw [admitted_cons, List.foldl_append]
      cases w.passes <;> rfl
    rw [hput, Visit.list, offer]
    cases hfull : w.advance.isFull with
    | true =>
      rw [if_pos rfl, admitted_of_isFull hfull]
      rfl
    | false =>
      rw [if_neg Bool.false_ne_true]
      exact ih w.advance _

theorem drain_eq (w : Window) (sink : Sink R S) (records : List R) (s : S) :
    (w.drain sink records s).2 = (w.admitted records).foldl sink.put s :=
  list_offer sink w records s

/-- A fresh window admits the slice of the query that it is for. -/
theorem admitted_eq_slice (q : Query R) (records : List R) :
    admitted { skip := q.skip, limit := q.limit } records = q.slice records := rfl

end Window

theorem Query.slice_sublist {R : Type} (q : Query R) (records : List R) :
    (q.slice records).Sublist records := by
  unfold slice
  split
  · exact List.drop_sublist _ _
  · exact (List.take_sublist _ _).trans (List.drop_sublist _ _)

@[simp] theorem Query.slice_nil {R : Type} (q : Query R) : q.slice ([] : List R) = [] :=
  Window.admitted_nil { skip := q.skip, limit := q.limit }

/-- A query without a window takes the whole list. -/
theorem Query.slice_of_not_windowed {R : Type} {q : Query R} (h : q.isWindowed = false)
    (records : List R) : q.slice records = records := by
  obtain ⟨predicate, order, skip, limit⟩ := q
  simp only [isWindowed, Bool.or_eq_false_iff, decide_eq_false_iff_not, Nat.not_lt,
    Nat.le_zero_eq, Option.isSome_eq_false_iff, Option.isNone_iff_eq_none] at h
  obtain ⟨rfl, rfl⟩ := h
  rfl

end RecordStore
