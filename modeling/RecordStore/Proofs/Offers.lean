import RecordStore.Proofs.Index.Visits
import RecordStore.Proofs.Window
/-!
# Offers to a window

What a window does with a sequence of offers, those after a break included (`Window.offerAll`), told
by the list that has been offered: the records that reach the sink, what the counters stand at, and
which offers are answered with a break (`Window.drops_then_takes`). A drain makes the offers up to
the first break only, and leaves everything as if it had made them all, because a full window stays
as it is.

`Window.Fits` is what every offer keeps of the counters. No offer moves them by more than one, so
neither goes beyond the number of offers.
-/

namespace RecordStore

namespace Visit

variable {σ α : Type}

/-- What a walk over a list shows to its visitor is a part of the list from its start: an item is in
it exactly if the visitor wanted more after each item before it. -/
theorem list_recording (visit : σ → α → Visit σ) (as : List α) (s : σ) (seen : List α) :
    ∃ shown, (list (recording visit) as (s, seen)).state = ((list visit as s).state, seen ++ shown) ∧
      shown <+: as ∧
      ∀ before a after, as = before ++ a :: after →
        (before ++ [a] <+: shown ↔ ∃ next, Takes visit s before next) := by
  induction as generalizing s seen with
  | nil => exact ⟨[], by simp [list, state], List.prefix_rfl, by simp⟩
  | cons x rest ih =>
    cases hx : visit s x with
    | done last =>
      refine ⟨[x], by simp [list, recording, hx, state], ⟨rest, rfl⟩, fun before a after hsplit => ?_⟩
      cases before with
      | nil =>
        obtain ⟨rfl, -⟩ := List.cons.inj hsplit
        exact iff_of_true List.prefix_rfl ⟨s, .nil s⟩
      | cons y before =>
        obtain ⟨rfl, -⟩ := List.cons.inj hsplit
        refine iff_of_false (fun hshown => by simpa using hshown.length_le) ?_
        rintro ⟨next, htakes⟩
        cases htakes with
        | cons hmore _ => cases hx.symm.trans hmore
    | more next =>
      obtain ⟨shown, hlist, hprefix, hwanted⟩ := ih next (seen ++ [x])
      rw [List.append_assoc] at hlist
      refine ⟨x :: shown, by simpa [list, recording, hx] using hlist,
        (List.prefix_cons_inj x).2 hprefix, fun before a after hsplit => ?_⟩
      cases before with
      | nil =>
        obtain ⟨rfl, -⟩ := List.cons.inj hsplit
        exact iff_of_true ⟨shown, rfl⟩ ⟨s, .nil s⟩
      | cons y before =>
        obtain ⟨rfl, hrest⟩ := List.cons.inj hsplit
        rw [List.cons_append, List.prefix_cons_inj, hwanted before a after hrest]
        constructor
        · rintro ⟨last, htakes⟩
          exact ⟨last, .cons hx htakes⟩
        · rintro ⟨last, htakes⟩
          cases htakes with
          | cons hmore htakes =>
            cases hx.symm.trans hmore
            exact ⟨last, htakes⟩

end Visit

namespace Window

variable {R S : Type} {w : Window}

/-- Offers every record of a list, also those after a break. -/
def offerAll (w : Window) (sink : Sink R S) (records : List R) (s : S) : Window × S :=
  records.foldl (fun s record => (offer sink s record).state) (w, s)

/-- The records that a drain offers before it stops. -/
def offered (w : Window) (sink : Sink R S) (records : List R) (s : S) : List R :=
  (Visit.list (Visit.recording (offer sink)) records ((w, s), [])).state.2

/-! ## One offer -/

theorem state_offer (sink : Sink R S) (w : Window) (s : S) (record : R) :
    (offer sink (w, s) record).state =
      (w.advance, if w.passes then sink.put s record else s) := by
  unfold offer
  dsimp only
  split <;> rfl

theorem isDone_offer (sink : Sink R S) (w : Window) (s : S) (record : R) :
    (offer sink (w, s) record).isDone = w.advance.isFull := by
  unfold offer
  dsimp only
  cases w.advance.isFull <;> rfl

theorem advance_of_isFull (h : w.isFull = true) : w.advance = w :=
  if_pos h

theorem emitted_advance (w : Window) :
    w.advance.emitted = w.emitted + if w.passes then 1 else 0 := by
  unfold advance passes
  cases w.isFull with
  | true => rfl
  | false =>
    by_cases hskip : w.skipped < w.skip
    · simp [hskip]
    · simp [hskip, Nat.le_of_not_lt hskip]

/-- What the counters of a window keep to. -/
structure Fits (skip : Nat) (limit : Option Nat) (offers : Nat) (w : Window) : Prop where
  skip_eq : w.skip = skip
  limit_eq : w.limit = limit
  skipped_le : w.skipped ≤ skip
  emitted_le (most : Nat) (h : limit = some most) : w.emitted ≤ most
  count_le : w.skipped + w.emitted ≤ offers

namespace Fits

variable {skip offers : Nat} {limit : Option Nat}

theorem start (skip : Nat) (limit : Option Nat) :
    ({ skip, limit } : Window).Fits skip limit 0 where
  skip_eq := rfl
  limit_eq := rfl
  skipped_le := Nat.zero_le skip
  emitted_le most _ := Nat.zero_le most
  count_le := Nat.le_refl 0

theorem isFull_iff (h : w.Fits skip limit offers) : w.isFull = true ↔ limit = some w.emitted := by
  unfold isFull
  rw [h.limit_eq]
  cases hlimit : limit with
  | none => simp
  | some most =>
    have hle := h.emitted_le most hlimit
    simp only [decide_eq_true_eq, Option.some.injEq]
    omega

theorem advance (h : w.Fits skip limit offers) : w.advance.Fits skip limit (offers + 1) := by
  unfold Window.advance
  split
  · exact { h with count_le := Nat.le_succ_of_le h.count_le }
  · next hfull =>
    rw [h.isFull_iff] at hfull
    split
    · next hskip =>
      have hskipped : w.skipped + 1 ≤ skip := h.skip_eq ▸ hskip
      have hcount : w.skipped + 1 + w.emitted ≤ offers + 1 := by
        have := h.count_le
        omega
      exact { h with skipped_le := hskipped, count_le := hcount }
    · refine { h with emitted_le := fun most hmost => ?_, count_le := Nat.succ_le_succ h.count_le }
      -- A window that is not full has a place left.
      have hle := h.emitted_le most hmost
      have hne : most ≠ w.emitted := fun e => hfull (e ▸ hmost)
      show w.emitted + 1 ≤ most
      omega

end Fits

/-! ## A sequence of offers -/

theorem offerAll_cons (w : Window) (sink : Sink R S) (record : R) (records : List R) (s : S) :
    w.offerAll sink (record :: records) s =
      w.advance.offerAll sink records (if w.passes then sink.put s record else s) := by
  rw [offerAll, List.foldl_cons, state_offer]
  rfl

theorem offerAll_append_singleton (w : Window) (sink : Sink R S) (records : List R) (record : R)
    (s : S) : w.offerAll sink (records ++ [record]) s =
      (offer sink (w.offerAll sink records s) record).state := by
  rw [offerAll, List.foldl_append]
  rfl

theorem Fits.offerAll {skip offers : Nat} {limit : Option Nat} (h : w.Fits skip limit offers)
    (sink : Sink R S) (records : List R) (s : S) :
    (w.offerAll sink records s).1.Fits skip limit (offers + records.length) := by
  induction records generalizing w s offers with
  | nil => exact h
  | cons record records ih =>
    rw [offerAll_cons, List.length_cons, Nat.add_comm records.length, ← Nat.add_assoc]
    exact ih h.advance _

/-- All offers together put into the sink what the window admits. -/
theorem offerAll_sink (w : Window) (sink : Sink R S) (records : List R) (s : S) :
    (w.offerAll sink records s).2 = (w.admitted records).foldl sink.put s := by
  induction records generalizing w s with
  | nil => rw [admitted_nil]; rfl
  | cons record records ih =>
    rw [offerAll_cons, ih, admitted_cons, List.foldl_append]
    cases w.passes <;> rfl

theorem emitted_offerAll (w : Window) (sink : Sink R S) (records : List R) (s : S) :
    (w.offerAll sink records s).1.emitted = w.emitted + (w.admitted records).length := by
  induction records generalizing w s with
  | nil => rw [admitted_nil]; rfl
  | cons record records ih =>
    rw [offerAll_cons, ih, admitted_cons, emitted_advance, List.length_append, Nat.add_assoc]
    cases w.passes <;> rfl

/-- Offers to a full window change nothing. -/
theorem offerAll_of_isFull (h : w.isFull = true) (sink : Sink R S) (records : List R) (s : S) :
    w.offerAll sink records s = (w, s) := by
  induction records with
  | nil => rfl
  | cons record records ih =>
    have hpasses : w.passes = false := by simp [passes, h]
    rw [offerAll_cons, advance_of_isFull h, hpasses]
    exact ih

/-- A drain stops early and has the same effect as all offers together. -/
theorem drain_eq_offerAll (w : Window) (sink : Sink R S) (records : List R) (s : S) :
    w.drain sink records s = w.offerAll sink records s := by
  unfold drain
  induction records generalizing w s with
  | nil => rfl
  | cons record records ih =>
    rw [offerAll_cons, Visit.list, offer]
    cases hfull : w.advance.isFull with
    | true =>
      rw [offerAll_of_isFull hfull]
      rfl
    | false => exact ih w.advance _

theorem offered_prefix (w : Window) (sink : Sink R S) (records : List R) (s : S) :
    w.offered sink records s <+: records := by
  obtain ⟨shown, hstate, hprefix, -⟩ := Visit.list_recording (offer sink) records (w, s) []
  rw [offered, hstate]
  exact hprefix

/-- A drain makes the offers that no break comes before. -/
theorem offered_iff (w : Window) (sink : Sink R S) (before : List R) (record : R) (after : List R)
    (s : S) : before ++ [record] <+: w.offered sink (before ++ record :: after) s ↔
      ∃ next, Visit.Takes (offer sink) (w, s) before next := by
  obtain ⟨shown, hstate, -, hwanted⟩ :=
    Visit.list_recording (offer sink) (before ++ record :: after) (w, s) []
  rw [offered, hstate]
  exact hwanted before record after rfl

/-- A fresh window drops and then takes: whatever has been offered to it, breaks or not, the sink
has been given what is left of it beyond the first `skip` records, up to `limit` of them. An offer
is answered with a break exactly if as many records have got through with it as the limit says. The
counters never exceed what they count up to, nor the number of offers, and the window is full
exactly when its limit has been reached. A drain makes each offer for which no earlier one has been
answered with a break, and it leaves the window and the sink as the offers of the whole list do. -/
theorem drops_then_takes (skip : Nat) (limit : Option Nat) (sink : Sink R S) (records : List R)
    (s : S) :
    let w : Window := { skip, limit }
    let taken (records : List R) := ({ skip, limit } : Query R).slice records
    let reached := w.offerAll sink records s
    reached.2 = (taken records).foldl sink.put s ∧
      (∀ record, (offer sink reached record).isDone = true ↔
        limit = some (taken (records ++ [record])).length) ∧
      reached.1.Fits skip limit records.length ∧
      (reached.1.isFull = true ↔ limit = some reached.1.emitted) ∧
      w.drain sink records s = reached ∧
      w.offered sink records s <+: records ∧
      ∀ before record after, before ++ [record] <+: w.offered sink (before ++ record :: after) s ↔
        ∃ next, Visit.Takes (offer sink) (w, s) before next := by
  intro w taken reached
  have hfits (records : List R) : (w.offerAll sink records s).1.Fits skip limit records.length := by
    rw [← Nat.zero_add records.length]
    exact (Fits.start skip limit).offerAll sink records s
  have hemitted (records : List R) :
      (w.offerAll sink records s).1.emitted = (taken records).length := by
    rw [emitted_offerAll]
    exact Nat.zero_add _
  refine ⟨w.offerAll_sink sink records s, fun record => ?_, hfits records, (hfits records).isFull_iff,
    w.drain_eq_offerAll sink records s, w.offered_prefix sink records s,
    fun before record after => w.offered_iff sink before record after s⟩
  rw [isDone_offer, ← hemitted (records ++ [record]), ← (hfits (records ++ [record])).isFull_iff,
    offerAll_append_singleton, state_offer]

end Window

end RecordStore
