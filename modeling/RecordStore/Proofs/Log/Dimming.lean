import RecordStore.Log.Logged
/-!
# Recording less

A `Dimming` is a way to record less of one and the same thing: under another threshold, or with the
reports of plans switched off. What it asks for is said of single reports only. A computation is
dimmed to another (`Dimming.Dims`) if the value of that one is a function of its own, and the
entries are those of its own that are kept. This goes through every computation that is put together
from reports (`Dims.pure`, `Dims.bind`, `Dims.foldlM`), so it says of any such computation that
nothing but its entries depends on what is recorded.

- `Dimming.coarser`: from the finest threshold to any other one.
- `Dimming.unplanned`: under one threshold, without the reports of plans.
-/

namespace RecordStore.Log

/-- Reports an event if a switch is on. -/
def reportIf (switch : Bool) (event : Event) (fields : Fields) : Logged Unit :=
  if switch then report event fields else pure ()

structure Dimming where
  before : Threshold
  after : Threshold
  /-- What becomes of the switch for reports of plans. -/
  plans : Bool → Bool
  /-- Which entries are kept. -/
  keep : Entry → Bool
  reported (event : Event) (fields : Fields) (h : event ≠ .queryPlanned) :
    ((report event fields).run after).2 = ((report event fields).run before).2.filter keep
  planned (switch : Bool) (fields : Fields) :
    ((reportIf (plans switch) .queryPlanned fields).run after).2 =
      ((reportIf switch .queryPlanned fields).run before).2.filter keep

/-! ## Two dimmings -/

theorem Threshold.admits_trace (severity : Severity) :
    Threshold.admits (some .trace) severity = true := by
  cases severity <;> rfl

theorem Logged.run_bind {α β : Type} (x : Logged α) (k : α → Logged β) (threshold : Threshold) :
    (x >>= k).run threshold =
      (((k (x.run threshold).1).run threshold).1,
        (x.run threshold).2 ++ ((k (x.run threshold).1).run threshold).2) := rfl

theorem run_report (event : Event) (fields : Fields) (threshold : Threshold) :
    (report event fields).run threshold =
      ((), if threshold.admits event.severity then
        [Entry.of event.severity event.name fields] else []) := rfl

theorem filter_report_trace (event : Event) (fields : Fields) (threshold : Threshold) :
    ((report event fields).run threshold).2 =
      ((report event fields).run (some .trace)).2.filter
        fun entry => threshold.admits entry.severity := by
  rw [run_report, run_report, Threshold.admits_trace, if_pos rfl, List.filter_cons,
    List.filter_nil]
  rfl

/-- From the finest threshold to another one, which keeps what it admits. -/
def Dimming.coarser (threshold : Threshold) : Dimming where
  before := some .trace
  after := threshold
  plans := id
  keep entry := threshold.admits entry.severity
  reported event fields _ := filter_report_trace event fields threshold
  planned switch fields := by
    cases switch with
    | true => exact filter_report_trace .queryPlanned fields threshold
    | false => rfl

theorem Event.name_eq_queryPlanned (event : Event) :
    event.name = Event.queryPlanned.name ↔ event = .queryPlanned := by
  cases event <;> decide

/-- Without the reports of plans, which are the only entries that go. -/
def Dimming.unplanned (threshold : Threshold) : Dimming where
  before := threshold
  after := threshold
  plans _ := false
  keep entry := entry.event ≠ Event.queryPlanned.name
  reported event fields h := by
    have hkept : event.name ≠ Event.queryPlanned.name := mt event.name_eq_queryPlanned.1 h
    rw [run_report]
    split
    · exact (List.filter_eq_self.2 (by simpa [Entry.of] using hkept)).symm
    · rfl
  planned switch fields := by
    cases switch with
    | true =>
      -- Nothing is reported any more, and what was reported is not kept.
      show [] = ((report .queryPlanned fields).run threshold).2.filter _
      rw [run_report]
      split <;> rfl
    | false => rfl

/-! ## Dimmed computations -/

namespace Dimming

variable {α β γ δ : Type} {d : Dimming}

/-- Whether a computation is dimmed to another, whose value is a function of its own. -/
def Dims (d : Dimming) (f : α → β) (x : Logged α) (y : Logged β) : Prop :=
  y.run d.after = (f (x.run d.before).1, (x.run d.before).2.filter d.keep)

namespace Dims

theorem pure (f : α → β) (a : α) : d.Dims f (pure a) (pure (f a)) := rfl

theorem bind {f : α → β} {g : γ → δ} {x : Logged α} {y : Logged β} {k : α → Logged γ}
    {k' : β → Logged δ} (hx : d.Dims f x y) (hk : ∀ a, d.Dims g (k a) (k' (f a))) :
    d.Dims g (x >>= k) (y >>= k') := by
  have hfirst : y.run d.after = (f (x.run d.before).1, (x.run d.before).2.filter d.keep) := hx
  have hsecond := hk (x.run d.before).1
  unfold Dims at hsecond ⊢
  rw [Logged.run_bind, Logged.run_bind, hfirst, hsecond, List.filter_append]

/-- A computation that ends with a value made of the value of another one. -/
theorem andReturn {f : α → β} {g : γ → δ} {x : Logged α} {y : Logged β} {h : α → γ} {h' : β → δ}
    (hx : d.Dims f x y) (hreturn : ∀ a, g (h a) = h' (f a)) :
    d.Dims g (do return h (← x)) (do return h' (← y)) := by
  apply hx.bind
  intro a
  rw [← hreturn]
  exact pure g (h a)

theorem report (event : Event) (fields : Fields) (h : event ≠ .queryPlanned) :
    d.Dims id (report event fields) (report event fields) :=
  Prod.ext rfl (d.reported event fields h)

theorem reportIf (switch : Bool) (fields : Fields) :
    d.Dims id (reportIf switch .queryPlanned fields)
      (reportIf (d.plans switch) .queryPlanned fields) :=
  Prod.ext rfl (d.planned switch fields)

theorem foldlM {f : α → β} {k : α → γ → Logged α} {k' : β → γ → Logged β}
    (hk : ∀ a c, d.Dims f (k a c) (k' (f a) c)) (cs : List γ) (a : α) :
    d.Dims f (cs.foldlM k a) (cs.foldlM k' (f a)) := by
  induction cs generalizing a with
  | nil => exact pure f a
  | cons c cs ih => exact (hk a c).bind ih

end Dims

end Dimming

/-! ## What is dimmed in every way -/

namespace Logged

variable {α β : Type}

/-- Whether the threshold has no part in the value of a computation, and only picks from what is
recorded under the finest one. So a coarser threshold picks from what is recorded under any finer
one. -/
structure Passive (x : Logged α) : Prop where
  value_eq (t t' : Threshold) : (x.run t).1 = (x.run t').1
  entries_eq (t : Threshold) :
    (x.run t).2 = (x.run (some .trace)).2.filter fun entry => t.admits entry.severity
  entries_eq_of_coarser (coarse fine : Threshold)
      (h : ∀ severity, coarse.admits severity = true → fine.admits severity = true) :
    (x.run coarse).2 = (x.run fine).2.filter fun entry => coarse.admits entry.severity

/-- Whether a computation is another one without its reports of plans, under every threshold. -/
structure LosesPlans (f : α → β) (x : Logged α) (y : Logged β) : Prop where
  value_eq (t : Threshold) : (y.run t).1 = f (x.run t).1
  entries_eq (t : Threshold) :
    (y.run t).2 = (x.run t).2.filter fun entry => entry.event ≠ Event.queryPlanned.name

theorem passive_of_dims {f : α → α} {x : Logged α}
    (h : ∀ t, (Dimming.coarser t).Dims f x x) : x.Passive where
  value_eq t t' := by
    have hvalue (t) : (x.run t).1 = f (x.run (some .trace)).1 := congrArg Prod.fst (h t)
    rw [hvalue t, hvalue t']
  entries_eq t := congrArg Prod.snd (h t)
  entries_eq_of_coarser coarse fine hcoarser := by
    have hentries (t : Threshold) :
        (x.run t).2 = (x.run (some .trace)).2.filter fun entry => t.admits entry.severity :=
      congrArg Prod.snd (h t)
    rw [hentries coarse, hentries fine, List.filter_filter]
    apply List.filter_congr
    intro entry _
    cases hadmits : coarse.admits entry.severity with
    | true => rw [hcoarser _ hadmits, Bool.and_self]
    | false => rw [Bool.false_and]

theorem losesPlans_of_dims {f : α → β} {x : Logged α} {y : Logged β}
    (h : ∀ t, (Dimming.unplanned t).Dims f x y) : x.LosesPlans f y where
  value_eq t := congrArg Prod.fst (h t)
  entries_eq t := congrArg Prod.snd (h t)

end Logged

end RecordStore.Log
