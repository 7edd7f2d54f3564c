/-!
# Visitors

A visitor takes the records of a walk one by one, carries a state, and may end the walk. A walk over
any container is pinned down by the list of what it would visit: `Visit.list` is the walk over a
list.
-/

namespace RecordStore

/-- What a visitor answers to a record: its new state, and whether it wants another one. -/
inductive Visit (σ : Type) where
  | more (state : σ)
  | done (state : σ)
  deriving DecidableEq

namespace Visit

variable {σ α : Type}

def state : Visit σ → σ
  | .more s => s
  | .done s => s

def isDone : Visit σ → Bool
  | .more _ => false
  | .done _ => true

/-- Goes on with the rest of a walk unless it has ended. -/
def andThen (v : Visit σ) (next : σ → Visit σ) : Visit σ :=
  match v with
  | .more s => next s
  | .done s => .done s

/-- Visits the items of a list in turn. -/
def list (visit : σ → α → Visit σ) : List α → σ → Visit σ
  | [], s => .more s
  | a :: rest, s => (visit s a).andThen (list visit rest)

@[simp] theorem andThen_more (s : σ) (next : σ → Visit σ) : (more s).andThen next = next s := rfl

@[simp] theorem andThen_done (s : σ) (next : σ → Visit σ) : (done s).andThen next = done s := rfl

theorem andThen_assoc (v : Visit σ) (f g : σ → Visit σ) :
    (v.andThen f).andThen g = v.andThen fun s => (f s).andThen g := by
  cases v <;> rfl

@[simp] theorem andThen_pure (v : Visit σ) : v.andThen more = v := by
  cases v <;> rfl

/-- A walk over two lists is the walk over the first, then over the second. -/
theorem list_append (visit : σ → α → Visit σ) (as bs : List α) :
    list visit (as ++ bs) = fun s => (list visit as s).andThen (list visit bs) := by
  induction as with
  | nil => rfl
  | cons a as ih =>
    funext s
    rw [List.cons_append, list, list, andThen_assoc, ih]

end Visit

end RecordStore
