import RecordStore.KeyRange
/-!
# Balanced trees

A persistent height-balanced search tree from keys to tails. A tail is whatever a node holds under
its key, and stands for a number of records, its weight. Each node caches the height of its subtree
and the number of records in it, so ranges are counted along two paths.
-/

namespace RecordStore

/-- Values that stand for a number of records. -/
class Weighted (T : Type) where
  weight : T → Nat

export Weighted (weight)

inductive Tree (T : Type) where
  | leaf
  | node (key : Key) (tail : T) (left right : Tree T) (height size : Nat)

namespace Tree

variable {T : Type}

def height : Tree T → Nat
  | leaf => 0
  | node _ _ _ _ h _ => h

/-- The number of records in the tree. -/
def size : Tree T → Nat
  | leaf => 0
  | node _ _ _ _ _ n => n

/-- The keys with their tails, in key order. -/
def toList : Tree T → List (Key × T)
  | leaf => []
  | node k t l r _ _ => l.toList ++ (k, t) :: r.toList

/-- The number of distinct keys. -/
def keyCount : Tree T → Nat
  | leaf => 0
  | node _ _ l r _ _ => 1 + l.keyCount + r.keyCount

/-! ## Reading -/

/-- The subtree whose root has the key, a leaf if there is none. -/
def subtree (key : Key) : Tree T → Tree T
  | leaf => leaf
  | node k t l r h n =>
    match compare key k with
    | .lt => l.subtree key
    | .gt => r.subtree key
    | .eq => node k t l r h n

/-- The tail of the root. -/
def rootTail? : Tree T → Option T
  | leaf => none
  | node _ t _ _ _ _ => some t

/-- The tail under a key. -/
def get? (key : Key) (t : Tree T) : Option T :=
  (t.subtree key).rootTail?

/-- The first result of a function on the tails, in key order. -/
def findSome? {α : Type} (f : T → Option α) : Tree T → Option α
  | leaf => none
  | node _ t l r _ _ => (l.findSome? f).or ((f t).or (r.findSome? f))

/-- The number of records whose key comes before a cut in the key order. -/
def countBefore [Weighted T] (before : Key → Bool) : Tree T → Nat
  | leaf => 0
  | node k t l r _ _ =>
    if before k then l.size + weight t + r.countBefore before else l.countBefore before

/-- The number of records below a range. -/
def countBelow [Weighted T] (t : Tree T) : Bound → Nat
  | .unbounded => 0
  | .included k => t.countBefore (· < k)
  | .excluded k => t.countBefore (· ≤ k)

/-- The number of records that are not above a range. -/
def countUpTo [Weighted T] (t : Tree T) : Bound → Nat
  | .unbounded => t.size
  | .included k => t.countBefore (· ≤ k)
  | .excluded k => t.countBefore (· < k)

/-- The number of records whose key lies in a range. -/
def countRange [Weighted T] (t : Tree T) (range : KeyRange) : Nat :=
  t.countUpTo range.upper - t.countBelow range.lower

/-! ## Writing -/

/-- A node over two subtrees, with its height and size. -/
def join [Weighted T] (k : Key) (t : T) (l r : Tree T) : Tree T :=
  node k t l r (1 + max l.height r.height) (weight t + l.size + r.size)

/-- A node over two subtrees whose heights differ by at most two, rotated if they differ by two. A
single rotation lifts the outer grandchild when it is at least as high as the inner one, a double
one lifts the inner grandchild otherwise. -/
def balance [Weighted T] (k : Key) (t : T) (l r : Tree T) : Tree T :=
  if r.height + 1 < l.height then
    match l with
    | node lk lt ll lr _ _ =>
      if lr.height ≤ ll.height then join lk lt ll (join k t lr r)
      else
        match lr with
        | node lrk lrt lrl lrr _ _ => join lrk lrt (join lk lt ll lrl) (join k t lrr r)
        | leaf => join k t l r
    | leaf => join k t l r
  else if l.height + 1 < r.height then
    match r with
    | node rk rt rl rr _ _ =>
      if rl.height ≤ rr.height then join rk rt (join k t l rl) rr
      else
        match rl with
        | node rlk rlt rll rlr _ _ => join rlk rlt (join k t l rll) (join rk rt rlr rr)
        | leaf => join k t l r
    | leaf => join k t l r
  else join k t l r

/-- Puts `write` of the present tail, if there is one, under a key. -/
def upsert [Weighted T] (key : Key) (write : Option T → T) : Tree T → Tree T
  | leaf => join key (write none) leaf leaf
  | node k t l r _ _ =>
    match compare key k with
    | .lt => balance k t (l.upsert key write) r
    | .gt => balance k t l (r.upsert key write)
    | .eq => join k (write (some t)) l r

/-- Takes the first node out of a nonempty tree, which is given as its root: its key and tail, and
the rest. -/
def takeMin [Weighted T] (k : Key) (t : T) (l r : Tree T) : (Key × T) × Tree T :=
  match l with
  | leaf => ((k, t), r)
  | node lk lt ll lr _ _ =>
    let (first, rest) := takeMin lk lt ll lr
    (first, balance k t rest r)

/-- One tree of two whose heights differ by at most one, all keys of the first below those of the
second. -/
def merge [Weighted T] (l r : Tree T) : Tree T :=
  match l, r with
  | leaf, r => r
  | l, leaf => l
  | l, node rk rt rl rr _ _ =>
    let ((k, t), rest) := takeMin rk rt rl rr
    balance k t l rest

/-- Applies `shrink` to the tail under a key, and drops the node if nothing is left of it. -/
def erase [Weighted T] (key : Key) (shrink : T → T) : Tree T → Tree T
  | leaf => leaf
  | node k t l r _ _ =>
    match compare key k with
    | .lt => balance k t (l.erase key shrink) r
    | .gt => balance k t l (r.erase key shrink)
    | .eq =>
      let rest := shrink t
      if weight rest = 0 then merge l r else join k rest l r

/-! ## Writing keeps the order of the nodes -/

section

variable [Weighted T]

@[simp] theorem toList_join (k : Key) (t : T) (l r : Tree T) :
    (join k t l r).toList = l.toList ++ (k, t) :: r.toList := rfl

@[simp] theorem toList_balance (k : Key) (t : T) (l r : Tree T) :
    (balance k t l r).toList = l.toList ++ (k, t) :: r.toList := by
  fun_cases balance k t l r <;> simp [toList]

/-- The first node and the rest are the whole tree. -/
theorem toList_takeMin (k : Key) (t : T) (l r : Tree T) :
    (takeMin k t l r).1 :: (takeMin k t l r).2.toList = l.toList ++ (k, t) :: r.toList := by
  fun_induction takeMin k t l r with
  | case1 => rfl
  | case2 k t r lk lt ll lr _ _ first rest h ih =>
    rw [h] at ih
    simp [toList, ← ih]

@[simp] theorem toList_merge (l r : Tree T) : (merge l r).toList = l.toList ++ r.toList := by
  fun_cases merge l r with
  | case1 => rfl
  | case2 => simp [toList]
  | case3 l rk rt rl rr _ _ _ k t rest h =>
    have := toList_takeMin rk rt rl rr
    rw [h] at this
    simp [toList, ← this]

end

end Tree

end RecordStore
