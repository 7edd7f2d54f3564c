import RecordStore.Proofs.Json.Tokens
/-!
# A written value is read back

Reading what has been written gives the same value, with its strings in the form `Value.reread` in
which they are read (`parse?_render`). The scanner has found the tokens of the value
(`tokens?_write`); the builder makes of them the value again, and puts it where it belongs among the
containers that are open (`builds_of_textual`).
-/

namespace RecordStore.Json

namespace Value

mutual

/-- What is read where a value has been written. -/
def reread : Value → Value
  | .null => .null
  | .bool b => .bool b
  | .number n => .number n
  | .string units => .string (units.map Piece.reread)
  | .array items => .array (rereadItems items)
  | .object members => .object (rereadMembers members)

def rereadItems : List Value → List Value
  | [] => []
  | item :: rest => reread item :: rereadItems rest

def rereadMembers : List (List Piece × Value) → List (List Piece × Value)
  | [] => []
  | (name, value) :: rest => (name.map Piece.reread, reread value) :: rereadMembers rest

end

@[simp] theorem rereadItems_eq (items : List Value) : rereadItems items = items.map reread := by
  induction items with
  | nil => rfl
  | cons item rest ih => rw [rereadItems, List.map_cons, ih]

@[simp] theorem rereadMembers_eq (members : List (List Piece × Value)) :
    rereadMembers members = members.map fun (name, value) => (name.map Piece.reread, reread value) := by
  induction members with
  | nil => rfl
  | cons member rest ih => rw [rereadMembers, List.map_cons, ih]

end Value

namespace Builder

open Value

variable {e : Expected} {stack : List Frame} {ts : List Token}

/-- Reads tokens in turn. -/
def feed (b : Builder) (ts : List Token) : Option Builder :=
  ts.foldlM step b

theorem feed_cons (b : Builder) (t : Token) (ts : List Token) :
    b.feed (t :: ts) = (b.step t).bind (·.feed ts) := by
  unfold feed
  rw [List.foldlM_cons]
  rfl

theorem feed_of_step {b b' : Builder} {t : Token} (h : b.step t = some b') (ts : List Token) :
    b.feed (t :: ts) = b'.feed ts := by
  rw [feed_cons, h, Option.bind_some]

/-- Whether the tokens of a value make the value, wherever one may stand. -/
def Builds (v : Value) : Prop :=
  ∀ {e : Expected} (stack : List Frame) (ts : List Token), e = .value ∨ e = .itemOrClose →
    feed ⟨e, stack⟩ (v.tokens ++ ts) = (complete v.reread stack).bind (·.feed ts)

theorem builds_scalar {v : Value} (htokens : v.tokens = [.scalar v.reread]) : Builds v := by
  intro e stack ts he
  rw [htokens, List.singleton_append, feed_cons]
  rcases he with rfl | rfl <;> rfl

/-- The items of an array are put into it in turn. -/
theorem feed_items {items : List Value} (each : ∀ item ∈ items, Builds item) (hne : items ≠ [])
    (he : e = .value ∨ e = .itemOrClose) (seen : List Value) :
    feed ⟨e, .array seen :: stack⟩ (tokensOfItems items ++ ts) =
      feed ⟨.commaOrClose, .array ((items.map reread).reverse ++ seen) :: stack⟩ ts := by
  induction items generalizing e seen with
  | nil => exact absurd rfl hne
  | cons item items ih =>
    have hitem : Builds item := each item List.mem_cons_self
    have hput : complete item.reread (.array seen :: stack) =
        some ⟨.commaOrClose, .array (item.reread :: seen) :: stack⟩ := rfl
    cases items with
    | nil =>
      rw [tokensOfItems, hitem _ _ he, hput, Option.bind_some]
      rfl
    | cons next items =>
      have hitems := ih (fun later hlater => each later (List.mem_cons_of_mem item hlater))
        (List.cons_ne_nil _ _) (e := .value) (.inl rfl) (item.reread :: seen)
      rw [tokensOfItems, List.append_assoc, List.cons_append, hitem _ _ he, hput, Option.bind_some,
        feed_of_step rfl, hitems]
      simp

/-- The members of an object are put into it in turn. -/
theorem feed_members {members : List (List Piece × Value)}
    (each : ∀ member ∈ members, Builds member.2) (hne : members ≠ [])
    (he : e = .name ∨ e = .nameOrClose) (seen : List (List Piece × Value)) :
    feed ⟨e, .object seen :: stack⟩ (tokensOfMembers members ++ ts) =
      feed ⟨.commaOrClose, .object ((rereadMembers members).reverse ++ seen) :: stack⟩ ts := by
  induction members generalizing e seen with
  | nil => exact absurd rfl hne
  | cons member members ih =>
    obtain ⟨name, value⟩ := member
    have hvalue : Builds value := each _ List.mem_cons_self
    have hname : step ⟨e, .object seen :: stack⟩ (.scalar (.string (name.map Piece.reread))) =
        some ⟨.colon (name.map Piece.reread), .object seen :: stack⟩ := by
      rcases he with rfl | rfl <;> rfl
    have hput : complete value.reread (.member seen (name.map Piece.reread) :: stack) =
        some ⟨.commaOrClose, .object ((name.map Piece.reread, value.reread) :: seen) :: stack⟩ := rfl
    cases members with
    | nil =>
      rw [tokensOfMembers, List.cons_append, List.cons_append, feed_of_step hname, feed_of_step rfl,
        hvalue _ _ (.inl rfl), hput, Option.bind_some]
      rfl
    | cons next members =>
      have hmembers := ih (fun later hlater => each later (List.mem_cons_of_mem _ hlater))
        (List.cons_ne_nil _ _) (e := .name) (.inl rfl) ((name.map Piece.reread, value.reread) :: seen)
      rw [tokensOfMembers, List.cons_append, List.cons_append, List.append_assoc, List.cons_append,
        feed_of_step hname, feed_of_step rfl, hvalue _ _ (.inl rfl), hput, Option.bind_some,
        feed_of_step rfl, hmembers]
      simp

theorem builds_array {items : List Value} (each : ∀ item ∈ items, Builds item) :
    Builds (.array items) := by
  intro e stack ts he
  have hopen : step ⟨e, stack⟩ .openArray = some ⟨.itemOrClose, .array [] :: stack⟩ := by
    rcases he with rfl | rfl <;> rfl
  rw [Value.tokens, List.cons_append, List.cons_append, feed_of_step hopen, List.append_assoc]
  by_cases hitems : items = []
  · subst hitems
    rfl
  · rw [feed_items each hitems (.inr rfl), List.singleton_append, feed_cons]
    show (complete (.array _) stack).bind _ = _
    simp [reread]

theorem builds_object {members : List (List Piece × Value)}
    (each : ∀ member ∈ members, Builds member.2) : Builds (.object members) := by
  intro e stack ts he
  have hopen : step ⟨e, stack⟩ .openObject = some ⟨.nameOrClose, .object [] :: stack⟩ := by
    rcases he with rfl | rfl <;> rfl
  rw [Value.tokens, List.cons_append, List.cons_append, feed_of_step hopen, List.append_assoc]
  by_cases hmembers : members = []
  · subst hmembers
    rfl
  · rw [feed_members each hmembers (.inr rfl), List.singleton_append, feed_cons]
    show (complete (.object _) stack).bind _ = _
    simp [reread]

theorem builds_of_textual {v : Value} (h : v.Textual) : Builds v := by
  induction h with
  | null => exact builds_scalar rfl
  | bool b => exact builds_scalar rfl
  | string s => exact builds_scalar rfl
  | array _ ih => exact builds_array ih
  | @members members _ ih =>
    apply builds_object
    intro member hmember
    obtain ⟨⟨name, value⟩, hvalue, rfl⟩ := List.mem_map.1 hmember
    exact ih _ hvalue

end Builder

/-- A value that is written and read again is the same value, in the form in which it is read. -/
theorem Value.parse?_render {v : Value} (h : v.Textual) : parse? v.render = some v.reread := by
  have hbuild := Builder.builds_of_textual h (e := .value) [] [] (.inl rfl)
  rw [List.append_nil] at hbuild
  rw [parse?, render, String.toList_ofList, ofChars?, tokens?_write h, Option.bind_some]
  show ((Builder.feed {} v.tokens).bind _) = _
  rw [hbuild]
  rfl

end RecordStore.Json
