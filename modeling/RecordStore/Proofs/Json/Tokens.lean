import RecordStore.Json.Reader
import RecordStore.Json.Writer
/-!
# The tokens of a written value

A value that is written has the tokens `Value.tokens`, and the scanner finds these and no others
(`tokens?_write`). It is stated of the scanner in the middle of a text (`Scans`), where what follows
a value must not go on with a word: `null` is one token before a comma, and none before a letter.

A control character without an escape of its own is written by its number, and a number is read: the
piece `Piece.reread` stands for the same text (`text?_reread`).
-/

namespace RecordStore.Json

/-! ## Rereading a string -/

/-- What is read where a piece has been written. -/
def Piece.reread : Piece → Piece
  | .char c =>
    match c with
    | '\x08' | '\x0c' | '\n' | '\r' | '\t' => .char c
    | _ => if c.toNat < 0x20 then .code c.toNat else .char c
  | .code unit => .code unit

theorem Piece.reread_char (c : Char) :
    Piece.reread (.char c) = .char c ∨ c.toNat < 0x20 ∧ Piece.reread (.char c) = .code c.toNat := by
  unfold Piece.reread
  dsimp only
  split
  · exact .inl rfl
  · exact .inl rfl
  · exact .inl rfl
  · exact .inl rfl
  · exact .inl rfl
  · by_cases hc : c.toNat < 0x20
    · exact .inr ⟨hc, if_pos hc⟩
    · exact .inl (if_neg hc)

/-- A string that is written and read again has the same characters. -/
theorem decode?_reread (s : List Char) : decode? ((s.map .char).map Piece.reread) = some s := by
  induction s with
  | nil => rfl
  | cons c s ih =>
    rw [List.map_cons, List.map_cons]
    rcases Piece.reread_char c with hc | ⟨hlt, hc⟩
    · rw [hc, decode?, ih]
      rfl
    · have htrailing : isTrailingHalf c.toNat = false := by
        unfold isTrailingHalf
        simp only [Bool.and_eq_false_iff, decide_eq_false_iff_not]
        omega
      have hleading : isLeadingHalf c.toNat = false := by
        unfold isLeadingHalf
        simp only [Bool.and_eq_false_iff, decide_eq_false_iff_not]
        omega
      rw [hc]
      unfold decode?
      rw [htrailing, hleading, ih]
      simp [Char.ofNat_toNat]

theorem text?_reread (s : String) : text? ((s.toList.map .char).map Piece.reread) = some s := by
  rw [text?, decode?_reread, Option.map_some, String.ofList_toList]

/-! ## Tokens -/

namespace Value

mutual

/-- The tokens of the written form of a value. -/
def tokens : Value → List Token
  | .null => [.scalar .null]
  | .bool b => [.scalar (.bool b)]
  | .number n => [.scalar (.number n)]
  | .string units => [.scalar (.string (units.map Piece.reread))]
  | .array items => .openArray :: tokensOfItems items ++ [.closeArray]
  | .object members => .openObject :: tokensOfMembers members ++ [.closeObject]

def tokensOfItems : List Value → List Token
  | [] => []
  | [item] => tokens item
  | item :: next :: rest => tokens item ++ .comma :: tokensOfItems (next :: rest)

def tokensOfMembers : List (List Piece × Value) → List Token
  | [] => []
  | [(name, value)] => .scalar (.string (name.map Piece.reread)) :: .colon :: tokens value
  | (name, value) :: next :: rest =>
    .scalar (.string (name.map Piece.reread)) :: .colon ::
      (tokens value ++ .comma :: tokensOfMembers (next :: rest))

end

/-- Values without numbers, with all their strings given as texts. -/
inductive Textual : Value → Prop where
  | null : Textual .null
  | bool (b : Bool) : Textual (.bool b)
  | string (s : String) : Textual (.ofString s)
  | array {items : List Value} : (∀ item ∈ items, Textual item) → Textual (.array items)
  | members {members : List (String × Value)} :
      (∀ member ∈ members, Textual member.2) → Textual (.ofMembers members)

end Value

/-! ## Scanning -/

/-- Whether a text does not go on with the word before it. -/
def Ends (rest : List Char) : Prop :=
  ∀ c ∈ rest.head?, isWordChar c = false

theorem ends_nil : Ends [] := by
  intro c hc
  cases hc

theorem ends_cons {c : Char} {rest : List Char} (hc : isWordChar c = false) : Ends (c :: rest) := by
  intro d hd
  cases hd
  exact hc

namespace Scanner

variable {tokens : List Token} {rest : List Char}

/-- Reads a text to its end, and with it the word that may stand there. -/
def finish (s : Scanner) (chars : List Char) : Option Scanner :=
  (chars.foldlM step s).bind endWord

theorem finish_cons (s : Scanner) (c : Char) (chars : List Char) :
    s.finish (c :: chars) = (s.step c).bind (·.finish chars) := by
  unfold finish
  rw [List.foldlM_cons]
  cases s.step c <;> rfl

theorem step_word (read : List Char) (c : Char) : step ⟨.word read, tokens⟩ c =
    if isWordChar c then some ⟨.word (c :: read), tokens⟩
    else (endWord ⟨.word read, tokens⟩).bind (·.start c) := rfl

theorem step_string (read : List Piece) (c : Char) : step ⟨.string read, tokens⟩ c =
    if c = '"' then some ⟨.between, .scalar (.string read.reverse) :: tokens⟩
    else if c = '\\' then some ⟨.escape read, tokens⟩
    else if c.toNat < 0x20 then none
    else some ⟨.string (.char c :: read), tokens⟩ := rfl

/-! ### Words -/

theorem start_of_isWordChar (s : Scanner) {c : Char} (hc : isWordChar c = true) :
    s.start c = some { s with mode := .word [c] } := by
  have hblank : isBlank c = false := by
    cases hb : isBlank c with
    | false => rfl
    | true =>
      unfold isBlank at hb
      simp only [Bool.or_eq_true, decide_eq_true_eq] at hb
      rcases hb with ((rfl | rfl) | rfl) | rfl <;> cases hc
  unfold start
  split
  · cases hc
  · cases hc
  · cases hc
  · cases hc
  · cases hc
  · cases hc
  · cases hc
  · rw [hblank, hc]
    rfl

theorem finish_word_append (read word : List Char) (hword : ∀ c ∈ word, isWordChar c = true) :
    finish ⟨.word read, tokens⟩ (word ++ rest) = finish ⟨.word (word.reverse ++ read), tokens⟩ rest := by
  induction word generalizing read with
  | nil => rfl
  | cons c word ih =>
    have hc : isWordChar c = true := hword c List.mem_cons_self
    have hstep : step ⟨.word read, tokens⟩ c = some ⟨.word (c :: read), tokens⟩ := by
      rw [step_word, if_pos hc]
    rw [List.cons_append, finish_cons, hstep, Option.bind_some,
      ih (c :: read) fun d hd => hword d (List.mem_cons_of_mem c hd)]
    simp

/-- A word ends where the text does not go on with it. -/
theorem finish_word_end {read : List Char} {t : Token} (ht : Token.ofWord? read.reverse = some t)
    (hrest : Ends rest) :
    finish ⟨.word read, tokens⟩ rest = finish ⟨.between, t :: tokens⟩ rest := by
  have hend : endWord ⟨.word read, tokens⟩ = some ⟨.between, t :: tokens⟩ := by
    show (Token.ofWord? read.reverse).map _ = _
    rw [ht]
    rfl
  cases rest with
  | nil => exact hend
  | cons c rest =>
    have hc : isWordChar c = false := hrest c rfl
    have hstep : step ⟨.word read, tokens⟩ c = step ⟨.between, t :: tokens⟩ c := by
      rw [step_word, hc, if_neg Bool.false_ne_true, hend]
      rfl
    rw [finish_cons, finish_cons, hstep]

theorem finish_word {word : List Char} {t : Token} (hne : word ≠ [])
    (hword : word.all isWordChar = true) (ht : Token.ofWord? word = some t) (hrest : Ends rest) :
    finish ⟨.between, tokens⟩ (word ++ rest) = finish ⟨.between, t :: tokens⟩ rest := by
  rw [List.all_eq_true] at hword
  cases word with
  | nil => exact absurd rfl hne
  | cons c word =>
    have hstep : step ⟨.between, tokens⟩ c = some ⟨.word [c], tokens⟩ :=
      start_of_isWordChar _ (hword c List.mem_cons_self)
    rw [List.cons_append, finish_cons, hstep, Option.bind_some,
      finish_word_append [c] word fun d hd => hword d (List.mem_cons_of_mem c hd)]
    exact finish_word_end (by rwa [List.reverse_append, List.reverse_reverse]) hrest

/-! ### Strings -/

theorem hexDigit?_digitChar : ∀ d < 16, hexDigit? (Nat.digitChar d) = some d := by
  decide

/-- The number of a control character has two digits. -/
theorem writeCode_eq : ∀ unit < 0x20, writeCode unit =
    ['\\', 'u', '0', '0', Nat.digitChar (unit / 16), Nat.digitChar (unit % 16)] := by
  decide

theorem finish_writeCode {unit : Nat} (hunit : unit < 0x20) (read : List Piece) :
    finish ⟨.string read, tokens⟩ (writeCode unit ++ rest) =
      finish ⟨.string (.code unit :: read), tokens⟩ rest := by
  have hhigh := hexDigit?_digitChar (unit / 16) (by omega)
  have hlow := hexDigit?_digitChar (unit % 16) (by omega)
  have hzero : hexDigit? '0' = some 0 := rfl
  have hcode : 16 * (unit / 16) + unit % 16 = unit := by omega
  rw [writeCode_eq unit hunit]
  simp only [List.cons_append, List.nil_append]
  simp [finish_cons, step, hzero, hhigh, hlow, hcode]

/-- A character of a string is read as it has been written. -/
theorem finish_writeChar (c : Char) (read : List Piece) :
    finish ⟨.string read, tokens⟩ (writeChar c ++ rest) =
      finish ⟨.string (Piece.reread (.char c) :: read), tokens⟩ rest := by
  unfold writeChar
  split
  · rfl
  · rfl
  · rfl
  · rfl
  · rfl
  · rfl
  · rfl
  · next hquote hbackslash _ _ _ _ _ =>
    have hreread : Piece.reread (.char c) = if c.toNat < 0x20 then .code c.toNat else .char c := by
      unfold Piece.reread
      dsimp only
      split <;> simp_all
    rw [hreread]
    by_cases hc : c.toNat < 0x20
    · rw [if_pos hc, if_pos hc]
      exact finish_writeCode hc read
    · have hstep : step ⟨.string read, tokens⟩ c = some ⟨.string (.char c :: read), tokens⟩ := by
        rw [step_string, if_neg hquote, if_neg hbackslash, if_neg hc]
      rw [if_neg hc, if_neg hc, List.singleton_append, finish_cons, hstep, Option.bind_some]

theorem finish_writeChars (s : List Char) (read : List Piece) :
    finish ⟨.string read, tokens⟩ ((s.map .char).flatMap Piece.write ++ rest) =
      finish ⟨.string (((s.map .char).map Piece.reread).reverse ++ read), tokens⟩ rest := by
  induction s generalizing read with
  | nil => rfl
  | cons c s ih =>
    rw [List.map_cons, List.flatMap_cons, List.append_assoc]
    show finish ⟨.string read, tokens⟩ (writeChar c ++ _) = _
    rw [finish_writeChar, ih]
    simp

/-- A string is read as one token. -/
theorem finish_writeString (s : List Char) :
    finish ⟨.between, tokens⟩ (writeString (s.map .char) ++ rest) =
      finish ⟨.between, .scalar (.string ((s.map .char).map Piece.reread)) :: tokens⟩ rest := by
  have hopen : step ⟨.between, tokens⟩ '"' = some ⟨.string [], tokens⟩ := rfl
  have hclose (read : List Piece) : step ⟨.string read, tokens⟩ '"' =
      some ⟨.between, .scalar (.string read.reverse) :: tokens⟩ := rfl
  unfold writeString
  rw [List.cons_append, List.cons_append, finish_cons, hopen, Option.bind_some, List.append_assoc,
    finish_writeChars, List.singleton_append, finish_cons, hclose, Option.bind_some,
    List.append_nil, List.reverse_reverse]

/-! ### Values -/

open Value

/-- Whether a value is read as its tokens, wherever it stands. -/
def Scans (v : Value) : Prop :=
  ∀ (tokens : List Token) {rest : List Char}, Ends rest →
    finish ⟨.between, tokens⟩ (v.write ++ rest) =
      finish ⟨.between, v.tokens.reverse ++ tokens⟩ rest

theorem finish_between (tokens : List Token) (rest : List Char) {c : Char} {t : Token}
    (h : step ⟨.between, tokens⟩ c = some ⟨.between, t :: tokens⟩) :
    finish ⟨.between, tokens⟩ (c :: rest) = finish ⟨.between, t :: tokens⟩ rest := by
  rw [finish_cons, h, Option.bind_some]

/-- The items of an array are read in turn. -/
theorem finish_writeItems {items : List Value} (each : ∀ item ∈ items, Scans item)
    (tokens : List Token) (hrest : Ends rest) :
    finish ⟨.between, tokens⟩ (writeItems items ++ rest) =
      finish ⟨.between, (tokensOfItems items).reverse ++ tokens⟩ rest := by
  induction items generalizing tokens with
  | nil => rfl
  | cons item items ih =>
    have hitem : Scans item := each item List.mem_cons_self
    cases items with
    | nil => exact hitem tokens hrest
    | cons next items =>
      have hitems := ih fun later hlater => each later (List.mem_cons_of_mem item hlater)
      have hends : Ends (',' :: (writeItems (next :: items) ++ rest)) := ends_cons rfl
      rw [writeItems, tokensOfItems, List.append_assoc, List.cons_append, hitem tokens hends,
        finish_between _ _ rfl, hitems]
      simp

/-- The members of an object are read in turn. -/
theorem finish_writeMembers {members : List (List Piece × Value)}
    (each : ∀ member ∈ members, (∃ s : List Char, member.1 = s.map .char) ∧ Scans member.2)
    (tokens : List Token) (hrest : Ends rest) :
    finish ⟨.between, tokens⟩ (writeMembers members ++ rest) =
      finish ⟨.between, (tokensOfMembers members).reverse ++ tokens⟩ rest := by
  induction members generalizing tokens with
  | nil => rfl
  | cons member members ih =>
    obtain ⟨name, value⟩ := member
    obtain ⟨⟨s, rfl⟩, hvalue : Scans value⟩ := each _ List.mem_cons_self
    cases members with
    | nil =>
      rw [writeMembers, tokensOfMembers, List.append_assoc, List.cons_append, finish_writeString,
        finish_between _ _ rfl, hvalue _ hrest]
      simp
    | cons next members =>
      have hmembers := ih fun later hlater => each later (List.mem_cons_of_mem _ hlater)
      have hends : Ends (',' :: (writeMembers (next :: members) ++ rest)) := ends_cons rfl
      rw [writeMembers, tokensOfMembers, List.append_assoc, List.append_assoc, List.cons_append,
        List.cons_append, finish_writeString, finish_between _ _ rfl, hvalue _ hends,
        finish_between _ _ rfl, hmembers]
      simp

theorem scans_of_textual {v : Value} (h : v.Textual) : Scans v := by
  induction h with
  | null =>
    intro tokens rest hrest
    exact finish_word (List.cons_ne_nil _ _) rfl rfl hrest
  | bool b =>
    intro tokens rest hrest
    cases b <;> exact finish_word (List.cons_ne_nil _ _) rfl rfl hrest
  | string s =>
    intro tokens rest _
    exact finish_writeString s.toList
  | @array items _ ih =>
    intro tokens rest _
    have hends : Ends (']' :: rest) := ends_cons rfl
    rw [write, List.append_assoc, List.cons_append, finish_between _ _ rfl, List.singleton_append,
      finish_writeItems ih _ hends, finish_between _ _ rfl]
    simp [Value.tokens]
  | @members members _ ih =>
    intro tokens rest _
    have hends : Ends ('\x7d' :: rest) := ends_cons rfl
    rw [ofMembers, write, List.append_assoc, List.cons_append, finish_between _ _ rfl,
      List.singleton_append, finish_writeMembers ?each _ hends, finish_between _ _ rfl]
    case each =>
      intro member hmember
      obtain ⟨⟨name, value⟩, hvalue, rfl⟩ := List.mem_map.1 hmember
      exact ⟨⟨name.toList, rfl⟩, ih _ hvalue⟩
    simp [Value.tokens]

end Scanner

theorem tokens?_eq (chars : List Char) :
    tokens? chars = (Scanner.finish {} chars).map fun s => s.tokens.reverse := by
  unfold tokens? Scanner.finish
  cases chars.foldlM Scanner.step {} with
  | none => rfl
  | some s =>
    show s.endWord.bind _ = s.endWord.map _
    cases s.endWord <;> rfl

/-- A written value has its tokens and no others. -/
theorem tokens?_write {v : Value} (h : v.Textual) : tokens? v.write = some v.tokens := by
  have hfinish := Scanner.scans_of_textual h [] ends_nil
  rw [List.append_nil, List.append_nil] at hfinish
  rw [tokens?_eq, hfinish]
  exact congrArg some (List.reverse_reverse v.tokens)

end RecordStore.Json
