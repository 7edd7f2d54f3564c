import RecordStore.Proofs.Json.Tokens
/-!
# A written value is one line

Whatever a string holds, what is written for it has no control characters: each of them is escaped,
and escapes have none (`noControl_writeChar`). So the written form of a value is a single line
(`noControl_write`).
-/

namespace RecordStore.Json

/-- Whether a text has no control characters, such as the end of a line. -/
def NoControl (chars : List Char) : Prop :=
  ∀ c ∈ chars, 0x20 ≤ c.toNat

instance (chars : List Char) : Decidable (NoControl chars) :=
  List.decidableBAll (fun c : Char => 0x20 ≤ c.toNat) chars

theorem noControl_nil : NoControl [] := fun _ h => nomatch h

theorem noControl_cons {c : Char} {chars : List Char} :
    NoControl (c :: chars) ↔ 0x20 ≤ c.toNat ∧ NoControl chars :=
  List.forall_mem_cons

theorem noControl_append {as bs : List Char} : NoControl (as ++ bs) ↔ NoControl as ∧ NoControl bs :=
  List.forall_mem_append

/-! ## Strings -/

theorem noControl_writeCode : ∀ unit < 0x20, NoControl (writeCode unit) := by
  decide

theorem noControl_writeChar (c : Char) : NoControl (writeChar c) := by
  unfold writeChar
  split
  · decide
  · decide
  · decide
  · decide
  · decide
  · decide
  · decide
  · split
    · next hc => exact noControl_writeCode c.toNat hc
    · next hc => exact List.forall_mem_singleton.2 (Nat.le_of_not_lt hc)

theorem noControl_writeString (s : List Char) : NoControl (writeString (s.map .char)) := by
  refine noControl_cons.2 ⟨by decide, noControl_append.2 ⟨?_, by decide⟩⟩
  induction s with
  | nil => exact noControl_nil
  | cons c s ih => exact noControl_append.2 ⟨noControl_writeChar c, ih⟩

/-! ## Values -/

namespace Value

theorem noControl_writeItems {items : List Value} (each : ∀ item ∈ items, NoControl item.write) :
    NoControl (writeItems items) := by
  induction items with
  | nil => exact noControl_nil
  | cons item items ih =>
    obtain ⟨hitem, hrest⟩ := List.forall_mem_cons.1 each
    cases items with
    | nil => exact hitem
    | cons next items =>
      exact noControl_append.2 ⟨hitem, noControl_cons.2 ⟨by decide, ih hrest⟩⟩

theorem noControl_writeMembers {members : List (String × Value)}
    (each : ∀ member ∈ members, NoControl member.2.write) :
    NoControl (writeMembers (members.map fun (name, value) => (name.toList.map .char, value))) := by
  induction members with
  | nil => exact noControl_nil
  | cons member members ih =>
    obtain ⟨hmember, hrest⟩ := List.forall_mem_cons.1 each
    have hfirst : NoControl (writeString (member.1.toList.map .char) ++ ':' :: member.2.write) :=
      noControl_append.2 ⟨noControl_writeString member.1.toList, noControl_cons.2 ⟨by decide, hmember⟩⟩
    cases members with
    | nil => exact hfirst
    | cons next members =>
      exact noControl_append.2 ⟨hfirst, noControl_cons.2 ⟨by decide, ih hrest⟩⟩

theorem noControl_write {v : Value} (h : v.Textual) : NoControl v.write := by
  induction h with
  | null => decide
  | bool b => cases b <;> decide
  | string s => exact noControl_writeString s.toList
  | array _ ih =>
    exact noControl_cons.2 ⟨by decide, noControl_append.2 ⟨noControl_writeItems ih, by decide⟩⟩
  | members _ ih =>
    exact noControl_cons.2 ⟨by decide, noControl_append.2 ⟨noControl_writeMembers ih, by decide⟩⟩

end Value

end RecordStore.Json
