import RecordStore.Json.Document
import RecordStore.Log.Entry
import RecordStore.Proofs.Assoc
import RecordStore.Proofs.Json.NoControl
import RecordStore.Proofs.Json.RoundTrip
/-!
# Log lines

The texts of a log entry are single lines of JSON that read back to what has been logged
(`Entry.reads_back`): `LineOf` says of a text that it is one line, and the object of certain named
texts. Field names may come more than once, in any order, and may be those that the message sets by
itself; the last value of a name counts (`Fields.last?`), and the message is what `shown` tells.
Sorted names leave one way to write an object (`renderFields_eq_iff`), so the texts are equal
exactly for entries that show the same.
-/

namespace RecordStore

open Json

namespace Log

/-- The value that a name is given last. -/
def Fields.last? (fields : Fields) (name : String) : Option String :=
  fields.reverse.lookup name

/-- What the message of an entry shows under a name. -/
def shown (severity : Severity) (event : String) (fields : Fields) (name : String) : Option String :=
  if name = "severity" then some severity.name
  else if name = "event" then some event
  else fields.last? name

/-- Whether a text is one line and is read as the object of these texts, each under its name, and of
nothing else. -/
structure LineOf (texts : String → Option String) (line : String) : Prop where
  noControl : NoControl line.toList
  reads : ∃ members, Document.parse? line = some (.object members) ∧ Assoc.Sorted members ∧
    ∀ name value, (name, value) ∈ members ↔ ∃ text, texts name = some text ∧ value = .string text

/-! ## Objects of texts -/

variable {fields : Fields}

theorem textual_ofTexts (fields : Fields) :
    (Value.ofMembers (fields.map fun (name, value) => (name, .ofString value))).Textual := by
  refine .members fun member hmember => ?_
  obtain ⟨⟨name, value⟩, -, rfl⟩ := List.mem_map.1 hmember
  exact .string value

theorem ofMembers?_reread (fields : Fields) :
    Document.ofMembers? (Value.rereadMembers ((fields.map fun (name, value) =>
        (name, Value.ofString value)).map fun (name, value) => (name.toList.map .char, value))) =
      some (fields.map fun (name, value) => (name, .string value)) := by
  induction fields with
  | nil => rfl
  | cons field fields ih =>
    obtain ⟨name, value⟩ := field
    have hvalue : Document.ofValue? (Value.ofString value).reread = some (.string value) := by
      rw [Value.ofString, Value.reread, Document.ofValue?, text?_reread]
      rfl
    rw [List.map_cons, List.map_cons, Value.rereadMembers, Document.ofMembers?, text?_reread, hvalue, ih]
    rfl

/-- Sorted fields are read back as they are. -/
theorem parse?_renderFields (h : Assoc.Sorted fields) : Document.parse? (renderFields fields) =
    some (.object (fields.map fun (name, value) => (name, .string value))) := by
  rw [Document.parse?, renderFields, Value.parse?_render (textual_ofTexts fields), Option.bind_some,
    Value.ofMembers, Value.reread, Document.ofValue?, ofMembers?_reread, Option.map_some,
    Function.comp_apply, Assoc.ofList_of_sorted (h.map Document.string)]

theorem lineOf_renderFields (h : Assoc.Sorted fields) :
    LineOf (fun name => Assoc.get? name fields) (renderFields fields) where
  noControl := by
    rw [renderFields, Value.render, String.toList_ofList]
    exact Value.noControl_write (textual_ofTexts fields)
  reads := by
    refine ⟨_, parse?_renderFields h, h.map Document.string, fun name value => ?_⟩
    rw [← Assoc.get?_eq_some_iff (h.map Document.string), Assoc.get?_map, Option.map_eq_some_iff]
    exact exists_congr fun _ => and_congr_right fun _ => eq_comm

/-- Sorted fields are written alike exactly if they bind the same values. -/
theorem renderFields_eq_iff {fields' : Fields} (h : Assoc.Sorted fields) (h' : Assoc.Sorted fields') :
    renderFields fields' = renderFields fields ↔
      ∀ name, Assoc.get? name fields' = Assoc.get? name fields := by
  constructor
  · intro htext name
    have hparsed := congrArg Document.parse? htext
    rw [parse?_renderFields h, parse?_renderFields h', Option.some.injEq, Document.object.injEq] at hparsed
    have hget := congrArg (Assoc.get? name) hparsed
    rw [Assoc.get?_map, Assoc.get?_map] at hget
    exact Option.map_injective (fun _ _ => Document.string.inj) hget
  · intro hget
    rw [Assoc.eq_of_get?_eq h' h hget]

/-! ## Entries -/

theorem Severity.name_inj {a b : Severity} : a.name = b.name ↔ a = b := by
  cases a <;> cases b <;> decide

theorem get?_ofList (fields : Fields) (name : String) :
    Assoc.get? name (Assoc.ofList fields) = fields.last? name :=
  Assoc.get?_ofList fields name

/-- The fields of a message, by name. -/
def named (severity : Severity) (event : String) (fields : Fields) : Fields :=
  Assoc.insert "severity" severity.name (Assoc.insert "event" event (Assoc.ofList fields))

theorem sorted_named (severity : Severity) (event : String) (fields : Fields) :
    Assoc.Sorted (named severity event fields) :=
  Assoc.sorted_insert (Assoc.sorted_insert (Assoc.sorted_ofList fields) "event" event) "severity" _

theorem get?_named (severity : Severity) (event : String) (fields : Fields) (name : String) :
    Assoc.get? name (named severity event fields) = shown severity event fields name := by
  have hsorted := Assoc.sorted_ofList fields
  rw [named, Assoc.get?_insert (Assoc.sorted_insert hsorted "event" event), Assoc.get?_insert hsorted,
    get?_ofList]
  rfl

/-- Two messages show the same exactly for one event at one severity, with the same fields beside. -/
theorem shown_eq_iff {severity severity' : Severity} {event event' : String} {fields fields' : Fields} :
    (∀ name, shown severity' event' fields' name = shown severity event fields name) ↔
      severity' = severity ∧ event' = event ∧
        ∀ name, name ≠ "event" → name ≠ "severity" → fields'.last? name = fields.last? name := by
  constructor
  · intro h
    have hseverity := h "severity"
    have hevent := h "event"
    simp only [shown, ↓reduceIte, Option.some.injEq, String.reduceEq] at hseverity hevent
    refine ⟨Severity.name_inj.1 hseverity, hevent, fun name hne hne' => ?_⟩
    have hname := h name
    rwa [shown, shown, if_neg hne', if_neg hne, if_neg hne', if_neg hne] at hname
  · rintro ⟨rfl, rfl, hrest⟩ name
    unfold shown
    split
    · rfl
    · next hne' =>
      split
      · rfl
      · next hne => exact hrest name hne hne'

/-- A log entry reads back. Its message is one line, the object that has the event and the severity
under their names and the last value of any other field under its own; its fields are one line as
well, the object of all fields with nothing put in their place. Entries of fields with the same last
values are the same, and messages are the same only if they tell of one event at one severity with
the same fields beside. -/
theorem Entry.reads_back (severity : Severity) (event : String) (fields : Fields) :
    LineOf (shown severity event fields) (Entry.of severity event fields).message ∧
      LineOf fields.last? (Entry.of severity event fields).fields ∧
      (∀ fields' : Fields, Entry.of severity event fields' = Entry.of severity event fields ↔
        ∀ name, fields'.last? name = fields.last? name) ∧
      ∀ (severity' : Severity) (event' : String) (fields' : Fields),
        (Entry.of severity' event' fields').message = (Entry.of severity event fields).message ↔
          severity' = severity ∧ event' = event ∧
            ∀ name, name ≠ "event" → name ≠ "severity" → fields'.last? name = fields.last? name := by
  have hsorted := Assoc.sorted_ofList fields
  have hnamed := sorted_named severity event fields
  refine ⟨?_, ?_, fun fields' => ⟨fun h => ?_, fun h => ?_⟩, fun severity' event' fields' => ?_⟩
  · have hline := lineOf_renderFields hnamed
    simp only [get?_named] at hline
    exact hline
  · have hline := lineOf_renderFields hsorted
    simp only [get?_ofList] at hline
    exact hline
  · have htext : renderFields (Assoc.ofList fields') = renderFields (Assoc.ofList fields) :=
      congrArg Entry.fields h
    rw [renderFields_eq_iff hsorted (Assoc.sorted_ofList fields')] at htext
    simpa only [get?_ofList] using htext
  · have hget (name : String) :
        Assoc.get? name (Assoc.ofList fields') = Assoc.get? name (Assoc.ofList fields) := by
      rw [get?_ofList, get?_ofList, h]
    rw [Entry.of, Entry.of, Assoc.eq_of_get?_eq (Assoc.sorted_ofList fields') hsorted hget]
  · have hmessage := renderFields_eq_iff hnamed (sorted_named severity' event' fields')
    simp only [get?_named, shown_eq_iff] at hmessage
    exact hmessage

/-- Fields that give a name twice, claim an event of their own, and try to end the line and begin
another. -/
def Fields.forged : Fields :=
  [("event", "FORGED"), ("a", "1"), ("a", "\"\x7d\n\x7b\"event\":\"FORGED")]

/-- The message of such fields is the one line of the true event, which the last value of each name
could as well have made. -/
theorem Entry.reads_back_forged :
    NoControl (Entry.of .warn "REAL" Fields.forged).message.toList ∧
      (∃ members, Document.parse? (Entry.of .warn "REAL" Fields.forged).message = some (.object members) ∧
        ("event", .string "REAL") ∈ members ∧ ("event", .string "FORGED") ∉ members) ∧
      (Entry.of .warn "REAL" (Fields.forged.drop 2)).message =
        (Entry.of .warn "REAL" Fields.forged).message := by
  obtain ⟨⟨hline, members, hparse, -, hmem⟩, -, -, hsame⟩ := Entry.reads_back .warn "REAL" Fields.forged
  refine ⟨hline, ⟨members, hparse, (hmem _ _).2 ⟨"REAL", rfl, rfl⟩, fun hforged => ?_⟩,
    (hsame .warn "REAL" (Fields.forged.drop 2)).2 ⟨rfl, rfl, fun name hne _ => ?_⟩⟩
  · obtain ⟨text, htext, hvalue⟩ := (hmem _ _).1 hforged
    obtain rfl := Option.some.inj htext
    exact absurd (Document.string.inj hvalue) (by decide)
  · by_cases hname : name = "a"
    · simp [Fields.forged, Fields.last?, hname]
    · simp [Fields.forged, Fields.last?, List.lookup_cons, beq_eq_false_iff_ne.2 hname,
        beq_eq_false_iff_ne.2 hne]

end Log

end RecordStore
