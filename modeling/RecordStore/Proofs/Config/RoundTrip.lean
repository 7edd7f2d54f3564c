import RecordStore.Config.Reader
import RecordStore.Proofs.Json.RoundTrip
/-!
# A configuration is read back

Writing a configuration and reading it again gives the same configuration if it is valid, and its
first violation if it is not: what is written is never malformed (`ofJson_toJson`). Names may be any
texts, and the two forms of a definition are told apart by the kind of JSON value alone, so each
comes back in its own form (`readDefinition?_reread`).
-/

namespace RecordStore

open Json

/-! ## What is written -/

theorem IndexDefinition.textual_toValue (d : IndexDefinition) : d.toValue.Textual := by
  cases d with
  | single name => exact .string name
  | composite names =>
    apply Value.Textual.array
    intro item hitem
    obtain ⟨name, -, rfl⟩ := List.mem_map.1 hitem
    exact .string name

namespace Config

theorem textual_toValue (c : Config) : c.toValue.Textual := by
  have hindexes : (Value.array (c.indexes.map IndexDefinition.toValue)).Textual := by
    apply Value.Textual.array
    intro item hitem
    obtain ⟨d, -, rfl⟩ := List.mem_map.1 hitem
    exact d.textual_toValue
  apply Value.Textual.members
  intro member hmember
  simp only [List.mem_cons, List.not_mem_nil, or_false] at hmember
  rcases hmember with rfl | rfl | rfl | rfl
  · exact .string c.primaryKey
  · exact hindexes
  · exact .bool c.honorRemoveAllFilters
  · exact .bool c.logPlans

/-! ## What is read -/

theorem mapM_map_eq_some {α β : Type} {read : β → Option α} {write : α → β}
    (h : ∀ a, read (write a) = some a) (as : List α) : (as.map write).mapM read = some as := by
  induction as with
  | nil => rfl
  | cons a as ih => simp [h a, ih]

theorem readText?_reread (s : String) : readText? (Value.ofString s).reread = some s :=
  text?_reread s

theorem readDefinition?_reread (d : IndexDefinition) : readDefinition? d.toValue.reread = some d := by
  cases d with
  | single name =>
    show (text? _).map IndexDefinition.single = _
    rw [text?_reread, Option.map_some]
  | composite names =>
    have hnames := mapM_map_eq_some readText?_reread names
    rw [IndexDefinition.toValue, Value.reread, Value.rereadItems_eq, List.map_map, readDefinition?]
    exact congrArg (Option.map IndexDefinition.composite) hnames

theorem readDefinitions?_reread (ds : List IndexDefinition) :
    readDefinitions? (Value.array (ds.map IndexDefinition.toValue)).reread = some ds := by
  rw [Value.reread, Value.rereadItems_eq, List.map_map, readDefinitions?]
  exact mapM_map_eq_some readDefinition?_reread ds

/-- A member that sets a field which has not been set is read by what its value says. -/
theorem readMembers?_field (c : Config) {seen : List Field} {field : Field} (hnew : field ∉ seen)
    (v : Value) (rest : List (List Piece × Value)) :
    readMembers? c seen (((field.name.toList.map .char).map Piece.reread, v) :: rest) =
      (c.read? v field).bind (readMembers? · (field :: seen) rest) := by
  have hfind : Field.all.find? (·.name == field.name) = some field := by
    cases field <;> decide
  have hseen : seen.contains field = false := by simpa using hnew
  rw [readMembers?, text?_reread]
  simp only [Option.bind_eq_bind, Option.bind_some, hfind, hseen, Bool.false_eq_true, if_false]

theorem ofValue?_reread (c : Config) : ofValue? c.toValue.reread = some c := by
  have hmembers : c.toValue.reread = .object
      [((Field.name .primaryKey).toList.map .char |>.map Piece.reread,
          (Value.ofString c.primaryKey).reread),
        ((Field.name .indexes).toList.map .char |>.map Piece.reread,
          (Value.array (c.indexes.map IndexDefinition.toValue)).reread),
        ((Field.name .honorRemoveAllFilters).toList.map .char |>.map Piece.reread,
          .bool c.honorRemoveAllFilters),
        ((Field.name .logPlans).toList.map .char |>.map Piece.reread, .bool c.logPlans)] := rfl
  rw [hmembers, ofValue?, readMembers?_field _ (by decide), read?, readText?_reread, Option.map_some,
    Option.bind_some, readMembers?_field _ (by decide), read?, readDefinitions?_reread,
    Option.map_some, Option.bind_some, readMembers?_field _ (by decide), read?, readBool?,
    Option.map_some, Option.bind_some, readMembers?_field _ (by decide), read?, readBool?,
    Option.map_some, Option.bind_some, readMembers?]

/-! ## The round trip -/

/-- A configuration that is written and read again is accepted as it is, or refused for what is
wrong with it. -/
theorem ofJson_toJson (c : Config) :
    ofJson c.toJson =
      match c.violation? with
      | none => .ok c
      | some v => .error (.invalid v) := by
  have hread : (Value.parse? c.toJson).bind ofValue? = some c := by
    rw [toJson, Value.parse?_render c.textual_toValue, Option.bind_some, ofValue?_reread]
  rw [ofJson, hread]
  rfl

end Config

end RecordStore
