import QueryAssembly.Proofs.Lexical.Nested
import QueryAssembly.Proofs.Value.Closed
import QueryAssembly.Variable.Definition

namespace QueryAssembly

/-! The braces of a value are balanced: those of an object enclose its entries,
and those of a string stand in the literal that its marks delimit. -/

namespace Value

section Quoting

variable {position : Position} {last : Char} {text : Text}

/-- Whether every mark of a text stands right behind a backslash, where `last`
is the character before the text. -/
def Escaped (last : Char) (text : Text) : Prop :=
  List.IsChain (fun before char => char = '"' → before = '\\') (last :: text)

theorem escaped_cons_iff {char : Char} : Escaped last (char :: text) ↔
    (char = '"' → last = '\\') ∧ Escaped char text := List.isChain_cons_cons

theorem Inside.states (inside : Inside position last)
    (escaped : Escaped last text) :
    ∀ label ∈ labelsFrom position text, label.2 = .literal .double := by
  induction text generalizing position last with
  | nil => exact nofun
  | cons char rest induction =>
      rcases escaped_cons_iff.mp escaped with ⟨stays, later⟩
      rw [labelsFrom_cons, List.forall_mem_cons]
      exact ⟨inside.state, induction (inside.after char stays) later⟩

theorem escaped_flatMap_quoteChar (last : Char) (text : Text) :
    Escaped last (text.flatMap quoteChar) := by
  induction text generalizing last with
  | nil => exact .singleton last
  | cons char rest induction =>
      have digits : Text.isControl char →
          hexDigit (char.toNat / 16) ≠ '"' ∧ hexDigit (char.toNat % 16) ≠ '"' := by
        intro control
        have small := Text.toNat_lt_of_isControl control
        exact ⟨(hexDigit_apart (by omega)).1, (hexDigit_apart (by omega)).1⟩
      rw [List.flatMap_cons, quoteChar]
      split_ifs <;> simp [escaped_cons_iff, *]

theorem labelsOf_quoted (text : Text) :
    labelsOf (quoted text) =
      ('"', .code) ::
        (text.flatMap quoteChar ++ ['"']).map fun char => (char, .literal .double) := by
  have opened : Inside (Position.start.after '"') '"' := ⟨rfl, rfl⟩
  rcases opened.past_flatMap text with ⟨final, closing, -⟩
  have inside : ∀ label ∈ labelsFrom (Position.start.after '"')
      (text.flatMap quoteChar ++ ['"']), label.2 = .literal .double := by
    rw [labelsFrom_append, List.forall_mem_append]
    exact ⟨opened.states (escaped_flatMap_quoteChar '"' text),
      List.forall_mem_singleton.mpr closing.state⟩
  exact congrArg (('"', .code) :: ·) (labelsFrom_eq_map inside)

theorem balanced_quoted (closes : text.getLast? ≠ some '\\') :
    Balanced (quoted text) := by
  apply Balanced.of_labels ((endState_quoted_iff text).mpr closes)
  intro label member
  rw [labelsOf_quoted, List.mem_cons] at member
  rcases member with rfl | inside
  · rfl
  · rcases List.mem_map.mp inside with ⟨char, -, rfl⟩
    simp [braceRise]

end Quoting

section Rendering

variable {context : ValueContext}

theorem balanced_of_numeric {text : Text} (numeric : text.Numeric) :
    Balanced text := by
  apply Balanced.of_plain numeric.isPlain
  intro char member
  have isNumeric := numeric char member
  constructor <;>
    · rintro rfl
      exact absurd isNumeric (by decide)

theorem balanced_space : Balanced [' '] := .sign (by decide)

theorem balanced_separator : Balanced separator :=
  have comma : Balanced [','] := .sign (by decide)
  comma.append balanced_space

theorem balanced_labelled {name text : Text} (isName : name.IsName)
    (balanced : Balanced text) : Balanced (name ++ ':' :: ' ' :: text) := by
  have colon : Balanced [':'] := .sign (by decide)
  exact (Balanced.of_isName isName).append
    (colon.append (balanced_space.append balanced))

theorem Spelled.balanced_render {value : Value} (spelled : Spelled context value) :
    Balanced (value.render context) := by
  have null : Balanced "null".toList := .of_isName (by decide)
  have keyword : ∀ word : Bool, Balanced (render context (.bool word)) := fun
    | false => .of_isName (show Text.IsName "false".toList by decide)
    | true => .of_isName (show Text.IsName "true".toList by decide)
  induction spelled with
  | null => exact null
  | bool value => exact keyword value
  | int value => exact balanced_of_numeric (Text.numeric_ofInt _)
  | float value =>
      rw [render]
      split
      · exact balanced_of_numeric (Text.numeric_write _ _)
      · exact null
  | enum isName => exact .of_isName isName
  | @string text apart variableName =>
      rw [render]
      split
      · next refers =>
        rcases List.head?_eq_some_iff.mp refers.2 with ⟨name, text_eq⟩
        have isName := variableName refers.1 refers.2
        rw [text_eq, List.tail_cons] at isName
        have dollar : Balanced ['$'] := .sign (by decide)
        rw [text_eq]
        exact dollar.append (.of_isName isName)
      · exact balanced_quoted apart
  | list _ induction =>
      rw [render, renderItems_eq]
      apply Balanced.enclosed (by decide) (by decide)
      apply Balanced.joined balanced_separator
      exact List.forall_mem_map.mpr induction
  | object names _ induction =>
      rw [render, renderEntries_eq]
      apply Balanced.braced
      apply Balanced.joined balanced_separator
      exact List.forall_mem_map.mpr fun entry member =>
        balanced_labelled (names entry member) (induction entry member)

end Rendering

end Value

theorem Arguments.Spelled.balanced_render {arguments : Arguments}
    (spelled : Arguments.Spelled arguments) :
    Balanced (Arguments.render arguments) := by
  rw [Arguments.render]
  split
  · exact .nil
  · apply Balanced.enclosed (by decide) (by decide)
    apply Balanced.joined Value.balanced_separator
    exact List.forall_mem_map.mpr fun entry member =>
      Value.balanced_labelled (spelled entry member).1
        (spelled entry member).2.balanced_render

/-- A declaration whose name is one, whose type opens neither a literal nor a
comment and has no braces, and whose default is spelled well. -/
structure VariableDefinition.Spelled (definition : VariableDefinition) : Prop where
  name : definition.name.IsName
  type_plain : ∀ char ∈ definition.typeText, Position.isPlain char
  type_braceless : ∀ char ∈ definition.typeText, char ≠ '\x7b' ∧ char ≠ '\x7d'
  default : ∀ value ∈ definition.default, value.Spelled .defaultValue

theorem VariableDefinition.Spelled.balanced_render
    {definition : VariableDefinition} (spelled : definition.Spelled) :
    Balanced definition.render := by
  have dollar : Balanced ['$'] := .sign (by decide)
  have sign : Balanced ['='] := .sign (by decide)
  have equals := Value.balanced_space.append (sign.append Value.balanced_space)
  have type := Balanced.of_plain spelled.type_plain spelled.type_braceless
  have declared := dollar.append (Value.balanced_labelled spelled.name type)
  rw [VariableDefinition.render]
  cases default_eq : definition.default with
  | none => exact declared
  | some value =>
      have value_spelled := spelled.default value default_eq
      have whole := declared.append (equals.append value_spelled.balanced_render)
      simpa [Value.toDefault] using whole

namespace VariableDefinitions

def Spelled (definitions : VariableDefinitions) : Prop :=
  ∀ definition ∈ definitions.values, definition.Spelled

theorem Spelled.balanced_render {definitions : VariableDefinitions}
    (spelled : Spelled definitions) :
    Balanced (VariableDefinitions.render definitions) := by
  rw [VariableDefinitions.render]
  split
  · exact .nil
  · apply Balanced.enclosed (by decide) (by decide)
    apply Balanced.joined Value.balanced_separator
    exact List.forall_mem_map.mpr fun definition member =>
      (spelled definition member).balanced_render

end VariableDefinitions

end QueryAssembly
