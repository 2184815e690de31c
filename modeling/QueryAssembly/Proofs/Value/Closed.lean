import QueryAssembly.Proofs.Text.Word
import QueryAssembly.Proofs.Value.Numeric
import QueryAssembly.Value.Render

namespace QueryAssembly

/-! Values are read back as they are written. A quoted string is one literal from
its first mark to its last, unless its text ends in a backslash, and behind every
other value the scan is in code. -/

namespace Text

theorem toNat_lt_of_isControl {char : Char} (control : isControl char) :
    char.toNat < 256 := by
  simp only [isControl, Bool.or_eq_true, Bool.and_eq_true, decide_eq_true_eq]
    at control
  omega

theorem endState_joined {separator : Text} {texts : List Text}
    (apart : endState separator = .code)
    (closed : ∀ text ∈ texts, endState text = .code) :
    endState (joined separator texts) = .code := by
  match texts, closed with
  | [], _ => rfl
  | [last], closed => exact closed last List.mem_cons_self
  | first :: second :: rest, closed =>
      rw [List.forall_mem_cons] at closed
      have onward := endState_joined apart closed.2
      have joined_eq : joined separator (first :: second :: rest) =
          first ++ (separator ++ joined separator (second :: rest)) :=
        List.append_assoc first separator _
      rw [joined_eq, endState_append closed.1, endState_append apart, onward]

end Text

theorem endState_enclosed {first last : Char} {text : Text}
    (opening : Position.isPlain first) (closing : Position.isPlain last)
    (closed : endState text = .code) :
    endState (first :: (text ++ [last])) = .code := by
  have single : ∀ char, Position.isPlain char → endState [char] = .code :=
    fun char plain => endState_of_plain (by simpa using plain)
  rw [← List.singleton_append, endState_append (single first opening),
    endState_append closed, single last closing]

theorem endState_of_isWord {text : Text} (word : text.IsWord) :
    endState text = .code :=
  endState_of_plain fun char member =>
    Position.isPlain_of_isNameContinue (word.2 char member)

theorem endState_of_isName {text : Text} (isName : text.IsName) :
    endState text = .code := endState_of_isWord isName.isWord

namespace Value

section Quoting

variable {position : Position} {last : Char}

theorem hexDigit_apart {value : Nat} (small : value < 16) :
    hexDigit value ≠ '"' ∧ hexDigit value ≠ '\\' := by
  have all : ∀ digit : Fin 16, hexDigit digit.val ≠ '"' ∧
      hexDigit digit.val ≠ '\\' := by decide
  exact all ⟨value, small⟩

/-- Inside a literal, right after a character of it. -/
structure Inside (position : Position) (last : Char) : Prop where
  state : position.state = .literal .double
  previous : position.previous = some last

theorem Inside.after (inside : Inside position last) (char : Char)
    (stays : char = '"' → last = '\\') : Inside (position.after char) char := by
  refine ⟨?_, rfl⟩
  by_cases mark : char = '"'
  · simp [Position.after, inside.state, inside.previous, LexicalState.next,
      stays mark]
  · simp [Position.after, inside.state, LexicalState.next, Quote.mark, mark]

theorem Inside.closes_iff (inside : Inside position last) :
    (position.after '"').state = .code ↔ last ≠ '\\' := by
  simp [Position.after, inside.state, inside.previous, LexicalState.next,
    Quote.mark]

theorem Inside.past_quoteChar (inside : Inside position last) (char : Char) :
    ∃ final, Inside (position.past (quoteChar char)) final ∧
      (final = '\\' ↔ char = '\\') := by
  have escape : Inside (position.after '\\') '\\' :=
    inside.after _ fun equal => absurd equal (by decide)
  have short : ∀ letter, (letter = '"' → '\\' = '\\') →
      Inside (position.past ['\\', letter]) letter := fun letter stays =>
    escape.after letter stays
  rw [quoteChar]
  split_ifs with mark backslash newline carriage tab backspace feed control
  · exact ⟨'"', short _ fun _ => rfl, by simp [mark]⟩
  · exact ⟨'\\', short _ fun _ => rfl, by simp [backslash]⟩
  · exact ⟨'n', short _ fun _ => rfl, by simp [newline]⟩
  · exact ⟨'r', short _ fun _ => rfl, by simp [carriage]⟩
  · exact ⟨'t', short _ fun _ => rfl, by simp [tab]⟩
  · exact ⟨'b', short _ fun _ => rfl, by simp [backspace]⟩
  · exact ⟨'f', short _ fun _ => rfl, by simp [feed]⟩
  · have small := Text.toNat_lt_of_isControl control
    have high := @hexDigit_apart (char.toNat / 16) (by omega)
    have low := @hexDigit_apart (char.toNat % 16) (by omega)
    refine ⟨hexDigit (char.toNat % 16), ?_, by simp [low.2, backslash]⟩
    have code := (short 'u' fun _ => rfl).after '0' (by decide)
    have digits := (code.after '0' (by decide)).after _
      (fun equal => absurd equal high.1)
    exact digits.after _ fun equal => absurd equal low.1
  · exact ⟨char, inside.after _ fun equal => absurd equal mark, Iff.rfl⟩

theorem Inside.past_flatMap (inside : Inside position last) (text : Text) :
    ∃ final, Inside (position.past (text.flatMap quoteChar)) final ∧
      (final = '\\' ↔ text.getLast?.getD last = '\\') := by
  induction text generalizing position last with
  | nil => exact ⟨last, inside, Iff.rfl⟩
  | cons char rest induction =>
      rcases inside.past_quoteChar char with ⟨middle, onward, middle_iff⟩
      rcases induction onward with ⟨final, whole, final_iff⟩
      rw [List.flatMap_cons, Position.past_append]
      refine ⟨final, whole, final_iff.trans ?_⟩
      cases rest with
      | nil => simpa using middle_iff
      | cons next rest => simp [List.getLast?_cons]

theorem endState_quoted_iff (text : Text) :
    endState (quoted text) = .code ↔ text.getLast? ≠ some '\\' := by
  have opened : Inside (Position.start.after '"') '"' := ⟨rfl, rfl⟩
  rcases opened.past_flatMap text with ⟨final, inside, final_iff⟩
  have whole : Position.start.past (quoted text) =
      ((Position.start.after '"').past (text.flatMap quoteChar)).after '"' := by
    rw [quoted, Position.past_cons, Position.past_append]
    rfl
  rw [endState_eq, whole, inside.closes_iff, Ne, final_iff]
  cases text_eq : text.getLast? with
  | none => simp
  | some char => simp

end Quoting

/-- Values that are spelled as a document may spell them: names where names are
called for, no string that ends in a backslash, and where arguments are written
no dollar sign in front of anything but the name of a variable. -/
inductive Spelled (context : ValueContext) : Value → Prop
  | null : Spelled context .null
  | bool (value : Bool) : Spelled context (.bool value)
  | int (value : Int64) : Spelled context (.int value)
  | float (value : Double) : Spelled context (.float value)
  | enum {name : Text} : name.IsName → Spelled context (.enum name)
  | string {text : Text} : text.getLast? ≠ some '\\' →
      (context = .argument → text.head? = some '$' → Text.IsName text.tail) →
      Spelled context (.string text)
  | list {values : List Value} : (∀ value ∈ values, Spelled context value) →
      Spelled context (.list values)
  | object {entries : List (Text × Value)} :
      (∀ entry ∈ entries, entry.1.IsName) →
      (∀ entry ∈ entries, Spelled context entry.2) →
      Spelled context (.object entries)

section Rendering

variable {context : ValueContext}

theorem renderItems_eq (context : ValueContext) (values : List Value) :
    renderItems context values = values.map (render context) := by
  induction values with
  | nil => rfl
  | cons value rest induction => rw [renderItems, induction, List.map_cons]

theorem renderEntries_eq (context : ValueContext)
    (entries : List (Text × Value)) :
    renderEntries context entries =
      entries.map fun entry => entry.1 ++ ':' :: ' ' :: entry.2.render context := by
  induction entries with
  | nil => rfl
  | cons entry rest induction =>
      rcases entry with ⟨key, value⟩
      rw [renderEntries, induction, List.map_cons]

theorem endState_labelled {name text : Text} (isName : name.IsName)
    (closed : endState text = .code) :
    endState (name ++ ':' :: ' ' :: text) = .code := by
  rw [endState_append (endState_of_isName isName)]
  have colon : endState [':', ' '] = .code := rfl
  exact (endState_append colon text).trans closed

theorem Spelled.endState_render {value : Value} (spelled : Spelled context value) :
    endState (value.render context) = .code := by
  have separated : endState separator = .code := rfl
  induction spelled with
  | null => rfl
  | bool value => cases value <;> rfl
  | int value => exact endState_of_plain (Text.numeric_ofInt _).isPlain
  | float value =>
      rw [render]
      split
      · exact endState_of_plain (Text.numeric_write _ _).isPlain
      · rfl
  | enum isName => exact endState_of_isName isName
  | @string text apart variableName =>
      rw [render]
      split
      · next refers =>
        rcases List.head?_eq_some_iff.mp refers.2 with ⟨name, text_eq⟩
        have isName := variableName refers.1 refers.2
        rw [text_eq, List.tail_cons] at isName
        have dollar : endState ['$'] = .code := rfl
        rw [text_eq, ← List.singleton_append, endState_append dollar,
          endState_of_isName isName]
      · exact (endState_quoted_iff text).mpr apart
  | list _ induction =>
      rw [render, renderItems_eq]
      refine endState_enclosed rfl rfl (Text.endState_joined separated ?_)
      exact List.forall_mem_map.mpr induction
  | object names _ induction =>
      rw [render, renderEntries_eq]
      refine endState_enclosed rfl rfl (Text.endState_joined separated ?_)
      exact List.forall_mem_map.mpr fun entry member =>
        endState_labelled (names entry member) (induction entry member)

end Rendering

end Value

namespace Arguments

def Spelled (arguments : Arguments) : Prop :=
  ∀ entry ∈ arguments.entries, entry.1.IsName ∧ entry.2.Spelled .argument

theorem Spelled.endState_render {arguments : Arguments}
    (spelled : Spelled arguments) :
    endState (Arguments.render arguments) = .code := by
  have separated : endState Value.separator = .code := rfl
  rw [Arguments.render]
  split
  · rfl
  · refine endState_enclosed rfl rfl (Text.endState_joined separated ?_)
    exact List.forall_mem_map.mpr fun entry member =>
      Value.endState_labelled (spelled entry member).1
        (spelled entry member).2.endState_render

end Arguments

end QueryAssembly
