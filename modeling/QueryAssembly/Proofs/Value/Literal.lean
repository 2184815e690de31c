import QueryAssembly.Proofs.Value.Balanced

namespace QueryAssembly

/-! The scanner sees the strings of a value where the writer put them. A value is
cut into its strings and the text around them; all of a string but its first mark
is read inside a literal, and everything else in code. -/

namespace Value

inductive Part
  | plain (text : Text)
  | string (text : Text)

namespace Part

def text : Part → Text
  | .plain text => text
  | .string text => quoted text

/-- How a part is to be read: the first mark of a string opens the literal that the
contents and the last mark are in. -/
def labels : Part → List Label
  | .plain text => text.map fun char => (char, .code)
  | .string text =>
      ('"', .code) ::
        (text.flatMap quoteChar ++ ['"']).map fun char => (char, .literal .double)

end Part

def joinedParts : List (List Part) → List Part
  | [] => []
  | [last] => last
  | first :: rest => first ++ .plain separator :: joinedParts rest

mutual
def parts : Value → List Part
  | .null => [.plain (toDefault .null)]
  | .bool value => [.plain (toDefault (.bool value))]
  | .int value => [.plain (toDefault (.int value))]
  | .float value => [.plain (toDefault (.float value))]
  | .enum name => [.plain name]
  | .string text => [.string text]
  | .list values => .plain ['['] :: (joinedParts (itemParts values) ++ [.plain [']']])
  | .object entries =>
      .plain ['\x7b'] :: (joinedParts (entryParts entries) ++ [.plain ['\x7d']])

def itemParts : List Value → List (List Part)
  | [] => []
  | value :: rest => value.parts :: itemParts rest

def entryParts : List (Text × Value) → List (List Part)
  | [] => []
  | (key, value) :: rest =>
      (.plain (key ++ [':', ' ']) :: value.parts) :: entryParts rest
end

theorem itemParts_eq (values : List Value) : itemParts values = values.map parts := by
  induction values with
  | nil => rfl
  | cons value rest induction => rw [itemParts, induction, List.map_cons]

theorem entryParts_eq (entries : List (Text × Value)) :
    entryParts entries =
      entries.map fun entry => .plain (entry.1 ++ [':', ' ']) :: entry.2.parts := by
  induction entries with
  | nil => rfl
  | cons entry rest induction =>
      rcases entry with ⟨key, value⟩
      rw [entryParts, induction, List.map_cons]

theorem text_joinedParts (partss : List (List Part)) :
    (joinedParts partss).flatMap Part.text =
      Text.joined separator (partss.map fun parts => parts.flatMap Part.text) := by
  induction partss using joinedParts.induct with
  | case1 => rfl
  | case2 last => rfl
  | case3 first rest longer induction =>
      rcases List.exists_cons_of_ne_nil longer with ⟨second, rest, rfl⟩
      rw [joinedParts, List.flatMap_append, List.flatMap_cons, induction]
      · exact (List.append_assoc _ _ _).symm
      · exact longer

structure Part.Intact (parts : List Part) : Prop where
  labels : labelsOf (parts.flatMap Part.text) = parts.flatMap Part.labels
  closed : endState (parts.flatMap Part.text) = .code

namespace Part.Intact

variable {left right : List Part}

theorem append (first : Intact left) (second : Intact right) :
    Intact (left ++ right) where
  labels := by
    rw [List.flatMap_append, labelsOf_append first.closed, first.labels, second.labels,
      List.flatMap_append]
  closed := by
    rw [List.flatMap_append, endState_append first.closed, second.closed]

theorem plain {text : Text} (all : ∀ char ∈ text, Position.isPlain char) :
    Intact [.plain text] where
  labels := by
    have labels : labelsOf text = text.map fun char => (char, .code) :=
      Position.labelsFrom_of_plain rfl all
    simpa [Part.text, Part.labels] using labels
  closed := by
    simpa [Part.text] using endState_of_plain all

theorem string {text : Text} (apart : text.getLast? ≠ some '\\') :
    Intact [.string text] where
  labels := by
    rw [List.flatMap_singleton, List.flatMap_singleton]
    exact labelsOf_quoted text
  closed := by
    simpa [Part.text] using (endState_quoted_iff text).mpr apart

theorem enclosed {first last : Char} {parts : List Part}
    (opening : Position.isPlain first) (closing : Position.isPlain last)
    (intact : Intact parts) : Intact (.plain [first] :: (parts ++ [.plain [last]])) := by
  have single : ∀ char, Position.isPlain char → Intact [.plain [char]] :=
    fun char isPlain => plain (by simpa using isPlain)
  exact (single first opening).append (intact.append (single last closing))

theorem joined {partss : List (List Part)} (intact : ∀ parts ∈ partss, Intact parts) :
    Intact (joinedParts partss) := by
  have apart : Intact [.plain separator] := plain (List.all_eq_true.mp rfl)
  induction partss using joinedParts.induct with
  | case1 => exact ⟨rfl, rfl⟩
  | case2 last => exact intact last List.mem_cons_self
  | case3 first rest longer induction =>
      rw [List.forall_mem_cons] at intact
      rw [joinedParts]
      · exact intact.1.append (apart.append (induction intact.2))
      · exact longer

end Part.Intact

theorem Spelled.text_parts {value : Value} (spelled : Spelled .defaultValue value) :
    value.parts.flatMap Part.text = value.toDefault := by
  induction spelled with
  | null => rfl
  | bool value => cases value <;> rfl
  | int value => simp [parts, Part.text]
  | float value => simp [parts, Part.text]
  | enum isName => simp [parts, Part.text, toDefault, render]
  | string _ _ => simp [parts, Part.text, toDefault, render]
  | @list values _ induction =>
      have items := List.map_congr_left induction
      rw [toDefault, render, parts, itemParts_eq, renderItems_eq]
      rw [List.flatMap_cons, List.flatMap_append, text_joinedParts, List.map_map]
      exact congrArg (fun texts => '[' :: (Text.joined separator texts ++ [']'])) items
  | @object entries _ _ induction =>
      have items : entries.map (fun entry =>
          (Part.plain (entry.1 ++ [':', ' ']) :: entry.2.parts).flatMap Part.text) =
          entries.map fun entry =>
            entry.1 ++ ':' :: ' ' :: entry.2.render .defaultValue := by
        refine List.map_congr_left fun entry member => ?_
        rw [List.flatMap_cons, induction entry member]
        exact List.append_assoc _ _ _
      rw [toDefault, render, parts, entryParts_eq, renderEntries_eq, ← items]
      rw [List.flatMap_cons, List.flatMap_append, text_joinedParts, List.map_map]
      rfl

theorem Spelled.intact_parts {value : Value} (spelled : Spelled .defaultValue value) :
    Part.Intact value.parts := by
  induction spelled with
  | null => exact .plain (List.all_eq_true.mp rfl)
  | bool value => cases value <;> exact .plain (List.all_eq_true.mp rfl)
  | int value => exact .plain (Text.numeric_ofInt _).isPlain
  | float value =>
      refine .plain ?_
      rw [toDefault, render]
      split
      · exact (Text.numeric_write _ _).isPlain
      · exact List.all_eq_true.mp rfl
  | enum isName =>
      exact .plain fun char member =>
        Position.isPlain_of_isNameContinue (isName.isWord.2 char member)
  | string apart _ => exact .string apart
  | list _ induction =>
      rw [parts, itemParts_eq]
      exact .enclosed rfl rfl (.joined (List.forall_mem_map.mpr induction))
  | object names _ induction =>
      rw [parts, entryParts_eq]
      refine .enclosed rfl rfl (.joined (List.forall_mem_map.mpr ?_))
      intro entry member
      have key : ∀ char ∈ entry.1 ++ [':', ' '], Position.isPlain char := by
        rw [List.forall_mem_append]
        exact ⟨fun char within => Position.isPlain_of_isNameContinue
          ((names entry member).isWord.2 char within), List.all_eq_true.mp rfl⟩
      exact (Part.Intact.plain key).append (induction entry member)

/-- Wherever a scan is in code, it reads a quoted text as one literal, which it leaves
behind the last mark just when the text does not end in a backslash. It reads a value
without such texts as code around one literal for each of its strings. -/
theorem literals_end_with_strings {position : Position}
    (code : position.state = .code) :
    (∀ text,
      labelsFrom position (quoted text) =
          ('"', .code) :: (text.flatMap quoteChar ++ ['"']).map
            (fun char => (char, .literal .double)) ∧
        ((position.past (quoted text)).state = .code ↔ text.getLast? ≠ some '\\')) ∧
      ∀ value : Value, value.Spelled .defaultValue →
        value.parts.flatMap Part.text = value.toDefault ∧
          labelsFrom position value.toDefault = value.parts.flatMap Part.labels ∧
          (position.past value.toDefault).state = .code := by
  refine ⟨fun text => ⟨?_, ?_⟩, fun value spelled => ?_⟩
  · rw [Position.labelsFrom_of_code code]
    exact labelsOf_quoted text
  · rw [Position.state_past_of_code code]
    exact endState_quoted_iff text
  · have intact := spelled.intact_parts
    rw [Position.labelsFrom_of_code code, Position.state_past_of_code code,
      ← spelled.text_parts]
    exact ⟨rfl, intact.labels, intact.closed⟩

def markedValue : Value :=
  .object [("path".toList, .list [.string "\\\"".toList, .string "\"\\\\\"#".toList]),
    ("id".toList, .string "$a".toList)]

theorem spelled_markedValue : markedValue.Spelled .defaultValue := by
  have first : Value.Spelled .defaultValue (.string "\\\"".toList) :=
    .string (by decide) nofun
  have second : Value.Spelled .defaultValue (.string "\"\\\\\"#".toList) :=
    .string (by decide) nofun
  have reference : Value.Spelled .defaultValue (.string "$a".toList) :=
    .string (by decide) nofun
  have path : Value.Spelled .defaultValue
      (.list [.string "\\\"".toList, .string "\"\\\\\"#".toList]) :=
    .list (by simpa using ⟨first, second⟩)
  exact .object (by decide) (by simpa using ⟨path, reference⟩)

theorem literals_end_with_strings_markedValue :
    let position := Position.start.past "query($p: Path = ".toList
    position.state = .code ∧ markedValue.Spelled .defaultValue ∧
      labelsFrom position markedValue.toDefault =
        markedValue.parts.flatMap Part.labels ∧
      (position.past markedValue.toDefault).state = .code ∧
      (position.past (quoted "\"\\".toList)).state ≠ .code := by
  intro position
  have code : position.state = .code := rfl
  obtain ⟨texts, values⟩ := literals_end_with_strings code
  obtain ⟨-, labels, closed⟩ := values markedValue spelled_markedValue
  have left_open := mt (texts "\"\\".toList).2.mp (by decide)
  exact ⟨code, spelled_markedValue, labels, closed, left_open⟩

end Value

end QueryAssembly
