import QueryAssembly.Lexical.Scanner
import QueryAssembly.Text.Name

namespace QueryAssembly

/-! What a scan says about a text apart from offsets: each character with the
state it is read in. The character before a position matters only inside a
literal, so a text that ends in code can stand before any other one without
changing how that one is read. -/

/-- A character and the state in effect before it. -/
abbrev Label := Char × LexicalState

def Row.label (row : Row) : Label := (row.char, row.state)

def labelsFrom (position : Position) (text : Text) : List Label :=
  (Scanner.rowsFrom position text).map Row.label

def labelsOf (source : Text) : List Label := (rowsOf source).map Row.label

def endState (text : Text) : LexicalState := stateAt text text.bytes

def opaqueLabels (source : Text) : List Label :=
  (labelsOf source).filter fun label => label.2 ≠ .code

@[simp] theorem labelsFrom_nil (position : Position) :
    labelsFrom position [] = [] := rfl

@[simp] theorem labelsFrom_cons (position : Position) (char : Char)
    (rest : Text) :
    labelsFrom position (char :: rest) =
      (char, position.state) :: labelsFrom (position.after char) rest := rfl

theorem labelsFrom_append (position : Position) (left right : Text) :
    labelsFrom position (left ++ right) =
      labelsFrom position left ++ labelsFrom (position.past left) right := by
  simp [labelsFrom, Scanner.rowsFrom_append]

theorem map_fst_labelsOf (text : Text) : (labelsOf text).map Prod.fst = text := by
  have all : ∀ position, (labelsFrom position text).map Prod.fst = text := by
    intro position
    induction text generalizing position with
    | nil => rfl
    | cons char rest induction =>
        rw [labelsFrom_cons, List.map_cons, induction]
  exact all .start

theorem labelsFrom_eq_map {position : Position} {text : Text} {state : LexicalState}
    (same : ∀ label ∈ labelsFrom position text, label.2 = state) :
    labelsFrom position text = text.map fun char => (char, state) := by
  induction text generalizing position with
  | nil => rfl
  | cons char rest induction =>
      rw [labelsFrom_cons, List.forall_mem_cons] at same
      rw [labelsFrom_cons, List.map_cons, induction same.2, ← same.1]

theorem length_labelsOf (text : Text) : (labelsOf text).length = text.length := by
  rw [← List.length_map Prod.fst, map_fst_labelsOf]

theorem stateAt_append (before after : Text) :
    stateAt (before ++ after) before.bytes =
      (Position.start.past before).state := by
  have reached := Scanner.advanceFrom_append .start before after
  rw [show Position.start.offset = 0 from rfl, Nat.zero_add] at reached
  simp [stateAt, Scanner.advanceTo, Scanner.ofSource, Scanner.state, reached]

theorem endState_eq (text : Text) :
    endState text = (Position.start.past text).state := by
  have reached := stateAt_append text []
  rwa [List.append_nil] at reached

namespace Position

/-- Two positions from which every text is read alike. -/
def Alike (left right : Position) : Prop :=
  left.state = right.state ∧
    (left.state = .code ∨ left.previous = right.previous)

namespace Alike

variable {left right : Position}

theorem refl (position : Position) : Alike position position :=
  ⟨rfl, .inr rfl⟩

theorem of_code (left_code : left.state = .code)
    (right_code : right.state = .code) : Alike left right :=
  ⟨left_code.trans right_code.symm, .inl left_code⟩

theorem after (alike : Alike left right) (char : Char) :
    Alike (left.after char) (right.after char) := by
  rcases alike with ⟨state_eq, code | previous_eq⟩
  · refine ⟨?_, .inr rfl⟩
    simp only [Position.after, ← state_eq, code]
    rfl
  · refine ⟨?_, .inr rfl⟩
    simp only [Position.after, state_eq, previous_eq]

theorem past (alike : Alike left right) (text : Text) :
    Alike (left.past text) (right.past text) := by
  induction text generalizing left right with
  | nil => exact alike
  | cons char rest induction => exact induction (alike.after char)

theorem labelsFrom_eq (alike : Alike left right) (text : Text) :
    labelsFrom left text = labelsFrom right text := by
  induction text generalizing left right with
  | nil => rfl
  | cons char rest induction =>
      rw [labelsFrom_cons, labelsFrom_cons, alike.1,
        induction (alike.after char)]

end Alike

theorem labelsFrom_of_code {position : Position}
    (code : position.state = .code) (text : Text) :
    labelsFrom position text = labelsOf text :=
  (Alike.of_code code rfl).labelsFrom_eq text

theorem state_past_of_code {position : Position}
    (code : position.state = .code) (text : Text) :
    (position.past text).state = endState text := by
  rw [endState_eq]
  exact ((Alike.of_code code rfl).past text).1

def isPlain (char : Char) : Bool :=
  char != '"' && char != '\'' && char != '#'

theorem isPlain_of_isNameContinue {char : Char}
    (continues : Text.isNameContinue char) : isPlain char := by
  simp only [isPlain, Bool.and_eq_true, bne_iff_ne]
  refine ⟨⟨?_, ?_⟩, ?_⟩ <;>
    · intro equal
      subst equal
      exact absurd continues (by decide)

theorem state_after_of_plain {position : Position} {char : Char}
    (code : position.state = .code) (plain : isPlain char) :
    (position.after char).state = .code := by
  simp only [isPlain, Bool.and_eq_true, bne_iff_ne] at plain
  simp [after, code, LexicalState.next, Quote.mark, plain]

theorem state_past_of_plain {position : Position} {text : Text}
    (code : position.state = .code) (plain : ∀ char ∈ text, isPlain char) :
    (position.past text).state = .code := by
  induction text generalizing position with
  | nil => exact code
  | cons char rest induction =>
      rw [List.forall_mem_cons] at plain
      exact induction (state_after_of_plain code plain.1) plain.2

theorem state_past_of_isNameContinue {position : Position} {text : Text}
    (code : position.state = .code)
    (all : ∀ char ∈ text, Text.isNameContinue char) :
    (position.past text).state = .code :=
  state_past_of_plain code fun char member =>
    isPlain_of_isNameContinue (all char member)

theorem labelsFrom_of_plain {position : Position} {text : Text}
    (code : position.state = .code) (plain : ∀ char ∈ text, isPlain char) :
    labelsFrom position text = text.map fun char => (char, .code) := by
  induction text generalizing position with
  | nil => rfl
  | cons char rest induction =>
      rw [List.forall_mem_cons] at plain
      rw [labelsFrom_cons, List.map_cons, code,
        induction (state_after_of_plain code plain.1) plain.2]

end Position

theorem endState_of_plain {text : Text}
    (plain : ∀ char ∈ text, Position.isPlain char) : endState text = .code := by
  rw [endState_eq]
  exact Position.state_past_of_plain rfl plain

theorem labelsOf_append {front : Text} (closed : endState front = .code)
    (text : Text) : labelsOf (front ++ text) = labelsOf front ++ labelsOf text := by
  have code : (Position.start.past front).state = .code :=
    (endState_eq front).symm.trans closed
  rw [← Position.labelsFrom_of_code code text]
  exact labelsFrom_append .start front text

theorem endState_append {front : Text} (closed : endState front = .code)
    (text : Text) : endState (front ++ text) = endState text := by
  have code : (Position.start.past front).state = .code :=
    (endState_eq front).symm.trans closed
  rw [endState_eq, Position.past_append, Position.state_past_of_code code]

end QueryAssembly
