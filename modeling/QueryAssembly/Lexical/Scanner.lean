import QueryAssembly.Lexical.State

namespace QueryAssembly

/-! A scanner reads a document from the left and knows the lexical state of
the position it has reached. What it remembers of the text already read is a
`Position`; the rows it yields pair each character with its offset and with
the state in effect before it. -/

structure Position where
  offset : Nat
  state : LexicalState
  previous : Option Char
  deriving DecidableEq, Repr

namespace Position

def start : Position := ⟨0, .code, none⟩

def after (position : Position) (char : Char) : Position where
  offset := position.offset + char.utf8Size
  state := position.state.next position.previous char
  previous := some char

def past (position : Position) (text : Text) : Position :=
  text.foldl after position

@[simp] theorem past_nil (position : Position) : position.past [] = position :=
  rfl

@[simp] theorem past_cons (position : Position) (char : Char) (rest : Text) :
    position.past (char :: rest) = (position.after char).past rest := rfl

theorem past_append (position : Position) (left right : Text) :
    position.past (left ++ right) = (position.past left).past right :=
  List.foldl_append

theorem offset_past (position : Position) (text : Text) :
    (position.past text).offset = position.offset + text.bytes := by
  induction text generalizing position with
  | nil => simp
  | cons char rest induction => simp [induction, after, Nat.add_assoc]

theorem offset_past_start (text : Text) :
    (Position.start.past text).offset = text.bytes :=
  (offset_past .start text).trans (Nat.zero_add _)

end Position

structure Row where
  offset : Nat
  char : Char
  state : LexicalState
  deriving DecidableEq, Repr

structure Scanner where
  position : Position
  rest : Text
  deriving DecidableEq, Repr

namespace Scanner

def ofSource (source : Text) : Scanner := ⟨.start, source⟩

/-- A scanner placed at an offset that is known to lie in code. -/
def resumeInCode (source : Text) (offset : Nat) : Except Fault Scanner := do
  let (before, rest) ← source.cut offset
  return ⟨⟨offset, .code, before.getLast?⟩, rest⟩

def offset (scanner : Scanner) : Nat := scanner.position.offset

def state (scanner : Scanner) : LexicalState := scanner.position.state

def peek? (scanner : Scanner) : Option Char := scanner.rest.head?

def next? : Scanner → Option (Row × Scanner)
  | ⟨_, []⟩ => none
  | ⟨position, char :: rest⟩ =>
      some (⟨position.offset, char, position.state⟩,
        ⟨position.after char, rest⟩)

def advanceFrom (target : Nat) : Position → Text → Scanner
  | position, [] => ⟨position, []⟩
  | position, char :: rest =>
      if position.offset < target then
        advanceFrom target (position.after char) rest
      else
        ⟨position, char :: rest⟩

theorem advanceFrom_append (position : Position) (passed rest : Text) :
    advanceFrom (position.offset + passed.bytes) position (passed ++ rest) =
      ⟨position.past passed, rest⟩ := by
  induction passed generalizing position with
  | nil => cases rest <;> simp [advanceFrom]
  | cons char passed induction =>
      have positive := char.utf8Size_pos
      have before : position.offset <
          position.offset + Text.bytes (char :: passed) := by simp; omega
      rw [List.cons_append, advanceFrom, if_pos before, Position.past_cons,
        ← induction]
      simp [Position.after, Nat.add_assoc]

/-- Read on until `target` is reached or the document ends. A target already
passed leaves the scanner where it is. -/
def advanceTo (scanner : Scanner) (target : Nat) : Scanner :=
  advanceFrom target scanner.position scanner.rest

def rowsFrom : Position → Text → List Row
  | _, [] => []
  | position, char :: rest =>
      ⟨position.offset, char, position.state⟩ ::
        rowsFrom (position.after char) rest

theorem rowsFrom_append (position : Position) (left right : Text) :
    rowsFrom position (left ++ right) =
      rowsFrom position left ++ rowsFrom (position.past left) right := by
  induction left generalizing position with
  | nil => rfl
  | cons char rest induction => simp [rowsFrom, induction]

def rows (scanner : Scanner) : List Row :=
  rowsFrom scanner.position scanner.rest

end Scanner

def rowsOf (source : Text) : List Row := (Scanner.ofSource source).rows

def stateAt (source : Text) (offset : Nat) : LexicalState :=
  ((Scanner.ofSource source).advanceTo offset).state

end QueryAssembly
