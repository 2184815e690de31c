import Mathlib.Data.List.Infix
import QueryAssembly.Proofs.Field.Front
import QueryAssembly.Proofs.Variable.KeywordSearch

namespace QueryAssembly

/-! Executable documents are operations and fragments one after another. A
definition is a header and a selection set, and the tokens of a header stand
between gaps of blanks, commas and comments.

Lists of variables, directives and selection sets are described from outside
alone: by the character that they begin with, and by ending in code with all
their braces closed. Whatever the language allows there is of this form, as long
as the scan sees its literals close where they do. -/

open FieldOccurrence (openBraces)

namespace Text

def isLineBreak (char : Char) : Bool := char == '\n' || char == '\r'

/-- Characters that separate tokens: blanks, commas and byte order marks. -/
def isSeparator (char : Char) : Bool :=
  isBlank char || char == ',' || char == '\ufeff'

inductive IsGap : Text → Prop
  | nil : IsGap []
  | separator {char : Char} {rest : Text} :
      isSeparator char → IsGap rest → IsGap (char :: rest)
  | comment {remark rest : Text} {stop : Char} :
      (∀ char ∈ remark, isLineBreak char = false) → isLineBreak stop →
      IsGap rest → IsGap ('#' :: (remark ++ stop :: rest))

end Text

/-! Gaps between tokens, gaps that keep two names apart, and names. -/

structure Gap where
  text : Text
  isGap : text.IsGap

structure Separation extends Gap where
  apart : text ≠ []

structure Name where
  text : Text
  isName : text.IsName

def Gap.empty : Gap := ⟨[], .nil⟩

def Gap.space : Gap := ⟨[' '], .separator (by decide) .nil⟩

def Separation.space : Separation := ⟨.space, by decide⟩

/-- What may follow the name in a header: variable definitions and directives. -/
structure Annex where
  text : Text
  begins : ∀ char ∈ text.head?, char = '(' ∨ char = '@'
  neutral : Neutral text

def Annex.empty : Annex := ⟨[], by simp, rfl, rfl⟩

/-- Selections between braces that stay open up to the last one. -/
structure SelectionSet where
  inner : Text
  neutral : Neutral ('\x7b' :: (inner ++ ['\x7d']))
  nested : ∀ front ∈ inner.inits, 1 ≤ openBraces ('\x7b' :: front)

structure OperationHeader where
  kind : OperationKind
  name : Option (Separation × Name)
  gap : Gap
  annex : Annex
  last : Gap

structure FragmentHeader where
  beforeName : Separation
  name : Name
  beforeOn : Separation
  beforeCondition : Separation
  condition : Name
  gap : Gap
  annex : Annex
  last : Gap

inductive Header
  | shorthand
  | operation (header : OperationHeader)
  | fragment (header : FragmentHeader)

structure Definition where
  lead : Gap
  header : Header
  selections : SelectionSet

/-- The last comment of a document needs no line break. -/
structure Executable where
  definitions : List Definition
  trail : Gap
  remark : Text
  isRemark : remark = [] ∨
    remark.head? = some '#' ∧ ∀ char ∈ remark, Text.isLineBreak char = false

/-! A header as a row of segments, which searches pass one after another. -/

inductive Segment
  | space (gap : Gap)
  | word (name : Name)
  | list (annex : Annex)

namespace Segment

def text : Segment → Text
  | .space gap => gap.text
  | .word name => name.text
  | .list annex => annex.text

def textOf (segments : List Segment) : Text := segments.flatMap text

end Segment

namespace OperationKind

def name (kind : OperationKind) : Name :=
  ⟨kind.keyword, Operation.keyword_isName kind⟩

end OperationKind

namespace Header

def fragmentKeyword : Name := ⟨"fragment".toList, by decide⟩

def onKeyword : Name := ⟨"on".toList, by decide⟩

def segments : Header → List Segment
  | .shorthand => []
  | .operation header =>
      .word header.kind.name ::
        ((match header.name with
          | some (separation, name) => [.space separation.toGap, .word name]
          | none => []) ++
        [.space header.gap, .list header.annex, .space header.last])
  | .fragment header =>
      [.word fragmentKeyword, .space header.beforeName.toGap, .word header.name,
        .space header.beforeOn.toGap, .word onKeyword,
        .space header.beforeCondition.toGap, .word header.condition,
        .space header.gap, .list header.annex, .space header.last]

def text (header : Header) : Text := Segment.textOf header.segments

end Header

namespace SelectionSet

def text (selections : SelectionSet) : Text :=
  '\x7b' :: (selections.inner ++ ['\x7d'])

end SelectionSet

namespace Definition

def opening (definition : Definition) : Text :=
  definition.lead.text ++ definition.header.text

def text (definition : Definition) : Text :=
  definition.opening ++ definition.selections.text

def textOf (definitions : List Definition) : Text := definitions.flatMap text

end Definition

namespace Executable

def text (document : Executable) : Text :=
  Definition.textOf document.definitions ++
    (document.trail.text ++ document.remark)

theorem isRemark_nil : ([] : Text) = [] ∨ ([] : Text).head? = some '#' ∧
    ∀ char ∈ ([] : Text), Text.isLineBreak char = false := .inl rfl

end Executable

/-! Comments and the gaps that they stand in are passed in code. -/

section Comments

variable {position : Position} {remark : Text}

theorem Position.state_past_remark (comment : position.state = .comment)
    (unbroken : ∀ char ∈ remark, Text.isLineBreak char = false) :
    (position.past remark).state = .comment := by
  induction remark generalizing position with
  | nil => exact comment
  | cons char remark induction =>
      rw [List.forall_mem_cons] at unbroken
      have here : ¬ (char = '\n' ∨ char = '\r') := by
        simpa [Text.isLineBreak] using unbroken.1
      refine induction ?_ unbroken.2
      simp [Position.after, comment, LexicalState.next, here]

theorem endState_remark
    (unbroken : ∀ char ∈ remark, Text.isLineBreak char = false) :
    endState ('#' :: remark) = .comment := by
  have opened : (Position.start.after '#').state = .comment := rfl
  rw [endState_eq, Position.past_cons]
  exact Position.state_past_remark opened unbroken

theorem comment_split {inside rest tail : Text} {char stop : Char}
    (unbroken : ∀ char ∈ remark, Text.isLineBreak char = false)
    (text_eq : '#' :: (remark ++ stop :: tail) = inside ++ char :: rest) :
    inside = [] ∨ endState inside = .comment ∨
      ∃ later, inside = ('#' :: (remark ++ [stop])) ++ later ∧
        tail = later ++ char :: rest := by
  cases inside with
  | nil => exact .inl rfl
  | cons mark inside =>
      rcases List.cons.inj text_eq with ⟨rfl, remark_eq⟩
      rcases List.append_eq_append_iff.mp remark_eq with
        ⟨beyond, inside_eq, tail_eq⟩ | ⟨ahead, remark_eq, _⟩
      · cases beyond with
        | nil =>
            rw [List.append_nil] at inside_eq
            exact .inr (.inl (inside_eq ▸ endState_remark unbroken))
        | cons last later =>
            rcases List.cons.inj tail_eq with ⟨rfl, later_eq⟩
            exact .inr (.inr ⟨later, by simp [inside_eq], later_eq⟩)
      · refine .inr (.inl (endState_remark fun char member => ?_))
        exact unbroken char (by simp [remark_eq, member])

theorem isIgnored_of_comment {stop : Char} {row : Row}
    (unbroken : ∀ char ∈ remark, Text.isLineBreak char = false)
    (member : row ∈ rowsOf ('#' :: (remark ++ [stop]))) : row.isIgnored := by
  rcases Scanner.mem_rowsFrom_iff.mp member with
    ⟨before, rest, text_eq, _, state_eq⟩
  have state_eq : row.state = endState before :=
    state_eq.trans (endState_eq before).symm
  rw [Row.isIgnored_iff, state_eq]
  rcases comment_split unbroken text_eq with
    rfl | comment | ⟨later, _, none⟩
  · exact .inr (.inl (List.cons.inj text_eq).1.symm)
  · exact .inl (by rw [comment]; decide)
  · cases later <;> cases none

theorem neutral_comment {stop : Char}
    (unbroken : ∀ char ∈ remark, Text.isLineBreak char = false)
    (ends : Text.isLineBreak stop) : Neutral ('#' :: (remark ++ [stop])) := by
  constructor
  · have broken : stop = '\n' ∨ stop = '\r' := by
      simpa [Text.isLineBreak] using ends
    have inside : (Position.start.past ('#' :: remark)).state = .comment :=
      (endState_eq _).symm.trans (endState_remark unbroken)
    rw [endState_eq, ← List.cons_append, Position.past_append]
    generalize Position.start.past ('#' :: remark) = position at inside
    simp [Position.after, inside, LexicalState.next, broken]
  · exact openBraces_append_of_ignored [] fun _ member =>
      isIgnored_of_comment unbroken member

end Comments

theorem Text.isSeparator_of_isLineBreak {char : Char}
    (breaks : isLineBreak char) : isSeparator char := by
  have broken : char = '\n' ∨ char = '\r' := by
    simpa [isLineBreak] using breaks
  rcases broken with rfl | rfl <;> decide

namespace Text.IsGap

variable {gap inside rest : Text}

theorem not_continues {char : Char} (separates : isSeparator char) :
    isNameContinue char = false := by
  by_contra continues
  rw [Bool.not_eq_false] at continues
  have comma : char ≠ ',' := ne_of_isNameContinue continues (by decide)
  have mark : char ≠ '\ufeff' := ne_of_isNameContinue continues (by decide)
  simp [isSeparator, not_isBlank_of_isNameContinue continues, comma, mark]
    at separates

theorem neutral_separator {char : Char} (separates : isSeparator char) :
    Neutral [char] := by
  have apart : ∀ other, isSeparator other = false → char ≠ other := by
    rintro other unlike rfl
    rw [unlike] at separates
    cases separates
  apply Neutral.of_plain
  · refine List.forall_mem_singleton.mpr ?_
    simp [Position.isPlain, apart '"' (by decide), apart '\'' (by decide),
      apart '#' (by decide)]
  · exact List.forall_mem_singleton.mpr
      ⟨apart _ (by decide), apart _ (by decide)⟩

theorem neutral (isGap : IsGap gap) : Neutral gap := by
  induction isGap with
  | nil => exact .nil
  | separator separates _ induction =>
      exact (neutral_separator separates).append induction
  | @comment remark rest stop unbroken ends _ induction =>
      have shape : '#' :: (remark ++ stop :: rest) =
          ('#' :: (remark ++ [stop])) ++ rest := by simp
      rw [shape]
      exact (neutral_comment unbroken ends).append induction

theorem not_code (isGap : IsGap gap) {char : Char}
    (continues : isNameContinue char) (gap_eq : gap = inside ++ char :: rest) :
    endState inside ≠ .code := by
  induction isGap generalizing inside with
  | nil => simp at gap_eq
  | separator separates _ induction =>
      cases inside with
      | nil =>
          rw [(List.cons.inj gap_eq).1] at separates
          rw [not_continues separates] at continues
          cases continues
      | cons first inside =>
          rcases List.cons.inj gap_eq with ⟨rfl, rest_eq⟩
          rw [← List.singleton_append,
            endState_append (neutral_separator separates).closed]
          exact induction rest_eq
  | @comment remark tail stop unbroken ends _ induction =>
      rcases comment_split unbroken gap_eq with
        rfl | comment | ⟨later, rfl, tail_eq⟩
      · rw [← (List.cons.inj gap_eq).1] at continues
        exact absurd continues (by decide)
      · rw [comment]
        decide
      · rw [endState_append (neutral_comment unbroken ends).closed]
        exact induction tail_eq

theorem getLast_separates (isGap : IsGap gap) :
    ∀ char ∈ gap.getLast?, isSeparator char := by
  induction isGap with
  | nil => simp
  | @separator char rest separates _ induction =>
      cases rest with
      | nil => simpa using separates
      | cons next rest => simpa [List.getLast?_cons_cons] using induction
  | @comment remark rest stop unbroken ends _ induction =>
      have separates := isSeparator_of_isLineBreak ends
      have shape : '#' :: (remark ++ stop :: rest) =
          ('#' :: remark) ++ (stop :: rest) := rfl
      rw [shape, List.getLast?_append_cons]
      cases rest with
      | nil => simpa using separates
      | cons next rest => simpa [List.getLast?_cons_cons] using induction

theorem last_apart (isGap : IsGap gap) :
    gap.getLast?.any isNameContinue = false := by
  rw [Option.any_eq_false]
  intro char member
  simp [not_continues (isGap.getLast_separates char member)]

end Text.IsGap

end QueryAssembly
