import QueryAssembly.Proofs.Field.HeaderName
import QueryAssembly.Proofs.Variable.Repetition

namespace QueryAssembly

/-! The first operation keyword of a text that is put together from parts is that
of the first part that has one. Gaps and selection sets have none, so the header
of a definition decides. -/

open FieldOccurrence (openBraces)

namespace Token

section Keywords

variable {left right : Text} {token : Token}

theorem beginsOperation_shift (neutral : Neutral left)
    (member : token ∈ tokensOf right) :
    beginsOperation (left ++ right) (token.shift left.bytes) =
      beginsOperation right token := by
  rcases exists_of_mem_tokensOf member with
    ⟨before, after, right_eq, token_eq, closed, _⟩
  have longer : left ++ right = (left ++ before) ++ (token.text ++ after) := by
    rw [right_eq, List.append_assoc]
  have closedBehind := (endState_append neutral.closed before).trans closed
  have moved : token.shift left.bytes =
      ⟨Text.bytes (left ++ before), token.text⟩ := by
    rw [token_eq, shift, Text.bytes_append]
  rw [endState_eq] at closed closedBehind
  rw [moved, InsertionPoint.beginsOperation_eq longer closedBehind,
    FieldOccurrence.openBraces_append neutral.closed neutral.balanced,
    ← InsertionPoint.beginsOperation_eq right_eq closed, ← token_eq]

theorem operationKeyword?_parts (neutral : Neutral left)
    (boundary : left.getLast?.any Text.isNameContinue = false ∨
      right.continuesName = false) :
    operationKeyword? (left ++ right) =
      (operationKeyword? left).or
        ((operationKeyword? right).map (shift left.bytes)) := by
  have here : (tokensOf left).find? (beginsOperation (left ++ right)) =
      operationKeyword? left :=
    List.find?_congr fun token member => beginsOperation_append member right
  have behind : (tokensOf right).find?
      (beginsOperation (left ++ right) ∘ shift left.bytes) =
        operationKeyword? right :=
    List.find?_congr fun token member => beginsOperation_shift neutral member
  rw [operationKeyword?, tokensOf_append neutral.closed boundary,
    List.find?_append, List.find?_map, here, behind]

theorem operationKeyword?_word {word : Text} (isWord : word.IsWord) :
    operationKeyword? word =
      if isOperationKeyword word then some ⟨0, word⟩ else none := by
  have begins : beginsOperation word ⟨0, word⟩ = isOperationKeyword word := by
    have shape : word = [] ++ word := rfl
    have outside : openBraces [] = 0 := rfl
    rw [← Text.bytes_nil, InsertionPoint.beginsOperation_eq shape rfl, outside]
    exact Bool.and_true _
  rw [operationKeyword?, tokensOf_word isWord, List.find?_singleton, begins]

theorem isOperationKeyword_of_begins {document : Text}
    (begins : beginsOperation document token) : isOperationKeyword token.text :=
  (Bool.and_eq_true_iff.mp begins).1

end Keywords

end Token

/-! A gap has no tokens but commas and byte order marks, each by itself. -/

section Gaps

variable {gap : Text}

theorem tokensOf_comment {remark : Text} {stop : Char}
    (unbroken : ∀ char ∈ remark, Text.isLineBreak char = false) :
    tokensOf ('#' :: (remark ++ [stop])) = [] := by
  have ignored : ∀ row ∈ rowsOf ('#' :: (remark ++ [stop])), row.isIgnored :=
    fun _ member => isIgnored_of_comment unbroken member
  have onward := Token.readFrom_append_of_ignored ignored []
  rwa [List.append_nil] at onward

theorem tokensOf_separator {char : Char} (separates : Text.isSeparator char) :
    tokensOf [char] = if Text.isBlank char then [] else [⟨0, [char]⟩] := by
  have code : Position.start.state = .code := rfl
  have apart := Text.IsGap.not_continues separates
  have comment : char ≠ '#' := by
    rintro rfl
    exact absurd separates (by decide)
  by_cases blank : Text.isBlank char
  · have ignored : Row.isIgnored ⟨0, char, Position.start.state⟩ := by
      simp [Row.isIgnored, blank]
    rw [if_pos blank]
    exact Token.readFrom_ignored ignored
  · have isSign : Text.isSign char := by
      simp [Text.isSign, blank, comment, apart]
    rw [if_neg blank]
    exact Token.readFrom_sign code isSign

theorem Text.IsGap.exists_separator (isGap : gap.IsGap) :
    ∀ token ∈ tokensOf gap, ∃ char, isSeparator char ∧ token.text = [char] := by
  induction isGap with
  | nil => exact fun _ member => nomatch member
  | @separator char rest separates _ induction =>
      have closed := (neutral_separator separates).closed
      have apart : [char].getLast?.any isNameContinue = false :=
        not_continues separates
      rw [← List.singleton_append, Token.tokensOf_append closed (.inl apart),
        tokensOf_separator separates]
      intro token member
      rcases List.mem_append.mp member with here | behind
      · split at here
        · cases here
        · exact ⟨char, separates, by rw [List.mem_singleton.mp here]⟩
      · rcases List.mem_map.mp behind with ⟨other, otherMember, rfl⟩
        exact induction other otherMember
  | @comment remark rest stop unbroken ends _ induction =>
      have closed := (neutral_comment unbroken ends).closed
      have separates := isSeparator_of_isLineBreak ends
      have apart : ('#' :: (remark ++ [stop])).getLast?.any isNameContinue =
          false := by
        rw [← List.cons_append, List.getLast?_concat]
        exact not_continues separates
      have shape : '#' :: (remark ++ stop :: rest) =
          ('#' :: (remark ++ [stop])) ++ rest := by simp
      rw [shape, Token.tokensOf_append closed (.inl apart),
        tokensOf_comment unbroken]
      intro token member
      rcases List.mem_map.mp member with ⟨other, otherMember, rfl⟩
      exact induction other otherMember

theorem Text.IsGap.operationKeyword?_eq_none (isGap : gap.IsGap) :
    Token.operationKeyword? gap = none := by
  rw [Token.operationKeyword?, List.find?_eq_none]
  intro token member begins
  rcases isGap.exists_separator token member with ⟨char, separates, text_eq⟩
  have isName := InsertionPoint.isName_of_isOperationKeyword
    (Token.isOperationKeyword_of_begins begins)
  have continues := isName.isWord.2 char (by simp [text_eq])
  rw [not_continues separates] at continues
  cases continues

end Gaps

theorem SelectionSet.operationKeyword?_eq_none (selections : SelectionSet) :
    Token.operationKeyword? selections.text = none := by
  rw [Token.operationKeyword?, List.find?_eq_none]
  intro token member begins
  rcases Token.exists_of_mem_tokensOf member with
    ⟨before, after, text_eq, token_eq, closed, _⟩
  have keyword := Token.isOperationKeyword_of_begins begins
  have isName := InsertionPoint.isName_of_isOperationKeyword keyword
  have inside : ∃ within, before = '\x7b' :: within ∧
      within <+: selections.inner := by
    rcases isName.isWord.enclosed (by decide) (by decide) text_eq with
      ⟨within, later, before_eq, _, inner_eq⟩
    exact ⟨within, before_eq, inner_eq ▸ List.prefix_append _ _⟩
  rcases inside with ⟨within, rfl, leads⟩
  have enclosed := selections.nested within ((List.mem_inits _ _).mpr leads)
  rw [endState_eq] at closed
  rw [token_eq, InsertionPoint.beginsOperation_eq text_eq closed,
    Bool.and_eq_true, beq_iff_eq] at begins
  omega

namespace Segment

theorem operationKeyword?_eq_none_iff {back : Text} {segments : List Segment}
    (spaced : Spaced back segments) :
    Token.operationKeyword? (textOf segments) = none ↔
      ∀ segment ∈ segments, Token.operationKeyword? segment.text = none := by
  induction segments with
  | nil => exact iff_of_true rfl (fun _ member => nomatch member)
  | cons segment rest induction =>
      have stops : Text.continuesName (textOf rest ++ back) = false →
          Text.continuesName (textOf rest) = false := by
        intro apart
        cases text_eq : textOf rest with
        | nil => rfl
        | cons char text => rwa [text_eq] at apart
      have boundary : segment.text.getLast?.any Text.isNameContinue = false ∨
          Text.continuesName (textOf rest) = false := by
        cases segment with
        | space gap => exact .inl gap.isGap.last_apart
        | word name => exact .inr (stops spaced.1.ends)
        | list annex => exact .inr (stops spaced.1.ends)
      have later : Spaced back rest := by
        cases segment with
        | space gap => exact spaced
        | word name => exact spaced.2
        | list annex => exact spaced.2
      rw [textOf_cons, Token.operationKeyword?_parts segment.neutral boundary,
        Option.or_eq_none_iff, Option.map_eq_none_iff, induction later,
        List.forall_mem_cons]

theorem operationKeyword?_word_eq_none_iff (name : Name) :
    Token.operationKeyword? (Segment.word name).text = none ↔
      isOperationKeyword name.text = false := by
  rw [text, Token.operationKeyword?_word name.isName.isWord]
  simp

end Segment

/-- Whether the header of a fragment has a word that is taken for the keyword of
an operation: its name, the type it is on, or a word of its directives. -/
def FragmentHeader.Misleads (header : FragmentHeader) : Prop :=
  isOperationKeyword header.name.text ∨
    isOperationKeyword header.condition.text ∨
    (Token.operationKeyword? header.annex.text).isSome

instance (header : FragmentHeader) : Decidable header.Misleads :=
  inferInstanceAs (Decidable (_ ∨ _ ∨ _))

theorem FragmentHeader.operationKeyword?_eq_none_iff (header : FragmentHeader) :
    Token.operationKeyword? (Header.fragment header).text = none ↔
      ¬ header.Misleads := by
  have other : isOperationKeyword Header.fragmentKeyword.text = false ∧
      isOperationKeyword Header.onKeyword.text = false := by decide
  have gaps : ∀ gap : Gap, Token.operationKeyword? (Segment.space gap).text =
      none := fun gap => gap.isGap.operationKeyword?_eq_none
  rw [Header.text,
    Segment.operationKeyword?_eq_none_iff (Header.spaced (.fragment header) [])]
  simp only [Header.segments, List.forall_mem_cons,
    Segment.operationKeyword?_word_eq_none_iff, gaps, other, true_and]
  simp [Misleads, Segment.text]

end QueryAssembly
