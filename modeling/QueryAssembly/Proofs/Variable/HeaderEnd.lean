import QueryAssembly.Proofs.Variable.ByTokens
import QueryAssembly.Proofs.Variable.FirstKeyword

namespace QueryAssembly

/-! The header of an operation ends where its first tokens tell: after the name
when one comes next to the keyword, and after the keyword otherwise. Directives
and the selection set begin with signs, so no name is found behind the header. -/

def Token.first? (text : Text) : Option Text :=
  (tokensOf text).head?.map Token.text

/-- Whether a text begins neither with a name nor with a list of variables, as
that behind the header of an operation. -/
structure Text.EndsHeader (text : Text) : Prop where
  apart : text.continuesName = false
  sign : ∃ char, isNameContinue char = false ∧ char ≠ '(' ∧
    Token.first? text = some [char]

namespace Token

section First

variable {left right gap : Text}

theorem first?_append (closed : endState left = .code)
    (boundary : left.getLast?.any Text.isNameContinue = false ∨
      right.continuesName = false) :
    first? (left ++ right) = (first? left).or (first? right) := by
  rw [first?, tokensOf_append closed boundary, List.head?_append,
    Option.map_or, List.head?_map, Option.map_map]
  rfl

theorem first?_sign {char : Char} (isSign : Text.isSign char) (rest : Text) :
    first? (char :: rest) = some [char] := by
  rw [first?, tokensOf_sign isSign]
  rfl

theorem first?_name {name : Text} (isName : name.IsName)
    (stops : right.continuesName = false) :
    first? (name ++ right) = some name := by
  have isWord := isName.isWord
  rw [first?_append (Neutral.of_isWord isWord).closed (.inr stops), first?,
    tokensOf_word isWord]
  rfl

theorem first?_gap (isGap : gap.IsGap) (rest : Text) :
    (tokensOf gap = [] ∧ first? (gap ++ rest) = first? rest) ∨
      (tokensOf gap ≠ [] ∧ ∃ char, Text.isSeparator char ∧
        first? (gap ++ rest) = some [char]) := by
  have joined := first?_append isGap.neutral.closed
    (.inl isGap.last_apart : _ ∨ rest.continuesName = false)
  cases tokens_eq : tokensOf gap with
  | nil =>
      refine .inl ⟨rfl, ?_⟩
      rw [joined, first?, tokens_eq]
      rfl
  | cons token tokens =>
      rcases isGap.exists_separator token (by simp [tokens_eq]) with
        ⟨char, separates, text_eq⟩
      refine .inr ⟨List.cons_ne_nil _ _, char, separates, ?_⟩
      rw [joined, first?, tokens_eq, List.head?_cons, Option.map_some, text_eq]
      rfl

theorem first?_ne_brace (isGap : gap.IsGap) {name : Text} (isName : name.IsName)
    (stops : right.continuesName = false) :
    first? (gap ++ (name ++ right)) ≠ some ['\x7b'] := by
  have unnamed : ¬ Text.IsName ['\x7b'] := by decide
  rcases first?_gap isGap (name ++ right) with
    ⟨_, first_eq⟩ | ⟨_, char, separates, first_eq⟩
  · rw [first_eq, first?_name isName stops]
    rintro ⟨rfl⟩
    exact unnamed isName
  · rw [first_eq]
    rintro ⟨rfl⟩
    exact absurd separates (by decide)

end First

end Token

namespace Text

section Ends

variable {gap rest : Text}

theorem endsHeader_sign {char : Char} (isSign : isSign char)
    (undeclared : char ≠ '(') (rest : Text) : EndsHeader (char :: rest) := by
  have apart : isNameContinue char = false := by
    simp only [Text.isSign, Bool.and_eq_true, Bool.not_eq_true'] at isSign
    exact isSign.2
  exact ⟨apart, char, apart, undeclared, Token.first?_sign isSign rest⟩

theorem endsHeader_gap (isGap : gap.IsGap)
    (ends : tokensOf gap = [] → EndsHeader rest) : EndsHeader (gap ++ rest) := by
  constructor
  · by_cases empty : gap = []
    · rw [empty] at ends ⊢
      exact (ends rfl).apart
    · exact isGap.starts_apart empty
  · rcases Token.first?_gap isGap rest with
      ⟨skipped, first_eq⟩ | ⟨_, char, separates, first_eq⟩
    · rw [first_eq]
      exact (ends skipped).sign
    · have undeclared : char ≠ '(' := by
        rintro rfl
        exact absurd separates (by decide)
      exact ⟨char, IsGap.not_continues separates, undeclared, first_eq⟩

theorem endsHeader_annex (annex : Annex)
    (undeclared : annex.text.head? ≠ some '(') (ends : EndsHeader rest) :
    EndsHeader (annex.text ++ rest) := by
  have begins := annex.begins
  cases text_eq : annex.text with
  | nil => exact ends
  | cons char text =>
      rw [text_eq] at begins undeclared
      have directive : char = '@' :=
        (begins char rfl).resolve_left fun opening => undeclared (by rw [opening]; rfl)
      rw [directive]
      exact endsHeader_sign (by decide) (by decide) _

theorem EndsHeader.head?_ne (ends : EndsHeader rest) : rest.head? ≠ some '(' := by
  rintro opens
  rcases List.head?_eq_some_iff.mp opens with ⟨text, rfl⟩
  rcases ends.sign with ⟨char, _, undeclared, first_eq⟩
  rw [Token.first?_sign (by decide) text] at first_eq
  obtain rfl : '(' = char := by simpa using first_eq
  exact undeclared rfl

end Ends

end Text

/-! The end of a header is told by the first token behind the keyword. -/

namespace Token

section Headers

variable {front back : Text} {keyword : Token}

theorem next?_eq_shift (closed : endState front = .code)
    (boundary : front.getLast?.any Text.isNameContinue = false ∨
      back.continuesName = false) :
    next? (front ++ back) front.bytes =
      (tokensOf back).head?.map (shift front.bytes) := by
  rw [endState_eq] at closed
  rw [InsertionPoint.next?_append boundary, readFrom_of_code closed,
    Position.offset_past_start, List.head?_map]

theorem map_text_next? (closed : endState front = .code)
    (stops : back.continuesName = false) :
    (next? (front ++ back) front.bytes).map Token.text = first? back := by
  rw [next?_eq_shift closed (.inr stops), Option.map_map]
  rfl

theorem not_declared (closed : endState front = .code) (ends : back.EndsHeader) :
    ((next? (front ++ back) front.bytes).any fun token =>
      token.text == ['(']) = false := by
  have next_eq := map_text_next? closed ends.apart
  rcases ends.sign with ⟨char, _, undeclared, first_eq⟩
  rcases Option.map_eq_some_iff.mp (next_eq.trans first_eq) with
    ⟨token, found, text_eq⟩
  simp [found, text_eq, undeclared]

theorem declared_of_head? (closed : endState front = .code)
    (boundary : front.getLast?.any Text.isNameContinue = false ∨
      back.continuesName = false) (opens : back.head? = some '(') :
    (next? (front ++ back) front.bytes).any fun token =>
      token.text == ['('] := by
  rcases List.head?_eq_some_iff.mp opens with ⟨list, rfl⟩
  rw [next?_eq_shift closed boundary, tokensOf_sign (by decide) list]
  rfl

theorem headerEnd_unnamed (closed : endState front = .code)
    (ends : back.EndsHeader) (stop_eq : keyword.stop = front.bytes) :
    headerEnd (front ++ back) keyword = front.bytes := by
  have next_eq := map_text_next? closed ends.apart
  rcases ends.sign with ⟨char, apart, _, first_eq⟩
  rcases Option.map_eq_some_iff.mp (next_eq.trans first_eq) with
    ⟨token, found, text_eq⟩
  have unnamed : ¬ token.text.IsName := by
    intro isName
    have continues := isName.isWord.2 char (by simp [text_eq])
    rw [apart] at continues
    cases continues
  rw [headerEnd, stop_eq, found]
  exact if_neg unnamed

theorem headerEnd_named {gap name : Text} (closed : endState front = .code)
    (isGap : gap.IsGap) (skipped : tokensOf gap = []) (apart : gap ≠ [])
    (isName : name.IsName) (stops : back.continuesName = false)
    (stop_eq : keyword.stop = front.bytes) :
    headerEnd (front ++ (gap ++ (name ++ back))) keyword =
      Text.bytes (front ++ (gap ++ name)) := by
  have isWord := isName.isWord
  have nameClosed := (Neutral.of_isWord isWord).closed
  have tokens_eq : (tokensOf (gap ++ (name ++ back))).head? =
      some ⟨gap.bytes, name⟩ := by
    rw [tokensOf_append isGap.neutral.closed (.inl isGap.last_apart), skipped,
      tokensOf_append nameClosed (.inr stops), tokensOf_word isWord]
    rfl
  have starts : Text.continuesName (gap ++ (name ++ back)) = false :=
    isGap.starts_apart apart
  have next_eq := next?_eq_shift closed (.inr starts)
  rw [tokens_eq, Option.map_some] at next_eq
  rw [headerEnd, stop_eq, next_eq]
  simp [shift, stop, isName, Nat.add_assoc]

theorem headerEnd_le (closed : endState front = .code)
    (within : keyword.stop ≤ front.bytes) :
    keyword.stop ≤ headerEnd (front ++ '\x7b' :: back) keyword ∧
      headerEnd (front ++ '\x7b' :: back) keyword ≤ front.bytes := by
  have isSign : Text.isSign '\x7b' := by decide
  rcases List.head?_eq_some_iff.mp (tokensOf_sign isSign back) with
    ⟨behind, brace_eq⟩
  have tokens_eq : tokensOf (front ++ '\x7b' :: back) = tokensOf front ++
      ⟨front.bytes, ['\x7b']⟩ :: behind.map (shift front.bytes) := by
    rw [tokensOf_append closed (.inr rfl), brace_eq]
    rfl
  have unnamed : ¬ Text.IsName ['\x7b'] := by decide
  cases found : (tokensOf front).find? fun token =>
      decide (keyword.stop ≤ token.start) with
  | none =>
      have next_eq : next? (front ++ '\x7b' :: back) keyword.stop =
          some ⟨front.bytes, ['\x7b']⟩ := by
        rw [next?, tokens_eq, List.find?_append, found, List.find?_cons]
        simp [within]
      rw [headerEnd, next_eq]
      simp [unnamed, within]
  | some token =>
      have next_eq : next? (front ++ '\x7b' :: back) keyword.stop =
          some token := by
        rw [next?, tokens_eq, List.find?_append, found]
        rfl
      have later : keyword.stop ≤ token.start := by
        simpa using List.find?_some found
      have inside := stop_le_of_mem (List.mem_of_find?_eq_some found)
      have long : token.start ≤ token.stop := Nat.le_add_right _ _
      simp only [headerEnd, next_eq]
      split
      · exact ⟨later.trans long, inside⟩
      · exact ⟨Nat.le_refl _, within⟩

end Headers

end Token

theorem InsertionPoint.ofDocument_of_keyword {document : Text} {keyword : Token}
    (longhand : Token.first? document ≠ some ['\x7b'])
    (found : Token.operationKeyword? document = some keyword) :
    ofDocument document = ofKeyword document keyword.stop := by
  have point := ofDocument_eq document
  cases tokens_eq : tokensOf document with
  | nil =>
      rw [Token.operationKeyword?, tokens_eq] at found
      cases found
  | cons first tokens =>
      have different : first.text ≠ ['\x7b'] := by
        rw [Token.first?, tokens_eq] at longhand
        simpa using longhand
      rw [tokens_eq] at point
      simp only [if_neg different, found] at point
      exact point

namespace VariableDefinitions

section Injection

variable {document before after : Text} {keyword : Token}
  {definitions : VariableDefinitions}

theorem inject_of_headerEnd (written : definitions.isEmpty = false)
    (longhand : Token.first? document ≠ some ['\x7b'])
    (found : Token.operationKeyword? document = some keyword)
    (document_eq : document = before ++ after)
    (end_eq : Token.headerEnd document keyword = before.bytes)
    (closed : endState before = .code) (ends : after.EndsHeader) :
    inject document definitions =
      .ok (before ++ (definitions.render ++ after)) := by
  have point := InsertionPoint.ofDocument_of_keyword longhand found
  have injected := injectedAs_header written found point
  have undeclared := Token.not_declared closed ends
  rw [← document_eq] at undeclared
  rw [end_eq, undeclared] at injected
  rcases injected with ⟨left, right, parts, size_eq, _, run⟩
  rcases Text.eq_of_bytes_eq (parts.symm.trans document_eq) size_eq with ⟨rfl, rfl⟩
  exact run

theorem inject_before_brace (written : definitions.isEmpty = false) {tail : Text}
    (longhand : Token.first? (before ++ '\x7b' :: tail) ≠ some ['\x7b'])
    (closed : endState before = .code)
    (found : Token.operationKeyword? before = some keyword) :
    inject (before ++ '\x7b' :: tail) definitions =
        .ok (before ++ '\x7b' :: tail) ∨
      ∃ start rest, before = start ++ rest ∧ keyword.stop ≤ start.bytes ∧
        (rest ++ '\x7b' :: tail).head? ≠ some '(' ∧
        inject (before ++ '\x7b' :: tail) definitions =
          .ok (start ++ (definitions.render ++ (rest ++ '\x7b' :: tail))) := by
  have whole : Token.operationKeyword? (before ++ '\x7b' :: tail) =
      some keyword := by
    rw [Token.operationKeyword?_append rfl, found]
    rfl
  have within := Token.stop_le_of_mem (List.mem_of_find?_eq_some found)
  rcases Token.headerEnd_le closed within with ⟨reached, inside⟩
  have injected := injectedAs_header written whole
    (InsertionPoint.ofDocument_of_keyword longhand whole)
  split at injected
  · exact .inl injected
  · next undeclared =>
    rcases injected with ⟨start, behind, parts, size_eq, allowed, run⟩
    rw [← size_eq] at reached inside undeclared
    rcases Text.exists_append_of_bytes_le parts.symm inside with
      ⟨rest, before_eq, behind_eq⟩
    have code := allowed.code
    rw [stateAt_append, ← endState_eq] at code
    refine .inr ⟨start, rest, before_eq, reached, ?_, behind_eq ▸ run⟩
    rw [← behind_eq]
    intro opens
    rw [parts] at undeclared
    exact undeclared (Token.declared_of_head? code allowed.whole opens)

end Injection

end VariableDefinitions

end QueryAssembly
