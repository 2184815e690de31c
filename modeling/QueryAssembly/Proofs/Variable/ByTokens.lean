import QueryAssembly.Proofs.Variable.KeywordSearch

namespace QueryAssembly

/-! Where variable definitions go, read off the tokens of the document. The
insertion of definitions agrees with it. -/

open FieldOccurrence (braceDepthInCode openBraces)

namespace Token

def next? (document : Text) (offset : Nat) : Option Token :=
  (tokensOf document).find? fun token => offset ≤ token.start

/-- The end of the name that follows a keyword, or of the keyword itself when
what follows is no name. -/
def headerEnd (document : Text) (keyword : Token) : Nat :=
  match next? document keyword.stop with
  | some token => if token.text.IsName then token.stop else keyword.stop
  | none => keyword.stop

/-- What is inserted into a document for a list of definitions, and where. -/
def insertion? (document list : Text) : Option (Nat × Text) :=
  match tokensOf document with
  | [] => none
  | first :: _ =>
      if first.text = ['\x7b'] then
        some (first.start, OperationKind.query.keyword ++ list ++ [' '])
      else
        match operationKeyword? document with
        | none => none
        | some keyword =>
            if (next? document (headerEnd document keyword)).any fun token =>
                token.text == ['('] then
              none
            else
              some (headerEnd document keyword, list)

end Token

namespace InsertionPoint

section Header

variable {front tail : Text}

theorem find?_eq_head? {α : Type} {holds : α → Bool} {values : List α}
    (all : ∀ value ∈ values, holds value) : values.find? holds = values.head? := by
  cases values with
  | nil => rfl
  | cons value values =>
      rw [List.find?_cons, all value List.mem_cons_self]
      rfl

theorem next?_append
    (boundary : front.getLast?.any Text.isNameContinue = false ∨
      tail.continuesName = false) :
    Token.next? (front ++ tail) front.bytes =
      (Token.readFrom (.past .start front) tail).head? := by
  have offset_eq := Position.offset_past_start front
  have passed : (Token.readFrom .start front).find? (fun token =>
      front.bytes ≤ token.start) = none := by
    rw [List.find?_eq_none]
    intro token member
    have bounds := Token.bounds_of_mem member
    simp only [Position.start, Nat.zero_add] at bounds
    simpa using bounds.2
  have behind : ∀ token ∈ Token.readFrom (.past .start front) tail,
      decide (front.bytes ≤ token.start) := by
    intro token member
    have bounds := Token.bounds_of_mem member
    rw [offset_eq] at bounds
    exact decide_eq_true bounds.1
  have reached := find?_eq_head? behind
  rw [Token.next?, tokensOf, Token.readFrom_append .start boundary,
    List.find?_append, passed, reached]
  rfl

theorem next?_eq (code : (Position.start.past front).state = .code)
    (boundary : front.getLast?.any Text.isNameContinue = false ∨
      tail.continuesName = false) :
    Token.next? (front ++ tail) front.bytes =
      if Text.afterIgnored false tail = [] then none
      else some ⟨front.bytes + tail.ignoredLength,
        Token.leading (Text.afterIgnored false tail)⟩ := by
  rw [next?_append boundary, Token.head?_readFrom code,
    Position.offset_past_start]

theorem any_next?_eq {sign : Char} (apart : Text.isNameContinue sign = false)
    (code : (Position.start.past front).state = .code)
    (boundary : front.getLast?.any Text.isNameContinue = false ∨
      tail.continuesName = false) :
    ((Token.next? (front ++ tail) front.bytes).any fun token =>
        token.text == [sign]) =
      ((Text.afterIgnored false tail).head? == some sign) := by
  rw [next?_eq code boundary, Bool.eq_iff_iff]
  split
  · next empty => simp [empty]
  · simp [Token.leading_eq_iff apart]

theorem exists_header (code : (Position.start.past front).state = .code)
    (stops : tail.continuesName = false) :
    ∃ header rest, front ++ tail = header ++ rest ∧
      (Position.start.past header).state = .code ∧
      openBraces header = openBraces front ∧ rest.continuesName = false ∧
      (∀ keyword : Token, keyword.stop = front.bytes →
        Token.headerEnd (front ++ tail) keyword = header.bytes) ∧
      ofKeyword (front ++ tail) front.bytes =
        .ok (atHeaderEnd rest header.bytes) := by
  have next_eq := next?_eq code (.inr stops)
  have name_eq := Token.leadingName_eq (Text.afterIgnored false tail)
  by_cases isName : (Token.leading (Text.afterIgnored false tail)).IsName
  · rcases Token.exists_gap_name code isName with
      ⟨gap, rest, tail_eq, named, ignored, gapCode, restStops⟩
    have nonempty : Text.afterIgnored false tail ≠ [] := by
      intro empty
      rw [empty] at isName
      exact isName.isWord.1 rfl
    rw [if_neg nonempty, Token.ignoredLength_eq tail_eq] at next_eq
    generalize Token.leading (Text.afterIgnored false tail) = name at *
    rw [named] at tail_eq
    have after_eq : Text.afterIgnored false (gap ++ (name ++ rest)) =
        name ++ rest := by rw [← tail_eq, named]
    refine ⟨front ++ (gap ++ name), rest, ?_, ?_, ?_, restStops, ?_, ?_⟩
    · simp [tail_eq]
    · rw [Position.past_append, Position.past_append]
      exact Position.state_past_of_isNameContinue gapCode isName.isWord.2
    · rw [← List.append_assoc, openBraces_append_word _ isName.isWord.2]
      exact openBraces_append_of_ignored front ignored
    · intro keyword stop_eq
      rw [Token.headerEnd, stop_eq, next_eq]
      simp [isName, Token.stop, Nat.add_assoc]
    · rw [tail_eq]
      exact ofKeyword_named front gap isName restStops after_eq
  · rw [if_neg isName] at name_eq
    refine ⟨front, tail, rfl, code, rfl, stops, ?_,
      ofKeyword_unnamed front name_eq⟩
    intro keyword stop_eq
    rw [Token.headerEnd, stop_eq, next_eq]
    by_cases empty : Text.afterIgnored false tail = []
    · rw [if_pos empty]
    · rw [if_neg empty]
      exact if_neg isName

end Header

/-- A place in code and outside all braces that cuts no name in two. -/
structure Allowed (before after : Text) : Prop where
  code : stateAt (before ++ after) before.bytes = .code
  outside : braceDepthInCode (before ++ after) before.bytes = some 0
  whole : before.getLast?.any Text.isNameContinue = false ∨
    after.continuesName = false

theorem allowed_of_openBraces {before after : Text}
    (code : (Position.start.past before).state = .code)
    (outside : openBraces before = 0)
    (whole : before.getLast?.any Text.isNameContinue = false ∨
      after.continuesName = false) : Allowed before after where
  code := (stateAt_append before after).trans code
  outside := by
    rw [FieldOccurrence.braceDepthInCode_append, endState_eq, if_pos code, outside]
  whole := whole

end InsertionPoint

namespace VariableDefinitions

def InjectedAs (document : Text) (definitions : VariableDefinitions) :
    Option (Nat × Text) → Prop
  | none => inject document definitions = .ok document
  | some (offset, inserted) => ∃ before after,
      document = before ++ after ∧ before.bytes = offset ∧
        InsertionPoint.Allowed before after ∧
        inject document definitions = .ok (before ++ (inserted ++ after))

section Injection

variable {document : Text} {definitions : VariableDefinitions}

theorem injectedAs_shorthand (written : definitions.isEmpty = false)
    {first : Token} {tokens : List Token}
    (tokens_eq : tokensOf document = first :: tokens)
    (brace : first.text = ['\x7b']) :
    InjectedAs document definitions (some (first.start,
      OperationKind.query.keyword ++ definitions.render ++ [' '])) := by
  have start_code : Position.start.state = .code := rfl
  have head : (Token.readFrom .start document).head? = some first :=
    congrArg List.head? tokens_eq
  rcases Token.exists_of_head? start_code head with
    ⟨gap, rest, document_eq, ignored, code, first_eq⟩
  have offset : first.start = gap.bytes := by
    rw [first_eq]
    exact Nat.zero_add _
  have leading : Token.leading rest = ['\x7b'] := by
    rw [← brace, first_eq]
  have noName : rest.continuesName = false := by
    rw [Text.continuesName, (Token.leading_eq_iff rfl rest).mp leading]
    rfl
  have point : InsertionPoint.ofDocument document =
      .ok (.shorthandQuery gap.bytes) := by
    rw [InsertionPoint.ofDocument_eq, tokens_eq]
    simp only [brace, if_true, offset]
  refine ⟨gap, rest, document_eq, offset.symm, ?_, ?_⟩
  · apply InsertionPoint.allowed_of_openBraces code
    · exact openBraces_append_of_ignored [] ignored
    · exact .inr noName
  · rw [inject, written, point, document_eq]
    simp [Text.cut_append]

theorem injectedAs_header (written : definitions.isEmpty = false)
    {keyword : Token} (found : Token.operationKeyword? document = some keyword)
    (point : InsertionPoint.ofDocument document =
      InsertionPoint.ofKeyword document keyword.stop) :
    InjectedAs document definitions
      (if (Token.next? document (Token.headerEnd document keyword)).any
          fun token => token.text == ['('] then none
        else some (Token.headerEnd document keyword, definitions.render)) := by
  have begins : Token.beginsOperation document keyword := List.find?_some found
  rcases Token.exists_of_mem (List.mem_of_find?_eq_some found) with
    ⟨before, after, document_eq, _, start_eq, code, stops⟩
  have start : keyword.start = before.bytes := by
    rw [start_eq]
    exact Nat.zero_add _
  have keyword_eq : keyword = ⟨before.bytes, keyword.text⟩ := by rw [← start]
  rw [keyword_eq, InsertionPoint.beginsOperation_eq document_eq code,
    Bool.and_eq_true, beq_iff_eq] at begins
  have isName := InsertionPoint.isName_of_isOperationKeyword begins.1
  have stop : keyword.stop = Text.bytes (before ++ keyword.text) := by
    rw [Token.stop, start, Text.bytes_append]
  have keywordCode : (Position.start.past (before ++ keyword.text)).state =
      .code := by
    rw [Position.past_append]
    exact Position.state_past_of_isNameContinue code isName.isWord.2
  rw [← List.append_assoc] at document_eq
  rcases InsertionPoint.exists_header keywordCode (stops isName.isWord) with
    ⟨header, rest, header_eq, headerCode, depth_eq, headerStops, end_eq, run⟩
  rw [openBraces_append_word before isName.isWord.2, begins.2] at depth_eq
  rw [← document_eq] at end_eq header_eq run
  have apart : Text.isNameContinue '(' = false := rfl
  have decides := InsertionPoint.any_next?_eq apart headerCode (.inr headerStops)
  rw [← header_eq] at decides
  rw [stop, run] at point
  rw [end_eq keyword stop, decides]
  by_cases declared : (Text.afterIgnored false rest).head? = some '('
  · rw [InsertionPoint.atHeaderEnd, if_pos declared] at point
    rw [if_pos (beq_iff_eq.mpr declared), InjectedAs, inject, written, point]
    rfl
  · rw [InsertionPoint.atHeaderEnd, if_neg declared] at point
    rw [if_neg (declared ∘ beq_iff_eq.mp)]
    refine ⟨header, rest, header_eq, rfl, ?_, ?_⟩
    · exact InsertionPoint.allowed_of_openBraces headerCode depth_eq
        (.inr headerStops)
    · rw [inject, written, point, header_eq]
      simp [Text.cut_append]

/-- Definitions are inserted where the tokens of the document tell, and what
was there before stays around them. -/
theorem inject_by_tokens (document : Text)
    (written : definitions.isEmpty = false) :
    InjectedAs document definitions
      (Token.insertion? document definitions.render) := by
  have point := InsertionPoint.ofDocument_eq document
  have unchanged (nowhere : InsertionPoint.ofDocument document = .ok .nowhere) :
      InjectedAs document definitions none := by
    rw [InjectedAs, inject, written, nowhere]
    rfl
  cases tokens_eq : tokensOf document with
  | nil =>
      rw [tokens_eq] at point
      rw [Token.insertion?, tokens_eq]
      exact unchanged point
  | cons first tokens =>
      rw [tokens_eq] at point
      by_cases brace : first.text = ['\x7b']
      · have shorthand := injectedAs_shorthand written tokens_eq brace
        rw [Token.insertion?, tokens_eq]
        simp only [if_pos brace]
        exact shorthand
      · simp only [if_neg brace] at point
        rw [Token.insertion?, tokens_eq]
        simp only [if_neg brace]
        cases found : Token.operationKeyword? document with
        | none =>
            rw [found] at point
            exact unchanged point
        | some keyword =>
            rw [found] at point
            exact injectedAs_header written found point

end Injection

def commentedQuery : Text :=
  "# all\nquery # by number\n Users # now\n \x7b name \x7d".toList

def numbered : VariableDefinitions :=
  .add ∅ (.declare "id".toList "ID!".toList none)

theorem inject_by_tokens_commented :
    numbered.isEmpty = false ∧
      InjectedAs commentedQuery numbered (some (30, "($id: ID!)".toList)) := by
  have written : numbered.isEmpty = false := rfl
  have insertion : Token.insertion? commentedQuery numbered.render =
      some (30, "($id: ID!)".toList) := by
    decide +kernel
  have injected := inject_by_tokens commentedQuery written
  rw [insertion] at injected
  exact ⟨written, injected⟩

end VariableDefinitions

end QueryAssembly
