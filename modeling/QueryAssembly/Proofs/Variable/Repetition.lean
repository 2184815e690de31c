import Mathlib.Data.List.Find
import QueryAssembly.Proofs.Variable.KeywordSearch

namespace QueryAssembly

/-! Definitions are declared once. The search for the first operation depends on
the text before its keyword alone, so it comes to the same header when a list has
been inserted there, and it leaves the list that it finds as it is. -/

open FieldOccurrence (openBraces)

namespace Text

theorem afterIgnored_append {position : Position} (inside : Bool)
    (state_eq : position.state = if inside then .comment else .code) {gap : Text}
    (ignored : ∀ row ∈ Scanner.rowsFrom position gap, row.isIgnored)
    (code : (position.past gap).state = .code) (text : Text) :
    afterIgnored inside (gap ++ text) = afterIgnored false text := by
  induction gap generalizing position inside with
  | nil =>
      have outside : inside = false := by
        by_contra comment
        rw [Position.past_nil, state_eq, if_pos (by simpa using comment)] at code
        cases code
      rw [outside, List.nil_append]
  | cons char gap induction =>
      rw [Scanner.rowsFrom, List.forall_mem_cons] at ignored
      have onward := fun inside state_eq =>
        induction inside state_eq ignored.2 code
      cases inside with
      | true =>
          rw [List.cons_append, afterIgnored]
          apply onward
          have comment : position.state = .comment := state_eq
          by_cases ends : char = '\n' ∨ char = '\r'
          · rcases ends with rfl | rfl <;>
              simp [Position.after, comment, LexicalState.next]
          · rw [not_or] at ends
            simp [Position.after, comment, LexicalState.next, ends]
      | false =>
          have outside : position.state = .code := state_eq
          rw [List.cons_append, afterIgnored]
          by_cases blank : isBlank char
          · rw [if_pos blank]
            exact onward false (Position.state_after_of_plain outside
              (Token.isPlain_of_isBlank blank))
          · have comment : char = '#' := by
              have here := Row.isIgnored_iff.mp ignored.1
              simpa [outside, blank] using here
            rw [if_neg blank, if_pos (by simp [comment])]
            apply onward
            simp [Position.after, outside, comment, LexicalState.next,
              Quote.mark]

end Text

namespace Token

variable {front rest : Text}

theorem beginsOperation_append {token : Token} (member : token ∈ tokensOf front)
    (rest : Text) :
    beginsOperation (front ++ rest) token = beginsOperation front token := by
  rcases exists_of_mem_tokensOf member with
    ⟨before, after, front_eq, token_eq, closed, _⟩
  have whole_eq : front ++ rest = before ++ (token.text ++ (after ++ rest)) := by
    rw [front_eq]
    simp
  rw [endState_eq] at closed
  rw [token_eq, InsertionPoint.beginsOperation_eq whole_eq closed,
    InsertionPoint.beginsOperation_eq front_eq closed]

theorem operationKeyword?_append (stops : rest.continuesName = false) :
    operationKeyword? (front ++ rest) = (operationKeyword? front).or
      ((readFrom (.past .start front) rest).find?
        (beginsOperation (front ++ rest))) := by
  have tokens_eq : tokensOf (front ++ rest) =
      tokensOf front ++ readFrom (.past .start front) rest :=
    readFrom_append .start (.inr stops)
  have front_eq : (tokensOf front).find? (beginsOperation (front ++ rest)) =
      operationKeyword? front :=
    List.find?_congr fun token member => beginsOperation_append member rest
  rw [operationKeyword?, tokens_eq, List.find?_append, front_eq]

theorem operationKeyword?_of_append {keyword : Token}
    (stops : rest.continuesName = false)
    (found : operationKeyword? (front ++ rest) = some keyword)
    (within : keyword.start < front.bytes) :
    operationKeyword? front = some keyword := by
  rw [operationKeyword?_append stops, Option.or_eq_some_iff] at found
  rcases found with found | ⟨_, found⟩
  · exact found
  · have bounds := bounds_of_mem (List.mem_of_find?_eq_some found)
    rw [Position.offset_past_start] at bounds
    omega

end Token

namespace InsertionPoint

/-! The search comes back to the keyword that it found before, and to a list behind it. -/

/-- A text that ends with the keyword of its first operation. -/
structure EndsInKeyword (front : Text) : Prop where
  code : (Position.start.past front).state = .code
  found : ∃ keyword, Token.operationKeyword? front = some keyword ∧
    keyword.stop = front.bytes
  longhand : ∀ first ∈ (tokensOf front).head?, first.text ≠ ['\x7b']

variable {front tail : Text}

theorem EndsInKeyword.ofDocument_eq (ends : EndsInKeyword front)
    (stops : tail.continuesName = false) :
    ofDocument (front ++ tail) = ofKeyword (front ++ tail) front.bytes := by
  rcases ends.found with ⟨keyword, found, stop⟩
  have keyword_eq : Token.operationKeyword? (front ++ tail) = some keyword := by
    rw [Token.operationKeyword?_append stops, found]
    rfl
  have tokens_eq : tokensOf (front ++ tail) =
      tokensOf front ++ Token.readFrom (.past .start front) tail :=
    Token.readFrom_append .start (.inr stops)
  have point := InsertionPoint.ofDocument_eq (front ++ tail)
  have longhand := ends.longhand
  cases front_eq : tokensOf front with
  | nil =>
      rw [Token.operationKeyword?, front_eq] at found
      cases found
  | cons first tokens =>
      rw [front_eq] at longhand
      rw [tokens_eq, front_eq, List.cons_append, keyword_eq] at point
      simp only [if_neg (longhand first rfl), stop] at point
      exact point

theorem exists_endsInKeyword {document : Text} {first keyword : Token}
    {tokens : List Token} (tokens_eq : tokensOf document = first :: tokens)
    (longhand : first.text ≠ ['\x7b'])
    (found : Token.operationKeyword? document = some keyword) :
    ∃ front tail, document = front ++ tail ∧ EndsInKeyword front ∧
      tail.continuesName = false := by
  have begins : Token.beginsOperation document keyword := List.find?_some found
  rcases Token.exists_of_mem (List.mem_of_find?_eq_some found) with
    ⟨before, after, document_eq, nonempty, start_eq, code, stops⟩
  rw [Token.beginsOperation, Bool.and_eq_true] at begins
  have isWord := (isName_of_isOperationKeyword begins.1).isWord
  have start : keyword.start = before.bytes := start_eq.trans (Nat.zero_add _)
  have within : keyword.start < Text.bytes (before ++ keyword.text) := by
    rcases List.exists_cons_of_ne_nil nonempty with ⟨char, others, text_eq⟩
    have positive := char.utf8Size_pos
    rw [start, Text.bytes_append, text_eq, Text.bytes_cons]
    omega
  rw [← List.append_assoc] at document_eq
  rw [document_eq] at found tokens_eq
  have keyword_eq := Token.operationKeyword?_of_append (stops isWord) found within
  refine ⟨before ++ keyword.text, after, document_eq, ⟨?_, ?_, ?_⟩, stops isWord⟩
  · rw [Position.past_append]
    exact Position.state_past_of_isNameContinue code isWord.2
  · refine ⟨keyword, keyword_eq, ?_⟩
    rw [Token.stop, start, Text.bytes_append]
  · intro head member
    have split : tokensOf ((before ++ keyword.text) ++ after) =
        tokensOf (before ++ keyword.text) ++ _ :=
      Token.readFrom_append .start (.inr (stops isWord))
    rcases List.head?_eq_some_iff.mp member with ⟨others, front_eq⟩
    rw [split, front_eq] at tokens_eq
    rwa [(List.cons.inj tokens_eq).1]

theorem exists_ofKeyword (code : (Position.start.past front).state = .code)
    (stops : tail.continuesName = false) :
    ∃ name rest, tail = name ++ rest ∧
      ofKeyword (front ++ tail) front.bytes =
        .ok (atHeaderEnd rest (Text.bytes (front ++ name))) ∧
      ∀ inner : Text, Text.continuesName (name ++ '(' :: inner) = false ∧
        ofKeyword (front ++ (name ++ '(' :: inner)) front.bytes =
          .ok .alreadyDeclared := by
  have name_eq := Token.leadingName_eq (Text.afterIgnored false tail)
  by_cases isName : (Token.leading (Text.afterIgnored false tail)).IsName
  · rcases Token.exists_gap_name code isName with
      ⟨gap, rest, tail_eq, named, ignored, gapCode, restStops⟩
    generalize Token.leading (Text.afterIgnored false tail) = name at *
    have after_eq : ∀ onward, Text.afterIgnored false (gap ++ (name ++ onward)) =
        name ++ onward := by
      intro onward
      rw [Text.afterIgnored_append false code ignored gapCode,
        Text.afterIgnored_of_isName isName]
    have starts : ∀ onward,
        Text.continuesName (gap ++ (name ++ onward)) = false := by
      intro onward
      rcases List.exists_cons_of_ne_nil isName.1 with ⟨first, others, rfl⟩
      have continues := isName.isWord.2 first List.mem_cons_self
      rw [tail_eq, named] at stops
      cases gap with
      | nil => simp [Text.continuesName, continues] at stops
      | cons blank gap => exact stops
    refine ⟨gap ++ name, rest, ?_, ?_, fun inner => ⟨?_, ?_⟩⟩
    · rw [List.append_assoc, ← named, ← tail_eq]
    · rw [tail_eq, named]
      exact ofKeyword_named front gap isName restStops (after_eq rest)
    · rw [List.append_assoc]
      exact starts _
    · rw [List.append_assoc, ofKeyword_named front gap isName rfl (after_eq _)]
      rfl
  · rw [if_neg isName] at name_eq
    refine ⟨[], tail, rfl, ?_, fun inner => ⟨rfl, ?_⟩⟩
    · rw [List.append_nil]
      exact ofKeyword_unnamed front name_eq
    · exact ofKeyword_unnamed front rfl

theorem exists_afterHeader (ends : EndsInKeyword front)
    (stops : tail.continuesName = false) :
    ofDocument (front ++ tail) = .ok .alreadyDeclared ∨
      ∃ header rest, front ++ tail = header ++ rest ∧
        ofDocument (front ++ tail) = .ok (.afterHeader header.bytes) ∧
        ∀ inner, ofDocument (header ++ '(' :: inner) = .ok .alreadyDeclared := by
  rcases exists_ofKeyword ends.code stops with
    ⟨name, rest, tail_eq, run, declared⟩
  rw [ends.ofDocument_eq stops, run, atHeaderEnd]
  split
  · exact .inl rfl
  · refine .inr ⟨front ++ name, rest, by rw [tail_eq, List.append_assoc], rfl, ?_⟩
    intro inner
    rw [List.append_assoc, ends.ofDocument_eq (declared inner).1]
    exact (declared inner).2

theorem endsInKeyword_query {gap : Text}
    (ignored : ∀ row ∈ Scanner.rowsFrom .start gap, row.isIgnored)
    (code : (Position.start.past gap).state = .code) :
    EndsInKeyword (gap ++ OperationKind.query.keyword) := by
  have isWord := (Operation.keyword_isName .query).isWord
  have tokens_eq : tokensOf (gap ++ OperationKind.query.keyword) =
      [⟨gap.bytes, OperationKind.query.keyword⟩] := by
    rw [tokensOf, Token.readFrom_append_of_ignored ignored,
      Token.readFrom_word code isWord, Position.offset_past_start]
  have outside : openBraces gap = 0 := openBraces_append_of_ignored [] ignored
  have begins : Token.beginsOperation (gap ++ OperationKind.query.keyword)
      ⟨gap.bytes, OperationKind.query.keyword⟩ := by
    rw [beginsOperation_eq rfl code, outside]
    rfl
  refine ⟨?_, ⟨⟨gap.bytes, OperationKind.query.keyword⟩, ?_, ?_⟩, ?_⟩
  · rw [Position.past_append]
    exact Position.state_past_of_isNameContinue code isWord.2
  · rw [Token.operationKeyword?, tokens_eq, List.find?_cons, begins]
  · rw [Token.stop, Text.bytes_append]
  · rw [tokens_eq]
    rintro first ⟨⟩
    exact of_decide_eq_true rfl

theorem ofDocument_cases (document : Text) :
    ofDocument document = .ok .nowhere ∨
      ofDocument document = .ok .alreadyDeclared ∨
      (∃ header rest, document = header ++ rest ∧
        ofDocument document = .ok (.afterHeader header.bytes) ∧
        ∀ inner, ofDocument (header ++ '(' :: inner) = .ok .alreadyDeclared) ∨
      ∃ gap rest, document = gap ++ rest ∧
        ofDocument document = .ok (.shorthandQuery gap.bytes) ∧
        ∀ inner, ofDocument ((gap ++ OperationKind.query.keyword) ++
          '(' :: inner) = .ok .alreadyDeclared := by
  have start_code : Position.start.state = .code := rfl
  have point := ofDocument_eq document
  cases tokens_eq : tokensOf document with
  | nil =>
      rw [tokens_eq] at point
      exact .inl point
  | cons first tokens =>
      rw [tokens_eq] at point
      by_cases brace : first.text = ['\x7b']
      · have head : (Token.readFrom .start document).head? = some first :=
          congrArg List.head? tokens_eq
        rcases Token.exists_of_head? start_code head with
          ⟨gap, rest, document_eq, ignored, code, first_eq⟩
        have ends := endsInKeyword_query ignored code
        have start : first.start = gap.bytes := by
          rw [first_eq]
          exact Nat.zero_add _
        simp only [brace, if_true, start] at point
        refine .inr (.inr (.inr ⟨gap, rest, document_eq, point, fun inner => ?_⟩))
        rw [ends.ofDocument_eq rfl]
        exact ofKeyword_unnamed _ rfl
      · simp only [if_neg brace] at point
        cases found : Token.operationKeyword? document with
        | none =>
            rw [found] at point
            exact .inl point
        | some keyword =>
            rcases exists_endsInKeyword tokens_eq brace found with
              ⟨front, tail, document_eq, ends, stops⟩
            rw [document_eq]
            rcases exists_afterHeader ends stops with declared | inserted
            · exact .inr (.inl declared)
            · exact .inr (.inr (.inl inserted))

end InsertionPoint

namespace VariableDefinitions

variable {document : Text} {definitions : VariableDefinitions}

theorem inject_of_declared
    (point : InsertionPoint.ofDocument document = .ok .alreadyDeclared)
    (definitions : VariableDefinitions) :
    inject document definitions = .ok document := by
  rw [inject, point]
  split <;> rfl

theorem inject_of_nowhere
    (point : InsertionPoint.ofDocument document = .ok .nowhere)
    (definitions : VariableDefinitions) :
    inject document definitions = .ok document := by
  rw [inject, point]
  split <;> rfl

theorem exists_render_eq (written : definitions.isEmpty = false) :
    ∃ inner, definitions.render = '(' :: inner := by
  rw [render, written]
  exact ⟨_, rfl⟩

/-- A document that has been given definitions takes no others. -/
theorem inject_inject (document : Text) {first : VariableDefinitions}
    (written : first.isEmpty = false) (second : VariableDefinitions) :
    ∃ injected, inject document first = .ok injected ∧
      inject injected second = .ok injected := by
  rcases exists_render_eq written with ⟨inner, list_eq⟩
  rcases InsertionPoint.ofDocument_cases document with
    nowhere | declared | ⟨header, rest, rfl, point, later⟩ |
      ⟨gap, rest, rfl, point, later⟩
  · exact ⟨document, inject_of_nowhere nowhere first,
      inject_of_nowhere nowhere second⟩
  · exact ⟨document, inject_of_declared declared first,
      inject_of_declared declared second⟩
  · refine ⟨header ++ '(' :: (inner ++ rest), ?_, ?_⟩
    · rw [inject, written, point]
      simp [Text.cut_append, list_eq]
    · exact inject_of_declared (later _) second
  · refine ⟨(gap ++ OperationKind.query.keyword) ++ '(' :: (inner ++ ' ' :: rest),
      ?_, ?_⟩
    · rw [inject, written, point]
      simp [Text.cut_append, list_eq]
    · exact inject_of_declared (later _) second

def paged : VariableDefinitions :=
  .add ∅ (.declare "$first".toList "Int".toList (some (.int 10)))

def filtered : VariableDefinitions :=
  .add paged (.declare "name".toList "String".toList (some (.string "(".toList)))

def shorthand : Text := "# all\n\x7b users \x7d".toList

def longhand : Text :=
  "# all\nquery($first: Int = 10, $name: String = \"(\") \x7b users \x7d".toList

theorem inject_inject_shorthand :
    filtered.isEmpty = false ∧ inject shorthand filtered = .ok longhand ∧
      inject longhand paged = .ok longhand := by
  have written : filtered.isEmpty = false := rfl
  have first : inject shorthand filtered = .ok longhand := by decide +kernel
  rcases inject_inject shorthand written paged with ⟨injected, run, again⟩
  obtain rfl := Except.ok.inj (first.symm.trans run)
  exact ⟨written, run, again⟩

section Rendering

variable {operation : Operation}

/-- Definitions inserted into the text of an operation stand where the operation
writes them itself, and there they are not inserted again. -/
theorem inject_render (named : operation.IsNamed)
    (selected : operation.tree.isEmpty = false)
    (definitions : VariableDefinitions) :
    ∃ bare written, operation.render ∅ = .ok bare ∧
      operation.render definitions = .ok written ∧
      inject bare definitions = .ok written ∧
      inject written definitions = .ok written := by
  have none : (∅ : VariableDefinitions).render = [] := render_of_isEmpty rfl
  refine ⟨operation.header ++ operation.body,
    operation.header ++ (definitions.render ++ operation.body), ?_, ?_, ?_, ?_⟩
  · rw [Operation.render_eq selected, none, List.nil_append]
  · exact Operation.render_eq selected definitions
  · exact inject_guarded named definitions (Operation.guarded_body operation)
  · by_cases empty : definitions.isEmpty
    · rw [inject, if_pos empty]
    · rcases exists_render_eq (Bool.not_eq_true _ ▸ empty) with ⟨inner, list_eq⟩
      rw [list_eq]
      exact inject_declared named definitions _

def calledQuery : Operation where
  kind := .mutation
  name := some "query".toList
  tree := ((SelectionTree.openObject ∅ ⟨"users".toList,
    .ofList [("text".toList, .string "query (".toList)],
    some "mutation".toList⟩).1.addField ⟨"name".toList, ∅, none⟩).1

theorem inject_render_calledQuery :
    calledQuery.IsNamed ∧ calledQuery.tree.isEmpty = false ∧
      ∃ bare written, calledQuery.render ∅ = .ok bare ∧
        calledQuery.render filtered = .ok written ∧
        inject bare filtered = .ok written ∧
        inject written filtered = .ok written := by
  have named : calledQuery.IsNamed := by
    rintro name ⟨⟩
    decide
  exact ⟨named, rfl, inject_render named rfl filtered⟩

end Rendering

end VariableDefinitions

end QueryAssembly
