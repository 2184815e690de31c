import QueryAssembly.Proofs.Lexical.Token
import QueryAssembly.Proofs.Variable.Header

namespace QueryAssembly

/-! A document that begins with the header of an operation has its definitions
inserted right after that header, unless it has a list there already. -/

namespace Text

theorem onward_ignoredLength (text : Text) :
    text.onward text.ignoredLength = .ok (afterIgnored false text) := by
  have start_code : Position.start.state = .code := rfl
  rcases Token.exists_gap false start_code text with ⟨gap, text_eq, _⟩
  have found := onward_append gap (afterIgnored false text)
  rwa [← text_eq, ← Token.ignoredLength_eq text_eq] at found

theorem afterIgnored_of_isName {name : Text} (isName : name.IsName)
    (rest : Text) : afterIgnored false (name ++ rest) = name ++ rest := by
  rcases List.exists_cons_of_ne_nil isName.1 with ⟨first, others, rfl⟩
  have continues := isName.isWord.2 first List.mem_cons_self
  have solid := not_isBlank_of_isNameContinue continues
  have comment : first ≠ '#' := ne_of_isNameContinue continues rfl
  simp [afterIgnored, solid, comment]

end Text

namespace InsertionPoint

def atHeaderEnd (tail : Text) (headerEnd : Nat) : InsertionPoint :=
  if (Text.afterIgnored false tail).head? = some '(' then .alreadyDeclared
  else .afterHeader headerEnd

theorem ofKeyword_unnamed (keyword : Text) {tail : Text}
    (unnamed : (Text.afterIgnored false tail).leadingName = []) :
    ofKeyword (keyword ++ tail) keyword.bytes =
      .ok (atHeaderEnd tail keyword.bytes) := by
  have none : Text.nameLength (Text.afterIgnored false tail) = 0 := by
    rw [Text.nameLength, unnamed, Text.bytes_nil]
  simp only [ofKeyword, Text.onward_append, ok_bind, Text.onward_ignoredLength,
    none, if_true]
  rfl

theorem ofKeyword_named (keyword gap : Text) {name tail : Text}
    (isName : name.IsName) (stops : tail.continuesName = false)
    (ignored : Text.afterIgnored false (gap ++ (name ++ tail)) = name ++ tail) :
    ofKeyword (keyword ++ (gap ++ (name ++ tail))) keyword.bytes =
      .ok (atHeaderEnd tail (Text.bytes (keyword ++ (gap ++ name)))) := by
  have gap_eq : Text.ignoredLength (gap ++ (name ++ tail)) = gap.bytes := by
    rw [Text.ignoredLength, ignored, Text.bytes_append]
    omega
  have length_eq : Text.nameLength (name ++ tail) = name.bytes := by
    rw [Text.nameLength, isName.leadingName_append stops]
  have positive : name.bytes ≠ 0 := by
    rcases List.exists_cons_of_ne_nil isName.1 with ⟨first, rest, rfl⟩
    have width := first.utf8Size_pos
    rw [Text.bytes_cons]
    omega
  have header_eq : keyword.bytes + gap.bytes + name.bytes =
      Text.bytes (keyword ++ (gap ++ name)) := by
    simp [Nat.add_assoc]
  have shape : keyword ++ (gap ++ (name ++ tail)) =
      (keyword ++ (gap ++ name)) ++ tail := by
    simp
  have afterHeader := Text.onward_append (keyword ++ (gap ++ name)) tail
  rw [← shape] at afterHeader
  simp only [ofKeyword, Text.onward_append, ok_bind, gap_eq,
    Text.onward_ignoredLength, ignored, length_eq, if_neg positive, header_eq,
    afterHeader]
  rfl

theorem ofDocument_keyword (kind : OperationKind) {tail : Text}
    (stops : tail.continuesName = false) :
    ofDocument (kind.keyword ++ tail) =
      ofKeyword (kind.keyword ++ tail) kind.keyword.bytes := by
  have isName := Operation.keyword_isName kind
  have leading := isName.leadingName_append stops
  have found : isOperationKeyword kind.keyword := by cases kind <;> decide
  have onward : Text.onward (kind.keyword ++ tail) 0 =
      .ok (kind.keyword ++ tail) := Text.onward_append [] (kind.keyword ++ tail)
  obtain ⟨first, rest, keyword_eq, comment, opens, closes, solid⟩ :
      ∃ first rest, kind.keyword = first :: rest ∧ first ≠ '#' ∧
        first ≠ '\x7b' ∧ first ≠ '\x7d' ∧ Text.isBlank first = false := by
    cases kind <;> exact ⟨_, _, rfl, by decide⟩
  have rows : rowsOf (kind.keyword ++ tail) = ⟨0, first, .code⟩ ::
      Scanner.rowsFrom (Position.start.after first) (rest ++ tail) := by
    rw [keyword_eq]
    rfl
  rw [ofDocument, rows]
  simp [ofRows, comment, opens, closes, solid, onward, leading, found]

theorem ofDocument_header {operation : Operation} (named : operation.IsNamed)
    {tail : Text} (stops : tail.continuesName = false)
    (unnamed : (Text.afterIgnored false tail).leadingName = []) :
    ofDocument (operation.header ++ tail) =
      .ok (atHeaderEnd tail operation.header.bytes) := by
  cases name_eq : operation.name with
  | none =>
      rw [Operation.header, name_eq, List.append_nil,
        ofDocument_keyword operation.kind stops]
      exact ofKeyword_unnamed operation.kind.keyword unnamed
  | some name =>
      have isName := named name name_eq
      have ignored : Text.afterIgnored false ([' '] ++ (name ++ tail)) =
          name ++ tail := by
        have space : Text.isBlank ' ' = true := rfl
        rw [List.singleton_append, Text.afterIgnored, if_pos space,
          Text.afterIgnored_of_isName isName]
      rw [Operation.header, name_eq, List.append_assoc,
        ofDocument_keyword operation.kind rfl]
      exact ofKeyword_named operation.kind.keyword [' '] isName stops ignored

end InsertionPoint

namespace VariableDefinitions

variable {operation : Operation}

theorem inject_declared (named : operation.IsNamed)
    (definitions : VariableDefinitions) (rest : Text) :
    inject (operation.header ++ '(' :: rest) definitions =
      .ok (operation.header ++ '(' :: rest) := by
  have point : InsertionPoint.ofDocument (operation.header ++ '(' :: rest) =
      .ok _ := InsertionPoint.ofDocument_header named rfl rfl
  by_cases empty : definitions.isEmpty
  · rw [inject, if_pos empty]
  · rw [inject, if_neg empty, point]
    rfl

theorem render_of_isEmpty {definitions : VariableDefinitions}
    (empty : definitions.isEmpty) : definitions.render = [] := by
  rw [render, if_pos empty]

/-- Definitions are inserted where the operation would have written them. -/
theorem inject_guarded (named : operation.IsNamed)
    (definitions : VariableDefinitions) {back : Text} (guarded : Guarded back) :
    inject (operation.header ++ back) definitions =
      .ok (operation.header ++ (definitions.render ++ back)) := by
  rcases guarded with ⟨rest, rfl⟩
  by_cases empty : definitions.isEmpty
  · rw [inject, if_pos empty, render_of_isEmpty empty, List.nil_append]
  · have point : InsertionPoint.ofDocument
        (operation.header ++ ' ' :: '\x7b' :: rest) = .ok _ :=
      InsertionPoint.ofDocument_header named rfl rfl
    have cut := Text.cut_append operation.header (' ' :: '\x7b' :: rest)
    have after : InsertionPoint.atHeaderEnd (' ' :: '\x7b' :: rest)
        operation.header.bytes = .afterHeader operation.header.bytes := rfl
    rw [inject, if_neg empty, point, after]
    simp only [ok_bind, cut, List.append_assoc]
    rfl

end VariableDefinitions

end QueryAssembly
