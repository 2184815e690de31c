import QueryAssembly.Field.Occurrence
import QueryAssembly.Proofs.Lexical.Agreement
import QueryAssembly.Proofs.Text.Word

namespace QueryAssembly

/-! Whether a name is the name of a definition depends on the text before it
alone. -/

namespace FieldOccurrence

def openBraces (text : Text) : Nat := (rowsOf text).foldl braceDepthAfter 0

def labelDepth (depth : Nat) (label : Label) : Nat :=
  braceDepthAfter depth ⟨0, label.1, label.2⟩

theorem foldl_braceDepthAfter (depth : Nat) (rows : List Row) :
    rows.foldl braceDepthAfter depth =
      (rows.map Row.label).foldl labelDepth depth := by
  rw [List.foldl_map]
  rfl

theorem foldl_braceDepthAfter_of_braceless {text : Text}
    (braceless : ∀ char ∈ text, char ≠ '\x7b' ∧ char ≠ '\x7d')
    (position : Position) (depth : Nat) :
    (Scanner.rowsFrom position text).foldl braceDepthAfter depth = depth := by
  induction text generalizing position with
  | nil => rfl
  | cons char rest induction =>
      rw [List.forall_mem_cons] at braceless
      rcases braceless with ⟨⟨noOpen, noClose⟩, later⟩
      have same : braceDepthAfter depth
          ⟨position.offset, char, position.state⟩ = depth := by
        simp [braceDepthAfter, noOpen, noClose]
      rw [Scanner.rowsFrom, List.foldl_cons, same]
      exact induction later (position.after char)

theorem openBraces_append {front : Text} (closed : endState front = .code)
    (balanced : openBraces front = 0) (text : Text) :
    openBraces (front ++ text) = openBraces text := by
  simp only [openBraces, foldl_braceDepthAfter] at balanced ⊢
  have labels : (rowsOf (front ++ text)).map Row.label = _ :=
    labelsOf_append closed text
  have balanced' : (labelsOf front).foldl labelDepth 0 = 0 := balanced
  rw [labels, List.foldl_append, balanced']
  rfl

theorem braceDepthInCode_append (before rest : Text) :
    braceDepthInCode (before ++ rest) before.bytes =
      if endState before = .code then some (openBraces before) else none := by
  simp only [braceDepthInCode, Scanner.takeWhile_rowsOf, stateAt_append, endState_eq]
  rfl

/-- Whether a name that stands right after a text is the name of a definition. -/
def isDefinitionName (before : Text) : Bool :=
  let trimmed := before.trimEnd
  trimmed.length != before.length && isDefinitionKeyword trimmed.lastWord &&
    (endState trimmed.beforeLastWord == .code &&
      openBraces trimmed.beforeLastWord == 0)

theorem trimEnd_append_blanks (text : Text) :
    ∃ blanks, text = text.trimEnd ++ blanks ∧
      ∀ char ∈ blanks, Text.isBlank char := by
  refine ⟨(text.reverse.takeWhile Text.isBlank).reverse, ?_,
    fun char member => List.mem_takeWhile_imp (List.mem_reverse.mp member)⟩
  rw [Text.trimEnd, ← List.reverse_append, List.takeWhile_append_dropWhile,
    List.reverse_reverse]

theorem namesDefinition_append (before rest : Text) :
    namesDefinition (before ++ rest) before = isDefinitionName before := by
  rcases trimEnd_append_blanks before with ⟨blanks, before_eq, _⟩
  have words := Text.beforeLastWord_append_lastWord before.trimEnd
  have offset : before.trimEnd.bytes - Text.bytes before.trimEnd.lastWord =
      Text.bytes before.trimEnd.beforeLastWord := by
    have total := congrArg Text.bytes words
    rw [Text.bytes_append] at total
    omega
  have shape : before ++ rest = before.trimEnd.beforeLastWord ++
      (before.trimEnd.lastWord ++ (blanks ++ rest)) := by
    rw [← List.append_assoc, words, ← List.append_assoc, ← before_eq]
  have depth := braceDepthInCode_append before.trimEnd.beforeLastWord
    (before.trimEnd.lastWord ++ (blanks ++ rest))
  rw [← shape, ← offset] at depth
  simp only [namesDefinition, isDefinitionName]
  rw [← Text.lastWord, depth]
  by_cases same : before.trimEnd.length = before.length
  · simp [same]
  · have shorter : (before.trimEnd.length != before.length) = true :=
      bne_iff_ne.mpr same
    rw [if_neg same, shorter, Bool.true_and]
    by_cases code : endState before.trimEnd.beforeLastWord = .code
    · simp [code]
    · simp [code]

end FieldOccurrence

end QueryAssembly
