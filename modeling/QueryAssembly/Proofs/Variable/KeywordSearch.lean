import QueryAssembly.Proofs.Field.DefinitionName
import QueryAssembly.Proofs.Lexical.Token
import QueryAssembly.Proofs.Variable.Insertion

namespace QueryAssembly

/-! The search for the first operation goes by characters and keeps a depth of
braces. It comes to the first token that is an operation keyword outside all
braces, unless a brace is the first token of all. -/

open FieldOccurrence (braceDepthInCode openBraces braceDepthAfter)

namespace Token

def beginsOperation (document : Text) (token : Token) : Bool :=
  isOperationKeyword token.text &&
    braceDepthInCode document token.start == some 0

def operationKeyword? (document : Text) : Option Token :=
  (tokensOf document).find? (beginsOperation document)

end Token

section Depth

theorem braceDepthAfter_of_isIgnored {row : Row} (ignored : row.isIgnored)
    (depth : Nat) : braceDepthAfter depth row = depth := by
  have brace : ∀ char : Char, char = '\x7b' ∨ char = '\x7d' →
      ¬ (row.state = .code ∧ row.char = char) := by
    rintro char isBrace ⟨code, rfl⟩
    rcases Row.isIgnored_iff.mp ignored with other | comment | blank
    · exact other code
    · rw [comment] at isBrace
      exact absurd isBrace (by decide)
    · rcases isBrace with equal | equal <;>
        · rw [equal] at blank
          exact absurd blank (by decide)
  rw [braceDepthAfter, if_neg (brace _ (.inl rfl)), if_neg (brace _ (.inr rfl))]

theorem openBraces_append_eq (front text : Text) :
    openBraces (front ++ text) =
      (Scanner.rowsFrom (.past .start front) text).foldl braceDepthAfter
        (openBraces front) := by
  rw [openBraces, Scanner.rowsOf_append, List.foldl_append]
  rfl

theorem openBraces_append_of_ignored (front : Text) {gap : Text}
    (ignored : ∀ row ∈ Scanner.rowsFrom (.past .start front) gap, row.isIgnored) :
    openBraces (front ++ gap) = openBraces front := by
  rw [openBraces_append_eq]
  generalize Scanner.rowsFrom (.past .start front) gap = rows at ignored
  induction rows with
  | nil => rfl
  | cons row rows induction =>
      rw [List.forall_mem_cons] at ignored
      rw [List.foldl_cons, braceDepthAfter_of_isIgnored ignored.1]
      exact induction ignored.2

theorem openBraces_append_word (front : Text) {word : Text}
    (all : ∀ char ∈ word, Text.isNameContinue char) :
    openBraces (front ++ word) = openBraces front := by
  rw [openBraces_append_eq]
  exact FieldOccurrence.foldl_braceDepthAfter_of_braceless
    (fun char member => Text.brace_apart (all char member)) _ _

end Depth

namespace InsertionPoint

/-! The search passes ignored characters, whole words and signs. -/

section Reading

variable {document passed text : Text} {depth : Nat} {previous : Option Char}
  {seen : Bool}

theorem ofRows_ignored {row : Row} {rows : List Row} (ignored : row.isIgnored) :
    ofRows document depth previous seen (row :: rows) =
      ofRows document depth none seen rows := by
  rw [ofRows, if_pos (Row.isIgnored_iff.mp ignored)]

theorem ofRows_name {offset : Nat} {char : Char} {rows : List Row}
    (continues : Text.isNameContinue char) :
    ofRows document depth previous seen (⟨offset, char, .code⟩ :: rows) =
      if depth = 0 ∧ previous.any Text.isNameContinue = false then do
        let onward ← document.onward offset
        if isOperationKeyword onward.leadingName then
          ofKeyword document (offset + onward.leadingName.bytes)
        else
          ofRows document depth (some char) true rows
      else
        ofRows document depth (some char) true rows := by
  have noticed : Row.isIgnored ⟨offset, char, .code⟩ = false :=
    Row.isIgnored_eq_false_of_isNameContinue rfl continues
  have kept : ¬ (LexicalState.code ≠ .code ∨ char = '#' ∨ Text.isBlank char) := by
    intro holds
    have ignored : Row.isIgnored ⟨offset, char, .code⟩ :=
      Row.isIgnored_iff.mpr holds
    rw [noticed] at ignored
    cases ignored
  have opens : char ≠ '\x7b' := Text.ne_of_isNameContinue continues rfl
  have closes : char ≠ '\x7d' := Text.ne_of_isNameContinue continues rfl
  rw [ofRows, if_neg kept, if_neg opens, if_neg closes]

theorem exists_ofRows_rest {position : Position} {rest : Text}
    (code : position.state = .code)
    (all : ∀ char ∈ rest, Text.isNameContinue char)
    (within : depth = 0 → previous.any Text.isNameContinue) (after : Text) :
    ∃ last, ofRows document depth previous true
        (Scanner.rowsFrom position (rest ++ after)) =
      ofRows document depth last true
        (Scanner.rowsFrom (position.past rest) after) := by
  induction rest generalizing position previous with
  | nil => exact ⟨previous, rfl⟩
  | cons char rest induction =>
      rw [List.forall_mem_cons] at all
      have inside : ¬ (depth = 0 ∧ previous.any Text.isNameContinue = false) := by
        rintro ⟨outside, starts⟩
        rw [within outside] at starts
        cases starts
      have onward := Position.state_after_of_plain code
        (Position.isPlain_of_isNameContinue all.1)
      rw [List.cons_append, Scanner.rowsFrom, code, ofRows_name all.1,
        if_neg inside]
      exact induction onward all.2 fun _ => all.1

theorem isName_of_isOperationKeyword {word : Text}
    (keyword : isOperationKeyword word) : word.IsName := by
  rcases List.any_eq_true.mp keyword with ⟨kind, _, equal⟩
  rw [← beq_iff_eq.mp equal]
  exact Operation.keyword_isName kind

theorem isOperationKeyword_leadingName {word rest : Text} (isWord : word.IsWord)
    (stops : rest.continuesName = false) :
    isOperationKeyword (Text.leadingName (word ++ rest)) =
        isOperationKeyword word ∧
      (isOperationKeyword word → Text.leadingName (word ++ rest) = word) := by
  by_cases isName : word.IsName
  · rw [isName.leadingName_append stops]
    exact ⟨rfl, fun _ => rfl⟩
  · have absent : isOperationKeyword word = false := by
      by_contra found
      exact isName (isName_of_isOperationKeyword (Bool.not_eq_false _ ▸ found))
    rcases List.exists_cons_of_ne_nil isWord.1 with ⟨first, others, rfl⟩
    have noStart : Text.isNameStart first = false := by
      by_contra start
      rw [Bool.not_eq_false] at start
      exact isName (Text.isName_cons_iff.mpr
        ⟨start, (List.forall_mem_cons.mp isWord.2).2⟩)
    rw [absent, List.cons_append, Text.leadingName, noStart]
    exact ⟨rfl, fun found => by cases found⟩

theorem ofRows_word (depth : Nat) (seen : Bool) {word rest : Text}
    (document_eq : document = passed ++ (word ++ rest))
    (code : (Position.start.past passed).state = .code) (isWord : word.IsWord)
    (stops : rest.continuesName = false)
    (starts : previous.any Text.isNameContinue = false) :
    if depth = 0 ∧ isOperationKeyword word then
      ofRows document depth previous seen
          (Scanner.rowsFrom (.past .start passed) (word ++ rest)) =
        ofKeyword document (passed.bytes + word.bytes)
    else ∃ last,
      ofRows document depth previous seen
          (Scanner.rowsFrom (.past .start passed) (word ++ rest)) =
        ofRows document depth last true
          (Scanner.rowsFrom (.past .start (passed ++ word)) rest) := by
  rcases isOperationKeyword_leadingName isWord stops with ⟨found_eq, leading_eq⟩
  have offset_eq := Position.offset_past_start passed
  have onward : document.onward passed.bytes = .ok (word ++ rest) := by
    rw [document_eq, Text.onward_append]
  rcases List.exists_cons_of_ne_nil isWord.1 with ⟨first, others, rfl⟩
  have continues := (List.forall_mem_cons.mp isWord.2).1
  have code_after : ((Position.start.past passed).after first).state = .code :=
    Position.state_after_of_plain code
      (Position.isPlain_of_isNameContinue continues)
  have within : (some first).any Text.isNameContinue := continues
  have later : ∃ last, ofRows document depth (some first) true _ = _ :=
    exists_ofRows_rest code_after (List.forall_mem_cons.mp isWord.2).2
      (fun _ => within) rest
  rw [Position.past_append, Position.past_cons]
  rw [List.cons_append, Scanner.rowsFrom, code, ofRows_name continues, offset_eq,
    starts, onward, ok_bind]
  by_cases outside : depth = 0
  · by_cases keyword : isOperationKeyword (first :: others)
    · rw [if_pos ⟨outside, keyword⟩, if_pos ⟨outside, rfl⟩, found_eq,
        if_pos keyword, leading_eq keyword]
    · rw [if_neg (fun both => keyword both.2), if_pos ⟨outside, rfl⟩, found_eq,
        if_neg keyword]
      exact later
  · rw [if_neg (fun both => outside both.1), if_neg (fun both => outside both.1)]
    exact later

theorem ofRows_sign {offset : Nat} {char : Char} {rows : List Row}
    {rest : Text} (isSign : Text.isSign char)
    (onward : document.onward offset = .ok (char :: rest))
    (opens : char = '\x7b' → seen = true) :
    ofRows document depth previous seen (⟨offset, char, .code⟩ :: rows) =
      ofRows document
        (FieldOccurrence.braceDepthAfter depth ⟨offset, char, .code⟩)
        (some char) true rows := by
  simp only [Text.isSign, Bool.and_eq_true, Bool.not_eq_true', bne_iff_ne]
    at isSign
  rcases isSign with ⟨⟨solid, comment⟩, apart⟩
  have noName : Text.isNameStart char = false := by
    by_contra start
    rw [Bool.not_eq_false] at start
    rw [Text.isNameContinue_of_start start] at apart
    cases apart
  have leading : Text.leadingName (char :: rest) = [] := by
    rw [Text.leadingName, noName]
    rfl
  have noKeyword : isOperationKeyword [] = false := rfl
  rw [ofRows, if_neg (by simp [solid, comment])]
  by_cases isOpening : char = '\x7b'
  · have known := opens isOpening
    simp [isOpening, known, braceDepthAfter]
  · by_cases isClosing : char = '\x7d'
    · simp [isClosing, braceDepthAfter]
    · simp [isOpening, isClosing, onward, leading, noKeyword, braceDepthAfter]

end Reading

/-! What the search comes to, before and after the first code. -/

section Search

variable {document : Text}

theorem beginsOperation_eq {passed rest : Text}
    (document_eq : document = passed ++ rest)
    (code : (Position.start.past passed).state = .code) (word : Text) :
    Token.beginsOperation document ⟨passed.bytes, word⟩ =
      (isOperationKeyword word && openBraces passed == 0) := by
  have depth := FieldOccurrence.braceDepthInCode_append passed rest
  rw [endState_eq, if_pos code, ← document_eq] at depth
  simp [Token.beginsOperation, depth]

theorem ofRows_seen (position : Position) (text : Text) :
    ∀ passed previous, position = .past .start passed →
      document = passed ++ text →
      (previous.any Text.isNameContinue = false ∨ text.continuesName = false) →
      ofRows document (openBraces passed) previous true
          (Scanner.rowsFrom position text) =
        match (Token.readFrom position text).find? (Token.beginsOperation document) with
        | some keyword => ofKeyword document keyword.stop
        | none => .ok .nowhere := by
  induction position, text using Token.readFrom_induction with
  | nil position =>
      intro passed previous _ _ _
      rfl
  | ignored position char rest ignored induction =>
      rintro passed previous rfl document_eq _
      have moved : document = (passed ++ [char]) ++ rest := by
        simp [document_eq]
      have depth_eq : openBraces (passed ++ [char]) = openBraces passed :=
        openBraces_append_of_ignored passed (by simpa [Scanner.rowsFrom] using ignored)
      have later := induction (passed ++ [char]) none
        (Position.past_append .start passed [char]).symm moved (.inl rfl)
      rw [Scanner.rowsFrom, ofRows_ignored ignored, Token.readFrom_ignored ignored,
        ← later, depth_eq]
  | word position word rest code isWord stops induction =>
      rintro passed previous rfl document_eq boundary
      have moved : document = (passed ++ word) ++ rest := by simp [document_eq]
      have starts : previous.any Text.isNameContinue = false := by
        rcases List.exists_cons_of_ne_nil isWord.1 with ⟨first, others, rfl⟩
        have continues := isWord.2 first List.mem_cons_self
        refine boundary.resolve_right fun noWord => ?_
        simp [Text.continuesName, continues] at noWord
      have offset_eq := Position.offset_past_start passed
      have depth_eq := openBraces_append_word passed isWord.2
      have here := ofRows_word (openBraces passed) true document_eq code isWord
        stops starts
      have begins_iff := beginsOperation_eq document_eq code word
      rw [Token.readFrom_append _ (.inr stops), Token.readFrom_word code isWord,
        offset_eq, List.singleton_append, List.find?_cons, begins_iff]
      split at here
      · next found =>
        simp only [found.1, found.2, beq_self_eq_true, Bool.and_self]
        rw [← found.1]
        exact here
      · next other =>
        have absent : (isOperationKeyword word && openBraces passed == 0) =
            false := by
          by_contra found
          rw [Bool.not_eq_false, Bool.and_eq_true, beq_iff_eq] at found
          exact other found.symm
        rcases here with ⟨last, run⟩
        have later := induction (passed ++ word) last
          (Position.past_append .start passed word).symm moved (.inr stops)
        rw [run, absent, ← later, depth_eq, Position.past_append]
  | sign position char rest code isSign induction =>
      rintro passed previous rfl document_eq _
      have moved : document = (passed ++ [char]) ++ rest := by
        simp [document_eq]
      have offset_eq := Position.offset_past_start passed
      have onward : document.onward passed.bytes = .ok (char :: rest) := by
        rw [document_eq, Text.onward_append]
      have apart : Text.isNameContinue char = false := by
        simp only [Text.isSign, Bool.and_eq_true, Bool.not_eq_true'] at isSign
        exact isSign.2
      have absent : Token.beginsOperation document ⟨passed.bytes, [char]⟩ = false := by
        rw [Token.beginsOperation, Bool.and_eq_false_iff]
        refine .inl (Bool.eq_false_iff.mpr fun keyword => ?_)
        have isWord := (isName_of_isOperationKeyword keyword).isWord
        rw [isWord.2 char List.mem_cons_self] at apart
        cases apart
      have depth_eq := openBraces_append_eq passed [char]
      have later := induction (passed ++ [char]) (some char)
        (Position.past_append .start passed [char]).symm moved (.inl apart)
      rw [Token.readFrom_sign code isSign, offset_eq, List.find?_cons, absent,
        ← later, Scanner.rowsFrom, code, offset_eq,
        ofRows_sign isSign onward fun _ => rfl, depth_eq, Scanner.rowsFrom, code,
        offset_eq]
      rfl

theorem ofRows_gap {position : Position} {gap : Text}
    (ignored : ∀ row ∈ Scanner.rowsFrom position gap, row.isIgnored)
    (rest : Text) :
    ofRows document 0 none false (Scanner.rowsFrom position (gap ++ rest)) =
      ofRows document 0 none false
        (Scanner.rowsFrom (position.past gap) rest) := by
  induction gap generalizing position with
  | nil => rfl
  | cons char gap induction =>
      rw [Scanner.rowsFrom, List.forall_mem_cons] at ignored
      rw [List.cons_append, Scanner.rowsFrom, ofRows_ignored ignored.1]
      exact induction ignored.2

theorem ofRows_unseen {depth : Nat} {previous : Option Char} {row : Row}
    {rows : List Row} (noticed : row.isIgnored = false)
    (different : row.char ≠ '\x7b') :
    ofRows document depth previous false (row :: rows) =
      ofRows document depth previous true (row :: rows) := by
  have kept : ¬ (row.state ≠ .code ∨ row.char = '#' ∨ Text.isBlank row.char) := by
    rw [← Row.isIgnored_iff, noticed]
    exact Bool.false_ne_true
  rw [ofRows, ofRows, if_neg kept, if_neg kept, if_neg different,
    if_neg different]

/-- The place of definitions as the tokens tell it. -/
theorem ofDocument_eq (document : Text) :
    ofDocument document =
      match tokensOf document with
      | [] => .ok .nowhere
      | first :: _ =>
          if first.text = ['\x7b'] then .ok (.shorthandQuery first.start)
          else
            match Token.operationKeyword? document with
            | some keyword => ofKeyword document keyword.stop
            | none => .ok .nowhere := by
  have start_code : Position.start.state = .code := rfl
  rcases Token.exists_gap false start_code document with
    ⟨gap, document_eq, ignored, next⟩
  have passed : ofDocument document = ofRows document 0 none false
      (Scanner.rowsFrom (.past .start gap) (Text.afterIgnored false document)) := by
    rw [← ofRows_gap ignored, ← document_eq]
    rfl
  have tokens_eq : tokensOf document = Token.readFrom (.past .start gap)
      (Text.afterIgnored false document) := by
    rw [← Token.readFrom_append_of_ignored ignored, ← document_eq]
    rfl
  have depth_eq : openBraces gap = 0 :=
    openBraces_append_of_ignored [] ignored
  rw [passed, Token.operationKeyword?, tokens_eq]
  generalize Text.afterIgnored false document = rest at document_eq next
  cases rest with
  | nil => rfl
  | cons char rest =>
      rcases next char rfl with ⟨code, comment, solid⟩
      have head := Token.head?_readFrom_cons code comment solid rest
      have offset_eq := Position.offset_past_start gap
      rcases List.head?_eq_some_iff.mp head with ⟨tokens, read_eq⟩
      have brace_iff : _ = ['\x7b'] ↔ _ := Token.leading_eq_iff rfl (char :: rest)
      by_cases isBrace : char = '\x7b'
      · subst isBrace
        rw [read_eq]
        simp only [brace_iff.mpr rfl, if_true, offset_eq]
        simp [ofRows, Scanner.rowsFrom, code, solid, offset_eq]
      · have later := ofRows_seen _ (char :: rest) gap none rfl document_eq
          (.inl rfl)
        have noticed : Row.isIgnored
            ⟨(Position.start.past gap).offset, char, .code⟩ = false := by
          simp [Row.isIgnored, comment, solid]
        have noBrace : ¬ Token.leading (char :: rest) = ['\x7b'] := fun equal =>
          isBrace (Option.some.inj (brace_iff.mp equal))
        rw [depth_eq, read_eq] at later
        rw [read_eq]
        simp only [if_neg noBrace]
        rw [← later, Scanner.rowsFrom, code, ofRows_unseen noticed isBrace]

end Search

end InsertionPoint

end QueryAssembly
