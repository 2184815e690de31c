import Mathlib.Order.Bounds.Basic
import QueryAssembly.Proofs.Field.ClosingParenthesis

namespace QueryAssembly

/-! The search for a field in terms of the offsets of a document alone. Of all the
offsets at which the field may stand it yields the least one, also where letters of
the field overlap, and what it takes for arguments ends where their parenthesis is
closed. -/

namespace FieldOccurrence

def definitionKeywords : List Text :=
  ["query".toList, "mutation".toList, "subscription".toList, "fragment".toList]

/-- Whether no brace is open at an offset: nothing that ends there opens more
braces in code than it closes. -/
def OutsideBraces (document : Text) (offset : Nat) : Prop :=
  ∀ rows, rows <:+ ((rowsOf document).takeWhile fun row => row.offset < offset) →
    codeCount '\x7b' rows ≤ codeCount '\x7d' rows

def EndsInKeyword (document before : Text) : Prop :=
  ∃ front keyword blanks : Text, before = front ++ (keyword ++ blanks) ∧
    keyword ∈ definitionKeywords ∧
    (∀ char ∈ front.getLast?, ¬ Text.isNameContinue char) ∧
    stateAt document front.bytes = .code ∧
    OutsideBraces document front.bytes ∧
    blanks ≠ [] ∧ ∀ char ∈ blanks, Text.isBlank char

/-- Whether the letters of a field that stand between two texts are the field. -/
structure Qualifies (document field before after : Text) : Prop where
  text_eq : document = before ++ (field ++ after)
  code : stateAt document before.bytes = .code
  apart : ∀ char ∈ before.getLast?,
    ¬ Text.isNameContinue char ∧ char ≠ '$' ∧ char ≠ '.' ∧ char ≠ '@'
  ends : ∀ char ∈ after.head?, ¬ Text.isNameContinue char
  unlabelled : (after.dropWhile Text.isBlank).head? ≠ some ':'
  undefined : ¬ EndsInKeyword document before

def fieldOffsets (document field : Text) : Set Nat :=
  {offset | ∃ before after, Qualifies document field before after ∧
    before.bytes = offset}

inductive Ends (document : Text) (nameEnd : Nat) (after : Text) : Nat → Prop
  | name :
      ((after.dropWhile Text.isBlank).head? = some '(' →
        ∀ stop, ¬ ClosedBefore document (nameEnd + after.blankLength) stop) →
      Ends document nameEnd after nameEnd
  | arguments {stop : Nat} :
      (after.dropWhile Text.isBlank).head? = some '(' →
      ClosedBefore document (nameEnd + after.blankLength) stop →
      Ends document nameEnd after stop

/-! The depth of braces against counts of braces in code. -/

section Braces

theorem codeCount_cons (char : Char) (row : Row) (rows : List Row) :
    codeCount char (row :: rows) = codeCount char [row] + codeCount char rows :=
  @List.countP_append _ _ [row] rows

theorem braceDepthAfter_eq (depth : Nat) (row : Row) :
    braceDepthAfter depth row =
        depth + codeCount '\x7b' [row] - codeCount '\x7d' [row] ∧
      (codeCount '\x7b' [row] = 0 ∨ codeCount '\x7d' [row] = 0) := by
  simp only [braceDepthAfter, codeCount, List.countP_singleton, Bool.and_eq_true,
    beq_iff_eq]
  split_ifs <;> simp_all

theorem foldl_braceDepthAfter_le_iff (depth bound : Nat) (rows : List Row) :
    rows.foldl braceDepthAfter depth ≤ bound ↔
      depth + codeCount '\x7b' rows ≤ codeCount '\x7d' rows + bound ∧
        ∀ later, later <:+ rows →
          codeCount '\x7b' later ≤ codeCount '\x7d' later + bound := by
  induction rows generalizing depth with
  | nil => simp [codeCount]
  | cons row rows induction =>
      have step := braceDepthAfter_eq depth row
      simp only [List.foldl_cons, induction, List.suffix_cons_iff, forall_eq_or_imp,
        codeCount_cons _ row rows]
      constructor
      · rintro ⟨level, later⟩
        have rest := later rows (List.suffix_refl rows)
        exact ⟨by omega, by omega, later⟩
      · rintro ⟨level, _, later⟩
        have rest := later rows (List.suffix_refl rows)
        exact ⟨by omega, later⟩

theorem outsideBraces_append (before after : Text) :
    OutsideBraces (before ++ after) before.bytes ↔ openBraces before = 0 := by
  rw [OutsideBraces, Scanner.takeWhile_rowsOf, ← Nat.le_zero, openBraces,
    foldl_braceDepthAfter_le_iff]
  constructor
  · intro level
    exact ⟨by simpa using level _ (List.suffix_refl _), level⟩
  · exact And.right

end Braces

/-! A keyword before a name, as the search sees it and as the document has it. -/

section Keywords

theorem isDefinitionKeyword_iff (word : Text) :
    isDefinitionKeyword word ↔ word ∈ definitionKeywords := by
  rw [definitionKeywords, List.mem_cons, List.mem_cons, List.mem_cons,
    List.mem_singleton, isDefinitionKeyword, Bool.or_eq_true, beq_iff_eq]
  constructor
  · rintro (fragment | operation)
    · exact .inr (.inr (.inr fragment))
    · rcases List.any_eq_true.mp operation with ⟨kind, _, same⟩
      rw [← beq_iff_eq.mp same]
      cases kind with
      | query => exact .inl rfl
      | mutation => exact .inr (.inl rfl)
      | subscription => exact .inr (.inr (.inl rfl))
  · have operation : ∀ kind : OperationKind, word = kind.keyword →
        isOperationKeyword word := fun kind same =>
      List.any_eq_true.mpr ⟨kind, by cases kind <;> decide, beq_iff_eq.mpr same.symm⟩
    rintro (query | mutation | subscription | fragment)
    · exact .inr (operation .query query)
    · exact .inr (operation .mutation mutation)
    · exact .inr (operation .subscription subscription)
    · exact .inl fragment

theorem isWord_of_mem_definitionKeywords {word : Text}
    (keyword : word ∈ definitionKeywords) : word.IsWord := by
  have all : ∀ word ∈ definitionKeywords, Text.IsWord word := by
    simp only [definitionKeywords, List.forall_mem_cons]
    exact ⟨by decide, by decide, by decide, by decide, nofun⟩
  exact all word keyword

theorem any_eq_false_iff {holds : Char → Bool} {found : Option Char} :
    found.any holds = false ↔ ∀ char ∈ found, ¬ holds char := by
  cases found <;> simp

theorem isDefinitionName_iff (before after : Text) :
    isDefinitionName before ↔ EndsInKeyword (before ++ after) before := by
  constructor
  · intro defines
    rcases trimEnd_append_blanks before with ⟨blanks, before_eq, blank⟩
    have words := Text.beforeLastWord_append_lastWord before.trimEnd
    simp only [isDefinitionName, Bool.and_eq_true, bne_iff_ne, beq_iff_eq,
      isDefinitionKeyword_iff] at defines
    rcases defines with ⟨⟨shorter, keyword⟩, code, level⟩
    have shape : before = before.trimEnd.beforeLastWord ++
        (before.trimEnd.lastWord ++ blanks) := by
      rw [← List.append_assoc, words, ← before_eq]
    have text_eq : before ++ after = before.trimEnd.beforeLastWord ++
        (before.trimEnd.lastWord ++ (blanks ++ after)) := by
      rw [← List.append_assoc, words, ← List.append_assoc, ← before_eq]
    have apart : before.trimEnd.beforeLastWord.getLast?.any Text.isNameContinue =
        false := by
      rw [Text.beforeLastWord, List.getLast?_reverse]
      exact Text.continuesName_dropWhile _
    have nonempty : blanks ≠ [] := by
      rintro rfl
      rw [List.append_nil] at before_eq
      exact shorter (congrArg List.length before_eq.symm)
    rw [text_eq]
    refine ⟨_, _, blanks, shape, keyword, any_eq_false_iff.mp apart, ?_, ?_,
      nonempty, blank⟩
    · rw [stateAt_append, ← endState_eq, code]
    · rw [outsideBraces_append, level]
  · rintro ⟨front, keyword, blanks, before_eq, isKeyword, apart, code, level,
      nonempty, blank⟩
    have word := isWord_of_mem_definitionKeywords isKeyword
    have words := Text.lastWord_append_word word.2 (any_eq_false_iff.mpr apart)
    have solid : (front ++ keyword).getLast?.any Text.isBlank = false := by
      rcases (List.eq_nil_or_concat keyword).resolve_left word.1 with
        ⟨start, last, rfl⟩
      rw [List.concat_eq_append, ← List.append_assoc, List.getLast?_concat,
        Option.any_some]
      exact Text.not_isBlank_of_isNameContinue (word.2 last (by simp))
    have trimmed : before.trimEnd = front ++ keyword := by
      rw [before_eq, ← List.append_assoc, Text.trimEnd_append_blank blank,
        Text.trimEnd_eq_self solid]
    have shape : before ++ after = front ++ (keyword ++ (blanks ++ after)) := by
      simp [before_eq]
    rw [shape, stateAt_append, ← endState_eq] at code
    rw [shape, outsideBraces_append] at level
    have shorter : (front ++ keyword).length ≠ before.length := by
      have positive := List.length_pos_iff.mpr nonempty
      simp only [before_eq, List.length_append]
      omega
    rw [isDefinitionName, trimmed, words.1, words.2, code, level,
      (isDefinitionKeyword_iff keyword).mpr isKeyword]
    simpa using shorter

end Keywords

/-! Places and ends of fields. -/

section Places

variable {document field before after : Text}

theorem belongsToName_iff (char : Char) : belongsToName char = false ↔
    ¬ Text.isNameContinue char ∧ char ≠ '$' ∧ char ≠ '.' ∧ char ≠ '@' := by
  simp [belongsToName, and_assoc]

theorem qualifies_iff :
    Qualifies document field before after ↔ At document field before after := by
  have defines := isDefinitionName_iff before (field ++ after)
  constructor
  · rintro ⟨rfl, code, apart, ends, unlabelled, undefined⟩
    rw [stateAt_append, ← endState_eq] at code
    rw [← defines, Bool.not_eq_true] at undefined
    refine ⟨rfl, ⟨code, any_eq_false_iff.mpr fun char member => ?_, undefined⟩,
      any_eq_false_iff.mpr ends, unlabelled⟩
    simpa [belongsToName_iff] using apart char member
  · rintro ⟨rfl, ⟨code, apart, undefined⟩, ends, unlabelled⟩
    rw [endState_eq, ← stateAt_append before (field ++ after)] at code
    rw [← Bool.not_eq_true, defines] at undefined
    refine ⟨rfl, code, fun char member => ?_, any_eq_false_iff.mp ends, unlabelled,
      undefined⟩
    have other := any_eq_false_iff.mp apart char member
    rwa [Bool.not_eq_true, belongsToName_iff] at other

theorem ends_of_dropped {name dropped : Text} (code : endState name = .code)
    (after_eq : after = dropped ++ afterArguments after) :
    Ends (name ++ after) name.bytes after (Text.bytes (name ++ dropped)) := by
  have blanks := List.takeWhile_append_dropWhile (p := Text.isBlank) (l := after)
  have gapCode : endState (name ++ after.takeWhile Text.isBlank) = .code :=
    (endState_append code _).trans <| endState_of_plain fun char member =>
      Token.isPlain_of_isBlank (List.mem_takeWhile_imp member)
  have none : afterArguments after = after → dropped = [] := by
    intro whole
    rw [whole] at after_eq
    exact List.self_eq_append_left.mp after_eq
  by_cases parenthesis : (after.dropWhile Text.isBlank).head? = some '('
  · rcases List.head?_eq_some_iff.mp parenthesis with ⟨rest, onward⟩
    have text_eq : name ++ after =
        (name ++ after.takeWhile Text.isBlank) ++ '(' :: rest := by
      rw [List.append_assoc, ← onward, blanks]
    have offset : name.bytes + after.blankLength =
        Text.bytes (name ++ after.takeWhile Text.isBlank) :=
      (Text.bytes_append _ _).symm
    have closed := @closedBefore_iff _ rest gapCode
    rw [← text_eq, ← offset] at closed
    have behind : afterArguments after =
        (afterClosing 0 .start ('(' :: rest)).getD after := by
      rw [afterArguments, onward]
      rfl
    rcases closingParenthesis_append [] rest with
      ⟨absent, _⟩ | ⟨passed, later, found, rest_eq, _⟩
    · have unclosed : dropped = [] := none (by rw [behind, absent]; rfl)
      rw [unclosed, List.append_nil]
      refine .name fun _ stop isStop => ?_
      rcases (closed stop).mp isStop with ⟨_, _, found, _⟩
      rw [absent] at found
      cases found
    · rw [found, Option.getD_some] at behind
      rw [behind, ← blanks, onward, rest_eq, ← List.append_assoc] at after_eq
      have dropped_eq := List.append_cancel_right after_eq
      refine .arguments parenthesis ((closed _).mpr
        ⟨passed, later, found, rest_eq, ?_⟩)
      rw [← dropped_eq, List.append_assoc]
  · have plain : afterArguments after = after := by
      rw [afterArguments, if_neg parenthesis]
    rw [none plain, List.append_nil]
    exact .name fun opens => absurd opens parenthesis

end Places

/-- The search for a field comes to an answer: the least offset of all at which the
field stands, or nothing when it stands nowhere. -/
theorem first?_isLeast {field : Text} (word : field.IsWord) (document : Text) :
    ∃ found, first? document field = .ok found ∧
      (found = none ↔ fieldOffsets document field = ∅) ∧
      ∀ occurrence ∈ found,
        IsLeast (fieldOffsets document field) occurrence.start ∧
          ∀ before after, document = before ++ (field ++ after) →
            before.bytes = occurrence.start →
            Ends document (occurrence.start + field.bytes) after
              occurrence.stop := by
  rcases first?_first word document with
    ⟨absent, found⟩ | ⟨before, dropped, after, first, after_eq, text_eq, found⟩
  · refine ⟨none, found, iff_of_true rfl ?_, fun _ member => nomatch member⟩
    rw [Set.eq_empty_iff_forall_notMem]
    rintro offset ⟨before, after, qualifies, _⟩
    exact absent before after (qualifies_iff.mp qualifies)
  · have stands : before.bytes ∈ fieldOffsets document field :=
      ⟨before, after, qualifies_iff.mpr first.toAt, rfl⟩
    have present : fieldOffsets document field ≠ ∅ :=
      (Set.nonempty_of_mem stands).ne_empty
    refine ⟨_, found, iff_of_false (Option.some_ne_none _) present, ?_⟩
    intro occurrence member
    obtain rfl := Option.some.inj member
    refine ⟨⟨stands, ?_⟩, fun other rest other_eq same => ?_⟩
    · rintro offset ⟨other, rest, qualifies, rfl⟩
      exact first.bytes_le (qualifies_iff.mp qualifies)
    · rcases Text.eq_of_bytes_eq (other_eq.symm.trans first.text_eq) same with
        ⟨rfl, rest_eq⟩
      obtain rfl := List.append_cancel_left rest_eq
      have nameCode : endState (other ++ field) = .code := by
        rw [endState_append first.opens.code]
        exact endState_of_plain fun char member =>
          Position.isPlain_of_isNameContinue (word.2 char member)
      have ends := ends_of_dropped nameCode after_eq
      rwa [List.append_assoc, ← other_eq, Text.bytes_append, List.append_assoc]
        at ends

def crowdedFront : Text := "query aa \x7b aaa aa: b @aa ".toList

def crowdedBack : Text := " (n: \")\") aa \x7d".toList

def crowded : Text := crowdedFront ++ ("aa".toList ++ crowdedBack)

theorem first?_isLeast_crowded :
    Text.IsWord "aa".toList ∧
      first? crowded "aa".toList = .ok (some ⟨25, 36⟩) ∧
      IsLeast (fieldOffsets crowded "aa".toList) 25 ∧
      Ends crowded 27 crowdedBack 36 := by
  have word : Text.IsWord "aa".toList := by decide
  have run : first? crowded "aa".toList = .ok (some ⟨25, 36⟩) := by decide +kernel
  rcases first?_isLeast word crowded with ⟨found, found_eq, _, holds⟩
  obtain rfl := Except.ok.inj (run.symm.trans found_eq)
  rcases holds _ rfl with ⟨least, ends⟩
  exact ⟨word, run, least, ends crowdedFront crowdedBack rfl (by decide)⟩

end FieldOccurrence

end QueryAssembly
