import QueryAssembly.Proofs.Field.DefinitionName
import QueryAssembly.Proofs.Lexical.Token

namespace QueryAssembly

/-! Offsets that are reckoned from the text itself need no check when the text is
cut there: those of leading blanks, names and comments, of the word before a
name, and of every place that a scanner reaches. -/

namespace Text

def isInLine (char : Char) : Bool := char != '\n' && char != '\r'

def lineLength (text : Text) : Nat := bytes (text.takeWhile isInLine)

theorem exists_of_onward {text rest : Text} {offset : Nat}
    (found : text.onward offset = .ok rest) :
    ∃ before, text = before ++ rest ∧ before.bytes = offset := by
  rw [onward, cut] at found
  cases parts : text.cut? offset with
  | none =>
      rw [parts] at found
      cases found
  | some cut =>
      rw [parts] at found
      cases found
      exact ⟨cut.1, cut?_eq_some_iff.mp parts⟩

/-- What passing blanks and comments in turn from an offset on leads to, where
the text can be cut at every offset on the way. -/
inductive PassesIgnored (text : Text) : Nat → Nat → Prop
  | done {length : Nat} {blanks rest : Text}
      (first : text.onward length = .ok blanks)
      (second : text.onward (length + blanks.blankLength) = .ok rest)
      (solid : rest.head? ≠ some '#') :
      PassesIgnored text length (length + blanks.blankLength)
  | comment {length reached : Nat} {blanks rest : Text}
      (first : text.onward length = .ok blanks)
      (second : text.onward (length + blanks.blankLength) = .ok rest)
      (sharp : rest.head? = some '#')
      (onward : PassesIgnored text
        (length + blanks.blankLength + rest.lineLength) reached) :
      PassesIgnored text length reached

theorem afterIgnored_dropWhile (text : Text) :
    afterIgnored false (text.dropWhile isBlank) = afterIgnored false text := by
  induction text with
  | nil => rfl
  | cons char rest induction =>
      by_cases blank : isBlank char
      · rw [List.dropWhile_cons_of_pos blank, induction, afterIgnored,
          if_pos blank]
      · rw [List.dropWhile_cons_of_neg blank]

theorem afterIgnored_comment (text : Text) :
    afterIgnored true text = afterIgnored false (text.dropWhile isInLine) := by
  induction text with
  | nil => rfl
  | cons char rest induction =>
      cases inside : isInLine char with
      | true =>
          rw [List.dropWhile_cons_of_pos inside, ← induction]
          exact congrArg (afterIgnored · rest) inside
      | false =>
          have blank : isBlank char := by
            rcases Bool.and_eq_false_iff.mp inside with newLine | feed
            · rw [bne_eq_false_iff_eq.mp newLine]
              rfl
            · rw [bne_eq_false_iff_eq.mp feed]
              rfl
          rw [List.dropWhile_cons_of_neg (by simp [inside])]
          refine (congrArg (afterIgnored · rest) inside).trans ?_
          rw [afterIgnored, if_pos blank]

theorem behind_line {text : Text} (sharp : text.head? = some '#') :
    afterIgnored false (text.dropWhile isInLine) = afterIgnored false text ∧
      (text.dropWhile isInLine).length < text.length := by
  rcases List.head?_eq_some_iff.mp sharp with ⟨tail, rfl⟩
  have inside : isInLine '#' := rfl
  have shorter := (List.dropWhile_suffix isInLine (l := tail)).length_le
  rw [List.dropWhile_cons_of_pos inside, List.length_cons]
  exact ⟨(afterIgnored_comment tail).symm, Nat.lt_succ_of_le shorter⟩

theorem afterIgnored_of_solid {text : Text}
    (solid : ∀ first ∈ text.head?, isBlank first = false)
    (sharp : text.head? ≠ some '#') : afterIgnored false text = text := by
  cases text with
  | nil => rfl
  | cons first rest =>
      have blank := solid first rfl
      have comment : (first == '#') = false :=
        beq_eq_false_iff_ne.mpr fun same => sharp (congrArg some same)
      simp [afterIgnored, blank, comment]

theorem ignoredLength_eq_add {text left right : Text}
    (text_eq : left ++ right = text)
    (same : afterIgnored false right = afterIgnored false text) :
    text.ignoredLength = left.bytes + right.ignoredLength := by
  have start_code : Position.start.state = .code := rfl
  rcases Token.exists_gap false start_code right with ⟨gap, right_eq, _⟩
  have whole : text = (left ++ gap) ++ afterIgnored false text := by
    rw [← same, List.append_assoc, ← right_eq, text_eq]
  rw [Token.ignoredLength_eq whole, Token.ignoredLength_eq right_eq, bytes_append]

theorem passesIgnored_append (front text : Text) :
    PassesIgnored (front ++ text) front.bytes
      (front.bytes + text.ignoredLength) := by
  obtain ⟨bound, length_eq⟩ : ∃ bound, text.length = bound := ⟨_, rfl⟩
  induction bound using Nat.strongRecOn generalizing front text with
  | ind bound induction =>
      subst length_eq
      have text_eq := List.takeWhile_append_dropWhile (p := isBlank) (l := text)
      have first : (front ++ text).onward front.bytes = .ok text :=
        onward_append front text
      have second : (front ++ text).onward (front.bytes + text.blankLength) =
          .ok (text.dropWhile isBlank) := by
        have found := onward_append (front ++ text.takeWhile isBlank)
          (text.dropWhile isBlank)
        rwa [List.append_assoc, text_eq, bytes_append] at found
      have blanks_length := ignoredLength_eq_add text_eq
        (afterIgnored_dropWhile text)
      by_cases sharp : (text.dropWhile isBlank).head? = some '#'
      · refine .comment first second sharp ?_
        have rest_length := (List.dropWhile_suffix isBlank (l := text)).length_le
        generalize text.dropWhile isBlank = rest at *
        rcases behind_line sharp with ⟨later_eq, shorter⟩
        have line_eq := List.takeWhile_append_dropWhile (p := isInLine) (l := rest)
        have onward := induction _ (Nat.lt_of_lt_of_le shorter rest_length)
          (front ++ (text.takeWhile isBlank ++ rest.takeWhile isInLine)) _ rfl
        have total : front.bytes + text.ignoredLength =
            bytes (front ++ (text.takeWhile isBlank ++ rest.takeWhile isInLine)) +
              ignoredLength (rest.dropWhile isInLine) := by
          rw [blanks_length, ignoredLength_eq_add line_eq later_eq]
          simp only [bytes_append, Nat.add_assoc]
        rw [List.append_assoc, List.append_assoc, line_eq, text_eq, ← total,
          bytes_append, bytes_append, ← Nat.add_assoc] at onward
        exact onward
      · have solid := afterIgnored_of_solid (fun first member => ?_) sharp
        · rw [blanks_length, ignoredLength, solid, Nat.sub_self]
          exact .done first second sharp
        · have stops := List.head?_dropWhile_not isBlank text
          rwa [Option.mem_def.mp member] at stops

end Text

/-! Scanners stop between two characters wherever they are asked to go. -/

namespace Scanner

/-- The scanners of a source, however they were advanced. -/
inductive Of (source : Text) : Scanner → Prop
  | start : Of source (.ofSource source)
  | resumed {scanner : Scanner} (offset : Nat) :
      resumeInCode source offset = .ok scanner → Of source scanner
  | next {scanner later : Scanner} {row : Row} :
      Of source scanner → scanner.next? = some (row, later) → Of source later
  | advanced {scanner : Scanner} (target : Nat) :
      Of source scanner → Of source (scanner.advanceTo target)

def Reads (source : Text) (scanner : Scanner) : Prop :=
  source.onward scanner.offset = .ok scanner.rest

theorem reads_iff {source : Text} {scanner : Scanner} :
    Reads source scanner ↔
      ∃ passed, source = passed ++ scanner.rest ∧
        passed.bytes = scanner.offset := by
  constructor
  · intro found
    rcases Text.exists_of_onward found with ⟨passed, parts⟩
    exact ⟨passed, parts⟩
  · rintro ⟨passed, source_eq, offset_eq⟩
    have found := Text.onward_append passed scanner.rest
    rwa [← source_eq, offset_eq] at found

theorem reads_resumeInCode {source : Text} {offset : Nat} {scanner : Scanner}
    (resumed : resumeInCode source offset = .ok scanner) :
    Reads source scanner := by
  rcases bind_eq_ok_iff.mp resumed with ⟨⟨before, rest⟩, found, scanner_eq⟩
  cases scanner_eq
  rw [Reads, Text.onward]
  exact congrArg (Except.map Prod.snd) found

theorem Reads.next? {source : Text} {scanner later : Scanner} {row : Row}
    (reads : Reads source scanner) (next : scanner.next? = some (row, later)) :
    Reads source later := by
  rcases reads_iff.mp reads with ⟨passed, source_eq, offset_eq⟩
  rcases scanner with ⟨position, rest⟩
  cases rest with
  | nil => cases next
  | cons char rest =>
      cases next
      refine reads_iff.mpr ⟨passed ++ [char], by simp [source_eq], ?_⟩
      rw [Text.bytes_append, offset_eq]
      rfl

theorem Reads.advanceTo {source : Text} {scanner : Scanner}
    (reads : Reads source scanner) (target : Nat) :
    Reads source (scanner.advanceTo target) := by
  rcases scanner with ⟨position, rest⟩
  induction rest generalizing position with
  | nil => exact reads
  | cons char rest induction =>
      rw [Scanner.advanceTo, advanceFrom]
      split
      · exact induction _ (reads.next? rfl)
      · exact reads

theorem Of.reads {source : Text} {scanner : Scanner} (reached : Of source scanner) :
    Reads source scanner := by
  induction reached with
  | start => exact Text.onward_append [] source
  | resumed offset found => exact reads_resumeInCode found
  | next _ next induction => exact induction.next? next
  | advanced target _ induction => exact induction.advanceTo target

end Scanner

namespace Text

theorem exists_append_leadingName (text : Text) :
    ∃ rest, text = text.leadingName ++ rest := by
  cases text with
  | nil => exact ⟨[], rfl⟩
  | cons char rest =>
      rw [leadingName]
      split
      · exact ⟨_, congrArg _ List.takeWhile_append_dropWhile.symm⟩
      · exact ⟨char :: rest, rfl⟩

/-- A text can be cut wherever it is cut without a check. -/
structure Sliceable (text : Text) : Prop where
  blanks : text.onward text.blankLength = .ok text.trimStart
  trimmed : text.before text.trimEnd.bytes = .ok text.trimEnd
  name : text.before text.nameLength = .ok text.leadingName
  word : text.cut (text.bytes - text.lastWord.bytes) =
    .ok (text.beforeLastWord, text.lastWord)
  ignored : PassesIgnored text 0 text.ignoredLength
  scanned : ∀ scanner, Scanner.Of text scanner → scanner.Reads text
  rows : ∀ row ∈ rowsOf text, ∃ rest, text.onward row.offset =
    .ok (row.char :: rest)

theorem sliceable (text : Text) : text.Sliceable where
  blanks := by
    have found := onward_append (text.takeWhile isBlank)
      (text.dropWhile isBlank)
    rwa [List.takeWhile_append_dropWhile] at found
  trimmed := by
    rcases FieldOccurrence.trimEnd_append_blanks text with ⟨blanks, text_eq, _⟩
    have found := before_append text.trimEnd blanks
    rwa [← text_eq] at found
  name := by
    rcases exists_append_leadingName text with ⟨rest, text_eq⟩
    have found := before_append text.leadingName rest
    rwa [← text_eq] at found
  word := by
    have parts := beforeLastWord_append_lastWord text
    have total := congrArg bytes parts
    have found := cut_append text.beforeLastWord text.lastWord
    rw [bytes_append] at total
    rwa [parts, Nat.eq_sub_of_add_eq total] at found
  ignored := by
    have passed := passesIgnored_append [] text
    rwa [List.nil_append, bytes_nil, Nat.zero_add] at passed
  scanned _ reached := reached.reads
  rows row member := by
    rcases Scanner.mem_rowsFrom_iff.mp member with
      ⟨before, rest, text_eq, offset_eq, _⟩
    have found := onward_append before (row.char :: rest)
    have offset : row.offset = before.bytes :=
      offset_eq.trans (Nat.zero_add _)
    have source_eq : text = before ++ row.char :: rest := text_eq
    exact ⟨rest, by rw [source_eq, offset, found]⟩

end Text

end QueryAssembly
