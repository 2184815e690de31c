import Mathlib.Data.List.SplitBy
import QueryAssembly.Lexical.Ignored
import QueryAssembly.Proofs.Lexical.Agreement
import QueryAssembly.Proofs.Text.Word

namespace QueryAssembly

/-! The tokens of a document are the maximal runs of name characters in its code
and the other characters there, one by one. Blanks, comments and the contents of
literals are no part of any token. -/

structure Token where
  start : Nat
  text : Text
  deriving DecidableEq, Repr

namespace Text

def isSign (char : Char) : Bool :=
  !isBlank char && char != '#' && !isNameContinue char

end Text

namespace Row

def isNamePart (row : Row) : Bool :=
  row.state == .code && Text.isNameContinue row.char

/-- Whether a row is blank or part of a comment or of the contents of a
literal. -/
def isIgnored (row : Row) : Bool :=
  row.state != .code || row.char == '#' || Text.isBlank row.char

theorem isIgnored_iff {row : Row} : row.isIgnored ↔
    row.state ≠ .code ∨ row.char = '#' ∨ Text.isBlank row.char := by
  simp [isIgnored, or_assoc]

theorem isIgnored_eq_false_of_isNameContinue {row : Row}
    (code : row.state = .code) (continues : Text.isNameContinue row.char) :
    row.isIgnored = false := by
  have comment : row.char ≠ '#' := Text.ne_of_isNameContinue continues rfl
  simp [isIgnored, code, comment,
    Text.not_isBlank_of_isNameContinue continues]

end Row

namespace Token

def stop (token : Token) : Nat := token.start + token.text.bytes

def ofRows? : List Row → Option Token
  | [] => none
  | row :: rows =>
      if row.isIgnored then none
      else some ⟨row.offset, (row :: rows).map Row.char⟩

def readFrom (position : Position) (text : Text) : List Token :=
  ((Scanner.rowsFrom position text).splitBy fun left right =>
    left.isNamePart && right.isNamePart).filterMap ofRows?

end Token

def tokensOf (document : Text) : List Token := Token.readFrom .start document

namespace Token

/-! Tokens from the front of a text on. -/

section Reading

variable {position : Position} {left right word text : Text} {char : Char}

theorem readFrom_append_of_apart
    (apart : ∀ last ∈ (Scanner.rowsFrom position left).getLast?,
      ∀ first ∈ (Scanner.rowsFrom (position.past left) right).head?,
      (last.isNamePart && first.isNamePart) = false) :
    readFrom position (left ++ right) =
      readFrom position left ++ readFrom (position.past left) right := by
  rw [readFrom, Scanner.rowsFrom_append, List.splitBy_append apart,
    List.filterMap_append]
  rfl

theorem readFrom_append (position : Position)
    (boundary : left.getLast?.any Text.isNameContinue = false ∨
      right.continuesName = false) :
    readFrom position (left ++ right) =
      readFrom position left ++ readFrom (position.past left) right := by
  apply readFrom_append_of_apart
  intro last lastMember first firstMember
  have last_eq : left.getLast? = some last.char := by
    rw [← Scanner.map_char_rowsFrom position left, List.getLast?_map,
      Option.mem_def.mp lastMember, Option.map_some]
  have first_eq : right.head? = some first.char := by
    rw [← Scanner.map_char_rowsFrom (position.past left) right, List.head?_map,
      Option.mem_def.mp firstMember, Option.map_some]
  rw [last_eq, Text.continuesName, first_eq, Option.any_some,
    Option.any_some] at boundary
  rcases boundary with ends | starts
  · simp [Row.isNamePart, ends]
  · simp [Row.isNamePart, starts]

theorem readFrom_word (code : position.state = .code) (isWord : word.IsWord) :
    readFrom position word = [⟨position.offset, word⟩] := by
  rcases isWord with ⟨nonempty, all⟩
  have parts : ∀ row ∈ Scanner.rowsFrom position word, row.isNamePart := by
    intro row member
    rcases Scanner.mem_rowsFrom_iff.mp member with
      ⟨before, rest, word_eq, _, state_eq⟩
    have inside : ∀ char ∈ before, Text.isNameContinue char :=
      fun char inBefore => all char (by simp [word_eq, inBefore])
    have continues := all row.char (by simp [word_eq])
    rw [Position.state_past_of_isNameContinue code inside] at state_eq
    simp [Row.isNamePart, state_eq, continues]
  have chain : (Scanner.rowsFrom position word).IsChain fun left right =>
      left.isNamePart && right.isNamePart := by
    apply List.Pairwise.isChain
    apply List.pairwise_of_forall_mem_list
    intro left leftMember right rightMember
    simp [parts left leftMember, parts right rightMember]
  cases word with
  | nil => exact absurd rfl nonempty
  | cons char rest =>
      have kept : Row.isIgnored ⟨position.offset, char, position.state⟩ = false :=
        Row.isIgnored_eq_false_of_isNameContinue code (all char List.mem_cons_self)
      have whole := List.splitBy_of_isChain (List.cons_ne_nil _ _) chain
      rw [readFrom, Scanner.rowsFrom, whole]
      simp [ofRows?, kept, Scanner.map_char_rowsFrom]

theorem readFrom_ignored
    (ignored : Row.isIgnored ⟨position.offset, char, position.state⟩) :
    readFrom position (char :: text) = readFrom (position.after char) text := by
  have apart : Row.isNamePart ⟨position.offset, char, position.state⟩ = false := by
    by_contra part
    rw [Bool.not_eq_false, Row.isNamePart, Bool.and_eq_true, beq_iff_eq] at part
    rw [Row.isIgnored_eq_false_of_isNameContinue part.1 part.2] at ignored
    cases ignored
  have alone : readFrom position [char] = [] := by
    simp [readFrom, Scanner.rowsFrom, List.splitBy, List.splitBy.loop, ofRows?,
      ignored]
  rw [← List.singleton_append, readFrom_append_of_apart, alone]
  · rfl
  · intro last lastMember first _
    simp only [Scanner.rowsFrom, List.getLast?_singleton, Option.mem_def,
      Option.some.injEq] at lastMember
    rw [← lastMember, apart, Bool.false_and]

theorem readFrom_sign (code : position.state = .code)
    (isSign : Text.isSign char) :
    readFrom position (char :: text) =
      ⟨position.offset, [char]⟩ :: readFrom (position.after char) text := by
  simp only [Text.isSign, Bool.and_eq_true, Bool.not_eq_true', bne_iff_ne]
    at isSign
  rcases isSign with ⟨⟨solid, comment⟩, apart⟩
  have alone : readFrom position [char] = [⟨position.offset, [char]⟩] := by
    simp [readFrom, Scanner.rowsFrom, List.splitBy, List.splitBy.loop, ofRows?,
      Row.isIgnored, code, comment, solid]
  rw [← List.singleton_append, readFrom_append position, alone]
  · rfl
  · exact .inl apart

/-- Induction along the tokens of a text: it is empty, or it begins with an
ignored character, with a word, or with a sign. -/
@[elab_as_elim]
theorem readFrom_induction {motive : Position → Text → Prop}
    (nil : ∀ position, motive position [])
    (ignored : ∀ position char rest,
      Row.isIgnored ⟨position.offset, char, position.state⟩ →
      motive (position.after char) rest → motive position (char :: rest))
    (word : ∀ position word rest, position.state = .code → word.IsWord →
      Text.continuesName rest = false → motive (position.past word) rest →
      motive position (word ++ rest))
    (sign : ∀ position char rest, position.state = .code → Text.isSign char →
      motive (position.after char) rest → motive position (char :: rest))
    (position : Position) (text : Text) : motive position text := by
  obtain ⟨bound, length_eq⟩ : ∃ bound, text.length = bound := ⟨_, rfl⟩
  induction bound using Nat.strongRecOn generalizing position text with
  | ind bound induction =>
      subst length_eq
      cases text with
      | nil => exact nil position
      | cons char rest =>
          by_cases skip : Row.isIgnored ⟨position.offset, char, position.state⟩
          · exact ignored position char rest skip
              (induction rest.length (by simp) _ rest rfl)
          simp only [Row.isIgnored, Bool.or_eq_true, bne_iff_ne, beq_iff_eq,
            not_or, not_not, Bool.not_eq_true] at skip
          rcases skip with ⟨⟨code, comment⟩, solid⟩
          by_cases continues : Text.isNameContinue char
          · have split := List.takeWhile_append_dropWhile
              (p := Text.isNameContinue) (l := char :: rest)
            rw [← split]
            refine word position _ _ code ⟨?_, ?_⟩
              (Text.continuesName_dropWhile _) (induction _ ?_ _ _ rfl)
            · simp [continues]
            · exact fun _ member => List.mem_takeWhile_imp member
            · have shorter := (List.dropWhile_suffix Text.isNameContinue
                (l := rest)).length_le
              rw [List.dropWhile_cons_of_pos continues, List.length_cons]
              omega
          · have isSign : Text.isSign char := by
              simp [Text.isSign, solid, comment, continues]
            exact sign position char rest code isSign
              (induction rest.length (by simp) _ rest rfl)

theorem exists_of_mem {token : Token} (member : token ∈ readFrom position text) :
    ∃ before after, text = before ++ (token.text ++ after) ∧ token.text ≠ [] ∧
      token.start = position.offset + before.bytes ∧
      (position.past before).state = .code ∧
      (token.text.IsWord → after.continuesName = false) := by
  -- What is read behind a front stands as far behind the front's start.
  have behind : ∀ (position : Position) (front rest : Text),
      (∃ before after, rest = before ++ (token.text ++ after) ∧
        token.text ≠ [] ∧
        token.start = (position.past front).offset + Text.bytes before ∧
        ((position.past front).past before).state = .code ∧
        (token.text.IsWord → Text.continuesName after = false)) →
      ∃ before after, front ++ rest = before ++ (token.text ++ after) ∧
        token.text ≠ [] ∧
        token.start = position.offset + Text.bytes before ∧
        (position.past before).state = .code ∧
        (token.text.IsWord → Text.continuesName after = false) := by
    rintro position front rest
      ⟨before, after, rest_eq, nonempty, start_eq, code, stops⟩
    refine ⟨front ++ before, after, by simp [rest_eq], nonempty, ?_, ?_, stops⟩
    · rw [start_eq, Position.offset_past, Text.bytes_append, Nat.add_assoc]
    · rwa [Position.past_append]
  induction position, text using readFrom_induction with
  | nil position => cases member
  | ignored position char rest ignored induction =>
      rw [readFrom_ignored ignored] at member
      exact behind position [char] rest (induction member)
  | word position word rest code isWord stops induction =>
      rw [readFrom_append position (.inr stops), readFrom_word code isWord,
        List.singleton_append, List.mem_cons] at member
      rcases member with rfl | member
      · exact ⟨[], rest, rfl, isWord.1, rfl, code, fun _ => stops⟩
      · exact behind position word rest (induction member)
  | sign position char rest code isSign induction =>
      rw [readFrom_sign code isSign, List.mem_cons] at member
      rcases member with rfl | member
      · refine ⟨[], rest, rfl, List.cons_ne_nil _ _, rfl, code, fun isWord => ?_⟩
        have continues := isWord.2 char List.mem_cons_self
        simp [Text.isSign, continues] at isSign
      · exact behind position [char] rest (induction member)

theorem bounds_of_mem {token : Token} (member : token ∈ readFrom position text) :
    position.offset ≤ token.start ∧
      token.start < position.offset + text.bytes := by
  rcases exists_of_mem member with
    ⟨before, after, text_eq, nonempty, start_eq, _⟩
  rcases List.exists_cons_of_ne_nil nonempty with ⟨first, others, token_eq⟩
  have positive := first.utf8Size_pos
  rw [text_eq, start_eq, token_eq]
  simp only [Text.bytes_append, Text.bytes_cons]
  omega

end Reading

/-! The tokens of a text in code do not depend on what stands before it. -/

def shift (amount : Nat) (token : Token) : Token where
  start := amount + token.start
  text := token.text

section Joining

variable {left right text : Text} {token : Token}

theorem readFrom_alike (position : Position) (text : Text) :
    ∀ (other : Position) (amount : Nat), position.Alike other →
      position.offset = amount + other.offset →
      readFrom position text = (readFrom other text).map (shift amount) := by
  induction position, text using readFrom_induction with
  | nil position =>
      intro other amount _ _
      rfl
  | ignored position char rest ignored induction =>
      intro other amount alike offset_eq
      have onward : (position.after char).offset =
          amount + (other.after char).offset := by
        rw [Position.after, Position.after, offset_eq, Nat.add_assoc]
      have skipped : Row.isIgnored ⟨other.offset, char, other.state⟩ := by
        rw [← alike.1]
        exact ignored
      rw [readFrom_ignored ignored, readFrom_ignored skipped]
      exact induction _ _ (alike.after char) onward
  | word position word rest code isWord stops induction =>
      intro other amount alike offset_eq
      have onward : (position.past word).offset =
          amount + (other.past word).offset := by
        rw [Position.offset_past, Position.offset_past, offset_eq, Nat.add_assoc]
      have otherCode : other.state = .code := alike.1.symm.trans code
      rw [readFrom_append _ (.inr stops), readFrom_append _ (.inr stops),
        readFrom_word code isWord, readFrom_word otherCode isWord,
        List.map_append, induction _ _ (alike.past word) onward, offset_eq]
      rfl
  | sign position char rest code isSign induction =>
      intro other amount alike offset_eq
      have onward : (position.after char).offset =
          amount + (other.after char).offset := by
        rw [Position.after, Position.after, offset_eq, Nat.add_assoc]
      have otherCode : other.state = .code := alike.1.symm.trans code
      rw [readFrom_sign code isSign, readFrom_sign otherCode isSign,
        List.map_cons, induction _ _ (alike.after char) onward, offset_eq]
      rfl

theorem readFrom_of_code {position : Position} (code : position.state = .code)
    (text : Text) :
    readFrom position text = (tokensOf text).map (shift position.offset) :=
  readFrom_alike position text .start position.offset (.of_code code rfl) rfl

theorem tokensOf_append (closed : endState left = .code)
    (boundary : left.getLast?.any Text.isNameContinue = false ∨
      right.continuesName = false) :
    tokensOf (left ++ right) =
      tokensOf left ++ (tokensOf right).map (shift left.bytes) := by
  rw [endState_eq] at closed
  rw [tokensOf, readFrom_append .start boundary, readFrom_of_code closed,
    Position.offset_past_start]
  rfl

theorem tokensOf_word {word : Text} (isWord : word.IsWord) :
    tokensOf word = [⟨0, word⟩] :=
  readFrom_word rfl isWord

theorem tokensOf_sign {char : Char} (isSign : Text.isSign char) (rest : Text) :
    (tokensOf (char :: rest)).head? = some ⟨0, [char]⟩ := by
  have code : Position.start.state = .code := rfl
  rw [tokensOf, readFrom_sign code isSign]
  rfl

theorem exists_of_mem_tokensOf (member : token ∈ tokensOf text) :
    ∃ before after, text = before ++ (token.text ++ after) ∧
      token = ⟨before.bytes, token.text⟩ ∧ endState before = .code ∧
      (token.text.IsWord → after.continuesName = false) := by
  rcases exists_of_mem member with
    ⟨before, after, text_eq, _, start_eq, code, stops⟩
  have start : token.start = before.bytes := by
    rw [start_eq]
    exact Nat.zero_add _
  rw [← endState_eq] at code
  exact ⟨before, after, text_eq, by rw [← start], code, stops⟩

theorem stop_le_of_mem (member : token ∈ tokensOf text) :
    token.stop ≤ text.bytes := by
  rcases exists_of_mem_tokensOf member with ⟨before, after, text_eq, token_eq, _⟩
  rw [token_eq, stop, text_eq]
  simp only [Text.bytes_append]
  omega

end Joining

/-! Blanks and comments before a token are what `Text.afterIgnored` drops. -/

section Gaps

variable {position : Position} {text : Text}

theorem isPlain_of_isBlank {char : Char} (blank : Text.isBlank char) :
    Position.isPlain char := by
  simp only [Position.isPlain, Bool.and_eq_true, bne_iff_ne]
  refine ⟨⟨?_, ?_⟩, ?_⟩ <;>
    · rintro rfl
      exact absurd blank (by decide)

theorem readFrom_append_of_ignored {gap : Text}
    (ignored : ∀ row ∈ Scanner.rowsFrom position gap, row.isIgnored)
    (rest : Text) :
    readFrom position (gap ++ rest) = readFrom (position.past gap) rest := by
  induction gap generalizing position with
  | nil => rfl
  | cons char gap induction =>
      rw [Scanner.rowsFrom, List.forall_mem_cons] at ignored
      exact (readFrom_ignored ignored.1).trans (induction ignored.2)

theorem exists_gap (inside : Bool)
    (state_eq : position.state = if inside then .comment else .code)
    (text : Text) :
    ∃ gap, text = gap ++ Text.afterIgnored inside text ∧
      (∀ row ∈ Scanner.rowsFrom position gap, row.isIgnored) ∧
      ∀ first ∈ (Text.afterIgnored inside text).head?,
        (position.past gap).state = .code ∧ first ≠ '#' ∧
          Text.isBlank first = false := by
  induction text generalizing position inside with
  | nil => cases inside <;> exact ⟨[], rfl, by simp [Scanner.rowsFrom], by
      simp [Text.afterIgnored]⟩
  | cons char rest induction =>
      have onward : ∀ inside,
          (position.after char).state = (if inside then .comment else .code) →
          Row.isIgnored ⟨position.offset, char, position.state⟩ →
          ∃ gap, char :: rest = gap ++ Text.afterIgnored inside rest ∧
            (∀ row ∈ Scanner.rowsFrom position gap, row.isIgnored) ∧
            ∀ first ∈ (Text.afterIgnored inside rest).head?,
              (position.past gap).state = .code ∧ first ≠ '#' ∧
                Text.isBlank first = false := by
        intro inside after_eq ignored
        rcases induction inside after_eq with ⟨gap, rest_eq, rows, next⟩
        refine ⟨char :: gap, congrArg (char :: ·) rest_eq, ?_, next⟩
        rw [Scanner.rowsFrom, List.forall_mem_cons]
        exact ⟨ignored, rows⟩
      cases inside with
      | true =>
          simp only [if_true] at state_eq
          refine onward _ ?_ (by simp [Row.isIgnored, state_eq])
          by_cases ends : char = '\n' ∨ char = '\r'
          · rcases ends with rfl | rfl <;>
              simp [Position.after, state_eq, LexicalState.next]
          · rw [not_or] at ends
            simp [Position.after, state_eq, LexicalState.next, ends]
      | false =>
          simp only [Bool.false_eq_true, if_false] at state_eq
          simp only [Text.afterIgnored]
          by_cases blank : Text.isBlank char
          · rw [if_pos blank]
            refine onward false ?_ (by simp [Row.isIgnored, blank])
            exact Position.state_after_of_plain state_eq (isPlain_of_isBlank blank)
          · rw [if_neg blank]
            by_cases comment : char = '#'
            · rw [if_pos (by simp [comment])]
              refine onward true ?_ (by simp [Row.isIgnored, comment])
              simp [Position.after, state_eq, comment, LexicalState.next,
                Quote.mark]
            · rw [if_neg (by simp [comment])]
              refine ⟨[], rfl, by simp [Scanner.rowsFrom], ?_⟩
              intro first member
              cases member
              exact ⟨state_eq, comment, by simpa using blank⟩

theorem ignoredLength_eq {gap : Text}
    (text_eq : text = gap ++ Text.afterIgnored false text) :
    text.ignoredLength = gap.bytes := by
  have total := congrArg Text.bytes text_eq
  rw [Text.bytes_append] at total
  rw [Text.ignoredLength]
  omega

/-- The token that a text begins with when it begins neither with a blank nor
with a comment. -/
def leading (text : Text) : Text :=
  match text with
  | [] => []
  | char :: rest =>
      if Text.isNameContinue char then
        (char :: rest).takeWhile Text.isNameContinue
      else [char]

theorem leadingName_eq (text : Text) :
    text.leadingName = if (leading text).IsName then leading text else [] := by
  cases text with
  | nil => rfl
  | cons char rest =>
      by_cases continues : Text.isNameContinue char
      · have run : leading (char :: rest) =
            char :: rest.takeWhile Text.isNameContinue := by
          rw [leading, if_pos continues, List.takeWhile_cons_of_pos continues]
        rw [run, Text.leadingName]
        by_cases start : Text.isNameStart char
        · have isName : Text.IsName
              (char :: rest.takeWhile Text.isNameContinue) :=
            Text.isName_cons_iff.mpr
              ⟨start, fun _ member => List.mem_takeWhile_imp member⟩
          rw [if_pos start, if_pos isName]
        · rw [if_neg start, if_neg]
          exact fun isName => start (Text.isName_cons_iff.mp isName).1
      · have start : ¬ Text.isNameStart char := fun start =>
          continues (Text.isNameContinue_of_start start)
        rw [leading, if_neg continues, Text.leadingName, if_neg start, if_neg]
        exact fun isName => start (Text.isName_cons_iff.mp isName).1

theorem exists_append_leading {text : Text} (isWord : (leading text).IsWord) :
    ∃ rest, text = leading text ++ rest ∧ Text.continuesName rest = false := by
  cases text with
  | nil => exact absurd rfl isWord.1
  | cons char rest =>
      have continues : Text.isNameContinue char := by
        by_contra apart
        rw [leading, if_neg apart] at isWord
        exact apart (isWord.2 char List.mem_cons_self)
      rw [leading, if_pos continues]
      exact ⟨_, List.takeWhile_append_dropWhile.symm,
        Text.continuesName_dropWhile _⟩

theorem exists_gap_name {position : Position} (code : position.state = .code)
    {text : Text} (isName : (leading (Text.afterIgnored false text)).IsName) :
    ∃ gap rest, text = gap ++ Text.afterIgnored false text ∧
      Text.afterIgnored false text =
        leading (Text.afterIgnored false text) ++ rest ∧
      (∀ row ∈ Scanner.rowsFrom position gap, row.isIgnored) ∧
      (position.past gap).state = .code ∧ Text.continuesName rest = false := by
  rcases exists_gap false code text with ⟨gap, text_eq, ignored, next⟩
  rcases exists_append_leading isName.isWord with ⟨rest, named, stops⟩
  refine ⟨gap, rest, text_eq, named, ignored, ?_, stops⟩
  rcases List.exists_cons_of_ne_nil isName.1 with ⟨first, others, first_eq⟩
  rw [named, first_eq] at next
  exact (next first rfl).1

theorem leading_eq_iff {sign : Char} (apart : Text.isNameContinue sign = false)
    (text : Text) : leading text = [sign] ↔ text.head? = some sign := by
  cases text with
  | nil => simp [leading]
  | cons char rest =>
      by_cases continues : Text.isNameContinue char
      · have different := Text.ne_of_isNameContinue continues apart
        simp [leading, continues, different]
      · simp [leading, continues]

theorem head?_readFrom_cons {char : Char} (code : position.state = .code)
    (comment : char ≠ '#') (solid : Text.isBlank char = false) (rest : Text) :
    (readFrom position (char :: rest)).head? =
      some ⟨position.offset, leading (char :: rest)⟩ := by
  by_cases continues : Text.isNameContinue char
  · have split := List.takeWhile_append_dropWhile
      (p := Text.isNameContinue) (l := char :: rest)
    have isWord : Text.IsWord
        ((char :: rest).takeWhile Text.isNameContinue) :=
      ⟨by simp [continues], fun _ member => List.mem_takeWhile_imp member⟩
    have stops := Text.continuesName_dropWhile (char :: rest)
    rw [leading, if_pos continues, ← split, readFrom_append position (.inr stops),
      readFrom_word code isWord, split]
    rfl
  · have isSign : Text.isSign char := by
      simp [Text.isSign, solid, comment, continues]
    rw [readFrom_sign code isSign, leading, if_neg continues]
    rfl

theorem head?_readFrom (code : position.state = .code) (text : Text) :
    (readFrom position text).head? =
      if Text.afterIgnored false text = [] then none
      else some ⟨position.offset + text.ignoredLength,
        leading (Text.afterIgnored false text)⟩ := by
  rcases exists_gap false code text with ⟨gap, text_eq, rows, next⟩
  have onward := readFrom_append_of_ignored rows (Text.afterIgnored false text)
  rw [← text_eq] at onward
  rw [onward, ignoredLength_eq text_eq]
  generalize Text.afterIgnored false text = rest at next
  cases rest with
  | nil => rfl
  | cons char rest =>
      rcases next char rfl with ⟨gapCode, comment, solid⟩
      rw [head?_readFrom_cons gapCode comment solid rest, Position.offset_past,
        if_neg (List.cons_ne_nil _ _)]

theorem exists_of_head? {token : Token} (code : position.state = .code)
    (head : (readFrom position text).head? = some token) :
    ∃ gap rest, text = gap ++ rest ∧
      (∀ row ∈ Scanner.rowsFrom position gap, row.isIgnored) ∧
      (position.past gap).state = .code ∧
      token = ⟨position.offset + gap.bytes, leading rest⟩ := by
  rcases exists_gap false code text with ⟨gap, text_eq, ignored, next⟩
  rw [head?_readFrom code, ignoredLength_eq text_eq] at head
  refine ⟨gap, Text.afterIgnored false text, text_eq, ignored, ?_⟩
  generalize Text.afterIgnored false text = rest at next head
  cases rest with
  | nil => cases head
  | cons char rest => exact ⟨(next char rfl).1, (Option.some.inj head).symm⟩

end Gaps

end Token

end QueryAssembly
