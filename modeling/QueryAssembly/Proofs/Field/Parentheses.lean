import QueryAssembly.Proofs.Field.Place
import QueryAssembly.Proofs.Lexical.Token

namespace QueryAssembly

/-! The search for a field does not count parentheses. A bare name in a list is
taken for the field unless the field stands outside all lists before it. What is
replaced at a field begins and ends between the same parentheses. -/

namespace FieldOccurrence

/-! How many parentheses in code are open at an offset. -/

def codeCount (char : Char) (rows : List Row) : Nat :=
  rows.countP fun row => row.state == .code && row.char == char

def excess (rows : List Row) : Int :=
  codeCount '(' rows - codeCount ')' rows

def openParentheses (document : Text) (offset : Nat) : Int :=
  excess ((rowsOf document).takeWhile fun row => row.offset < offset)

structure Balanced (document : Text) : Prop where
  nested : ∀ offset ≤ document.bytes, 0 ≤ openParentheses document offset
  closed : openParentheses document document.bytes = 0

instance (document : Text) : Decidable (Balanced document) :=
  decidable_of_iff
    ((∀ offset ≤ document.bytes, 0 ≤ openParentheses document offset) ∧
      openParentheses document document.bytes = 0)
    ⟨fun both => ⟨both.1, both.2⟩, fun balanced => ⟨balanced.1, balanced.2⟩⟩

/-- Whether the field stands outside all parentheses before it stands inside
any. -/
def Sheltered (document field : Text) : Prop :=
  ∀ before after, At document field before after →
    openParentheses document before.bytes ≠ 0 →
    ∃ other rest, At document field other rest ∧
      openParentheses document other.bytes = 0 ∧ other.length < before.length

section Excess

variable {position : Position} {text : Text} {char : Char}

theorem excess_append (left right : List Row) :
    excess (left ++ right) = excess left + excess right := by
  simp only [excess, codeCount, List.countP_append]
  omega

theorem excess_cons (row : Row) (rows : List Row) :
    excess (row :: rows) = excess [row] + excess rows :=
  excess_append [row] rows

theorem excess_opening (code : position.state = .code) :
    excess [⟨position.offset, '(', position.state⟩] = 1 := by
  rw [code]
  rfl

theorem excess_closing (code : position.state = .code) :
    excess [⟨position.offset, ')', position.state⟩] = -1 := by
  rw [code]
  rfl

theorem excess_other {row : Row}
    (opens : ¬ (row.state = .code ∧ row.char = '('))
    (closes : ¬ (row.state = .code ∧ row.char = ')')) : excess [row] = 0 := by
  simp [excess, codeCount, opens, closes]

theorem excess_rowsFrom_append (position : Position) (left right : Text) :
    excess (Scanner.rowsFrom position (left ++ right)) =
      excess (Scanner.rowsFrom position left) +
        excess (Scanner.rowsFrom (position.past left) right) := by
  rw [Scanner.rowsFrom_append, excess_append]

theorem excess_of_apart (position : Position)
    (apart : ∀ char ∈ text, char ≠ '(' ∧ char ≠ ')') :
    excess (Scanner.rowsFrom position text) = 0 := by
  induction text generalizing position with
  | nil => rfl
  | cons char rest induction =>
      rw [List.forall_mem_cons] at apart
      have here : excess [⟨position.offset, char, position.state⟩] = 0 := by
        apply excess_other
        · exact fun both => apart.1.1 both.2
        · exact fun both => apart.1.2 both.2
      rw [Scanner.rowsFrom, excess_cons, here, induction _ apart.2]
      rfl

theorem openParentheses_append (before after : Text) :
    openParentheses (before ++ after) before.bytes =
      excess (Scanner.rowsFrom .start before) := by
  rw [openParentheses, Scanner.takeWhile_rowsOf]
  rfl

end Excess

/-! An argument list closes what it opens. -/

section Closing

/-- Whether something stays open all along a text that begins between `depth`
parentheses. -/
def StaysOpen (depth : Nat) (position : Position) (text : Text) : Prop :=
  ∀ front, front <+: text →
    0 < depth + excess (Scanner.rowsFrom position front)

theorem staysOpen_nil {depth : Nat} (inside : 0 < depth) (position : Position) :
    StaysOpen depth position [] := by
  intro front isFront
  have empty : excess (Scanner.rowsFrom position []) = 0 := rfl
  rw [List.prefix_nil.mp isFront]
  omega

theorem staysOpen_cons {depth next : Nat} {position : Position} {char : Char}
    {text : Text} (inside : 0 < depth)
    (next_eq : (next : Int) =
      depth + excess [⟨position.offset, char, position.state⟩])
    (later : StaysOpen next (position.after char) text) :
    StaysOpen depth position (char :: text) := by
  intro front isFront
  rcases List.prefix_cons_iff.mp isFront with rfl | ⟨behind, rfl, within⟩
  · exact staysOpen_nil inside position [] (List.prefix_refl _)
  · have remains := later behind within
    rw [Scanner.rowsFrom, excess_cons]
    omega

theorem afterClosing_excess {depth : Nat} (inside : 0 < depth)
    (position : Position) (text : Text) :
    (afterClosing depth position text = none ∧ StaysOpen depth position text) ∨
      ∃ opened rest, afterClosing depth position text = some rest ∧
        text = opened ++ ')' :: rest ∧ StaysOpen depth position opened ∧
        depth + excess (Scanner.rowsFrom position (opened ++ [')'])) = 0 := by
  induction text generalizing depth position with
  | nil => exact .inl ⟨rfl, staysOpen_nil inside position⟩
  | cons char rest induction =>
      have onward : ∀ next : Nat, 0 < next →
          (next : Int) =
            depth + excess [⟨position.offset, char, position.state⟩] →
          (afterClosing next (position.after char) rest = none ∧
            StaysOpen depth position (char :: rest)) ∨
          ∃ opened after, afterClosing next (position.after char) rest =
              some after ∧ char :: rest = opened ++ ')' :: after ∧
            StaysOpen depth position opened ∧
            depth + excess (Scanner.rowsFrom position (opened ++ [')'])) = 0 := by
        intro next positive next_eq
        rcases induction positive (position.after char) with
          ⟨absent, remains⟩ | ⟨opened, after, found, rest_eq, remains, level⟩
        · exact .inl ⟨absent, staysOpen_cons inside next_eq remains⟩
        · refine .inr ⟨char :: opened, after, found, by rw [rest_eq]; rfl,
            staysOpen_cons inside next_eq remains, ?_⟩
          rw [List.cons_append, Scanner.rowsFrom, excess_cons]
          omega
      simp only [afterClosing]
      by_cases opens : position.state = .code ∧ char = '('
      · rw [if_pos opens]
        rcases opens with ⟨code, rfl⟩
        apply onward _ (Nat.succ_pos depth)
        rw [excess_opening code]
        rfl
      · rw [if_neg opens]
        by_cases closes : position.state = .code ∧ char = ')'
        · rw [if_pos closes]
          rcases closes with ⟨code, rfl⟩
          have step := excess_closing code
          by_cases last : depth = 1
          · rw [if_pos last]
            refine .inr ⟨[], rest, rfl, rfl, staysOpen_nil inside position, ?_⟩
            have alone : excess (Scanner.rowsFrom position [')']) = -1 := step
            rw [List.nil_append]
            omega
          · rw [if_neg last]
            apply onward _ (by omega)
            omega
        · rw [if_neg closes]
          apply onward _ inside
          rw [excess_other opens closes, Int.add_zero]

variable {document field before after dropped : Text}

theorem isBlank_apart {char : Char} (blank : Text.isBlank char) :
    char ≠ '(' ∧ char ≠ ')' := by
  constructor <;>
    · rintro rfl
      exact absurd blank (by decide)

theorem excess_arguments {front : Text}
    (balanced : Balanced (front ++ after))
    (code : (Position.start.past front).state = .code)
    (after_eq : after = dropped ++ afterArguments after) :
    excess (Scanner.rowsFrom (.past .start front) dropped) = 0 := by
  have blanks := List.takeWhile_append_dropWhile (p := Text.isBlank) (l := after)
  by_cases parenthesis : (after.dropWhile Text.isBlank).head? = some '('
  · rcases List.head?_eq_some_iff.mp parenthesis with ⟨rest, onward⟩
    rw [afterArguments, onward] at after_eq
    rw [onward] at blanks
    have gapBlank : ∀ char ∈ after.takeWhile Text.isBlank, Text.isBlank char :=
      fun _ member => List.mem_takeWhile_imp member
    generalize after.takeWhile Text.isBlank = gap at blanks gapBlank
    have gapCode : ((Position.start.past front).past gap).state = .code :=
      Position.state_past_of_plain code fun char member =>
        Token.isPlain_of_isBlank (gapBlank char member)
    have gapLevel := excess_of_apart (.past .start front) fun char member =>
      isBlank_apart (gapBlank char member)
    have opening := excess_opening gapCode
    have frontLevel := balanced.nested front.bytes (by simp)
    rw [openParentheses_append] at frontLevel
    simp only [List.head?_cons, if_true, afterClosing_opening gapCode] at after_eq
    rcases afterClosing_excess Nat.one_pos
        (((Position.start.past front).past gap).after '(') rest with
      ⟨_, remains⟩ | ⟨opened, later, found, rest_eq, _, level⟩
    · -- An opening parenthesis that is never closed would remain open.
      have total := balanced.closed
      have remains := remains rest (List.prefix_refl rest)
      have whole := openParentheses_append (front ++ after) []
      rw [List.append_nil, total, ← blanks, excess_rowsFrom_append,
        excess_rowsFrom_append, gapLevel, Scanner.rowsFrom, excess_cons,
        opening] at whole
      omega
    · have closing : opened ++ ')' :: later = (opened ++ [')']) ++ later := by simp
      rw [found, Option.getD_some, ← blanks, rest_eq, closing,
        ← List.cons_append, ← List.append_assoc] at after_eq
      have dropped_eq := List.append_cancel_right after_eq
      rw [← dropped_eq, excess_rowsFrom_append, gapLevel, Scanner.rowsFrom,
        excess_cons, opening]
      omega
  · rw [afterArguments, if_neg parenthesis] at after_eq
    have none : dropped = [] := List.self_eq_append_left.mp after_eq
    rw [none]
    rfl

theorem openParentheses_arguments (balanced : Balanced document)
    (word : field.IsWord) (isAt : At document field before after)
    (after_eq : after = dropped ++ afterArguments after) :
    openParentheses document (Text.bytes (before ++ (field ++ dropped))) =
      openParentheses document before.bytes := by
  have code : (Position.start.past before).state = .code :=
    (endState_eq before).symm.trans isAt.opens.code
  have fieldCode : (Position.start.past (before ++ field)).state = .code := by
    rw [Position.past_append]
    exact Position.state_past_of_isNameContinue code word.2
  have fieldLevel := excess_of_apart (.past .start before) fun char member =>
    ⟨Text.ne_of_isNameContinue (word.2 char member) rfl,
      Text.ne_of_isNameContinue (word.2 char member) rfl⟩
  have document_eq : document = (before ++ field) ++ after := by
    rw [isAt.text_eq, List.append_assoc]
  have argumentLevel := excess_arguments (document_eq ▸ balanced) fieldCode after_eq
  have opened := openParentheses_append before (field ++ after)
  rw [← isAt.text_eq] at opened
  have stopped := openParentheses_append (before ++ (field ++ dropped))
    (afterArguments after)
  have shape : (before ++ (field ++ dropped)) ++ afterArguments after =
      document := by
    rw [isAt.text_eq, List.append_assoc, List.append_assoc, ← after_eq]
  rw [shape] at stopped
  rw [opened, stopped, ← List.append_assoc, excess_rowsFrom_append,
    excess_rowsFrom_append, fieldLevel, argumentLevel, Int.add_zero, Int.add_zero]

end Closing

/-! Whether what is found stands outside all parentheses. -/

section Outside

variable {document field : Text}

def ReplacesOnly (document field : Text) (occurrence : FieldOccurrence) : Prop :=
  ∀ aliases directives, ∃ before removed after,
    document = before ++ (removed ++ after) ∧
      before.bytes = occurrence.start ∧
      Text.bytes (before ++ removed) = occurrence.stop ∧
      FieldAttachment.applyTo aliases directives document field =
        .ok (before ++ (FieldAttachment.replacement field (aliases.get? field)
          (directives.get? field) ++ after))

theorem outside_iff_sheltered {before after : Text}
    (first : First document field before after) :
    openParentheses document before.bytes = 0 ↔ Sheltered document field := by
  constructor
  · intro outside other rest otherAt inside
    refine ⟨before, after, first.toAt, outside, ?_⟩
    apply Nat.lt_of_le_of_ne (first.least other rest otherAt)
    intro same
    have texts := first.text_eq.symm.trans otherAt.text_eq
    have equal := (List.append_inj texts same).1
    rw [← equal] at inside
    exact inside outside
  · intro sheltered
    by_contra inside
    rcases sheltered before after first.toAt inside with
      ⟨other, rest, otherAt, _, earlier⟩
    exact Nat.not_lt.mpr (first.least other rest otherAt) earlier

/-- A field that stands somewhere is found. What is replaced there stays between
the same parentheses, and it is outside all of them just when the field is
sheltered. -/
theorem first?_outside_iff (balanced : Balanced document)
    (isName : field.IsName) :
    ∃ found, first? document field = .ok found ∧
      (found = none ↔ ∀ before after, ¬ At document field before after) ∧
      ∀ occurrence ∈ found,
        ReplacesOnly document field occurrence ∧
          openParentheses document occurrence.stop =
            openParentheses document occurrence.start ∧
          (openParentheses document occurrence.start = 0 ↔
            Sheltered document field) := by
  rcases first?_first isName.isWord document with
    ⟨absent, found⟩ | ⟨before, dropped, after, first, after_eq, text_eq, found⟩
  · exact ⟨none, found, iff_of_true rfl absent, fun _ member => nomatch member⟩
  · have present : ¬ ∀ before after, ¬ At document field before after :=
      fun absent => absent before after first.toAt
    refine ⟨_, found, iff_of_false (Option.some_ne_none _) present, ?_⟩
    intro occurrence member
    obtain rfl := Option.some.inj member
    refine ⟨fun aliases directives => ?_, ?_, outside_iff_sheltered first⟩
    · exact ⟨before, field ++ dropped, afterArguments after, text_eq, rfl, rfl,
        applyTo_found text_eq found aliases directives⟩
    · exact openParentheses_arguments balanced isName.isWord first.toAt after_eq

def sortedAfter : Text :=
  "\x7b name(first: 1) post(sort: name) \x7d".toList

theorem first?_outside_iff_sortedAfter :
    Balanced sortedAfter ∧ Text.IsName "name".toList ∧
      first? sortedAfter "name".toList = .ok (some ⟨2, 16⟩) ∧
      openParentheses sortedAfter 16 = openParentheses sortedAfter 2 ∧
      Sheltered sortedAfter "name".toList := by
  have balanced : Balanced sortedAfter := by decide +kernel
  have isName : Text.IsName "name".toList := by decide
  have found : first? sortedAfter "name".toList = .ok (some ⟨2, 16⟩) := rfl
  have outside : openParentheses sortedAfter 2 = 0 := by decide +kernel
  rcases first?_outside_iff balanced isName with ⟨result, found_eq, _, holds⟩
  obtain rfl := Except.ok.inj (found.symm.trans found_eq)
  rcases holds _ rfl with ⟨_, level, sheltered⟩
  exact ⟨balanced, isName, found, level, sheltered.mp outside⟩

def sortedBefore : Text := "\x7b post(sort: name) \x7b name \x7d \x7d".toList

/-- A bare name in an argument list is taken for the field. -/
theorem not_forall_first?_outside :
    ¬ ∀ (document field : Text) (occurrence : FieldOccurrence),
      Balanced document → field.IsName →
      first? document field = .ok (some occurrence) →
      openParentheses document occurrence.start = 0 := by
  intro every
  have balanced : Balanced sortedBefore := by decide +kernel
  have isName : Text.IsName "name".toList := by decide
  have inside : openParentheses sortedBefore 13 = 0 :=
    every sortedBefore "name".toList ⟨13, 17⟩ balanced isName rfl
  exact absurd inside (by decide +kernel)

end Outside

end FieldOccurrence

end QueryAssembly
