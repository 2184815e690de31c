import Mathlib.Order.Bounds.Basic
import QueryAssembly.Proofs.Lexical.Slice

namespace QueryAssembly

/-! What may stand before the first token of a text, as the scanner sees it: blanks in
code and line comments. Passing blanks and comments in turn comes to an end, at the
greatest offset up to which the scanner sees nothing else. -/

namespace Row

def IsIgnorable (row : Row) : Prop :=
  row.state = .code ∧ Text.isBlank row.char ∨
    row.state = .code ∧ row.char = '#' ∨ row.state = .comment

theorem not_isIgnorable_of_solid {row : Row} (code : row.state = .code)
    (solid : Text.isBlank row.char = false) (uncommented : row.char ≠ '#') :
    ¬ row.IsIgnorable := by
  rintro (⟨_, blank⟩ | ⟨_, sharp⟩ | comment)
  · rw [solid] at blank
    cases blank
  · exact uncommented sharp
  · rw [code] at comment
    cases comment

end Row

namespace Text

/-- The offsets of a text before which everything is ignorable. -/
def ignorableOffsets (text : Text) : Set Nat :=
  {offset | text.IsBoundary offset ∧
    ∀ row ∈ rowsOf text, row.offset < offset → row.IsIgnorable}

/-- Whether a text ends at an offset, or goes on there in code with a character that is
neither a blank nor the beginning of a comment. -/
inductive EndsIgnored (text : Text) : Nat → Prop
  | ended : EndsIgnored text text.bytes
  | token {offset : Nat} {first : Char} {rest : Text}
      (code : stateAt text offset = .code)
      (onward : text.onward offset = .ok (first :: rest))
      (solid : isBlank first = false) (uncommented : first ≠ '#') :
      EndsIgnored text offset

theorem PassesIgnored.unique {text : Text} {length reached other : Nat}
    (left : PassesIgnored text length reached)
    (right : PassesIgnored text length other) : reached = other := by
  induction left with
  | done first second solid =>
      cases right with
      | done first' =>
          obtain rfl := Except.ok.inj (first.symm.trans first')
          rfl
      | comment first' second' sharp =>
          obtain rfl := Except.ok.inj (first.symm.trans first')
          obtain rfl := Except.ok.inj (second.symm.trans second')
          exact absurd sharp solid
  | comment first second sharp _ induction =>
      cases right with
      | done first' second' solid =>
          obtain rfl := Except.ok.inj (first.symm.trans first')
          obtain rfl := Except.ok.inj (second.symm.trans second')
          exact absurd sharp solid
      | comment first' second' _ onward =>
          obtain rfl := Except.ok.inj (first.symm.trans first')
          obtain rfl := Except.ok.inj (second.symm.trans second')
          exact induction onward

section Rows

variable {position : Position} {char : Char} {gap : Text}

theorem outside_after
    (ignorable : Row.IsIgnorable ⟨position.offset, char, position.state⟩) :
    (position.after char).state = .code ∨
      (position.after char).state = .comment := by
  rcases ignorable with ⟨code, blank⟩ | ⟨code, sharp⟩ | comment
  · exact .inl (Position.state_after_of_plain code (Token.isPlain_of_isBlank blank))
  · obtain rfl : char = '#' := sharp
    have opened : LexicalState.code.next position.previous '#' = .comment := rfl
    exact .inr (by rw [← opened, ← code]; rfl)
  · have comment : position.state = .comment := comment
    simp only [Position.after, comment, LexicalState.next]
    split
    · exact .inl rfl
    · exact .inr rfl

theorem isIgnorable_of_isIgnored
    (outside : position.state = .code ∨ position.state = .comment)
    (ignored : ∀ row ∈ Scanner.rowsFrom position gap, row.isIgnored) :
    ∀ row ∈ Scanner.rowsFrom position gap, row.IsIgnorable := by
  induction gap generalizing position with
  | nil => simp [Scanner.rowsFrom]
  | cons char gap induction =>
      rw [Scanner.rowsFrom, List.forall_mem_cons] at ignored ⊢
      have here : Row.IsIgnorable ⟨position.offset, char, position.state⟩ := by
        rcases outside with code | comment
        · rcases Row.isIgnored_iff.mp ignored.1 with other | sharp | blank
          · exact absurd code other
          · exact .inr (.inl ⟨code, sharp⟩)
          · exact .inl ⟨code, blank⟩
        · exact .inr (.inr comment)
      exact ⟨here, induction (outside_after here) ignored.2⟩

end Rows

section Offsets

variable {text : Text} {offset stop : Nat}

theorem bytes_mem_ignorableOffsets {before : Text} (after : Text)
    (ignorable : ∀ row ∈ rowsOf before, row.IsIgnorable) :
    before.bytes ∈ ignorableOffsets (before ++ after) := by
  refine ⟨⟨before, after, rfl, rfl⟩, fun row member early => ?_⟩
  rw [Scanner.rowsOf_append, List.mem_append] at member
  rcases member with member | member
  · exact ignorable row member
  · rcases Scanner.mem_rowsFrom_iff.mp member with ⟨_, _, _, offset_eq, _⟩
    rw [Position.offset_past_start] at offset_eq
    omega

theorem le_of_endsIgnored (ignorable : offset ∈ ignorableOffsets text)
    (ends : EndsIgnored text stop) : offset ≤ stop := by
  by_contra beyond
  rw [Nat.not_le] at beyond
  rcases ignorable with ⟨⟨before, after, text_eq, offset_eq⟩, rows⟩
  cases ends with
  | ended =>
      rw [text_eq, bytes_append] at beyond
      omega
  | @token _ first rest code onward solid uncommented =>
      rcases exists_of_onward onward with ⟨passed, rfl, rfl⟩
      rw [stateAt_append] at code
      have ignorable := rows _ (Scanner.row_mem_rowsOf passed first rest) beyond
      exact absurd ignorable
        (Row.not_isIgnorable_of_solid code solid uncommented)

end Offsets

theorem ignoredLength_mem (text : Text) :
    text.ignoredLength ∈ ignorableOffsets text ∧
      EndsIgnored text text.ignoredLength := by
  have start_code : Position.start.state = .code := rfl
  rcases Token.exists_gap false start_code text with
    ⟨gap, text_eq, ignored, next⟩
  have length_eq := Token.ignoredLength_eq text_eq
  rw [length_eq]
  generalize afterIgnored false text = rest at text_eq next
  subst text_eq
  refine ⟨bytes_mem_ignorableOffsets rest
    (isIgnorable_of_isIgnored (.inl start_code) ignored), ?_⟩
  cases rest with
  | nil =>
      rw [List.append_nil]
      exact .ended
  | cons first rest =>
      rcases next first rfl with ⟨code, uncommented, solid⟩
      rw [← stateAt_append gap (first :: rest)] at code
      exact .token code (onward_append gap _) solid uncommented

/-- Passing blanks and comments in turn ends, and always at the same offset. It is the
only one before which everything is ignorable and at which that ends, and so the
greatest one before which everything is ignorable. -/
theorem ignoredLength_isGreatest (text : Text) :
    (∀ reached, PassesIgnored text 0 reached ↔ reached = text.ignoredLength) ∧
      (∀ offset, offset ∈ ignorableOffsets text ∧ EndsIgnored text offset ↔
        offset = text.ignoredLength) ∧
      IsGreatest (ignorableOffsets text) text.ignoredLength := by
  rcases ignoredLength_mem text with ⟨member, ends⟩
  have passes := (sliceable text).ignored
  refine ⟨fun reached => ⟨fun other => other.unique passes, ?_⟩, fun offset => ?_,
    member, fun offset ignorable => le_of_endsIgnored ignorable ends⟩
  · rintro rfl
    exact passes
  · constructor
    · rintro ⟨ignorable, stops⟩
      exact Nat.le_antisymm (le_of_endsIgnored ignorable ends)
        (le_of_endsIgnored member stops)
    · rintro rfl
      exact ⟨member, ends⟩

example : ignoredLength " # \"\r\n# '".toList = 9 := by decide

end Text

end QueryAssembly
