import QueryAssembly.Lexical.Match

namespace QueryAssembly

/-! The search for a needle and the scan that sorts its occurrences proceed
together: one walk over the text meets every occurrence in the state that the
scanner reaches there. -/

namespace Text

theorem occurrencesFrom_found (needle : Text) (found : List Nat)
    (offset skip : Nat) (text : Text) :
    occurrencesFrom needle found offset skip text =
      found.reverse ++ occurrencesFrom needle [] offset skip text := by
  induction text generalizing found offset skip with
  | nil => simp [occurrencesFrom]
  | cons char rest induction =>
      cases skip with
      | succ skip => exact induction found _ skip
      | zero =>
          simp only [occurrencesFrom]
          split
          · rw [induction (offset :: found), induction [offset]]
            simp
          · exact induction found _ 0

end Text

/-- The places in code where `needle` begins, in a text read from a position.
The next `skip` characters belong to the occurrence met last. -/
def placesFrom (needle : Text) : Position → Nat → Text → List CodeMatch
  | _, _, [] => []
  | position, skip + 1, char :: rest =>
      placesFrom needle (position.after char) skip rest
  | position, 0, char :: rest =>
      if needle.isPrefixOf (char :: rest) then
        let later := placesFrom needle (position.after char)
          (needle.length - 1) rest
        if position.state = .code then
          ⟨position.offset, (char :: rest).drop needle.length⟩ :: later
        else later
      else placesFrom needle (position.after char) 0 rest

theorem matchesInCode_occurrencesFrom (needle : Text)
    (found : List CodeMatch) (position : Position) (passed text : Text)
    (skip : Nat) :
    matchesInCode needle.bytes found ⟨position, passed ++ text⟩
        (Text.occurrencesFrom needle [] (position.past passed).offset skip
          text) =
      .ok (found.reverse ++ placesFrom needle (position.past passed) skip
        text) := by
  induction text generalizing found position passed skip with
  | nil => simp [Text.occurrencesFrom, matchesInCode, placesFrom]
  | cons char rest induction =>
      -- A character that begins no occurrence joins what the scanner has yet
      -- to pass.
      have moved := fun skip =>
        induction found position (passed ++ [char]) skip
      simp only [List.append_assoc, List.singleton_append, Position.past_append,
        Position.past_cons, Position.past_nil] at moved
      cases skip with
      | succ skip => exact moved skip
      | zero =>
          simp only [Text.occurrencesFrom, placesFrom]
          split
          · next isPrefix =>
            rcases List.isPrefixOf_iff_prefix.mp isPrefix with ⟨after, after_eq⟩
            have reached := Scanner.advanceFrom_append position passed
              (char :: rest)
            rw [← Position.offset_past] at reached
            have onward : Text.onward (char :: rest) needle.bytes =
                .ok after := by
              rw [← after_eq]
              exact Text.onward_append needle after
            have dropped : (char :: rest).drop needle.length = after := by
              rw [← after_eq, List.drop_left]
            have ahead : ¬ (position.past passed).offset < position.offset := by
              rw [Position.offset_past]
              omega
            have later := fun found => induction found
              (position.past passed) [char] (needle.length - 1)
            simp only [Position.past_cons, Position.past_nil,
              List.singleton_append] at later
            rw [Text.occurrencesFrom_found, List.reverse_singleton,
              List.singleton_append, matchesInCode]
            simp only [Scanner.offset, ahead, if_false, Scanner.advanceTo,
              reached, Scanner.state, onward, dropped]
            split
            · exact (later _).trans (by simp)
            · exact later found
          · exact moved 0

theorem codeMatches_eq {needle : Text} (nonempty : needle ≠ [])
    (source : Text) :
    codeMatches needle source = .ok (placesFrom needle .start 0 source) := by
  have empty : needle.isEmpty = false := List.isEmpty_eq_false_iff.mpr nonempty
  simp only [codeMatches, Text.occurrences, empty, Bool.false_eq_true, if_false]
  exact matchesInCode_occurrencesFrom needle [] .start [] source 0

end QueryAssembly
