import Mathlib.Data.List.Basic
import QueryAssembly.Proofs.Fragment.Pieces
import QueryAssembly.Proofs.Lexical.Match

namespace QueryAssembly

/-! Replacing the spreads of one fragment is a substitution on the pieces of the
document. The search for the spread cannot lose one: no spread overlaps another
one, since names have no dots. -/

namespace Fragment

/-- What the spread of each fragment stands for while those of one name are
replaced. -/
def replacing (name body other : Text) : Text :=
  if other = name then body else spread other

def offsetsOf (name : Text) : Nat → List Piece → List Nat
  | _, [] => []
  | offset, .kept char _ :: rest => offsetsOf name (offset + char.utf8Size) rest
  | offset, .spread other :: rest =>
      let later := offsetsOf name (offset + (spread other).bytes) rest
      if other = name then offset :: later else later

def uncontinued (found : List CodeMatch) : List Nat :=
  (found.filter fun place => !place.following.continuesName).map
    CodeMatch.offset

/-! The program searches for the letters of a spread; no spread begins inside another one. -/

section Places

variable {position : Position} {name other rest : Text}

theorem placesFrom_skip (needle : Text) (position : Position)
    (passed rest : Text) :
    placesFrom needle position passed.length (passed ++ rest) =
      placesFrom needle (position.past passed) 0 rest := by
  induction passed generalizing position with
  | nil => rfl
  | cons char passed induction => exact induction (position.after char)

theorem placesFrom_pass {needle : Text} {char : Char}
    (absent : needle.isPrefixOf (char :: rest) = false) :
    placesFrom needle position 0 (char :: rest) =
      placesFrom needle (position.after char) 0 rest := by
  simp [placesFrom, absent]

theorem isPrefixOf_spread_of_ne {char : Char} (different : char ≠ '.')
    (name rest : Text) (dots : Nat) (bound : dots < 3) :
    List.isPrefixOf ((spread name).drop dots) (char :: rest) = false := by
  have absent : ('.' == char) = false := beq_eq_false_iff_ne.mpr different.symm
  match dots with
  | 0 | 1 | 2 => simp [spread, List.isPrefixOf, absent]

theorem placesFrom_name (name : Text) (position : Position) {passed : Text}
    (all : ∀ char ∈ passed, Text.isNameContinue char) (rest : Text) :
    placesFrom (spread name) position 0 (passed ++ rest) =
      placesFrom (spread name) (position.past passed) 0 rest := by
  induction passed generalizing position with
  | nil => rfl
  | cons char passed induction =>
      rw [List.forall_mem_cons] at all
      have different : _ ≠ '.' := Text.ne_of_isNameContinue all.1 rfl
      rw [List.cons_append, placesFrom_pass, induction _ all.2,
        Position.past_cons]
      exact isPrefixOf_spread_of_ne different name _ 0 (by decide)

theorem placesFrom_dots (name : Text) (position : Position)
    (word : other.IsWord) (rest : Text) :
    placesFrom (spread name) position 0 ('.' :: '.' :: (other ++ rest)) =
      placesFrom (spread name) (position.past ('.' :: '.' :: other)) 0 rest := by
  rcases word with ⟨nonempty, all⟩
  cases other with
  | nil => exact absurd rfl nonempty
  | cons char other =>
      have different : char ≠ '.' :=
        Text.ne_of_isNameContinue (all char List.mem_cons_self) rfl
      rw [placesFrom_pass, placesFrom_pass, placesFrom_name name _ all]
      · rfl
      · exact isPrefixOf_spread_of_ne different name _ 1 (by decide)
      · exact isPrefixOf_spread_of_ne different name _ 2 (by decide)

theorem uncontinued_placesFrom (word : name.IsWord) (position : Position)
    (char : Char) (rest : Text) :
    uncontinued (placesFrom (spread name) position 0 (char :: rest)) =
      (if chosenSpread? (only name) position.state (char :: rest) = some name
        then [position.offset] else []) ++
      uncontinued (placesFrom (spread name) (position.after char) 0 rest) := by
  have spread_iff : chosenSpread? (only name) position.state (char :: rest) =
      some name ↔ _ := chosenSpread?_eq_some_iff
  cases found : (spread name).isPrefixOf (char :: rest) with
  | false =>
      have absent : ¬ chosenSpread? (only name) position.state (char :: rest) =
          some name := by
        rw [spread_iff]
        rintro ⟨_, _, _, after, text_eq, _⟩
        rw [text_eq, List.isPrefixOf_iff_prefix.mpr ⟨after, rfl⟩] at found
        cases found
      rw [placesFrom_pass found, if_neg absent, List.nil_append]
  | true =>
      rcases List.isPrefixOf_iff_prefix.mp found with ⟨after, after_eq⟩
      rcases List.cons.inj after_eq with ⟨rfl, rest_eq⟩
      -- No occurrence begins inside this one: the search may go on one
      -- character further and find the same.
      have skipped : placesFrom (spread name) (position.after '.')
          ((spread name).length - 1) rest =
          placesFrom (spread name) (position.after '.') 0 rest := by
        rw [← rest_eq]
        exact (placesFrom_skip _ _ ('.' :: '.' :: name) after).trans
          (placesFrom_dots name _ word after).symm
      have dropped : ('.' :: rest).drop (spread name).length = after := by
        rw [← after_eq, List.drop_left]
      have here : chosenSpread? (only name) position.state ('.' :: rest) =
          some name ↔ position.state = .code ∧
            Text.continuesName after = false := by
        rw [spread_iff]
        constructor
        · rintro ⟨code, _, _, other, text_eq, stops⟩
          rw [← after_eq, List.append_cancel_left_eq] at text_eq
          exact ⟨code, text_eq ▸ stops⟩
        · rintro ⟨code, stops⟩
          exact ⟨code, only_eq_true_iff.mpr rfl, word, after, after_eq.symm,
            stops⟩
      simp only [placesFrom, found, if_true, dropped, skipped, here]
      by_cases code : position.state = .code <;>
        cases stops : Text.continuesName after <;>
        simp [code, stops, uncontinued]

end Places

/-! The offsets found are those of pieces, and replacing there fills the pieces in. -/

section Splicing

variable {chosen : Text → Bool} {name : Text}

theorem chosenSpread?_eq_none_of_chosen {state : LexicalState} {text : Text}
    (isChosen : chosen name) (none : chosenSpread? chosen state text = none) :
    chosenSpread? (only name) state text ≠ some name := by
  intro found
  rcases chosenSpread?_eq_some_iff.mp found with ⟨code, _, shape⟩
  have found' : chosenSpread? chosen state text = some name :=
    chosenSpread?_eq_some_iff.mpr ⟨code, isChosen, shape⟩
  rw [none] at found'
  cases found'

theorem uncontinued_placesFrom_cut (isChosen : chosen name)
    (word : name.IsWord) (position : Position) (text : Text) :
    uncontinued (placesFrom (spread name) position 0 text) =
      offsetsOf name position.offset (cut chosen position text) := by
  induction position, text using cut_induction chosen with
  | nil position => rfl
  | kept position char rest none induction =>
      rw [uncontinued_placesFrom word, cut_kept none, induction,
        if_neg (chosenSpread?_eq_none_of_chosen isChosen none)]
      rfl
  | spread position other rest code isChosen' otherWord stops induction =>
      have passed := placesFrom_dots name (position.after '.') otherWord rest
      have here : chosenSpread? (only name) position.state
          (spread other ++ rest) = some name ↔ other = name := by
        rw [chosenSpread?_eq_some_iff]
        constructor
        · rintro ⟨_, _, _, after, text_eq, stops'⟩
          have names_eq : other ++ rest = name ++ after := by
            simpa [spread] using text_eq
          have run := Text.takeWhile_append_of_not_continues otherWord.2 stops
          rw [names_eq, Text.takeWhile_append_of_not_continues word.2 stops']
            at run
          exact run.symm
        · rintro rfl
          exact ⟨code, only_eq_true_iff.mpr rfl, word, rest, rfl, stops⟩
      have offset_eq : (position.past (spread other)).offset =
          position.offset + (spread other).bytes := Position.offset_past _ _
      rw [cut_spread code isChosen' otherWord stops, offsetsOf, ← offset_eq,
        ← induction]
      refine (uncontinued_placesFrom word position '.'
        ('.' :: '.' :: (other ++ rest))).trans ?_
      rw [passed]
      have whole : '.' :: '.' :: '.' :: (other ++ rest) =
          spread other ++ rest := rfl
      rw [whole]
      simp only [here]
      split <;> rfl

theorem replaceAt_passed (body : Text) (finished : List Text) (copied : Nat)
    (passed old rest : Text) (count : Nat) :
    Splice.replaceAt body old.bytes
        ⟨finished, copied, passed ++ (old ++ rest), count⟩
        (copied + passed.bytes) =
      .ok ⟨body :: passed :: finished, copied + passed.bytes + old.bytes, rest,
        count + 1⟩ := by
  have ahead : ¬ copied + passed.bytes < copied := by omega
  have first : Text.cut (passed ++ (old ++ rest)) passed.bytes = .ok _ :=
    Text.cut_append passed (old ++ rest)
  have second : Text.cut (old ++ rest) old.bytes = .ok _ :=
    Text.cut_append old rest
  simp only [Splice.replaceAt, ahead, if_false, Nat.add_sub_cancel_left, first,
    ok_bind, second]
  rfl

theorem foldlM_replaceAt (isChosen : chosen name) (body : Text)
    (position : Position) (text : Text) (finished : List Text) (copied : Nat)
    (passed : Text) (count : Nat)
    (reached : copied + passed.bytes = position.offset) :
    ∃ result,
      (offsetsOf name position.offset (cut chosen position text)).foldlM
          (Splice.replaceAt body (spread name).bytes)
          ⟨finished, copied, passed ++ text, count⟩ = .ok result ∧
        result.text = finished.reverse.flatten ++ passed ++
          (cut chosen position text).flatMap (Piece.fill (replacing name body)) ∧
        result.count =
          count + (cut chosen position text).count (.spread name) := by
  -- `passed` is what has been walked over since the last replacement and is
  -- copied at the next one.
  induction position, text using cut_induction chosen
    generalizing finished copied passed count with
  | nil position =>
      exact ⟨_, rfl, by simp [Splice.text], by simp⟩
  | kept position char rest none induction =>
      rcases induction finished copied (passed ++ [char]) count
          (by simp [Position.after, ← reached, Nat.add_assoc]) with
        ⟨result, run, text_eq, count_eq⟩
      rw [List.append_assoc, List.singleton_append] at run
      rw [cut_kept none]
      refine ⟨result, run, ?_, ?_⟩
      · simpa [Piece.fill, replacing] using text_eq
      · simpa using count_eq
  | spread position other rest code isChosen' otherWord stops induction =>
      have offset_eq : (position.past (spread other)).offset =
          position.offset + (spread other).bytes := Position.offset_past _ _
      rw [cut_spread code isChosen' otherWord stops]
      by_cases same : other = name
      · subst same
        rcases induction (body :: passed :: finished)
            (position.offset + (spread other).bytes) [] (count + 1)
            (by simp [offset_eq]) with
          ⟨result, run, text_eq, count_eq⟩
        refine ⟨result, ?_, ?_, ?_⟩
        · rw [offset_eq] at run
          simp only [offsetsOf, if_true, List.foldlM_cons]
          rw [← reached, replaceAt_passed, reached]
          exact run
        · simpa [Piece.fill, replacing] using text_eq
        · rw [count_eq, List.count_cons_self]
          omega
      · rcases induction finished copied (passed ++ spread other) count
            (by simp [offset_eq, ← reached, Nat.add_assoc]) with
          ⟨result, run, text_eq, count_eq⟩
        rw [offset_eq, List.append_assoc] at run
        refine ⟨result, ?_, ?_, ?_⟩
        · simpa [offsetsOf, same] using run
        · simpa [Piece.fill, replacing, same] using text_eq
        · simpa [same] using count_eq

/-- One replacement pass over the spreads of a name is the substitution of the
body in the pieces of the document. -/
theorem replaceSpreads_eq (isChosen : chosen name) (word : name.IsWord)
    (document body : Text) :
    replaceSpreads document name body =
      .ok (if (piecesOf chosen document).count (.spread name) = 0 then none
        else some ((piecesOf chosen document).flatMap
            (Piece.fill (replacing name body)),
          (piecesOf chosen document).count (.spread name))) := by
  have empty : name.isEmpty = false := List.isEmpty_eq_false_iff.mpr word.1
  have found : codeMatches (spread name) document = .ok _ :=
    codeMatches_eq (List.cons_ne_nil _ _) document
  have offsets := uncontinued_placesFrom_cut isChosen word .start document
  rcases foldlM_replaceAt isChosen body .start document [] 0 [] 0 rfl with
    ⟨result, run, text_eq, count_eq⟩
  have searched : spreadOffsets (spread name) document =
      .ok (uncontinued (placesFrom (spread name) .start 0 document)) := by
    rw [spreadOffsets, found]
    rfl
  simp only [Nat.zero_add] at count_eq
  simp only [List.reverse_nil, List.flatten_nil, List.nil_append] at run text_eq
  have offset_eq : Position.start.offset = 0 := rfl
  rw [offset_eq] at run offsets
  simp only [replaceSpreads, empty, searched, offsets, Bool.false_eq_true,
    if_false, ok_bind, Splice.ofDocument, run, piecesOf, ← count_eq, ← text_eq]
  rfl

theorem flatMap_fill_replacing_of_not_mem {position : Position} {text : Text}
    (absent : .spread name ∉ cut chosen position text) (body : Text) :
    (cut chosen position text).flatMap (Piece.fill (replacing name body)) =
      text := by
  have unchanged : ∀ piece ∈ cut chosen position text,
      piece.fill (replacing name body) = piece.fill spread := by
    intro piece member
    cases piece with
    | kept char state => rfl
    | spread other =>
        have different : other ≠ name := by
          rintro rfl
          exact absent member
        simp [Piece.fill, replacing, different]
  rw [List.flatMap_congr unchanged]
  exact flatMap_fill_cut chosen position text

theorem replaceSpreads_text (isChosen : chosen name) (word : name.IsWord)
    (document body : Text) :
    ∃ outcome, replaceSpreads document name body = .ok outcome ∧
      (outcome.map Prod.fst).getD document =
        (piecesOf chosen document).flatMap
          (Piece.fill (replacing name body)) ∧
      (outcome.map Prod.snd).getD 0 =
        (piecesOf chosen document).count (.spread name) := by
  refine ⟨_, replaceSpreads_eq isChosen word document body, ?_⟩
  split
  · next absent =>
    exact ⟨(flatMap_fill_replacing_of_not_mem (List.count_eq_zero.mp absent)
      body).symm, absent.symm⟩
  · exact ⟨rfl, rfl⟩

theorem replaceFragment_text (isChosen : chosen name) (word : name.IsWord)
    (document : Text) (count : Nat) (body : Text) :
    replaceFragment (document, count) (name, body) =
      .ok ((piecesOf chosen document).flatMap (Piece.fill (replacing name body)),
        count + (piecesOf chosen document).count (.spread name)) := by
  rcases replaceSpreads_text isChosen word document body with
    ⟨outcome, run, text_eq, count_eq⟩
  rw [replaceFragment, run, ← text_eq, ← count_eq]
  cases outcome with
  | none => rfl
  | some replacement => rfl

end Splicing

end Fragment

end QueryAssembly
