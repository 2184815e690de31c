import QueryAssembly.Fragment.Resolve
import QueryAssembly.Proofs.Lexical.Label
import QueryAssembly.Proofs.Text.Word

namespace QueryAssembly

/-! A document cut at the spreads of chosen fragments: its pieces are those
spreads, where they stand in code, and all other characters one by one. -/

namespace Fragment

inductive Piece
  | kept (char : Char) (state : LexicalState)
  | spread (name : Text)
  deriving DecidableEq, Repr

def leadingSpread? (text : Text) : Option Text :=
  let name := (text.drop 3).takeWhile Text.isNameContinue
  if (spread []).isPrefixOf text && !name.isEmpty then some name else none

def chosenSpread? (chosen : Text → Bool) (state : LexicalState) (text : Text) :
    Option Text :=
  if state = .code then (leadingSpread? text).filter chosen else none

/-- The pieces of a text read from a position, where the next `skip` characters
belong to the spread found last. -/
def cutFrom (chosen : Text → Bool) : Position → Nat → Text → List Piece
  | _, _, [] => []
  | position, skip + 1, char :: rest =>
      cutFrom chosen (position.after char) skip rest
  | position, 0, char :: rest =>
      match chosenSpread? chosen position.state (char :: rest) with
      | some name =>
          .spread name :: cutFrom chosen (position.after char)
            (name.length + 2) rest
      | none =>
          .kept char position.state ::
            cutFrom chosen (position.after char) 0 rest

def cut (chosen : Text → Bool) (position : Position) (text : Text) :
    List Piece :=
  cutFrom chosen position 0 text

def piecesOf (chosen : Text → Bool) (document : Text) : List Piece :=
  cut chosen .start document

def only (name other : Text) : Bool := other == name

@[simp] theorem only_eq_true_iff {name other : Text} :
    only name other = true ↔ other = name := beq_iff_eq

/-! The text and the labels of a piece when spreads stand for texts of their own. -/

def Piece.fill (meaning : Text → Text) : Piece → Text
  | .kept char _ => [char]
  | .spread name => meaning name

def Piece.labels (meaning : Text → Text) : Piece → List Label
  | .kept char state => [(char, state)]
  | .spread name => labelsOf (meaning name)

theorem leadingSpread?_eq_some_iff {text name : Text} :
    leadingSpread? text = some name ↔
      name.IsWord ∧
        ∃ rest, text = spread name ++ rest ∧ rest.continuesName = false := by
  constructor
  · intro found
    simp only [leadingSpread?, Bool.and_eq_true, Bool.not_eq_true',
      Option.ite_none_right_eq_some, Option.some.injEq] at found
    rcases found with ⟨⟨isPrefix, nonempty⟩, name_eq⟩
    rcases List.isPrefixOf_iff_prefix.mp isPrefix with ⟨rest, rfl⟩
    have dropped : (spread [] ++ rest).drop 3 = rest := rfl
    rw [dropped] at nonempty name_eq
    subst name_eq
    refine ⟨⟨List.isEmpty_eq_false_iff.mp nonempty, fun char member =>
      List.mem_takeWhile_imp member⟩, rest.dropWhile Text.isNameContinue, ?_,
      Text.continuesName_dropWhile rest⟩
    simp [spread]
  · rintro ⟨⟨nonempty, all⟩, rest, rfl, stops⟩
    have run : ((spread name ++ rest).drop 3).takeWhile Text.isNameContinue =
        name := Text.takeWhile_append_of_not_continues all stops
    simp only [leadingSpread?, run]
    simp [spread, nonempty]

theorem chosenSpread?_eq_some_iff {chosen : Text → Bool}
    {state : LexicalState} {text name : Text} :
    chosenSpread? chosen state text = some name ↔
      state = .code ∧ chosen name ∧ name.IsWord ∧
        ∃ rest, text = spread name ++ rest ∧ rest.continuesName = false := by
  simp only [chosenSpread?, Option.ite_none_right_eq_some,
    Option.filter_eq_some_iff, leadingSpread?_eq_some_iff]
  exact and_congr_right fun _ => and_comm

section Cut

variable {chosen : Text → Bool} {position : Position} {char : Char}
  {name passed rest : Text}

theorem cutFrom_skip (chosen : Text → Bool) (position : Position)
    (passed rest : Text) :
    cutFrom chosen position passed.length (passed ++ rest) =
      cut chosen (position.past passed) rest := by
  induction passed generalizing position with
  | nil => rfl
  | cons char passed induction => exact induction (position.after char)

@[simp] theorem cut_nil (chosen : Text → Bool) (position : Position) :
    cut chosen position [] = [] := rfl

theorem cut_kept
    (none : chosenSpread? chosen position.state (char :: rest) = none) :
    cut chosen position (char :: rest) =
      .kept char position.state :: cut chosen (position.after char) rest := by
  simp [cut, cutFrom, none]

theorem cut_spread (code : position.state = .code) (isChosen : chosen name)
    (word : name.IsWord) (stops : rest.continuesName = false) :
    cut chosen position (spread name ++ rest) =
      .spread name :: cut chosen (position.past (spread name)) rest := by
  have found : chosenSpread? chosen position.state (spread name ++ rest) =
      some name :=
    chosenSpread?_eq_some_iff.mpr ⟨code, isChosen, word, rest, rfl, stops⟩
  have skipped := cutFrom_skip chosen (position.after '.')
    ('.' :: '.' :: name) rest
  simp only [spread, List.cons_append] at found ⊢
  simp only [cut, cutFrom, found]
  exact congrArg _ skipped

end Cut

/-- Induction along the pieces of a text: it is empty, it begins with a
character that is kept, or it begins with a chosen spread. -/
@[elab_as_elim]
theorem cut_induction (chosen : Text → Bool)
    {motive : Position → Text → Prop}
    (nil : ∀ position, motive position [])
    (kept : ∀ position char rest,
      chosenSpread? chosen position.state (char :: rest) = none →
      motive (position.after char) rest → motive position (char :: rest))
    (spread : ∀ position name rest, position.state = .code → chosen name →
      name.IsWord → rest.continuesName = false →
      motive (position.past (spread name)) rest →
      motive position (spread name ++ rest))
    (position : Position) (text : Text) : motive position text := by
  obtain ⟨bound, length_eq⟩ : ∃ bound, text.length = bound := ⟨_, rfl⟩
  induction bound using Nat.strongRecOn generalizing position text with
  | ind bound induction =>
      subst length_eq
      cases text with
      | nil => exact nil position
      | cons char rest =>
          cases found : chosenSpread? chosen position.state (char :: rest) with
          | none =>
              exact kept position char rest found
                (induction rest.length (by simp) _ rest rfl)
          | some name =>
              rcases chosenSpread?_eq_some_iff.mp found with
                ⟨code, isChosen, word, after, text_eq, stops⟩
              rw [text_eq] at induction ⊢
              refine spread position name after code isChosen word stops
                (induction after.length ?_ _ after rfl)
              simp only [Fragment.spread, List.length_append, List.length_cons]
              omega

theorem flatMap_fill_cut (chosen : Text → Bool) (position : Position)
    (text : Text) :
    (cut chosen position text).flatMap (Piece.fill spread) = text := by
  induction position, text using cut_induction chosen with
  | nil position => rfl
  | kept position char rest none induction =>
      rw [cut_kept none, List.flatMap_cons, induction]
      rfl
  | spread position name rest code isChosen word stops induction =>
      rw [cut_spread code isChosen word stops, List.flatMap_cons, induction]
      rfl

theorem of_mem_cut {chosen : Text → Bool} {position : Position}
    {text name : Text} (member : .spread name ∈ cut chosen position text) :
    chosen name ∧ name.IsWord := by
  induction position, text using cut_induction chosen with
  | nil position => cases member
  | kept position char rest none induction =>
      rw [cut_kept none, List.mem_cons] at member
      rcases member with equal | member
      · cases equal
      · exact induction member
  | spread position other rest code isChosen word stops induction =>
      rw [cut_spread code isChosen word stops, List.mem_cons] at member
      rcases member with equal | member
      · cases equal
        exact ⟨isChosen, word⟩
      · exact induction member

theorem isPlain_of_mem_spread {name : Text} (word : name.IsWord) :
    ∀ char ∈ spread name, Position.isPlain char := by
  intro char member
  simp only [spread, List.mem_cons] at member
  rcases member with rfl | rfl | rfl | member
  · rfl
  · rfl
  · rfl
  · exact Position.isPlain_of_isNameContinue (word.2 char member)

theorem state_past_spread {position : Position} {name : Text}
    (code : position.state = .code) (word : name.IsWord) :
    (position.past (spread name)).state = .code :=
  Position.state_past_of_plain code (isPlain_of_mem_spread word)

theorem labelsFrom_fill {chosen : Text → Bool} {meaning : Text → Text}
    (closed : ∀ name, chosen name → name.IsWord →
      endState (meaning name) = .code)
    (position other : Position) (text : Text) (alike : position.Alike other) :
    labelsFrom other
        ((cut chosen position text).flatMap (Piece.fill meaning)) =
      (cut chosen position text).flatMap (Piece.labels meaning) := by
  induction position, text using cut_induction chosen generalizing other with
  | nil position => rfl
  | kept position char rest none induction =>
      rw [cut_kept none, List.flatMap_cons, List.flatMap_cons, Piece.fill,
        List.singleton_append, labelsFrom_cons, induction _ (alike.after char),
        ← alike.1]
      rfl
  | spread position name rest code isChosen word stops induction =>
      have code' : other.state = .code := alike.1 ▸ code
      have body_end : (other.past (meaning name)).state = .code :=
        (Position.state_past_of_code code' _).trans (closed name isChosen word)
      rw [cut_spread code isChosen word stops, List.flatMap_cons,
        List.flatMap_cons, Piece.fill, labelsFrom_append, induction _
          (.of_code (state_past_spread code word) body_end),
        Position.labelsFrom_of_code code']
      rfl

theorem endState_spread {name : Text} (word : name.IsWord) :
    endState (spread name) = .code := by
  rw [endState_eq]
  exact state_past_spread rfl word

theorem labelsOf_eq_flatMap (chosen : Text → Bool) (document : Text) :
    labelsOf document =
      (piecesOf chosen document).flatMap (Piece.labels spread) := by
  have closed : ∀ name, chosen name → name.IsWord →
      endState (spread name) = .code :=
    fun _ _ word => endState_spread word
  have filled := labelsFrom_fill closed .start .start document (.refl _)
  rwa [flatMap_fill_cut] at filled

end Fragment

end QueryAssembly
