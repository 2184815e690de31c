import QueryAssembly.Proofs.Fragment.Junction
import QueryAssembly.Proofs.Fragment.Replace

namespace QueryAssembly

/-! Where every spread stands apart from names, dots and other spreads, splicing
is local: the pieces of the new document are the old ones with the pieces of the
body in place of each spread, and the new spreads stand apart again. -/

namespace Fragment

def Piece.isBreak : Piece → Bool
  | .kept char _ => !isSpreadChar char
  | .spread _ => false

def Piece.isSpread : Piece → Bool
  | .kept _ _ => false
  | .spread _ => true

/-- Neighbours of which a spread is next to nothing but a break. -/
def Apart (left right : Piece) : Prop :=
  (left.isSpread → right.isBreak) ∧ (right.isSpread → left.isBreak)

def Spaced (pieces : List Piece) : Prop := pieces.IsChain Apart

/-- The pieces that take the place of a piece when the body of one fragment is
spliced in. -/
def Piece.splice (name : Text) (body : List Piece) : Piece → List Piece
  | .kept char state => [.kept char state]
  | .spread other => if other = name then body else [.spread other]

theorem Piece.apart_of_isBreak {left right : Piece}
    (isBreak : left.isBreak ∨ right.isBreak) : Apart left right := by
  cases left <;> cases right <;>
    simp_all [Apart, Piece.isBreak, Piece.isSpread]

/-! Where a spread ends is told by the run of spread characters that it begins. -/

section Beginning

variable {chosen : Text → Bool} {position : Position}

theorem clear_of_break (left : Text) {right : Text}
    (isBreak : ∀ first ∈ right.head?, isSpreadChar first = false) :
    Clear left right := by
  intro last _ first member
  have apart := isBreak first member
  simp only [isSpreadChar, Bool.or_eq_false_iff] at apart
  simp [runsOn, apart]

theorem leadingSpread?_takeWhile (text : Text) :
    leadingSpread? (text.takeWhile isSpreadChar) = leadingSpread? text := by
  by_cases none : text.takeWhile isSpreadChar = []
  · cases text with
    | nil => rfl
    | cons char rest =>
        have apart : char ≠ '.' := by
          rintro rfl
          cases none
        rw [none]
        simp [leadingSpread?, spread, List.isPrefixOf, apart.symm]
  · have isBreak : ∀ first ∈ (text.dropWhile isSpreadChar).head?,
        isSpreadChar first = false := by
      intro first member
      have stops := List.head?_dropWhile_not isSpreadChar text
      rwa [Option.mem_def.mp member] at stops
    have parted := clear_of_break (text.takeWhile isSpreadChar) isBreak
    have whole := leadingSpread?_append (.inl parted) none
    rw [← whole, List.takeWhile_append_dropWhile]

theorem chosenSpread?_congr {state : LexicalState} {left right : Text}
    (same : left.takeWhile isSpreadChar = right.takeWhile isSpreadChar) :
    chosenSpread? chosen state left = chosenSpread? chosen state right := by
  unfold chosenSpread?
  rw [← leadingSpread?_takeWhile left, same, leadingSpread?_takeWhile]

theorem continuesName_of_takeWhile {text : Text}
    (stops : text.takeWhile isSpreadChar = []) :
    text.continuesName = false := by
  cases text with
  | nil => rfl
  | cons char rest =>
      by_cases spreads : isSpreadChar char
      · simp [spreads] at stops
      · simp only [isSpreadChar, Bool.or_eq_true, not_or] at spreads
        simpa [Text.continuesName] using spreads.2

theorem clear_of_stops (left : Text) {right : Text}
    (stops : right.takeWhile isSpreadChar = []) : Clear left right := by
  apply clear_of_break left
  intro first member
  rcases List.head?_eq_some_iff.mp member with ⟨rest, rfl⟩
  by_contra spreads
  simp [spreads] at stops

end Beginning

section Local

variable {chosen : Text → Bool} {position other : Position}

theorem takeWhile_fill_of_isBreak (meaning : Text → Text) {piece : Piece}
    (rest : List Piece) (isBreak : piece.isBreak) :
    ((piece :: rest).flatMap (Piece.fill meaning)).takeWhile isSpreadChar =
      [] := by
  cases piece with
  | kept char state =>
      simp only [Piece.isBreak, Bool.not_eq_true'] at isBreak
      simp [Piece.fill, isBreak]
  | spread name => cases isBreak

theorem takeWhile_fill_after_spread (meaning : Text → Text) {name : Text}
    {rest : List Piece} (spaced : Spaced (.spread name :: rest)) :
    (rest.flatMap (Piece.fill meaning)).takeWhile isSpreadChar = [] := by
  cases rest with
  | nil => rfl
  | cons piece rest =>
      have apart := (List.isChain_cons_cons.mp spaced).1
      exact takeWhile_fill_of_isBreak meaning rest (apart.1 rfl)

theorem takeWhile_fill_after_kept (meaning other : Text → Text) {piece : Piece}
    {rest : List Piece} (spaced : Spaced (piece :: rest))
    (within : piece.isBreak = false) :
    (rest.flatMap (Piece.fill meaning)).takeWhile isSpreadChar =
      (rest.flatMap (Piece.fill other)).takeWhile isSpreadChar := by
  induction rest generalizing piece with
  | nil => rfl
  | cons next rest induction =>
      rcases List.isChain_cons_cons.mp spaced with ⟨apart, spaced⟩
      cases isBreak : next.isBreak with
      | true =>
          rw [takeWhile_fill_of_isBreak meaning rest isBreak,
            takeWhile_fill_of_isBreak other rest isBreak]
      | false =>
          cases next with
          | kept char state =>
              have later := induction spaced isBreak
              simp [Piece.fill, List.takeWhile_cons, later]
          | spread name =>
              rw [apart.2 rfl] at within
              cases within

theorem cut_fill_replacing {name body : Text} (closed : endState body = .code)
    (position other : Position) (text : Text) (alike : position.Alike other)
    (spaced : Spaced (cut chosen position text)) :
    cut chosen other
        ((cut chosen position text).flatMap
          (Piece.fill (replacing name body))) =
      (cut chosen position text).flatMap
        (Piece.splice name (piecesOf chosen body)) := by
  induction position, text using cut_induction chosen generalizing other with
  | nil position => rfl
  | kept position char rest none induction =>
      rw [cut_kept none] at spaced ⊢
      have later := induction (other.after char) (alike.after char)
        (List.IsChain.tail spaced)
      -- Whether a spread begins here depends on the run of spread characters
      -- alone, and filling in changes nothing of that run.
      have same : (char :: (cut chosen (position.after char) rest).flatMap
          (Piece.fill (replacing name body))).takeWhile isSpreadChar =
          (char :: rest).takeWhile isSpreadChar := by
        by_cases spreads : isSpreadChar char
        · have run := takeWhile_fill_after_kept (replacing name body) spread
            spaced (by simp [Piece.isBreak, spreads])
          rw [flatMap_fill_cut] at run
          rw [List.takeWhile_cons_of_pos spreads,
            List.takeWhile_cons_of_pos spreads, run]
        · rw [List.takeWhile_cons_of_neg spreads,
            List.takeWhile_cons_of_neg spreads]
      rw [alike.1] at none
      rw [← chosenSpread?_congr same] at none
      rw [List.flatMap_cons, List.flatMap_cons, Piece.fill,
        List.singleton_append, cut_kept none, later, alike.1]
      rfl
  | spread position found rest code isChosen word stops induction =>
      rw [cut_spread code isChosen word stops] at spaced ⊢
      have code' : other.state = .code := alike.1 ▸ code
      have apart := takeWhile_fill_after_spread (replacing name body) spaced
      have code_after := state_past_spread code word
      rw [List.flatMap_cons, List.flatMap_cons, Piece.fill, Piece.splice]
      by_cases same : found = name
      · subst same
        have start_code : Position.start.state = .code := rfl
        have body_end : (other.past body).state = .code :=
          (Position.state_past_of_code code' body).trans closed
        simp only [replacing, if_true]
        have clear := clear_of_stops body apart
        rw [cut_append_of_parted other (.inl clear),
          induction _ (.of_code code_after body_end) (List.IsChain.tail spaced),
          cut_alike chosen body (.of_code code' start_code)]
        rfl
      · simp only [replacing, same, if_false]
        rw [cut_spread code' isChosen word (continuesName_of_takeWhile apart),
          induction _ (alike.past _) (List.IsChain.tail spaced)]
        rfl

theorem spaced_cons_splice {name : Text} {body : List Piece}
    (inner : Spaced body) {piece : Piece} {rest : List Piece}
    (spaced : Spaced (piece :: rest)) :
    Spaced (piece :: rest.flatMap (Piece.splice name body)) := by
  induction rest generalizing piece with
  | nil => exact spaced
  | cons next rest induction =>
      rcases List.isChain_cons_cons.mp spaced with ⟨apart, spaced⟩
      have later := induction spaced
      rw [List.flatMap_cons]
      cases next with
      | kept char state => exact List.isChain_cons_cons.mpr ⟨apart, later⟩
      | spread other =>
          by_cases same : other = name
          · have left_break : piece.isBreak := apart.2 rfl
            have right_break : ∀ last ∈ body.getLast?,
                ∀ first ∈ (rest.flatMap (Piece.splice name body)).head?,
                Apart last first := by
              intro last _ first member
              have next_apart := (List.isChain_cons.mp later).1 first member
              exact Piece.apart_of_isBreak (.inr (next_apart.1 rfl))
            have whole := List.isChain_append.mpr
              ⟨inner, List.IsChain.tail later, right_break⟩
            simp only [Piece.splice, same, if_true]
            exact List.isChain_cons.mpr ⟨fun _ _ =>
              Piece.apart_of_isBreak (.inl left_break), whole⟩
          · simp only [Piece.splice, same, if_false]
            exact List.isChain_cons_cons.mpr ⟨apart, later⟩

theorem spaced_splice {name : Text} {body pieces : List Piece}
    (inner : Spaced body) (spaced : Spaced pieces) :
    Spaced (pieces.flatMap (Piece.splice name body)) := by
  cases pieces with
  | nil => exact .nil
  | cons piece rest =>
      have led : Spaced (.kept ' ' .code :: piece :: rest) :=
        List.isChain_cons_cons.mpr
          ⟨Piece.apart_of_isBreak (.inl rfl), spaced⟩
      exact List.IsChain.tail (spaced_cons_splice inner led)

end Local

end Fragment

end QueryAssembly
