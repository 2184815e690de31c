import QueryAssembly.Proofs.Fragment.Splice
import QueryAssembly.Text.Blank

namespace QueryAssembly

/-! Where the spreads of known fragments stand in a text and how deep they
nest, read off the text itself and, equally, off its pieces. -/

namespace Fragment

def isKnown (bodies : Text → Option Text) (name : Text) : Bool :=
  (bodies name).isSome

abbrev knownPieces (bodies : Text → Option Text) (text : Text) : List Piece :=
  piecesOf (isKnown bodies) text

/-- A spread of a known fragment in code, between two parts of a text. -/
structure SpreadAt (bodies : Text → Option Text)
    (text before name after : Text) : Prop where
  text_eq : text = before ++ (spread name ++ after)
  code : stateAt text before.bytes = .code
  known : isKnown bodies name
  stops : after.continuesName = false

def isBoundary (char : Char) : Bool :=
  Text.isBlank char || char == '\x7b' || char == '\x7d'

/-- Every spread has a blank, a brace or nothing at all on either side. -/
def Bounded (bodies : Text → Option Text) (text : Text) : Prop :=
  ∀ before name after, SpreadAt bodies text before name after →
    before.getLast?.all isBoundary ∧ after.head?.all isBoundary

/-- Names of which the first is spread in a text and every other one in the
body of the one before it. -/
inductive Nesting (bodies : Text → Option Text) : Text → List Text → Prop
  | nil {text : Text} : Nesting bodies text []
  | cons {text before name after body : Text} {names : List Text} :
      SpreadAt bodies text before name after → bodies name = some body →
      Nesting bodies body names → Nesting bodies text (name :: names)

/-- Whether no nesting of spreads that starts with the name is longer than
`depth`. -/
def Within (bodies : Text → Option Text) : Nat → Text → Prop
  | 0, _ => False
  | depth + 1, name => ∀ body, bodies name = some body →
      ∀ inner, .spread inner ∈ knownPieces bodies body →
        Within bodies depth inner

theorem not_isSpreadChar_of_isBoundary {char : Char}
    (boundary : isBoundary char) : isSpreadChar char = false := by
  simp only [isBoundary, Bool.or_eq_true, beq_iff_eq] at boundary
  rcases boundary with (blank | rfl) | rfl
  · have dot : (char == '.') = false := by
      by_contra equal
      rw [Bool.not_eq_false, beq_iff_eq] at equal
      subst equal
      exact absurd blank (by decide)
    have apart : Text.isNameContinue char = false := by
      by_contra continues
      rw [Bool.not_eq_false] at continues
      rw [Text.not_isBlank_of_isNameContinue continues] at blank
      cases blank
    rw [isSpreadChar, dot, apart]
    rfl
  · rfl
  · rfl

section Pieces

variable {bodies : Text → Option Text}

theorem cut_eq_append_spread {chosen : Text → Bool} {position : Position}
    {text name : Text} {before after : List Piece}
    (cut_eq : cut chosen position text = before ++ .spread name :: after) :
    text = before.flatMap (Piece.fill spread) ++
        (spread name ++ after.flatMap (Piece.fill spread)) ∧
      (position.past (before.flatMap (Piece.fill spread))).state = .code ∧
      chosen name ∧
      Text.continuesName (after.flatMap (Piece.fill spread)) = false := by
  have text_eq : text = before.flatMap (Piece.fill spread) ++
      (spread name ++ after.flatMap (Piece.fill spread)) := by
    rw [← flatMap_fill_cut chosen position text, cut_eq]
    simp [Piece.fill]
  refine ⟨text_eq, ?_⟩
  clear text_eq
  induction position, text using cut_induction chosen generalizing before with
  | nil position => simp at cut_eq
  | kept position char rest absent induction =>
      rw [cut_kept absent] at cut_eq
      cases before with
      | nil => cases cut_eq
      | cons piece before =>
          rcases List.cons.inj cut_eq with ⟨rfl, rest_eq⟩
          exact induction rest_eq
  | spread position other rest code isChosen word stops induction =>
      rw [cut_spread code isChosen word stops] at cut_eq
      cases before with
      | nil =>
          rcases List.cons.inj cut_eq with ⟨equal, rest_eq⟩
          cases equal
          rw [← rest_eq, flatMap_fill_cut]
          exact ⟨code, isChosen, stops⟩
      | cons piece before =>
          rcases List.cons.inj cut_eq with ⟨rfl, rest_eq⟩
          rw [List.flatMap_cons, Position.past_append]
          exact induction rest_eq

theorem spreadAt_of_pieces {text name : Text} {before after : List Piece}
    (pieces_eq : knownPieces bodies text = before ++ .spread name :: after) :
    SpreadAt bodies text (before.flatMap (Piece.fill spread)) name
      (after.flatMap (Piece.fill spread)) := by
  rcases cut_eq_append_spread pieces_eq with ⟨text_eq, code, known, stops⟩
  refine ⟨text_eq, ?_, known, stops⟩
  rw [text_eq, stateAt_append]
  exact code

theorem isBreak_of_head? {piece : Piece} {rest : List Piece}
    (boundary : ((piece :: rest).flatMap
      (Piece.fill spread)).head?.all isBoundary) : piece.isBreak := by
  cases piece with
  | kept char state =>
      have boundary' : isBoundary char := boundary
      simp [Piece.isBreak, not_isSpreadChar_of_isBoundary boundary']
  | spread name =>
      have dot : isBoundary '.' := boundary
      cases dot

theorem isBreak_of_getLast? {piece : Piece} {front : List Piece}
    (words : ∀ name, piece = .spread name → name.IsWord)
    (boundary : ((front ++ [piece]).flatMap
      (Piece.fill spread)).getLast?.all isBoundary) : piece.isBreak := by
  cases piece with
  | kept char state =>
      have boundary' : isBoundary char := by simpa [Piece.fill] using boundary
      simp [Piece.isBreak, not_isSpreadChar_of_isBoundary boundary']
  | spread name =>
      rcases words name rfl with ⟨nonempty, all⟩
      rcases (List.eq_nil_or_concat name).resolve_left nonempty with
        ⟨start, last, rfl⟩
      have ends : (front ++ [Piece.spread (start.concat last)]).flatMap
          (Piece.fill spread) =
          front.flatMap (Piece.fill spread) ++ spread start ++ [last] := by
        simp [Piece.fill, spread]
      rw [ends, List.getLast?_concat] at boundary
      have boundary' : isBoundary last := boundary
      have continues := all last (by simp)
      have apart := not_isSpreadChar_of_isBoundary boundary'
      simp [isSpreadChar, continues] at apart

theorem spaced_of_bounded {text : Text} (bounded : Bounded bodies text) :
    Spaced (knownPieces bodies text) := by
  rw [Spaced, List.isChain_iff_forall_rel_of_append_cons_cons]
  intro left right before after pieces_eq
  have words : ∀ name, left = .spread name → name.IsWord := by
    rintro name rfl
    have member : .spread name ∈ knownPieces bodies text := by simp [pieces_eq]
    exact (of_mem_cut member).2
  constructor
  · intro isSpread
    cases left with
    | kept char state => cases isSpread
    | spread name =>
        exact isBreak_of_head? (bounded _ _ _ (spreadAt_of_pieces pieces_eq)).2
  · intro isSpread
    cases right with
    | kept char state => cases isSpread
    | spread name =>
        rw [List.append_cons] at pieces_eq
        exact isBreak_of_getLast? words
          (bounded _ _ _ (spreadAt_of_pieces pieces_eq)).1

theorem within_of_nesting {depth : Nat} {text name : Text}
    (shallow : ∀ names, Nesting bodies text names → names.length ≤ depth)
    (member : .spread name ∈ knownPieces bodies text) :
    Within bodies depth name := by
  rcases List.append_of_mem member with ⟨before, after, pieces_eq⟩
  have spreadAt := spreadAt_of_pieces pieces_eq
  induction depth generalizing text name before after with
  | zero =>
      rcases Option.isSome_iff_exists.mp spreadAt.known with ⟨body, found⟩
      have bound := shallow [name] (.cons spreadAt found .nil)
      cases bound
  | succ depth induction =>
      intro body found inner innerMember
      rcases List.append_of_mem innerMember with ⟨before', after', inner_eq⟩
      refine induction ?_ innerMember before' after' inner_eq
        (spreadAt_of_pieces inner_eq)
      intro names nesting
      have bound := shallow (name :: names) (.cons spreadAt found nesting)
      exact Nat.le_of_succ_le_succ bound

theorem Within.succ {depth : Nat} {name : Text}
    (within : Within bodies depth name) : Within bodies (depth + 1) name := by
  induction depth generalizing name with
  | zero => exact within.elim
  | succ depth induction =>
      exact fun body found inner member =>
        induction (within body found inner member)

end Pieces

/-! The spreads of a concrete text can be listed, and with them its bounds and
the depth of its nestings can be decided. -/

section Listed

variable {bodies : Text → Option Text} {text before name after : Text}

theorem spreadAt_iff : SpreadAt bodies text before name after ↔
    text = before ++ (spread name ++ after) ∧
      stateAt text before.bytes = .code ∧ isKnown bodies name ∧
      after.continuesName = false :=
  ⟨fun ⟨text_eq, code, known, stops⟩ => ⟨text_eq, code, known, stops⟩,
    fun ⟨text_eq, code, known, stops⟩ => ⟨text_eq, code, known, stops⟩⟩

instance : Decidable (SpreadAt bodies text before name after) :=
  decidable_of_iff' _ spreadAt_iff

def spreadsIn (bodies : Text → Option Text) (text : Text) :
    List (Text × Text × Text) :=
  let lengths := List.range text.length
  (lengths.flatMap fun start => lengths.map fun width =>
    (text.take start, (text.drop (start + 3)).take width,
      text.drop (start + 3 + width))).filter fun (before, name, after) =>
    SpreadAt bodies text before name after

theorem mem_spreadsIn : (before, name, after) ∈ spreadsIn bodies text ↔
    SpreadAt bodies text before name after := by
  simp only [spreadsIn, List.mem_filter, List.mem_flatMap, List.mem_map,
    decide_eq_true_eq]
  refine and_iff_right_of_imp fun spreadAt => ?_
  have text_eq := spreadAt.text_eq
  have length_eq := congrArg List.length text_eq
  simp only [spread, List.length_append, List.length_cons] at length_eq
  refine ⟨before.length, List.mem_range.mpr (by omega), name.length,
    List.mem_range.mpr (by omega), ?_⟩
  have onward : text.drop (before.length + 3) = name ++ after := by
    rw [text_eq, ← List.drop_drop, List.drop_left]
    rfl
  have later : text.drop (before.length + 3 + name.length) = after := by
    rw [← List.drop_drop, onward, List.drop_left]
  rw [onward, later, List.take_left, text_eq, List.take_left]

instance : Decidable (Bounded bodies text) :=
  decidable_of_iff
    (∀ parts ∈ spreadsIn bodies text,
      parts.1.getLast?.all isBoundary ∧ parts.2.2.head?.all isBoundary)
    ⟨fun holds before name after spreadAt =>
      holds (before, name, after) (mem_spreadsIn.mpr spreadAt),
    fun bounded (before, name, after) member =>
      bounded before name after (mem_spreadsIn.mp member)⟩

def nestsWithin (bodies : Text → Option Text) : Nat → Text → Bool
  | 0, text => (spreadsIn bodies text).isEmpty
  | depth + 1, text => (spreadsIn bodies text).all fun parts =>
      (bodies parts.2.1).all (nestsWithin bodies depth)

theorem Nesting.length_le {depth : Nat} {names : List Text}
    (nesting : Nesting bodies text names)
    (within : nestsWithin bodies depth text) : names.length ≤ depth := by
  induction nesting generalizing depth with
  | nil => exact Nat.zero_le _
  | cons spreadAt found _ induction =>
      have member := mem_spreadsIn.mpr spreadAt
      cases depth with
      | zero =>
          rw [nestsWithin, List.isEmpty_iff] at within
          rw [within] at member
          cases member
      | succ depth =>
          have inner := List.all_eq_true.mp within _ member
          rw [found] at inner
          exact Nat.succ_le_succ (induction inner)

end Listed

end Fragment

end QueryAssembly
