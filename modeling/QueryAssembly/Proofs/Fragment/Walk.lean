import QueryAssembly.Proofs.Fragment.Replace
import QueryAssembly.Proofs.Lexical.Agreement

namespace QueryAssembly

/-! Replacing the spreads of a fragment by a plain walk: row after row of the
document is copied, and where a spread stands in code the body is written and the
spread passed over. The search for spreads loses nothing against it. -/

namespace Fragment

def beginsSpread (name text : Text) : Bool :=
  (spread name).isPrefixOf text &&
    !Text.continuesName (text.drop (spread name).length)

/-- The text that a walk over the rows of a document writes, and how often it
writes the body. The first `skip` rows belong to the spread met last. -/
def walk (name body : Text) : Nat → List Row → Text × Nat
  | _, [] => ([], 0)
  | skip + 1, _ :: rows => walk name body skip rows
  | 0, row :: rows =>
      if row.state = .code ∧
          beginsSpread name ((row :: rows).map Row.char) then
        let (written, count) := walk name body ((spread name).length - 1) rows
        (body ++ written, count + 1)
      else
        let (written, count) := walk name body 0 rows
        (row.char :: written, count)

section Rows

variable {name : Text}

theorem beginsSpread_iff {text : Text} : beginsSpread name text ↔
    ∃ after, text = spread name ++ after ∧ after.continuesName = false := by
  rw [beginsSpread, Bool.and_eq_true, Bool.not_eq_true',
    List.isPrefixOf_iff_prefix]
  constructor
  · rintro ⟨⟨after, rfl⟩, stops⟩
    rw [List.drop_left] at stops
    exact ⟨after, rfl, stops⟩
  · rintro ⟨after, rfl, stops⟩
    rw [List.drop_left]
    exact ⟨⟨after, rfl⟩, stops⟩

theorem chosenSpread?_only_iff (word : name.IsWord) {state : LexicalState}
    {text : Text} : chosenSpread? (only name) state text = some name ↔
      state = .code ∧ beginsSpread name text := by
  rw [chosenSpread?_eq_some_iff, beginsSpread_iff]
  refine and_congr_right fun _ => ?_
  rw [and_iff_right (only_eq_true_iff.mpr rfl), and_iff_right word]

theorem walk_skip (body : Text) (position : Position) (passed rest : Text) :
    walk name body passed.length (Scanner.rowsFrom position (passed ++ rest)) =
      walk name body 0 (Scanner.rowsFrom (position.past passed) rest) := by
  induction passed generalizing position with
  | nil => rfl
  | cons char passed induction => exact induction (position.after char)

theorem walk_rowsFrom (word : name.IsWord) (body : Text) (position : Position)
    (text : Text) :
    walk name body 0 (Scanner.rowsFrom position text) =
      ((cut (only name) position text).flatMap
          (Piece.fill (replacing name body)),
        (cut (only name) position text).count (.spread name)) := by
  induction position, text using cut_induction (only name) with
  | nil position => rfl
  | kept position char rest none induction =>
      have absent : ¬ (position.state = .code ∧
          beginsSpread name (char :: rest)) := by
        rw [← chosenSpread?_only_iff word, none]
        exact Option.some_ne_none name ∘ Eq.symm
      rw [cut_kept none, Scanner.rowsFrom, walk, List.map_cons,
        Scanner.map_char_rowsFrom, if_neg absent, induction]
      simp [Piece.fill]
  | spread position other rest code isChosen otherWord stops induction =>
      obtain rfl := only_eq_true_iff.mp isChosen
      have begins : beginsSpread other (spread other ++ rest) :=
        beginsSpread_iff.mpr ⟨rest, rfl, stops⟩
      have passed : walk other body _ _ = walk other body 0 _ :=
        walk_skip body (position.after '.') ('.' :: '.' :: other) rest
      have onward : (position.after '.').past ('.' :: '.' :: other) =
          position.past (spread other) := rfl
      rw [onward, induction] at passed
      rw [cut_spread code isChosen word stops, List.flatMap_cons,
        List.count_cons_self, Piece.fill, replacing, if_pos rfl]
      have shape : spread other ++ rest =
          '.' :: ('.' :: '.' :: other ++ rest) := rfl
      rw [shape] at begins ⊢
      rw [Scanner.rowsFrom, walk, List.map_cons, Scanner.map_char_rowsFrom,
        if_pos ⟨code, begins⟩]
      have width : (spread other).length - 1 =
          ('.' :: '.' :: other).length := rfl
      rw [width, passed]

end Rows

/-- The spreads of a fragment are replaced as the walk replaces them, and the
answer is nothing just when the walk has replaced nothing. -/
theorem replaceSpreads_eq_walk {name : Text} (word : name.IsWord)
    (document body : Text) :
    replaceSpreads document name body =
      .ok (if (walk name body 0 (rowsOf document)).2 = 0 then none
        else some (walk name body 0 (rowsOf document))) := by
  have walked : walk name body 0 (rowsOf document) = _ :=
    walk_rowsFrom word body .start document
  rw [walked]
  exact replaceSpreads_eq (only_eq_true_iff.mpr rfl) word document body

/-! Runs of dots, spreads that touch, a longer name, and spreads in a literal and
in a comment. -/

def dottedDocument : Text :=
  "....F...F...FF é...F\"...F\"#...F\n..\n...F.".toList

theorem replaceSpreads_eq_walk_dotted :
    Text.IsWord "F".toList ∧
      replaceSpreads dottedDocument "F".toList "b".toList =
        .ok (some (".bb...FF éb\"...F\"#...F\n..\nb.".toList, 4)) ∧
      replaceSpreads dottedDocument "F".toList "b".toList =
        .ok (if (walk "F".toList "b".toList 0 (rowsOf dottedDocument)).2 = 0
          then none
          else some (walk "F".toList "b".toList 0 (rowsOf dottedDocument))) := by
  have word : Text.IsWord "F".toList := by decide
  exact ⟨word, by decide +kernel, replaceSpreads_eq_walk word _ _⟩

end Fragment

end QueryAssembly
