import QueryAssembly.Proofs.Lexical.Lexeme

namespace QueryAssembly

/-! Where two texts meet, the last lexeme of the one runs on into the first of the
other just when a name meets a name or a literal is still open. A comment that is
still open takes away all that follows in its line. -/

def Text.fromLineBreak (text : Text) : Text :=
  text.dropWhile fun char => char != '\n' && char != '\r'

/-! Labels at the border of two lists. -/

section Labels

variable {label last : Label} {left right : List Label}

theorem ne_nil_of_mem_lexemes {labels : List Label} {text : Text}
    (member : text ∈ lexemes labels) : text ≠ [] := by
  induction labels generalizing text with
  | nil => cases member
  | cons label rest induction =>
      rw [lexemes] at member
      split_ifs at member
      · exact induction member
      · cases lexemes_eq : lexemes rest with
        | nil =>
            rw [lexemes_eq, extendFirst, List.mem_singleton] at member
            exact member ▸ List.cons_ne_nil _ _
        | cons first later =>
            rw [lexemes_eq, extendFirst, List.mem_cons] at member
            rcases member with rfl | member
            · exact List.cons_ne_nil _ _
            · exact induction (by simp [lexemes_eq, member])
      · rcases List.mem_cons.mp member with rfl | member
        · exact List.cons_ne_nil _ _
        · exact induction member

theorem leadingDots_append_cons (solid : last.isDot = false)
    (left right : List Label) :
    leadingDots (left ++ last :: right) = leadingDots (left ++ [last]) := by
  induction left with
  | nil => simp [leadingDots_cons, solid]
  | cons label rest induction =>
      rw [List.cons_append, List.cons_append, leadingDots_cons, induction,
        ← leadingDots_cons]

theorem joins_append_cons (solid : last.isDot = false) (label : Label)
    (left right : List Label) :
    joins label (left ++ last :: right) = joins label (left ++ [last]) := by
  have dots := leadingDots_append_cons solid left right
  cases left with
  | nil => simp only [List.nil_append, joins] at dots ⊢; rw [dots]
  | cons next rest => simp only [List.cons_append, joins] at dots ⊢; rw [dots]

theorem lexemes_append_of_joins (kept : last.isSkipped = false)
    (solid : last.isDot = false) (joined : joins last right) (left : List Label) :
    ∃ front closing opening later, lexemes (left ++ [last]) = front ++ [closing] ∧
      lexemes right = opening :: later ∧
      lexemes (left ++ last :: right) = front ++ (closing ++ opening) :: later := by
  induction left with
  | nil =>
      rcases List.exists_cons_of_ne_nil (lexemes_ne_nil_of_joins joined) with
        ⟨opening, later, right_eq⟩
      refine ⟨[], [last.1], opening, later, ?_, right_eq, ?_⟩
      · simp [lexemes, kept, joins]
      · simp [lexemes, kept, joined, right_eq, extendFirst]
  | cons label left induction =>
      rcases induction with
        ⟨front, closing, opening, later, left_eq, right_eq, whole⟩
      simp only [List.cons_append, lexemes, whole, left_eq,
        joins_append_cons solid label left right]
      split
      · exact ⟨front, closing, opening, later, rfl, right_eq, rfl⟩
      · split
        · cases front with
          | nil =>
              exact ⟨[], label.1 :: closing, opening, later, rfl, right_eq, rfl⟩
          | cons first front =>
              exact ⟨(label.1 :: first) :: front, closing, opening, later, rfl,
                right_eq, rfl⟩
        · exact ⟨[label.1] :: front, closing, opening, later, rfl, right_eq, rfl⟩

theorem lexemes_append_ne (kept : last.isSkipped = false)
    (solid : last.isDot = false) (joined : joins last right) (left : List Label)
    (other : List Text) :
    lexemes (left ++ last :: right) ≠ lexemes (left ++ [last]) ++ other := by
  rcases lexemes_append_of_joins kept solid joined left with
    ⟨front, closing, opening, later, left_eq, right_eq, whole⟩
  intro same
  rw [whole, left_eq, List.append_assoc, List.append_cancel_left_eq] at same
  have longer : closing ++ opening = closing := (List.cons.inj same).1
  rw [List.append_right_eq_self] at longer
  have member : opening ∈ lexemes right := by
    rw [right_eq]
    exact List.mem_cons_self
  exact ne_nil_of_mem_lexemes member longer

end Labels

/-! What may be open at the end of the first text: a literal, a name, a comment. -/

section Texts

variable {position : Position} {left right : Text}

theorem lexemes_labelsFrom_of_comment (comment : position.state = .comment)
    (text : Text) :
    lexemes (labelsFrom position text) = lexemesOf text.fromLineBreak := by
  induction text generalizing position with
  | nil => rfl
  | cons char rest induction =>
      have skipped : Label.isSkipped (char, position.state) := by
        simp [Label.isSkipped, comment]
      rw [labelsFrom_cons, lexemes, if_pos skipped]
      by_cases breaks : char = '\n' ∨ char = '\r'
      · have code : (position.after char).state = .code := by
          simp [Position.after, comment, LexicalState.next, breaks]
        have blank : Label.isSkipped (char, .code) := by
          rcases breaks with rfl | rfl <;> rfl
        have opened : (Position.start.after char).state = .code := by
          rcases breaks with rfl | rfl <;> rfl
        have kept : Text.fromLineBreak (char :: rest) = char :: rest :=
          List.dropWhile_cons_of_neg (by rcases breaks with rfl | rfl <;> decide)
        have labels : labelsOf (char :: rest) = (char, .code) :: labelsOf rest := by
          rw [← Position.labelsFrom_of_code opened rest]
          rfl
        rw [kept, lexemesOf, labels, lexemes, if_pos blank,
          Position.labelsFrom_of_code code]
      · have inside : (position.after char).state = .comment := by
          simp [Position.after, comment, LexicalState.next, breaks]
        rw [induction inside, Text.fromLineBreak, Text.fromLineBreak,
          List.dropWhile_cons_of_pos]
        simpa using breaks

theorem lexemesOf_append_eq (left right : Text) :
    lexemesOf (left ++ right) =
      lexemes (labelsOf left ++ labelsFrom (Position.start.past left) right) :=
  congrArg lexemes (labelsFrom_append .start left right)

theorem labelsOf_concat (front : Text) (last : Char) :
    labelsOf (front ++ [last]) = labelsOf front ++ [(last, endState front)] := by
  rw [endState_eq]
  exact labelsFrom_append .start front [last]

theorem endState_concat (front : Text) (last : Char) :
    endState (front ++ [last]) =
      (endState front).next (Position.start.past front).previous last := by
  rw [endState_eq, endState_eq, Position.past_append]
  rfl

theorem not_isSkipped_of_opened {front : Text} {last : Char} {quote : Quote}
    (opened : endState (front ++ [last]) = .literal quote) :
    Label.isSkipped (last, endState front) = false ∧
      Label.isDot (last, endState front) = false := by
  rw [endState_concat] at opened
  cases state : endState front with
  | code =>
      rw [state, LexicalState.next] at opened
      split_ifs at opened with double single <;> subst last <;> exact ⟨rfl, rfl⟩
  | comment =>
      rw [state, LexicalState.next] at opened
      split_ifs at opened
  | literal held => exact ⟨rfl, by simp [Label.isDot]⟩

theorem endState_of_concat_name {front : Text} {last : Char}
    (closed : endState (front ++ [last]) = .code)
    (continues : Text.isNameContinue last) : endState front = .code := by
  rw [endState_concat] at closed
  cases state : endState front with
  | code => rfl
  | comment =>
      rw [state, LexicalState.next] at closed
      split_ifs at closed with breaks
      rcases breaks with rfl | rfl <;> exact absurd continues (by decide)
  | literal quote =>
      rw [state, LexicalState.next] at closed
      split_ifs at closed with closes
      rw [closes.1] at continues
      cases quote <;> exact absurd continues (by decide)

theorem lexemesOf_append_ne_of_literal {quote : Quote}
    (opened : endState left = .literal quote) (nonempty : right ≠ [])
    (other : List Text) : lexemesOf (left ++ right) ≠ lexemesOf left ++ other := by
  rcases List.exists_cons_of_ne_nil nonempty with ⟨first, rest, rfl⟩
  rcases List.eq_nil_or_concat left with rfl | ⟨front, last, rfl⟩
  · cases opened
  rw [List.concat_eq_append] at opened ⊢
  have kept := not_isSkipped_of_opened opened
  have joined : joins (last, endState front)
      (labelsFrom (Position.start.past (front ++ [last])) (first :: rest)) := by
    rw [labelsFrom_cons, ← endState_eq, opened]
    rfl
  rw [lexemesOf_append_eq, lexemesOf, labelsOf_concat, List.append_assoc]
  exact lexemes_append_ne kept.1 kept.2 joined _ other

theorem lexemesOf_append_ne_of_name (closed : endState left = .code)
    (ends : left.getLast?.any Text.isNameContinue) (continues : right.continuesName)
    (other : List Text) : lexemesOf (left ++ right) ≠ lexemesOf left ++ other := by
  rcases List.eq_nil_or_concat left with rfl | ⟨front, last, rfl⟩
  · cases ends
  cases right with
  | nil => cases continues
  | cons first rest =>
      rw [List.concat_eq_append] at closed ends ⊢
      rw [List.getLast?_concat, Option.any_some] at ends
      have code := endState_of_concat_name closed ends
      have part : Label.isNamePart (last, endState front) := by
        simp [Label.isNamePart, code, ends]
      have next : Label.isNamePart (first, .code) := continues
      have apart : last ≠ '.' := Text.ne_of_isNameContinue ends rfl
      have solid : Label.isDot (last, endState front) = false := by
        simp [Label.isDot, apart]
      have joined : joins (last, endState front)
          (labelsFrom (Position.start.past (front ++ [last])) (first :: rest)) := by
        rw [labelsFrom_cons, ← endState_eq, closed]
        simp [joins, part, next]
      rw [lexemesOf_append_eq, lexemesOf, labelsOf_concat, List.append_assoc]
      exact lexemes_append_ne (Label.not_isSkipped_of_isNamePart part) solid joined _
        other

theorem lexemesOf_append_of_comment (opened : endState left = .comment) :
    lexemesOf (left ++ right) = lexemesOf left ++ lexemesOf right.fromLineBreak := by
  have comment : (Position.start.past left).state = .comment :=
    (endState_eq left).symm.trans opened
  rw [lexemesOf_append_eq, lexemes_append, lexemes_labelsFrom_of_comment comment]
  · rfl
  · intro last _
    cases right with
    | nil => rfl
    | cons first rest =>
        rw [labelsFrom_cons, comment]
        simp [joins, Label.isInside, Label.isNamePart, leadingDots_cons, Label.isDot]

/-- Two texts keep their lexemes side by side unless a name meets a name, or what is
open at the end of the one takes something from the other. -/
theorem lexemesOf_append_iff (solid : left.getLast? ≠ some '.') :
    lexemesOf (left ++ right) = lexemesOf left ++ lexemesOf right ↔
      match endState left with
      | .code => ¬(left.getLast?.any Text.isNameContinue ∧ right.continuesName)
      | .comment => lexemesOf right.fromLineBreak = lexemesOf right
      | .literal _ => right = [] := by
  cases state : endState left with
  | code =>
      constructor
      · rintro same ⟨ends, continues⟩
        exact lexemesOf_append_ne_of_name state ends continues _ same
      · intro apart
        refine lexemesOf_append state (fun ends => ?_) fun dot => absurd dot solid
        simpa [ends] using apart
  | comment =>
      rw [lexemesOf_append_of_comment state, List.append_cancel_left_eq]
  | literal quote =>
      constructor
      · intro same
        by_contra nonempty
        exact lexemesOf_append_ne_of_literal state nonempty _ same
      · rintro rfl
        rw [List.append_nil]
        exact (List.append_nil _).symm

end Texts

end QueryAssembly
