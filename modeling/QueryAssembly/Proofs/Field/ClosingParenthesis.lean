import Mathlib.Order.Bounds.Basic
import QueryAssembly.Proofs.Field.Parentheses

namespace QueryAssembly

/-! Where a parenthesis is closed, in terms of the offsets of a document alone: at
the first offset behind it up to which as many parentheses in code are closed as
opened. The search that reads on from the parenthesis comes to that offset, and its
count of open parentheses never falls below zero on the way. -/

namespace FieldOccurrence

/-- The offsets behind another one between which and it as many parentheses in
code are closed as opened. -/
def levelOffsets (document : Text) (opening : Nat) : Set Nat :=
  {offset | opening < offset ∧ document.IsBoundary offset ∧
    openParentheses document offset = openParentheses document opening}

def ClosedBefore (document : Text) (opening stop : Nat) : Prop :=
  IsLeast (levelOffsets document opening) stop

section Level

variable {front rest : Text}

theorem openParentheses_behind (code : endState front = .code)
    (inner tail : Text) :
    openParentheses (front ++ '(' :: (inner ++ tail))
        (Text.bytes (front ++ '(' :: inner)) =
      openParentheses (front ++ '(' :: (inner ++ tail)) front.bytes +
        (1 + excess (Scanner.rowsFrom
          ((Position.start.past front).after '(') inner)) := by
  have frontCode : (Position.start.past front).state = .code :=
    (endState_eq front).symm.trans code
  have shape : front ++ '(' :: (inner ++ tail) =
      (front ++ '(' :: inner) ++ tail := by simp
  rw [openParentheses_append, shape, openParentheses_append,
    excess_rowsFrom_append, Scanner.rowsFrom, excess_cons,
    excess_opening frontCode]

theorem exists_inner {offset : Nat} (behind : front.bytes < offset)
    (boundary : Text.IsBoundary (front ++ '(' :: rest) offset) :
    ∃ inner tail, rest = inner ++ tail ∧
      offset = Text.bytes (front ++ '(' :: inner) := by
  rcases boundary with ⟨passed, tail, text_eq, rfl⟩
  rcases Text.exists_append_of_bytes_le text_eq (Nat.le_of_lt behind) with
    ⟨between, rfl, onward⟩
  cases between with
  | nil => simp at behind
  | cons first inner =>
      rw [List.cons_append] at onward
      rcases List.cons.inj onward with ⟨rfl, rest_eq⟩
      exact ⟨inner, tail, rest_eq, rfl⟩

theorem mem_levelOffsets_iff (code : endState front = .code) (offset : Nat) :
    offset ∈ levelOffsets (front ++ '(' :: rest) front.bytes ↔
      ∃ inner tail, rest = inner ++ tail ∧
        offset = Text.bytes (front ++ '(' :: inner) ∧
        1 + excess (Scanner.rowsFrom
          ((Position.start.past front).after '(') inner) = 0 := by
  constructor
  · rintro ⟨behind, boundary, level⟩
    rcases exists_inner behind boundary with ⟨inner, tail, rfl, rfl⟩
    rw [openParentheses_behind code] at level
    exact ⟨inner, tail, rfl, rfl, by omega⟩
  · rintro ⟨inner, tail, rfl, rfl, level⟩
    refine ⟨?_, ⟨front ++ '(' :: inner, tail, by simp, rfl⟩, ?_⟩
    · have positive := '('.utf8Size_pos
      simp only [Text.bytes_append, Text.bytes_cons]
      omega
    · rw [openParentheses_behind code, level, Int.add_zero]

end Level

theorem closedBefore_iff {front rest : Text} (code : endState front = .code)
    (stop : Nat) :
    ClosedBefore (front ++ '(' :: rest) front.bytes stop ↔
      ∃ passed later : Text, afterClosing 0 .start ('(' :: rest) = some later ∧
        '(' :: rest = passed ++ later ∧ stop = Text.bytes (front ++ passed) := by
  have frontCode : (Position.start.past front).state = .code :=
    (endState_eq front).symm.trans code
  rw [afterClosing_opening frontCode]
  rcases afterClosing_excess Nat.one_pos ((Position.start.past front).after '(')
      rest with
    ⟨absent, remains⟩ | ⟨opened, later, found, rest_eq, remains, level⟩
  · refine iff_of_false (fun least => ?_) fun ⟨_, _, found, _⟩ => ?_
    · rcases (mem_levelOffsets_iff code stop).mp least.1 with
        ⟨inner, tail, rfl, _, level⟩
      have remains := remains inner (List.prefix_append inner tail)
      omega
    · rw [absent] at found
      cases found
  · have closing : rest = (opened ++ [')']) ++ later := by simp [rest_eq]
    have least : ClosedBefore (front ++ '(' :: rest) front.bytes
        (Text.bytes (front ++ '(' :: (opened ++ [')']))) := by
      refine ⟨(mem_levelOffsets_iff code _).mpr
        ⟨opened ++ [')'], later, closing, rfl, level⟩, fun other member => ?_⟩
      rcases (mem_levelOffsets_iff code other).mp member with
        ⟨inner, tail, inner_eq, rfl, innerLevel⟩
      -- Nothing shorter than the closed part brings the level back.
      rcases List.append_eq_append_iff.mp (inner_eq.symm.trans closing) with
        ⟨beyond, closed_eq, _⟩ | ⟨beyond, rfl, _⟩
      · rcases List.eq_nil_or_concat beyond with rfl | ⟨start, last, rfl⟩
        · rw [List.append_nil] at closed_eq
          rw [closed_eq]
        · rw [List.concat_eq_append, ← List.append_assoc] at closed_eq
          have opened_eq := (List.append_inj_left' closed_eq rfl)
          have remains := remains inner ⟨start, opened_eq.symm⟩
          omega
      · simp only [Text.bytes_append, Text.bytes_cons]
        omega
    constructor
    · intro isLeast
      refine ⟨'(' :: (opened ++ [')']), later, found, by rw [closing]; rfl,
        isLeast.unique least⟩
    · rintro ⟨passed, behind, foundBehind, text_eq, rfl⟩
      obtain rfl := Option.some.inj (found.symm.trans foundBehind)
      rw [closing, ← List.cons_append] at text_eq
      rw [← List.append_cancel_right text_eq]
      exact least

/-! What the program's own search for the closing parenthesis comes to, in terms of
how often parentheses stand in code between two offsets. -/

def rowsBetween (document : Text) (start stop : Nat) : List Row :=
  (rowsOf document).filter fun row => start ≤ row.offset ∧ row.offset < stop

/-- The offsets behind another one between which and it parentheses are opened in
code as often as they are closed. -/
def evenOffsets (document : Text) (opening : Nat) : Set Nat :=
  {offset | opening < offset ∧ document.IsBoundary offset ∧
    codeCount '(' (rowsBetween document opening offset) =
      codeCount ')' (rowsBetween document opening offset)}

/-- Whether parentheses are opened in code more often than closed between two
offsets. -/
def MoreOpened (document : Text) (start stop : Nat) : Prop :=
  codeCount ')' (rowsBetween document start stop) <
    codeCount '(' (rowsBetween document start stop)

section Between

variable {front rest : Text}

theorem rowsBetween_append (before between after : Text) :
    rowsBetween (before ++ (between ++ after)) before.bytes
        (Text.bytes (before ++ between)) =
      Scanner.rowsFrom (.past .start before) between := by
  have start : (Position.start.past before).offset = before.bytes :=
    Position.offset_past_start before
  have later : ((Position.start.past before).past between).offset =
      Text.bytes (before ++ between) := by
    rw [← Position.past_append, Position.offset_past_start]
  rw [rowsBetween, Scanner.rowsOf_append, Scanner.rowsFrom_append,
    List.filter_append, List.filter_append, List.filter_eq_nil_iff.mpr,
    List.filter_eq_self.mpr, List.filter_eq_nil_iff.mpr, List.nil_append,
    List.append_nil]
  · intro row member
    rcases Scanner.mem_rowsFrom_iff.mp member with ⟨_, _, _, offset_eq, _⟩
    simp only [decide_eq_true_eq, not_and]
    omega
  · intro row member
    have bound := Scanner.offset_lt_of_mem_rowsFrom member
    rcases Scanner.mem_rowsFrom_iff.mp member with ⟨_, _, _, offset_eq, _⟩
    rw [Text.bytes_append, decide_eq_true_eq]
    omega
  · intro row member
    have bound : row.offset < Position.start.offset + before.bytes :=
      Scanner.offset_lt_of_mem_rowsFrom member
    have zero : Position.start.offset = 0 := rfl
    simp only [decide_eq_true_eq, not_and]
    omega

theorem rowsBetween_opening (code : endState front = .code)
    (inner tail : Text) :
    (codeCount '(' (rowsBetween (front ++ '(' :: (inner ++ tail)) front.bytes
        (Text.bytes (front ++ '(' :: inner))) : Int) =
      codeCount ')' (rowsBetween (front ++ '(' :: (inner ++ tail)) front.bytes
        (Text.bytes (front ++ '(' :: inner))) +
      (1 + excess (Scanner.rowsFrom
        ((Position.start.past front).after '(') inner)) := by
  have frontCode : (Position.start.past front).state = .code :=
    (endState_eq front).symm.trans code
  have counted := excess_cons
    ⟨(Position.start.past front).offset, '(', (Position.start.past front).state⟩
    (Scanner.rowsFrom ((Position.start.past front).after '(') inner)
  have rows_eq := rowsBetween_append front ('(' :: inner) tail
  rw [List.cons_append] at rows_eq
  rw [excess_opening frontCode] at counted
  rw [rows_eq, Scanner.rowsFrom, ← counted, excess]
  omega

theorem even_of_level (code : endState front = .code) {inner : Text}
    (level : 1 + excess (Scanner.rowsFrom
      ((Position.start.past front).after '(') (inner ++ [')'])) = 0)
    (tail : Text) :
    Text.bytes (front ++ '(' :: (inner ++ [')'])) ∈
      evenOffsets (front ++ '(' :: (inner ++ ')' :: tail)) front.bytes := by
  have shape : front ++ '(' :: (inner ++ ')' :: tail) =
      (front ++ '(' :: (inner ++ [')'])) ++ tail := by simp
  have counted := rowsBetween_opening code (inner ++ [')']) tail
  rw [level, Int.add_zero, List.append_assoc] at counted
  refine ⟨?_, ⟨_, tail, shape, rfl⟩, Int.ofNat.inj counted⟩
  have positive := '('.utf8Size_pos
  simp only [Text.bytes_append, Text.bytes_cons]
  omega

theorem closingParenthesis_excess (code : endState front = .code)
    (rest : Text) :
    (closingParenthesis (front ++ '(' :: rest) front.bytes = .ok none ∧
        StaysOpen 1 ((Position.start.past front).after '(') rest) ∨
      ∃ inner tail, rest = inner ++ ')' :: tail ∧
        closingParenthesis (front ++ '(' :: rest) front.bytes =
          .ok (some (Text.bytes (front ++ '(' :: (inner ++ [')'])))) ∧
        StaysOpen 1 ((Position.start.past front).after '(') inner ∧
        1 + excess (Scanner.rowsFrom
          ((Position.start.past front).after '(') (inner ++ [')'])) = 0 := by
  have frontCode : (Position.start.past front).state = .code :=
    (endState_eq front).symm.trans code
  have opening := afterClosing_opening frontCode rest
  rcases afterClosing_excess Nat.one_pos ((Position.start.past front).after '(')
      rest with
    ⟨absent, remains⟩ | ⟨inner, tail, found, rest_eq, remains, level⟩
  · rw [absent] at opening
    rcases closingParenthesis_append front rest with
      ⟨_, run⟩ | ⟨_, _, closed, _, _⟩
    · exact .inl ⟨run, remains⟩
    · rw [opening] at closed
      cases closed
  · rw [found] at opening
    rcases closingParenthesis_append front rest with
      ⟨unclosed, _⟩ | ⟨passed, after, closed, passed_eq, run⟩
    · rw [opening] at unclosed
      cases unclosed
    · obtain rfl := Option.some.inj (opening.symm.trans closed)
      have shape : '(' :: rest = '(' :: (inner ++ [')']) ++ tail := by
        simp [rest_eq]
      obtain rfl := List.append_cancel_right (passed_eq.symm.trans shape)
      exact .inr ⟨inner, tail, rest_eq, by rw [run, Text.bytes_append], remains,
        level⟩

theorem state_of_level {position : Position} {inner : Text}
    (remains : StaysOpen 1 position inner)
    (level : 1 + excess (Scanner.rowsFrom position (inner ++ [')'])) = 0) :
    (position.past inner).state = .code := by
  by_contra outside
  have open_inner := remains inner (List.prefix_refl inner)
  have last : excess (Scanner.rowsFrom (position.past inner) [')']) = 0 :=
    excess_other (fun both => by cases both.2)
      fun both => outside both.1
  rw [excess_rowsFrom_append, last] at level
  omega

theorem closing_of_level {inner : Text}
    (remains : StaysOpen 1 ((Position.start.past front).after '(') inner)
    (level : 1 + excess (Scanner.rowsFrom
      ((Position.start.past front).after '(') (inner ++ [')'])) = 0)
    (tail : Text) :
    stateAt (front ++ '(' :: (inner ++ ')' :: tail))
        (Text.bytes (front ++ '(' :: (inner ++ [')']))) = .code ∧
      ∃ closing ∈ rowsOf (front ++ '(' :: (inner ++ ')' :: tail)),
        closing.char = ')' ∧ closing.state = .code ∧
        closing.offset + 1 = Text.bytes (front ++ '(' :: (inner ++ [')'])) := by
  have closed : (Position.start.past (front ++ '(' :: inner)).state = .code := by
    have inside := state_of_level remains level
    rwa [Position.past_append]
  have closing := Scanner.row_mem_rowsOf (front ++ '(' :: inner) ')' tail
  rw [List.append_assoc, List.cons_append] at closing
  have text_eq : front ++ '(' :: (inner ++ ')' :: tail) =
      (front ++ '(' :: (inner ++ [')'])) ++ tail := by simp
  have stop_eq : front ++ '(' :: (inner ++ [')']) =
      (front ++ '(' :: inner) ++ [')'] := by simp
  refine ⟨?_, _, closing, rfl, closed, ?_⟩
  · rw [text_eq, stateAt_append, stop_eq, Position.past_append]
    exact Position.state_after_of_plain closed rfl
  · rw [stop_eq]
    exact (Text.bytes_append (front ++ '(' :: inner) [')']).symm

theorem moreOpened_of_staysOpen (code : endState front = .code) {inner : Text}
    (remains : StaysOpen 1 ((Position.start.past front).after '(') inner)
    (tail : Text) :
    MoreOpened (front ++ '(' :: (inner ++ tail)) front.bytes
      (Text.bytes (front ++ '(' :: inner)) := by
  have counted := rowsBetween_opening code inner tail
  have remains := remains inner (List.prefix_refl inner)
  rw [MoreOpened]
  omega

theorem StaysOpen.of_append {depth : Nat} {position : Position}
    {inner beyond : Text} (remains : StaysOpen depth position (inner ++ beyond)) :
    StaysOpen depth position inner :=
  fun early isEarly => remains early (isEarly.trans (List.prefix_append _ _))

theorem moreOpened_of_lt (code : endState front = .code) {inner tail : Text}
    (remains : StaysOpen 1 ((Position.start.past front).after '(') inner)
    {offset : Nat} (behind : front.bytes < offset)
    (boundary : Text.IsBoundary (front ++ '(' :: (inner ++ ')' :: tail)) offset)
    (early : offset < Text.bytes (front ++ '(' :: (inner ++ [')']))) :
    MoreOpened (front ++ '(' :: (inner ++ ')' :: tail)) front.bytes offset := by
  rcases exists_inner behind boundary with ⟨part, later, rest_eq, rfl⟩
  have size : Char.utf8Size ')' = 1 := rfl
  have shorter : part.bytes ≤ inner.bytes := by
    simp only [Text.bytes_append, Text.bytes_cons, Text.bytes_nil] at early
    omega
  rcases Text.exists_append_of_bytes_le rest_eq.symm shorter with
    ⟨between, rfl, _⟩
  rw [rest_eq]
  exact moreOpened_of_staysOpen code remains.of_append later

theorem not_even_of_moreOpened {document : Text} {opening offset : Nat}
    (more : MoreOpened document opening offset) :
    offset ∉ evenOffsets document opening :=
  fun member => Nat.ne_of_gt more member.2.2

end Between

/-- The search for the parenthesis that closes one in code comes to an answer
without closing what nothing opened: the least offset at which as many parentheses
are closed as opened, right behind the last of them, or nothing when there is no such
offset. At every earlier offset something is open. -/
theorem closingParenthesis_isLeast {document : Text} {opening : Row}
    (member : opening ∈ rowsOf document) (code : opening.state = .code)
    (opens : opening.char = '(') :
    ∃ found, closingParenthesis document opening.offset = .ok found ∧
      (found = none ↔ evenOffsets document opening.offset = ∅) ∧
      (∀ stop ∈ found, IsLeast (evenOffsets document opening.offset) stop ∧
        stateAt document stop = .code ∧
        ∃ closing ∈ rowsOf document, closing.char = ')' ∧
          closing.state = .code ∧ closing.offset + 1 = stop) ∧
      ∀ offset, opening.offset < offset → document.IsBoundary offset →
        (∀ stop ∈ found, offset < stop) →
        MoreOpened document opening.offset offset := by
  rcases Scanner.mem_rowsFrom_iff.mp member with
    ⟨front, rest, document_eq, offset_eq, state_eq⟩
  have frontCode : endState front = .code := by
    rw [endState_eq]
    exact state_eq.symm.trans code
  have start : opening.offset = front.bytes := offset_eq.trans (Nat.zero_add _)
  obtain rfl : document = front ++ '(' :: rest := opens ▸ document_eq
  rw [start]
  rcases closingParenthesis_excess frontCode rest with
    ⟨run, remains⟩ | ⟨inner, tail, rfl, run, remains, level⟩
  · have throughout : ∀ offset, front.bytes < offset →
        Text.IsBoundary (front ++ '(' :: rest) offset →
        MoreOpened (front ++ '(' :: rest) front.bytes offset := by
      intro offset behind boundary
      rcases exists_inner behind boundary with ⟨inner, tail, rfl, rfl⟩
      exact moreOpened_of_staysOpen frontCode remains.of_append tail
    refine ⟨none, run, iff_of_true rfl ?_, (fun _ found => nomatch found),
      fun offset behind boundary _ => throughout offset behind boundary⟩
    refine Set.eq_empty_iff_forall_notMem.mpr fun offset member => ?_
    exact not_even_of_moreOpened (throughout offset member.1 member.2.1) member
  · have before : ∀ offset, front.bytes < offset →
        Text.IsBoundary (front ++ '(' :: (inner ++ ')' :: tail)) offset →
        offset < Text.bytes (front ++ '(' :: (inner ++ [')'])) →
        MoreOpened (front ++ '(' :: (inner ++ ')' :: tail)) front.bytes offset :=
      fun offset => moreOpened_of_lt frontCode remains
    have even := even_of_level frontCode level tail
    refine ⟨_, run, iff_of_false (Option.some_ne_none _) ?_, ?_,
      fun offset behind boundary early => before offset behind boundary (early _ rfl)⟩
    · exact (Set.nonempty_of_mem even).ne_empty
    · intro stop found
      obtain rfl := Option.some.inj found
      refine ⟨⟨even, fun offset member => Nat.not_lt.mp fun early => ?_⟩,
        closing_of_level remains level tail⟩
      exact not_even_of_moreOpened (before offset member.1 member.2.1 early) member

def nestedLists : Text :=
  "\x7b user(n: \")\", at: (1) # ;)\n) \x7d".toList

theorem closingParenthesis_isLeast_nestedLists :
    ⟨6, '(', .code⟩ ∈ rowsOf nestedLists ∧
      closingParenthesis nestedLists 6 = .ok (some 29) ∧
      IsLeast (evenOffsets nestedLists 6) 29 ∧
      stateAt nestedLists 29 = .code ∧ MoreOpened nestedLists 6 22 := by
  have member : ⟨6, '(', .code⟩ ∈ rowsOf nestedLists := by decide +kernel
  have run : closingParenthesis nestedLists 6 = .ok (some 29) := by decide +kernel
  have boundary : nestedLists.IsBoundary 22 := by decide +kernel
  rcases closingParenthesis_isLeast member rfl rfl with
    ⟨found, found_eq, _, holds, before⟩
  obtain rfl := Except.ok.inj (run.symm.trans found_eq)
  rcases holds 29 rfl with ⟨least, code, _⟩
  refine ⟨member, run, least, code, before 22 (by decide) boundary ?_⟩
  intro stop found
  obtain rfl := Option.some.inj found
  decide

end FieldOccurrence

end QueryAssembly
