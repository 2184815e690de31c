import QueryAssembly.Proofs.Lexical.Label

namespace QueryAssembly

/-! Scanning a document from its start, scanning it with one scanner that is
advanced step by step, and scanning on from a place in code agree. The state of
a scanner is that of the text it has passed, and in code the text it has passed
no longer matters. -/

namespace Text

/-- Whether an offset lies between two characters or at an end of the text. -/
def IsBoundary (text : Text) (offset : Nat) : Prop :=
  ∃ before after, text = before ++ after ∧ before.bytes = offset

theorem isBoundary_iff_cut? {text : Text} {offset : Nat} :
    text.IsBoundary offset ↔ (text.cut? offset).isSome := by
  rw [Option.isSome_iff_exists]
  constructor
  · rintro ⟨before, after, parts⟩
    exact ⟨(before, after), cut?_eq_some_iff.mpr parts⟩
  · rintro ⟨⟨before, after⟩, found⟩
    exact ⟨before, after, cut?_eq_some_iff.mp found⟩

instance (text : Text) (offset : Nat) : Decidable (text.IsBoundary offset) :=
  decidable_of_iff' _ isBoundary_iff_cut?

theorem exists_append_of_bytes_le {left right before after : Text}
    (text_eq : left ++ right = before ++ after)
    (shorter : left.bytes ≤ before.bytes) :
    ∃ between, before = left ++ between ∧ right = between ++ after := by
  rcases List.append_eq_append_iff.mp text_eq with
    found | ⟨beyond, left_eq, after_eq⟩
  · exact found
  · rw [left_eq, bytes_append] at shorter
    cases beyond with
    | nil => exact ⟨[], by simpa using left_eq.symm, after_eq.symm⟩
    | cons char beyond =>
        have positive := char.utf8Size_pos
        rw [bytes_cons] at shorter
        omega

theorem eq_of_bytes_eq {left right before after : Text}
    (text_eq : left ++ right = before ++ after)
    (size_eq : left.bytes = before.bytes) : left = before ∧ right = after := by
  have first := cut_append left right
  rw [text_eq, size_eq, cut_append] at first
  exact Prod.mk.inj (Except.ok.inj first.symm)

end Text

def Row.shift (amount : Nat) (row : Row) : Row where
  offset := amount + row.offset
  char := row.char
  state := row.state

namespace Scanner

/-- The rows that a scanner yields until it has nothing left to read. -/
inductive Yields : Scanner → List Row → Prop
  | done {scanner : Scanner} : scanner.next? = none → Yields scanner []
  | step {scanner later : Scanner} {row : Row} {rows : List Row} :
      scanner.next? = some (row, later) → Yields later rows →
      Yields scanner (row :: rows)

/-- The states that one scanner meets when it is advanced to offset after
offset, none of which may lie behind it. -/
def statesAlong : Scanner → List Nat → Except Fault (List LexicalState)
  | _, [] => .ok []
  | scanner, offset :: offsets =>
      if offset < scanner.offset then
        .error (.behindScanner offset)
      else do
        let reached := scanner.advanceTo offset
        let later ← reached.statesAlong offsets
        return reached.state :: later

/-! Rows before an offset and behind it. -/

section Rows

theorem yields_rowsFrom (position : Position) (text : Text) :
    Yields ⟨position, text⟩ (rowsFrom position text) := by
  induction text generalizing position with
  | nil => exact .done rfl
  | cons char rest induction => exact .step rfl (induction _)

theorem map_char_rowsFrom (position : Position) (text : Text) :
    (rowsFrom position text).map Row.char = text := by
  induction text generalizing position with
  | nil => rfl
  | cons char rest induction => exact congrArg _ (induction _)

theorem map_offset_rowsFrom (position : Position) (text : Text) :
    (rowsFrom position text).map Row.offset =
      (List.range text.length).map fun count =>
        position.offset + Text.bytes (text.take count) := by
  induction text generalizing position with
  | nil => rfl
  | cons char rest induction =>
      rw [rowsFrom, List.map_cons, induction, List.length_cons,
        List.range_succ_eq_map, List.map_cons, List.map_map]
      refine congrArg _ (List.map_congr_left fun count _ => ?_)
      simp [Position.after, Nat.add_assoc]

theorem mem_rowsFrom_iff {position : Position} {text : Text} {row : Row} :
    row ∈ rowsFrom position text ↔
      ∃ before rest, text = before ++ row.char :: rest ∧
        row.offset = position.offset + before.bytes ∧
        row.state = (position.past before).state := by
  induction text generalizing position with
  | nil => simp [rowsFrom]
  | cons char rest induction =>
      rw [rowsFrom, List.mem_cons, induction]
      constructor
      · rintro (rfl | ⟨before, after, rest_eq, offset_eq, state_eq⟩)
        · exact ⟨[], rest, rfl, rfl, rfl⟩
        · refine ⟨char :: before, after, by rw [rest_eq]; rfl, ?_, state_eq⟩
          rw [offset_eq, Text.bytes_cons, ← Nat.add_assoc]
          rfl
      · rintro ⟨before, after, text_eq, offset_eq, state_eq⟩
        rcases row with ⟨offset, rowChar, state⟩
        cases before with
        | nil =>
            rcases List.cons.inj text_eq with ⟨rfl, _⟩
            refine .inl ?_
            rw [Row.mk.injEq]
            exact ⟨offset_eq, rfl, state_eq⟩
        | cons first before =>
            rcases List.cons.inj text_eq with ⟨rfl, rest_eq⟩
            refine .inr ⟨before, after, rest_eq, ?_, state_eq⟩
            rw [offset_eq, Text.bytes_cons, ← Nat.add_assoc]
            rfl

theorem offset_lt_of_mem_rowsFrom {position : Position} {text : Text} {row : Row}
    (member : row ∈ rowsFrom position text) :
    row.offset < position.offset + text.bytes := by
  rcases mem_rowsFrom_iff.mp member with ⟨before, rest, text_eq, offset_eq, _⟩
  have positive := row.char.utf8Size_pos
  rw [text_eq, Text.bytes_append, Text.bytes_cons, offset_eq]
  omega

theorem rowsOf_append (before after : Text) :
    rowsOf (before ++ after) =
      rowsOf before ++ rowsFrom (Position.start.past before) after :=
  rowsFrom_append .start before after

theorem row_mem_rowsOf (before : Text) (char : Char) (after : Text) :
    ⟨before.bytes, char, (Position.start.past before).state⟩ ∈
      rowsOf (before ++ char :: after) := by
  rw [rowsOf_append, List.mem_append, rowsFrom, Position.offset_past_start]
  exact .inr List.mem_cons_self

private theorem offset_lt_of_mem_rowsOf {text : Text} :
    ∀ row ∈ rowsOf text, decide (row.offset < text.bytes) = true := by
  intro row member
  have bound := offset_lt_of_mem_rowsFrom member
  simp only [ofSource, Position.start, Nat.zero_add] at bound
  exact decide_eq_true bound

theorem takeWhile_rowsOf (before after : Text) :
    ((rowsOf (before ++ after)).takeWhile fun row =>
      row.offset < before.bytes) = rowsOf before := by
  rw [rowsOf_append, List.takeWhile_append_of_pos offset_lt_of_mem_rowsOf]
  cases after with
  | nil => exact List.append_nil _
  | cons char rest =>
      simp [rowsFrom, Position.offset_past_start]

theorem dropWhile_rowsOf (before after : Text) :
    ((rowsOf (before ++ after)).dropWhile fun row =>
      row.offset < before.bytes) =
      rowsFrom (Position.start.past before) after := by
  rw [rowsOf_append, List.dropWhile_append_of_pos offset_lt_of_mem_rowsOf]
  cases after with
  | nil => rfl
  | cons char rest =>
      simp [rowsFrom, Position.offset_past_start]

theorem state_of_mem_rowsOf {source : Text} {row : Row}
    (member : row ∈ rowsOf source) : row.state = stateAt source row.offset := by
  rcases mem_rowsFrom_iff.mp member with
    ⟨before, rest, text_eq, offset_eq, state_eq⟩
  have source_eq : source = before ++ row.char :: rest := text_eq
  have start : row.offset = before.bytes := by
    rw [offset_eq]
    exact Nat.zero_add _
  rw [start, source_eq, stateAt_append]
  exact state_eq

theorem rowsFrom_alike {left right : Position} {amount : Nat}
    (alike : left.Alike right) (offset_eq : left.offset = amount + right.offset)
    (text : Text) :
    rowsFrom left text = (rowsFrom right text).map (Row.shift amount) := by
  induction text generalizing left right with
  | nil => rfl
  | cons char rest induction =>
      have onward : (left.after char).offset =
          amount + (right.after char).offset := by
        rw [Position.after, Position.after, offset_eq, Nat.add_assoc]
      rw [rowsFrom, rowsFrom, List.map_cons, induction (alike.after char) onward,
        Row.shift, offset_eq, alike.1]

theorem rowsFrom_of_code {position : Position} (code : position.state = .code)
    (text : Text) :
    rowsFrom position text = (rowsOf text).map (Row.shift position.offset) :=
  rowsFrom_alike (.of_code code rfl) rfl text

end Rows

/-! One scanner advanced from offset to offset. -/

section Advancing

variable {source : Text}

theorem advanceFrom_end {position : Position} {text : Text} {target : Nat}
    (beyond : position.offset + text.bytes ≤ target) :
    advanceFrom target position text = ⟨position.past text, []⟩ := by
  induction text generalizing position with
  | nil => rfl
  | cons char rest induction =>
      have positive := char.utf8Size_pos
      rw [Text.bytes_cons] at beyond
      have ahead : position.offset < target := by omega
      have rest_beyond :
          (position.after char).offset + Text.bytes rest ≤ target := by
        simp only [Position.after]
        omega
      rw [advanceFrom, if_pos ahead, induction rest_beyond]
      rfl

theorem exists_advanceTo {offset : Nat}
    (reachable : source.IsBoundary offset ∨ source.bytes < offset) :
    ∃ before after, source = before ++ after ∧ before.bytes ≤ offset ∧
      ∀ passed rest, source = passed ++ rest → passed.bytes ≤ offset →
        advanceTo ⟨.past .start passed, rest⟩ offset =
          ⟨.past .start before, after⟩ := by
  rcases reachable with ⟨before, after, source_eq, rfl⟩ | beyond
  · refine ⟨before, after, source_eq, Nat.le_refl _, ?_⟩
    intro passed rest passed_eq ahead
    rcases Text.exists_append_of_bytes_le (passed_eq.symm.trans source_eq) ahead
      with ⟨between, rfl, rfl⟩
    have reached := advanceFrom_append (.past .start passed) between after
    rwa [Position.offset_past_start, ← Text.bytes_append,
      ← Position.past_append] at reached
  · refine ⟨source, [], (List.append_nil _).symm, Nat.le_of_lt beyond, ?_⟩
    rintro passed rest rfl _
    rw [Position.past_append]
    refine advanceFrom_end ?_
    rw [Position.offset_past_start, ← Text.bytes_append]
    exact Nat.le_of_lt beyond

theorem statesAlong_eq {passed rest : Text} {offsets : List Nat}
    (source_eq : source = passed ++ rest)
    (sorted : offsets.Pairwise (· ≤ ·))
    (ahead : ∀ offset ∈ offsets, passed.bytes ≤ offset)
    (reachable : ∀ offset ∈ offsets,
      source.IsBoundary offset ∨ source.bytes < offset) :
    statesAlong ⟨.past .start passed, rest⟩ offsets =
      .ok (offsets.map (stateAt source)) := by
  induction offsets generalizing passed rest with
  | nil => rfl
  | cons offset offsets induction =>
      rw [List.pairwise_cons] at sorted
      rw [List.forall_mem_cons] at ahead reachable
      rcases exists_advanceTo reachable.1 with
        ⟨before, after, before_eq, bound, reached⟩
      have fromHere := reached passed rest source_eq ahead.1
      have fromStart := reached [] source rfl (Nat.zero_le _)
      have state_eq : stateAt source offset =
          (Position.start.past before).state := congrArg state fromStart
      have later := induction before_eq sorted.2
        (fun other member => Nat.le_trans bound (sorted.1 other member))
        reachable.2
      have onTime : ¬ offset < (Scanner.mk (.past .start passed) rest).offset := by
        rw [Scanner.offset, Position.offset_past_start]
        exact Nat.not_lt.mpr ahead.1
      rw [statesAlong, if_neg onTime, fromHere]
      simp only [later, ok_bind, List.map_cons, state_eq]
      rfl

end Advancing

/-- One scan from the start, one scanner advanced from offset to offset, a scan
resumed in code and the scan of what is left there agree. -/
theorem scans_agree (source : Text) :
    ((ofSource source).Yields (rowsOf source) ∧
        (rowsOf source).map Row.char = source ∧
        (rowsOf source).map Row.offset = (List.range source.length).map
          (fun count => Text.bytes (source.take count)) ∧
        ∀ row ∈ rowsOf source, row.state = stateAt source row.offset) ∧
      (∀ offsets, offsets.Pairwise (· ≤ ·) →
        (∀ offset ∈ offsets,
          source.IsBoundary offset ∨ source.bytes < offset) →
        (ofSource source).statesAlong offsets =
          .ok (offsets.map (stateAt source))) ∧
      ∀ offset, source.IsBoundary offset → stateAt source offset = .code →
        ∃ scanner suffix, resumeInCode source offset = .ok scanner ∧
          source.onward offset = .ok suffix ∧
          scanner.Yields scanner.rows ∧
          scanner.rows =
            (rowsOf source).dropWhile (fun row => row.offset < offset) ∧
          scanner.rows = (rowsOf suffix).map (Row.shift offset) := by
  refine ⟨⟨yields_rowsFrom _ _, map_char_rowsFrom _ _, ?_,
    fun row member => state_of_mem_rowsOf member⟩, ?_, ?_⟩
  · rw [rowsOf, rows, map_offset_rowsFrom]
    simp [ofSource, Position.start]
  · intro offsets sorted reachable
    exact @statesAlong_eq source [] source offsets rfl sorted
      (fun _ _ => Nat.zero_le _) reachable
  · rintro offset ⟨before, after, rfl, rfl⟩ code
    rw [stateAt_append] at code
    have resumed : resumeInCode (before ++ after) before.bytes =
        .ok ⟨⟨before.bytes, .code, before.getLast?⟩, after⟩ := by
      rw [resumeInCode, Text.cut_append]
      rfl
    have rows_eq : rowsFrom ⟨before.bytes, .code, before.getLast?⟩ after = _ :=
      rowsFrom_of_code rfl after
    refine ⟨_, after, resumed, Text.onward_append before after,
      yields_rowsFrom _ _, ?_, rows_eq⟩
    rw [dropWhile_rowsOf, rowsFrom_of_code code, Position.offset_past_start]
    exact rows_eq

def quotedSource : Text := "é \"a#'\\\" \" # \"\n'b".toList

theorem scans_agree_quoted :
    (∀ offset ∈ [0, 2, 2, 8, 14, 18, 30], quotedSource.IsBoundary offset ∨
        quotedSource.bytes < offset) ∧
      (ofSource quotedSource).statesAlong [0, 2, 2, 8, 14, 18, 30] =
        .ok [.code, .code, .code, .literal .double, .comment,
          .literal .single, .literal .single] ∧
      quotedSource.IsBoundary 11 ∧ stateAt quotedSource 11 = .code ∧
      ∃ scanner suffix, resumeInCode quotedSource 11 = .ok scanner ∧
        quotedSource.onward 11 = .ok suffix ∧
        scanner.Yields scanner.rows ∧
        scanner.rows =
          (rowsOf quotedSource).dropWhile (fun row => row.offset < 11) ∧
        scanner.rows = (rowsOf suffix).map (Row.shift 11) := by
  have reachable : ∀ offset ∈ [0, 2, 2, 8, 14, 18, 30],
      quotedSource.IsBoundary offset ∨ quotedSource.bytes < offset := by
    decide +kernel
  have boundary : quotedSource.IsBoundary 11 := by decide +kernel
  have code : stateAt quotedSource 11 = .code := by decide +kernel
  refine ⟨reachable, ?_, boundary, code,
    (scans_agree quotedSource).2.2 11 boundary code⟩
  rw [(scans_agree quotedSource).2.1 _ (by decide) reachable]
  exact congrArg Except.ok (by decide +kernel)

end Scanner

end QueryAssembly
