import QueryAssembly.Field.Attachment
import QueryAssembly.Proofs.Field.DefinitionName
import QueryAssembly.Proofs.Lexical.Match

namespace QueryAssembly

/-! A field is told from other names by the text before it and the text after
it. The search for its letters comes to the leftmost place where both allow a
field, and what is replaced there runs to the end of the arguments. -/

namespace FieldOccurrence

/-- What may stand before a field. -/
structure AdmitsBefore (before : Text) : Prop where
  code : endState before = .code
  apart : before.getLast?.any belongsToName = false
  undefined : isDefinitionName before = false

structure AdmitsAfter (after : Text) : Prop where
  ends : Text.continuesName after = false
  unlabelled : (after.dropWhile Text.isBlank).head? ≠ some ':'

structure At (document field before after : Text) : Prop where
  text_eq : document = before ++ (field ++ after)
  opens : AdmitsBefore before
  closes : AdmitsAfter after

theorem AdmitsBefore.eq_nil {front part : Text}
    (opens : AdmitsBefore (front ++ part))
    (all : ∀ char ∈ part, Text.isNameContinue char) : part = [] := by
  by_contra nonempty
  rcases (List.eq_nil_or_concat part).resolve_left nonempty with
    ⟨start, last, rfl⟩
  have continues := all last (by simp)
  have apart := opens.apart
  rw [List.concat_eq_append, ← List.append_assoc, List.getLast?_concat,
    Option.any_some] at apart
  simp [belongsToName, continues] at apart

theorem AdmitsBefore.not_continues {before : Text}
    (opens : AdmitsBefore before) :
    before.getLast?.any Text.isNameContinue = false := by
  have apart := opens.apart
  cases last : before.getLast? with
  | none => rfl
  | some char =>
      rw [last, Option.any_some] at apart
      simp only [belongsToName, Bool.or_eq_false_iff] at apart
      exact apart.1.1.1

theorem eq_of_within_word {word field front before inside rest : Text}
    (all : ∀ char ∈ word, Text.isNameContinue char)
    (word_eq : word = before ++ (field ++ inside))
    (opens : AdmitsBefore (front ++ before))
    (closes : AdmitsAfter (inside ++ rest)) :
    before = [] ∧ inside = [] := by
  refine ⟨opens.eq_nil fun char member => all char (by simp [word_eq, member]),
    ?_⟩
  cases inside with
  | nil => rfl
  | cons first inside =>
      have continues := all first (by simp [word_eq])
      have ends := closes.ends
      simp [Text.continuesName, continues] at ends

/-- The field that stands leftmost in a document. -/
structure First (document field before after : Text) : Prop
    extends At document field before after where
  least : ∀ other rest, At document field other rest →
    before.length ≤ other.length

theorem First.unique {document field before after other rest : Text}
    (first : First document field before after)
    (otherFirst : First document field other rest) :
    before = other ∧ after = rest := by
  have same : before.length = other.length :=
    Nat.le_antisymm (first.least _ _ otherFirst.toAt)
      (otherFirst.least _ _ first.toAt)
  rcases List.append_inj (first.text_eq.symm.trans otherFirst.text_eq) same with
    ⟨before_eq, rest_eq⟩
  rw [List.append_cancel_left_eq] at rest_eq
  exact ⟨before_eq, rest_eq⟩

theorem First.bytes_le {document field before after other rest : Text}
    (first : First document field before after)
    (isAt : At document field other rest) : before.bytes ≤ other.bytes := by
  have start : before <+: other :=
    List.prefix_of_prefix_length_le ⟨field ++ after, first.text_eq.symm⟩
      ⟨field ++ rest, isAt.text_eq.symm⟩ (first.least _ _ isAt)
  rcases start with ⟨between, rfl⟩
  rw [Text.bytes_append]
  exact Nat.le_add_right _ _

/-- The text after the parenthesis that closes the first one opened. -/
def afterClosing : Nat → Position → Text → Option Text
  | _, _, [] => none
  | depth, position, char :: rest =>
      let later := position.after char
      if position.state = .code ∧ char = '(' then
        afterClosing (depth + 1) later rest
      else if position.state = .code ∧ char = ')' then
        if depth = 1 then some rest else afterClosing (depth - 1) later rest
      else
        afterClosing depth later rest

def afterArguments (after : Text) : Text :=
  let onward := after.dropWhile Text.isBlank
  if onward.head? = some '(' then
    (afterClosing 0 .start onward).getD after
  else
    after

/-! Arguments go on up to the parenthesis that closes the first one. -/

section Closing

theorem afterClosing_alike (depth : Nat) {position other : Position}
    (alike : position.Alike other) (text : Text) :
    afterClosing depth position text = afterClosing depth other text := by
  induction text generalizing depth position other with
  | nil => rfl
  | cons char rest induction =>
      simp only [afterClosing, alike.1]
      rw [induction _ (alike.after char), induction _ (alike.after char),
        induction _ (alike.after char)]

theorem afterClosing_opening {position : Position}
    (code : position.state = .code) (rest : Text) :
    afterClosing 0 .start ('(' :: rest) =
      afterClosing 1 (position.after '(') rest := by
  have alike : position.Alike .start := .of_code code rfl
  exact (afterClosing_alike 1 (alike.after '(') rest).symm

theorem closingOffset_rowsFrom {depth : Nat} (inside : 0 < depth)
    (position : Position) (text : Text) :
    (afterClosing depth position text = none ∧
        closingOffset depth (Scanner.rowsFrom position text) = .ok none) ∨
      ∃ passed rest, afterClosing depth position text = some rest ∧
        text = passed ++ rest ∧
        closingOffset depth (Scanner.rowsFrom position text) =
          .ok (some (position.offset + passed.bytes)) := by
  induction text generalizing depth position with
  | nil => exact .inl ⟨rfl, rfl⟩
  | cons char rest induction =>
      have onward : ∀ next, 0 < next →
          (afterClosing next (position.after char) rest = none ∧
            closingOffset next
              (Scanner.rowsFrom (position.after char) rest) = .ok none) ∨
          ∃ passed after, afterClosing next (position.after char) rest =
              some after ∧ char :: rest = passed ++ after ∧
            closingOffset next
              (Scanner.rowsFrom (position.after char) rest) =
              .ok (some (position.offset + Text.bytes passed)) := by
        intro next positive
        rcases induction positive (position.after char) with
          absent | ⟨passed, after, found, rest_eq, run⟩
        · exact .inl absent
        · refine .inr ⟨char :: passed, after, found, by rw [rest_eq]; rfl, ?_⟩
          rw [run, Text.bytes_cons, ← Nat.add_assoc]
          rfl
      simp only [afterClosing, Scanner.rowsFrom, closingOffset]
      by_cases opens : position.state = .code ∧ char = '('
      · rw [if_pos opens, if_pos opens]
        exact onward _ (Nat.succ_pos depth)
      · rw [if_neg opens, if_neg opens]
        by_cases closes : position.state = .code ∧ char = ')'
        · rw [if_pos closes, if_pos closes]
          rcases Nat.exists_eq_succ_of_ne_zero inside.ne' with ⟨outer, rfl⟩
          cases outer with
          | zero =>
              refine .inr ⟨[char], rest, rfl, rfl, ?_⟩
              rw [closes.2]
              rfl
          | succ outer => exact onward _ (Nat.succ_pos outer)
        · rw [if_neg closes, if_neg closes]
          exact onward depth inside

theorem closingParenthesis_append (front rest : Text) :
    (afterClosing 0 .start ('(' :: rest) = none ∧
        closingParenthesis (front ++ '(' :: rest) front.bytes = .ok none) ∨
      ∃ passed after : Text, afterClosing 0 .start ('(' :: rest) = some after ∧
        '(' :: rest = passed ++ after ∧
        closingParenthesis (front ++ '(' :: rest) front.bytes =
          .ok (some (front.bytes + passed.bytes)) := by
  let position : Position := ⟨front.bytes, .code, front.getLast?⟩
  have resumed : Scanner.resumeInCode (front ++ '(' :: rest) front.bytes =
      .ok ⟨position, '(' :: rest⟩ := by
    rw [Scanner.resumeInCode, Text.cut_append]
    rfl
  have run : closingParenthesis (front ++ '(' :: rest) front.bytes =
      closingOffset 1 (Scanner.rowsFrom (position.after '(') rest) := by
    rw [closingParenthesis, resumed]
    rfl
  have found : afterClosing 0 .start ('(' :: rest) =
      afterClosing 1 (position.after '(') rest := afterClosing_opening rfl rest
  rw [run, found]
  rcases closingOffset_rowsFrom Nat.one_pos (position.after '(') rest with
    absent | ⟨passed, after, closed, rest_eq, offset⟩
  · exact .inl absent
  · refine .inr ⟨'(' :: passed, after, closed, by rw [rest_eq]; rfl, ?_⟩
    rw [offset, Text.bytes_cons, ← Nat.add_assoc]
    rfl

end Closing

/-! The test at one place, against the definition of a field. -/

section Matching

variable {document field before after : Text}

theorem takeWhile_bytes (after : Text) :
    Text.onward after (Text.blankLength after) =
      .ok (after.dropWhile Text.isBlank) := by
  have found := Text.onward_append (after.takeWhile Text.isBlank)
    (after.dropWhile Text.isBlank)
  rwa [List.takeWhile_append_dropWhile] at found

theorem atMatch?_of_at (isAt : At document field before after) :
    ∃ dropped, after = dropped ++ afterArguments after ∧
      atMatch? document field ⟨before.bytes, after⟩ = .ok (some
        ⟨before.bytes, (before ++ (field ++ dropped)).bytes⟩) := by
  rcases isAt with ⟨text_eq, opens, closes⟩
  have found : document.before before.bytes = .ok before := by
    rw [text_eq, Text.before_append]
  have undefined : namesDefinition document before = false := by
    rw [text_eq, namesDefinition_append, opens.undefined]
  simp only [atMatch?, found, ok_bind, opens.apart, undefined, closes.ends,
    Bool.or_self, Bool.false_eq_true, if_false, takeWhile_bytes,
    if_neg closes.unlabelled]
  have blanks := List.takeWhile_append_dropWhile (p := Text.isBlank) (l := after)
  by_cases parenthesis : (after.dropWhile Text.isBlank).head? = some '('
  · rcases List.head?_eq_some_iff.mp parenthesis with ⟨rest, onward⟩
    have shape : document =
        (before ++ (field ++ after.takeWhile Text.isBlank)) ++ '(' :: rest := by
      rw [text_eq, ← onward]
      simp [blanks]
    have offset : before.bytes + field.bytes + after.blankLength =
        Text.bytes (before ++ (field ++ after.takeWhile Text.isBlank)) := by
      simp [Text.blankLength, Nat.add_assoc]
    have arguments : afterArguments after =
        (afterClosing 0 .start ('(' :: rest)).getD after := by
      rw [afterArguments, onward]
      rfl
    rw [if_pos parenthesis, offset, shape, arguments]
    rcases closingParenthesis_append
        (before ++ (field ++ after.takeWhile Text.isBlank)) rest with
      ⟨absent, run⟩ | ⟨passed, later, closed, rest_eq, run⟩
    · refine ⟨[], by simp [absent], ?_⟩
      rw [run]
      simp only [ok_bind, Option.getD_none]
      simp
      rfl
    · refine ⟨after.takeWhile Text.isBlank ++ passed, ?_, ?_⟩
      · rw [closed, Option.getD_some, List.append_assoc, ← rest_eq, ← onward,
          blanks]
      · rw [run]
        simp only [ok_bind, Option.getD_some]
        simp [Nat.add_assoc]
        rfl
  · refine ⟨[], by simp [afterArguments, if_neg parenthesis], ?_⟩
    rw [if_neg parenthesis]
    simp
    rfl

theorem atMatch?_of_not_at (text_eq : document = before ++ (field ++ after))
    (code : endState before = .code)
    (elsewhere : ¬ At document field before after) :
    atMatch? document field ⟨before.bytes, after⟩ = .ok none := by
  have found : document.before before.bytes = .ok before := by
    rw [text_eq, Text.before_append]
  have undefined : namesDefinition document before = isDefinitionName before := by
    rw [text_eq, namesDefinition_append]
  simp only [atMatch?, found, ok_bind, undefined, takeWhile_bytes]
  split
  · rfl
  · next admitted =>
    simp only [Bool.or_eq_true, not_or, Bool.not_eq_true] at admitted
    rcases admitted with ⟨⟨apart, unnamed⟩, ends⟩
    have labelled : (after.dropWhile Text.isBlank).head? = some ':' := by
      by_contra unlabelled
      exact elsewhere ⟨text_eq, ⟨code, apart, unnamed⟩, ⟨ends, unlabelled⟩⟩
    rw [if_pos labelled]
    rfl

end Matching

/-! The search from one character to the next. -/

section Searching

variable {document field : Text}

/-- What a search for a field gives from the character `start` on. -/
inductive Search (document field : Text) (start : Nat) :
    Except Fault (Option FieldOccurrence) → Prop
  | absent :
      (∀ before after, At document field before after →
        before.length < start) →
      Search document field start (.ok none)
  | found {before after dropped : Text} :
      At document field before after → start ≤ before.length →
      (∀ other rest, At document field other rest → start ≤ other.length →
        before.length ≤ other.length) →
      after = dropped ++ afterArguments after →
      Search document field start (.ok (some
        ⟨before.bytes, (before ++ (field ++ dropped)).bytes⟩))

theorem Search.passed {start : Nat}
    {result : Except Fault (Option FieldOccurrence)}
    (search : Search document field (start + 1) result)
    (elsewhere : ∀ before after, At document field before after →
      before.length ≠ start) :
    Search document field start result := by
  cases search with
  | absent none =>
      refine .absent fun before after isAt => ?_
      have bound := none before after isAt
      have different := elsewhere before after isAt
      omega
  | found isAt reached least dropped =>
      refine .found isAt (by omega) ?_ dropped
      intro other rest otherAt otherReached
      have different := elsewhere other rest otherAt
      exact least other rest otherAt (by omega)

theorem At.apart (word : field.IsWord) {before after other rest : Text}
    (text_eq : document = before ++ (field ++ after))
    (otherAt : At document field other rest)
    (later : before.length < other.length) :
    before.length + field.length ≤ other.length := by
  by_contra within
  rw [Nat.not_le] at within
  have texts := text_eq.symm.trans otherAt.text_eq
  rcases List.append_eq_append_iff.mp texts with
    ⟨inside, other_eq, rest_eq⟩ | ⟨inside, before_eq, _⟩
  · have length_eq := congrArg List.length other_eq
    rw [List.length_append] at length_eq
    have start : inside <+: field :=
      List.prefix_of_prefix_length_le ⟨field ++ rest, rest_eq.symm⟩
        (List.prefix_append field after) (by omega)
    have opens := otherAt.opens
    rw [other_eq] at opens
    have none := opens.eq_nil fun char member =>
      word.2 char (start.subset member)
    rw [none, List.length_nil] at length_eq
    omega
  · have length_eq := congrArg List.length before_eq
    rw [List.length_append] at length_eq
    omega

theorem Search.at_letters {passed after : Text} {places : List CodeMatch}
    (text_eq : document = passed ++ (field ++ after))
    (later : Search document field (passed.length + 1)
      (places.findSomeM? (atMatch? document field))) :
    Search document field passed.length
      ((if (Position.start.past passed).state = .code then
          ⟨passed.bytes, after⟩ :: places
        else places).findSomeM? (atMatch? document field)) := by
  by_cases isAt : At document field passed after
  · have code : (Position.start.past passed).state = .code :=
      (endState_eq passed).symm.trans isAt.opens.code
    rcases atMatch?_of_at isAt with ⟨removed, after_split, run⟩
    rw [if_pos code, List.findSomeM?_cons, run]
    exact .found isAt (Nat.le_refl _) (fun _ _ _ reached => reached) after_split
  · have elsewhere : ∀ before rest, At document field before rest →
        before.length ≠ passed.length := by
      intro before rest otherAt same
      rcases List.append_inj (otherAt.text_eq.symm.trans text_eq) same with
        ⟨rfl, rest_eq⟩
      rw [List.append_cancel_left_eq] at rest_eq
      exact isAt (rest_eq ▸ otherAt)
    refine Search.passed ?_ elsewhere
    split
    · next code =>
      have run := atMatch?_of_not_at text_eq
        ((endState_eq passed).trans code) isAt
      rw [List.findSomeM?_cons, run]
      exact later
    · exact later

theorem findSomeM?_placesFrom (word : field.IsWord) (passed text : Text)
    (skip : Nat) (document_eq : document = passed ++ text)
    (hidden : ∀ before after, At document field before after →
      passed.length ≤ before.length → passed.length + skip ≤ before.length) :
    Search document field passed.length
      ((placesFrom field (Position.start.past passed) skip text).findSomeM?
        (atMatch? document field)) := by
  -- `hidden` carries the induction over the characters of an occurrence that was
  -- rejected: no field begins among those still to be skipped.
  induction text generalizing passed skip with
  | nil =>
      refine .absent fun before after isAt => ?_
      have length_eq := congrArg List.length
        (document_eq.symm.trans isAt.text_eq)
      have positive := List.length_pos_iff.mpr word.1
      simp only [List.length_append, List.length_nil] at length_eq
      omega
  | cons char rest induction =>
      have moved : document = (passed ++ [char]) ++ rest := by
        simp [document_eq]
      have length_eq : (passed ++ [char]).length = passed.length + 1 :=
        List.length_append
      have onward := fun skip => induction (passed ++ [char]) skip moved
      simp only [length_eq, Position.past_append, Position.past_cons,
        Position.past_nil] at onward
      cases skip with
      | succ skip =>
          refine Search.passed (onward skip fun before after isAt reached => ?_)
            fun before after isAt same => ?_
          · have bound := hidden before after isAt (by omega)
            omega
          · have bound := hidden before after isAt (by omega)
            omega
      | zero =>
          by_cases found : field.isPrefixOf (char :: rest)
          · rcases List.isPrefixOf_iff_prefix.mp found with ⟨after, after_eq⟩
            have text_eq : document = passed ++ (field ++ after) := by
              rw [document_eq, after_eq]
            have dropped : (char :: rest).drop field.length = after := by
              rw [← after_eq, List.drop_left]
            have later := onward (field.length - 1)
              fun before _ isAt reached => by
                have bound := isAt.apart word text_eq (by omega)
                omega
            have offset_eq := Position.offset_past_start passed
            simp only [placesFrom, found, if_true, dropped, offset_eq]
            exact Search.at_letters text_eq later
          · have elsewhere : ∀ before after, At document field before after →
                before.length ≠ passed.length := by
              intro before after isAt same
              rcases List.append_inj (isAt.text_eq.symm.trans document_eq)
                  same with
                ⟨_, begins⟩
              exact found (List.isPrefixOf_iff_prefix.mpr ⟨after, begins⟩)
            simp only [placesFrom, found]
            exact Search.passed (onward 0 fun _ _ _ reached => reached) elsewhere

theorem first?_search (word : field.IsWord) (document : Text) :
    Search document field 0 (first? document field) := by
  have empty : field.isEmpty = false := List.isEmpty_eq_false_iff.mpr word.1
  have searched := findSomeM?_placesFrom word [] document 0 rfl
    fun _ _ _ reached => reached
  simp only [first?, empty, Bool.false_eq_true, if_false, codeMatches_eq word.1,
    ok_bind]
  exact searched

theorem first?_first (word : field.IsWord) (document : Text) :
    ((∀ before after, ¬ At document field before after) ∧
        first? document field = .ok none) ∨
      ∃ before dropped after, First document field before after ∧
        after = dropped ++ afterArguments after ∧
        document = before ++ ((field ++ dropped) ++ afterArguments after) ∧
        first? document field = .ok (some
          ⟨before.bytes, Text.bytes (before ++ (field ++ dropped))⟩) := by
  have searched := first?_search word document
  generalize first? document field = outcome at searched
  cases searched with
  | absent none =>
      exact .inl ⟨fun before after isAt =>
        Nat.not_lt_zero _ (none before after isAt), rfl⟩
  | @found before after dropped isAt _ least after_eq =>
      refine .inr ⟨before, dropped, after, ⟨isAt, fun other rest otherAt =>
        least other rest otherAt (Nat.zero_le _)⟩, after_eq, ?_, rfl⟩
      rw [isAt.text_eq, List.append_assoc, ← after_eq]

theorem first?_of_first (word : field.IsWord) {document before after : Text}
    (first : First document field before after) :
    ∃ dropped, after = dropped ++ afterArguments after ∧
      first? document field = .ok (some
        ⟨before.bytes, Text.bytes (before ++ (field ++ dropped))⟩) := by
  rcases first?_first word document with
    ⟨none, _⟩ | ⟨other, dropped, rest, otherFirst, rest_eq, _, found⟩
  · exact absurd first.toAt (none _ _)
  · rcases first.unique otherFirst with ⟨rfl, rfl⟩
    exact ⟨dropped, rest_eq, found⟩

theorem first?_eq_none_iff (word : field.IsWord) (document : Text) :
    first? document field = .ok none ↔
      ∀ before after, ¬ At document field before after := by
  rcases first?_first word document with
    ⟨none, found⟩ | ⟨before, dropped, after, first, _, _, found⟩
  · exact iff_of_true found none
  · refine iff_of_false (fun equal => ?_) fun none => none _ _ first.toAt
    rw [found] at equal
    cases Except.ok.inj equal

end Searching

/-! The replacement of the leftmost field. -/

section Replacing

variable {token document field : Text}

/-- A document before and after a token takes the place of its leftmost field
and the arguments of that. -/
inductive Replaced (token document field : Text) : Text → Prop
  | absent : (∀ before after, ¬ At document field before after) →
      Replaced token document field document
  | found {before after : Text} : First document field before after →
      Replaced token document field (before ++ (token ++ afterArguments after))

theorem Replaced.unique {next other : Text}
    (replaced : Replaced token document field next)
    (otherReplaced : Replaced token document field other) : next = other := by
  cases replaced with
  | absent none =>
      cases otherReplaced with
      | absent => rfl
      | found first => exact absurd first.toAt (none _ _)
  | @found before after first =>
      cases otherReplaced with
      | absent none => exact absurd first.toAt (none _ _)
      | @found other rest otherFirst =>
          rcases first.unique otherFirst with ⟨rfl, rfl⟩
          rfl

theorem applyTo_found {before removed after : Text}
    (text_eq : document = before ++ (removed ++ after))
    (found : first? document field =
      .ok (some ⟨before.bytes, Text.bytes (before ++ removed)⟩))
    (aliases : AliasRegistry) (directives : DirectiveRegistry) :
    FieldAttachment.applyTo aliases directives document field =
      .ok (before ++ (FieldAttachment.replacement field (aliases.get? field)
        (directives.get? field) ++ after)) := by
  have front : document.before before.bytes = .ok before := by
    rw [text_eq, Text.before_append]
  have back : document.onward (Text.bytes (before ++ removed)) = .ok after := by
    rw [text_eq, ← List.append_assoc, Text.onward_append]
  rw [FieldAttachment.applyTo, found]
  simp only [ok_bind, front, back, List.append_assoc]
  rfl

theorem applyTo_replaced (word : field.IsWord) (aliases : AliasRegistry)
    (directives : DirectiveRegistry) (document : Text) :
    ∃ next, FieldAttachment.applyTo aliases directives document field =
        .ok next ∧
      Replaced (FieldAttachment.replacement field (aliases.get? field)
        (directives.get? field)) document field next := by
  rcases first?_first word document with
    ⟨none, found⟩ | ⟨before, dropped, after, first, _, text_eq, found⟩
  · refine ⟨document, ?_, .absent none⟩
    rw [FieldAttachment.applyTo, found]
    rfl
  · exact ⟨_, applyTo_found text_eq found aliases directives, .found first⟩

end Replacing

end FieldOccurrence

end QueryAssembly
