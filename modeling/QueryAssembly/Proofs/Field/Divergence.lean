import QueryAssembly.Proofs.Field.Front

namespace QueryAssembly

/-! A field that occurs in a definitions list leaves a mark there: its alias and
a colon, or its name and a directive. Later fields may be found before the mark
or after it, but not in it, so the list never becomes what it was. -/

namespace FieldOccurrence

/-- What a replaced field begins with: a word, and what marks it. -/
structure Marker where
  word : Text
  sign : Text

def markerOf (aliases : AliasRegistry) (field : Text) : Marker :=
  match aliases.get? field with
  | some given => ⟨given.aliasName, [':']⟩
  | none => ⟨field, [' ', '@']⟩

/-- A field that is given an alias that is a name, or some directive. -/
def Marked (aliases : AliasRegistry) (directives : DirectiveRegistry)
    (field : Text) : Prop :=
  match aliases.get? field with
  | some given => given.aliasName.IsName
  | none => ∃ held, directives.get? field = some held ∧ held.directives ≠ []

section Marker

variable {aliases : AliasRegistry} {directives : DirectiveRegistry}
  {field : Text}

theorem replacement_eq (marked : Marked aliases directives field) :
    ∃ more, FieldAttachment.replacement field (aliases.get? field)
        (directives.get? field) =
      (markerOf aliases field).word ++
        ((markerOf aliases field).sign ++ more) := by
  cases given_eq : aliases.get? field with
  | some given =>
      obtain ⟨annotations, replacement⟩ : ∃ annotations,
          FieldAttachment.replacement field (some given)
            (directives.get? field) =
          (given.aliasName ++ ':' :: ' ' :: field ++
            Arguments.render given.arguments) ++ annotations :=
        ⟨_, rfl⟩
      refine ⟨' ' :: field ++ Arguments.render given.arguments ++ annotations,
        ?_⟩
      rw [replacement]
      simp [markerOf, given_eq]
  | none =>
      simp only [Marked, given_eq] at marked
      rcases marked with ⟨held, held_eq, nonempty⟩
      rcases List.exists_cons_of_ne_nil nonempty with
        ⟨first, others, directives_eq⟩
      refine ⟨first.name ++ Arguments.render first.arguments ++
        others.flatMap fun directive => ' ' :: directive.render, ?_⟩
      simp [markerOf, given_eq, held_eq, FieldAttachment.replacement,
        directives_eq, Directive.render]

theorem markerOf_word (marked : Marked aliases directives field)
    (isWord : field.IsWord) : (markerOf aliases field).word.IsWord := by
  cases given_eq : aliases.get? field with
  | some given =>
      simp only [Marked, given_eq] at marked
      simpa [markerOf, given_eq] using marked.isWord
  | none => simpa [markerOf, given_eq] using isWord

theorem markerOf_sign (aliases : AliasRegistry) (field : Text) :
    ∀ char ∈ (markerOf aliases field).sign,
      Text.isNameContinue char = false := by
  cases given_eq : aliases.get? field with
  | some given => simp [markerOf, given_eq]; decide
  | none => simp [markerOf, given_eq]; decide

theorem sign_stops (aliases : AliasRegistry) (field rest : Text) :
    Text.continuesName ((markerOf aliases field).sign ++ rest) = false := by
  cases given_eq : aliases.get? field with
  | some given => simp [markerOf, given_eq]; rfl
  | none => simp [markerOf, given_eq]; rfl

theorem sign_last (aliases : AliasRegistry) (field : Text) :
    (markerOf aliases field).sign.getLast?.any Text.isNameContinue =
      false := by
  cases given_eq : aliases.get? field with
  | some given => simp [markerOf, given_eq]; decide
  | none => simp [markerOf, given_eq]; decide

theorem markerOf_admits {rest : Text}
    (closes : AdmitsAfter ((markerOf aliases field).sign ++ rest)) :
    (markerOf aliases field).word = field := by
  cases given_eq : aliases.get? field with
  | some given =>
      simp only [markerOf, given_eq] at closes
      exact absurd rfl closes.unlabelled
  | none => simp [markerOf, given_eq]

end Marker

/-! What is replaced in a definitions list leaves a mark there, which no later
replacement takes away. -/

section Divergence

variable {aliases : AliasRegistry} {directives : DirectiveRegistry}
  {front list : Text}

/-- A document in which a field of the list has been replaced, where the given
fields are still to come. -/
def Diverged (aliases : AliasRegistry) (front list : Text)
    (later : List Text) (document : Text) : Prop :=
  ∃ before field after rest, At list field before after ∧ field.IsWord ∧
    field ∉ later ∧ (markerOf aliases field).word.IsWord ∧
    document = front ++ (before ++ ((markerOf aliases field).word ++
      ((markerOf aliases field).sign ++ rest)))

theorem admitsAfter_swap {between rest field after : Text}
    (nonempty : between ≠ []) (word : field.IsWord)
    (closes : AdmitsAfter (between ++ rest)) :
    AdmitsAfter (between ++ (field ++ after)) := by
  by_cases solid : ∃ char ∈ between, Text.isBlank char = false
  · exact (admitsAfter_append solid _).mpr
      ((admitsAfter_append solid rest).mp closes)
  · have blank : ∀ char ∈ between, Text.isBlank char := by
      intro char member
      by_contra notBlank
      exact solid ⟨char, member, by simpa using notBlank⟩
    rcases List.exists_cons_of_ne_nil word.1 with ⟨first, others, rfl⟩
    have continues := word.2 first List.mem_cons_self
    have apart := Text.not_isBlank_of_isNameContinue continues
    constructor
    · rcases List.exists_cons_of_ne_nil nonempty with ⟨char, between, rfl⟩
      exact closes.ends
    · rw [List.dropWhile_append_of_pos blank, List.cons_append,
        List.dropWhile_cons_of_neg (by simp [apart])]
      rintro ⟨⟩
      exact absurd continues (by decide)

theorem diverged_of_at {field before after : Text} {later : List Text}
    (marked : Marked aliases directives field) (word : field.IsWord)
    (absent : field ∉ later) (isAt : At list field before after)
    (rest : Text) :
    Diverged aliases front list later
      ((front ++ before) ++ (FieldAttachment.replacement field
        (aliases.get? field) (directives.get? field) ++ rest)) := by
  rcases replacement_eq marked with ⟨more, replacement⟩
  refine ⟨before, field, after, more ++ rest, isAt, word, absent,
    markerOf_word marked word, ?_⟩
  rw [replacement]
  simp

theorem at_list_of_before_mark {field mark inside between after rest : Text}
    {marker : Text} (enclosed : Enclosed list) (neutral : Neutral front)
    (word : field.IsWord) (isWord : mark.IsWord) (markWord : marker.IsWord)
    (list_eq : list = inside ++ (field ++ (between ++ (mark ++ after))))
    (opens : AdmitsBefore (front ++ inside))
    (closes : AdmitsAfter (between ++ (marker ++ rest))) :
    At list field inside (between ++ (mark ++ after)) := by
  have anchored : Anchored inside := by
    rcases enclosed.around word list_eq with ⟨⟨inner, inside_eq⟩, _⟩
    exact ⟨'(', by simp [inside_eq], by decide, by decide⟩
  have nonempty : between ≠ [] := by
    rintro rfl
    have ends := closes.ends
    rcases List.exists_cons_of_ne_nil markWord.1 with ⟨first, others, rfl⟩
    have continues := markWord.2 first List.mem_cons_self
    simp [Text.continuesName, continues] at ends
  exact ⟨list_eq, (admitsBefore_append neutral anchored).mp opens,
    admitsAfter_swap nonempty isWord closes⟩

theorem behind_mark {field mark lead between onward rest : Text}
    (word : field.IsWord) (different : field ≠ mark)
    (markWord : (markerOf aliases mark).word.IsWord)
    (opens : AdmitsBefore (lead ++ between)) (closes : AdmitsAfter onward)
    (mark_eq : (markerOf aliases mark).word ++
        ((markerOf aliases mark).sign ++ rest) =
      between ++ (field ++ onward)) :
    ∃ far, between = (markerOf aliases mark).word ++
      ((markerOf aliases mark).sign ++ far) := by
  rcases word.split (.inr (sign_stops aliases mark rest)) mark_eq with
    ⟨within, word_eq, onward_eq⟩ | ⟨beyond, between_eq, sign_eq⟩
  · rw [onward_eq] at closes
    rcases eq_of_within_word markWord.2 word_eq opens closes with ⟨rfl, rfl⟩
    rw [List.nil_append, List.append_nil] at word_eq
    exact absurd (word_eq.symm.trans (markerOf_admits closes)) different
  · rcases word.split (.inl (sign_last aliases mark)) sign_eq with
      ⟨within, sign_split, _⟩ | ⟨far, beyond_eq, _⟩
    · rcases List.exists_cons_of_ne_nil word.1 with ⟨letter, others, rfl⟩
      have continues := word.2 letter List.mem_cons_self
      rw [markerOf_sign aliases mark letter (by simp [sign_split])] at continues
      cases continues
    · exact ⟨far, by rw [between_eq, beyond_eq]⟩

theorem Diverged.step {field document : Text} {later : List Text}
    (enclosed : Enclosed list) (neutral : Neutral front)
    (marked : Marked aliases directives field) (word : field.IsWord)
    (absent : field ∉ later) (untouched : Untouched front field)
    (diverged : Diverged aliases front list (field :: later) document) :
    ∃ next, FieldAttachment.applyTo aliases directives document field =
        .ok next ∧ Diverged aliases front list later next := by
  rcases diverged with
    ⟨before, mark, after, rest, isAt, isWord, different, markWord, rfl⟩
  rw [List.mem_cons, not_or] at different
  rcases applyTo_replaced word aliases directives _ with ⟨next, run, replaced⟩
  refine ⟨next, run, ?_⟩
  cases replaced with
  | absent =>
      exact ⟨before, mark, after, rest, isAt, isWord, different.2, markWord, rfl⟩
  | @found start onward first =>
      have isField := first.toAt
      rcases enclosed.around isWord isAt.text_eq with ⟨⟨inner, before_eq⟩, _⟩
      have stops : Text.continuesName (before ++
          ((markerOf aliases mark).word ++
            ((markerOf aliases mark).sign ++ rest))) = false := by
        rw [before_eq]
        rfl
      rcases isField.of_front (untouched _ stops _ _ isField) with ⟨inside, rfl⟩
      have inside_eq := isField.text_eq
      rw [List.append_assoc, List.append_cancel_left_eq] at inside_eq
      -- A field found before the mark leaves its own mark; one found behind it
      -- leaves the mark where it is.
      rcases word.split (.inl isAt.opens.not_continues) inside_eq with
        ⟨between, before_split, onward_eq⟩ | ⟨between, inside_split, mark_eq⟩
      · have list_eq : list =
            inside ++ (field ++ (between ++ (mark ++ after))) := by
          rw [isAt.text_eq, before_split]
          simp
        have closes := isField.closes
        rw [onward_eq] at closes
        exact diverged_of_at marked word absent
          (at_list_of_before_mark enclosed neutral word isWord markWord list_eq
            isField.opens closes) _
      · have opens := isField.opens
        rw [inside_split, ← List.append_assoc] at opens
        rcases behind_mark word (Ne.symm different.1) markWord opens
            isField.closes mark_eq with
          ⟨far, between_eq⟩
        refine ⟨before, mark, after, far ++
          (FieldAttachment.replacement field (aliases.get? field)
            (directives.get? field) ++ afterArguments onward), isAt, isWord,
          different.2, markWord, ?_⟩
        simp [inside_split, between_eq]

structure Markable (aliases : AliasRegistry) (directives : DirectiveRegistry)
    (front field : Text) : Prop where
  word : field.IsWord
  marked : Marked aliases directives field
  untouched : Untouched front field

theorem Diverged.run {fields : List Text} {document : Text}
    (enclosed : Enclosed list) (neutral : Neutral front)
    (markable : ∀ field ∈ fields, Markable aliases directives front field)
    (distinct : fields.Nodup)
    (diverged : Diverged aliases front list fields document) :
    ∃ final, fields.foldlM (FieldAttachment.applyTo aliases directives)
        document = .ok final ∧ Diverged aliases front list [] final := by
  induction fields generalizing document with
  | nil => exact ⟨document, rfl, diverged⟩
  | cons field fields induction =>
      rw [List.forall_mem_cons] at markable
      rw [List.nodup_cons] at distinct
      rcases markable with ⟨⟨word, marked, untouched⟩, later⟩
      rcases diverged.step enclosed neutral marked word distinct.1
          untouched with
        ⟨next, first, nextDiverged⟩
      rcases induction later distinct.2 nextDiverged with
        ⟨final, rest, finalDiverged⟩
      refine ⟨final, ?_, finalDiverged⟩
      rw [List.foldlM_cons, first]
      exact rest

theorem applyTo_list {field : Text} {later : List Text}
    (enclosed : Enclosed list) (neutral : Neutral front)
    (markable : Markable aliases directives front field)
    (absent : field ∉ later) (back : Text) :
    ∃ next, FieldAttachment.applyTo aliases directives
        (front ++ (list ++ back)) field = .ok next ∧
      (Diverged aliases front list later next ∨
        (∀ before after, ¬ At list field before after) ∧
          ∃ rest, next = front ++ (list ++ rest)) := by
  rcases markable with ⟨word, marked, untouched⟩
  rcases applyTo_replaced word aliases directives (front ++ (list ++ back)) with
    ⟨next, run, replaced⟩
  refine ⟨next, run, ?_⟩
  have stops : Text.continuesName (list ++ back) = false := by
    rcases enclosed with ⟨inner, rfl⟩
    rfl
  cases replaced with
  | absent none =>
      refine .inr ⟨fun before after isAt => ?_, back, rfl⟩
      exact none _ _ ((at_list neutral enclosed word).mpr isAt)
  | @found start onward first =>
      have isField := first.toAt
      rcases isField.of_front (untouched _ stops _ _ isField) with ⟨inside, rfl⟩
      rcases isField.split_list enclosed word with
        ⟨between, list_eq, rfl⟩ | ⟨between, rfl, _⟩
      · exact .inl (diverged_of_at marked word absent
          ((at_list neutral enclosed word).mp isField) _)
      · refine .inr ⟨fun before after isAt => ?_, ?_⟩
        · have least := first.least _ _
            ((at_list neutral enclosed word).mpr isAt)
          have length_eq := congrArg List.length isAt.text_eq
          have positive := List.length_pos_iff.mpr word.1
          simp only [List.length_append] at least length_eq
          omega
        · simp only [List.append_assoc]
          exact ⟨_, rfl⟩

theorem diverges {fields : List Text}
    (enclosed : Enclosed list) (neutral : Neutral front)
    (markable : ∀ field ∈ fields, Markable aliases directives front field)
    (distinct : fields.Nodup)
    (occurs : ∃ field ∈ fields, ∃ before after, At list field before after)
    (back : Text) :
    ∃ final, fields.foldlM (FieldAttachment.applyTo aliases directives)
        (front ++ (list ++ back)) = .ok final ∧
      Diverged aliases front list [] final := by
  induction fields generalizing back with
  | nil =>
      rcases occurs with ⟨field, member, _⟩
      cases member
  | cons field fields induction =>
      rw [List.forall_mem_cons] at markable
      rw [List.nodup_cons] at distinct
      rcases applyTo_list enclosed neutral markable.1 distinct.1 back with
        ⟨next, first, outcome⟩
      rw [List.foldlM_cons, first]
      rcases outcome with diverged | ⟨none, rest, rfl⟩
      · exact diverged.run enclosed neutral markable.2 distinct.2
      · rcases occurs with ⟨other, member, before, after, isAt⟩
        rcases List.mem_cons.mp member with rfl | later
        · exact absurd isAt (none before after)
        · exact induction markable.2 distinct.2
            ⟨other, later, before, after, isAt⟩ rest

theorem mem_labelsOf_of_at {field before rest : Text}
    (isAt : At list field before (' ' :: '@' :: rest)) (word : field.IsWord) :
    ('@', LexicalState.code) ∈ labelsOf list := by
  have passed : (Position.start.past (before ++ field ++ [' '])).state =
      .code := by
    rw [Position.past_append, Position.past_append]
    refine Position.state_past_of_plain (Position.state_past_of_plain ?_ ?_) ?_
    · exact (endState_eq before).symm.trans isAt.opens.code
    · exact fun char member =>
        Position.isPlain_of_isNameContinue (word.2 char member)
    · intro char member
      rw [List.mem_singleton.mp member]
      rfl
  have list_eq : list = (before ++ field ++ [' ']) ++ '@' :: rest := by
    rw [isAt.text_eq]
    simp
  have labels : labelsOf list = labelsFrom .start list := rfl
  rw [labels, list_eq, labelsFrom_append, labelsFrom_cons, passed]
  simp

theorem Diverged.ne {document : Text} (enclosed : Enclosed list)
    (undirected : ('@', LexicalState.code) ∉ labelsOf list)
    (diverged : Diverged aliases front list [] document) (back : Text) :
    document ≠ front ++ (list ++ back) := by
  rcases diverged with
    ⟨before, field, after, rest, isAt, word, _, markWord, rfl⟩
  intro same
  rw [List.append_cancel_left_eq, isAt.text_eq, List.append_assoc,
    List.append_cancel_left_eq, List.append_assoc] at same
  rcases enclosed.around word isAt.text_eq with ⟨_, inner, after_eq⟩
  have ends : Text.continuesName (after ++ back) = false := by
    have closes := isAt.closes.ends
    rw [after_eq] at closes ⊢
    cases inner with
    | nil => rfl
    | cons char inner => exact closes
  have run := Text.takeWhile_append_of_not_continues word.2 ends
  rw [← same, Text.takeWhile_append_of_not_continues markWord.2
    (sign_stops aliases field rest)] at run
  rw [run, List.append_cancel_left_eq, after_eq] at same
  cases given_eq : aliases.get? field with
  | some given =>
      simp only [markerOf, given_eq, List.cons_append] at same
      cases inner with
      | nil => cases (List.cons.inj same).1
      | cons char inner =>
          have unlabelled := isAt.closes.unlabelled
          rw [after_eq, ← (List.cons.inj same).1] at unlabelled
          exact unlabelled rfl
  | none =>
      simp only [markerOf, given_eq, List.cons_append] at same
      match inner with
      | [] => cases (List.cons.inj same).1
      | [char] => cases (List.cons.inj (List.cons.inj same).2).1
      | char :: other :: inner =>
          rcases List.cons.inj same with ⟨rfl, onward⟩
          rcases List.cons.inj onward with ⟨rfl, _⟩
          rw [after_eq] at isAt
          exact undirected (mem_labelsOf_of_at isAt word)

end Divergence

end FieldOccurrence

end QueryAssembly
