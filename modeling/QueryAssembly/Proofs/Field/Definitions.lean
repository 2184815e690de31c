import QueryAssembly.Proofs.Field.HeaderName

namespace QueryAssembly

/-! In an executable document the search for a field comes to the first
definition that has the field, in its selections or as a name of its header that
is not told from a field. The header decides: what it exposes is found before
anything in the selection set. -/

open FieldOccurrence (At First Contains Within openBraces braceDepthInCode)

theorem SelectionSet.last_apart (selections : SelectionSet) :
    selections.text.getLast?.any Text.isNameContinue = false := by
  rw [SelectionSet.text, ← List.cons_append, List.getLast?_concat]
  decide

namespace Definition

def Mentions (definition : Definition) (field : Text) : Prop :=
  definition.header.Exposes field ∨ Contains definition.selections.text field

section Places

variable {front back field : Text}

theorem neutral_opening (definition : Definition) : Neutral definition.opening :=
  definition.lead.isGap.neutral.append
    (Segment.neutral_textOf definition.header.segments)

theorem sealed_append (isSealed : Sealed front) (definition : Definition) :
    Sealed (front ++ definition.text) where
  toNeutral := isSealed.toNeutral.append
    (definition.neutral_opening.append definition.selections.neutral)
  last := by
    intro char member
    have shape : front ++ definition.text = (front ++ (definition.opening ++
        '\x7b' :: definition.selections.inner)) ++ ['\x7d'] := by
      simp [text, SelectionSet.text]
    rw [shape, List.getLast?_concat] at member
    exact (Option.some.inj member).symm

theorem sealed_textOf (isSealed : Sealed front) (definitions : List Definition) :
    Sealed (front ++ textOf definitions) := by
  induction definitions generalizing front with
  | nil => simpa [textOf] using isSealed
  | cons definition rest induction =>
      have shape : front ++ textOf (definition :: rest) =
          (front ++ definition.text) ++ textOf rest := by
        simp [textOf]
      rw [shape]
      exact induction (sealed_append isSealed definition)

theorem within_opening (isSealed : Sealed front) (word : field.IsWord)
    (definition : Definition) :
    Within (front ++ (definition.text ++ back)) field front.length
        (front.length + definition.opening.length) ↔
      definition.header.Exposes field := by
  have leadLast := definition.lead.isGap
  have shape : front ++ (definition.text ++ back) =
      (front ++ definition.lead.text) ++ (definition.header.text ++
        '\x7b' :: (definition.selections.inner ++ '\x7d' :: back)) := by
    simp [text, opening, SelectionSet.text]
  have leading : front ++ (definition.text ++ back) =
      front ++ (definition.lead.text ++ (definition.header.text ++
        (definition.selections.text ++ back))) := by
    simp [text, opening]
  have length_eq : definition.opening.length =
      definition.lead.text.length + definition.header.text.length :=
    List.length_append
  rw [FieldOccurrence.within_split
    (front.length + definition.lead.text.length) (by omega) (by omega),
    or_iff_right, ← Header.expose_iff isSealed definition.lead,
    ← Segment.within_iff word (isSealed.toNeutral.append leadLast.neutral)
      (definition.header.spaced _), shape, length_eq]
  · rw [List.length_append, Nat.add_assoc]
    rfl
  · rw [leading]
    exact FieldOccurrence.not_within_gap leadLast isSealed.toNeutral word

theorem within_selections (isSealed : Sealed front) (word : field.IsWord)
    (definition : Definition) :
    Within (front ++ (definition.text ++ back)) field
        (front.length + definition.opening.length)
        (front.length + definition.text.length) ↔
      Contains definition.selections.text field := by
  have neutral := isSealed.toNeutral.append definition.neutral_opening
  have shape : front ++ (definition.text ++ back) =
      (front ++ definition.opening) ++ (definition.selections.text ++ back) := by
    simp [text]
  have length_eq : definition.text.length =
      definition.opening.length + definition.selections.text.length :=
    List.length_append
  rw [shape, length_eq, ← Nat.add_assoc, ← List.length_append]
  refine FieldOccurrence.within_part neutral word ?_
    (.inl definition.selections.last_apart) ?_
  · rintro char ⟨rfl⟩
    decide
  · intro start rest text_eq
    rcases word.enclosed (by decide) (by decide) text_eq with
      ⟨_, later, _, rfl, _⟩
    exact FieldOccurrence.admitsAfter_append ⟨'\x7d', by simp, by decide⟩ back

/-- Where in a definition, and why there, a field is found in a document: the
text before the definition and the text before the field are given. -/
inductive Hosts (definition : Definition) (field front before : Text) : Prop
  | header {inside rest : Text} : definition.header.Exposes field →
      definition.opening = inside ++ (field ++ rest) →
      before = front ++ inside →
      Hosts definition field front before
  | selections {inside rest : Text} : ¬ definition.header.Exposes field →
      definition.selections.inner = inside ++ (field ++ rest) →
      before = front ++ (definition.opening ++ '\x7b' :: inside) →
      Hosts definition field front before

theorem hosts_of_first {before after : Text} (isSealed : Sealed front)
    (word : field.IsWord) (definition : Definition)
    (first : First (front ++ (definition.text ++ back)) field before after)
    (reached : front.length ≤ before.length) :
    (definition.Mentions field ∧ definition.Hosts field front before) ∨
      (¬ definition.Mentions field ∧
        (front ++ definition.text).length ≤ before.length) := by
  have opening_iff : Within (front ++ (definition.text ++ back)) field _ _ ↔ _ :=
    within_opening isSealed word definition
  have selections_iff :
      Within (front ++ (definition.text ++ back)) field _ _ ↔ _ :=
    within_selections isSealed word definition
  have beginsIn : ∀ start stop,
      Within (front ++ (definition.text ++ back)) field start stop →
      before.length < stop := by
    rintro start stop ⟨other, rest, otherAt, _, inside⟩
    exact (first.least other rest otherAt).trans_lt inside
  have onward : ∀ start stop,
      ¬ Within (front ++ (definition.text ++ back)) field start stop →
      start ≤ before.length → stop ≤ before.length := by
    intro start stop none passed
    by_contra inside
    exact none ⟨before, after, first.toAt, passed, Nat.not_le.mp inside⟩
  -- The first field lies in the header if the header exposes it, else in the
  -- selections if they contain it, else behind the definition.
  by_cases exposed : definition.header.Exposes field
  · refine .inl ⟨.inl exposed, ?_⟩
    have inside := beginsIn _ _ (opening_iff.mpr exposed)
    have isAt := first.toAt
    rw [text, List.append_assoc] at isAt
    rcases isAt.between word (.inr rfl) reached inside with
      ⟨start, rest, before_eq, opening_eq, _⟩
    exact .header exposed opening_eq before_eq
  · have passed := onward _ _ (opening_iff.not.mpr exposed) reached
    by_cases contained : Contains definition.selections.text field
    · refine .inl ⟨.inr contained, ?_⟩
      have inside := beginsIn _ _ (selections_iff.mpr contained)
      have isAt := first.toAt
      have closing := definition.selections.last_apart
      rw [text, List.append_assoc, ← List.append_assoc] at isAt
      rw [text, List.length_append, ← Nat.add_assoc, ← List.length_append]
        at inside
      rw [← List.length_append] at passed
      rcases isAt.between word (.inl closing) passed inside with
        ⟨start, rest, before_eq, selections_eq, _⟩
      rcases word.enclosed (by decide) (by decide) selections_eq with
        ⟨within, later, rfl, _, inner_eq⟩
      refine .selections exposed inner_eq ?_
      rw [before_eq, List.append_assoc]
    · refine .inr ⟨not_or_intro exposed contained, ?_⟩
      rw [List.length_append]
      exact onward _ _ (selections_iff.not.mpr contained) passed

theorem Hosts.one_le_openBraces {definition : Definition} {before : Text}
    (isSealed : Sealed front) (hosts : definition.Hosts field front before)
    (hidden : ¬ definition.header.Exposes field) : 1 ≤ openBraces before := by
  cases hosts with
  | header exposed => exact absurd exposed hidden
  | @selections inside rest _ inner_eq before_eq =>
      have neutral := isSealed.toNeutral.append definition.neutral_opening
      rw [before_eq, ← List.append_assoc,
        FieldOccurrence.openBraces_append neutral.closed neutral.balanced]
      apply definition.selections.nested
      rw [List.mem_inits, inner_eq]
      exact List.prefix_append _ _

end Places

end Definition

/-! Of several definitions the first one that mentions the field has its leftmost place. -/

namespace Executable

variable {front field before after : Text}

theorem not_at_trail (document : Executable) (neutral : Neutral front)
    (word : field.IsWord)
    (isAt : At (front ++ (document.trail.text ++ document.remark)) field before
      after) : before.length < front.length := by
  by_contra reached
  rw [Nat.not_lt] at reached
  have gapNeutral := document.trail.isGap.neutral
  by_cases inside : before.length < front.length + document.trail.text.length
  · exact FieldOccurrence.not_within_gap document.trail.isGap neutral word
      ⟨before, after, isAt, reached, inside⟩
  · have code := isAt.opens.code
    rw [← List.append_assoc] at isAt
    rcases isAt.of_front (by simpa using inside) with ⟨between, rfl⟩
    have remark_eq := isAt.text_eq
    rw [List.append_assoc (front ++ document.trail.text),
      List.append_cancel_left_eq] at remark_eq
    rw [endState_append (neutral.append gapNeutral).closed] at code
    rcases List.exists_cons_of_ne_nil word.1 with ⟨letter, letters, rfl⟩
    have continues := word.2 letter List.mem_cons_self
    rcases document.isRemark with empty | ⟨opens, unbroken⟩
    · simp [empty] at remark_eq
    · cases between with
      | nil =>
          rw [remark_eq] at opens
          rw [Option.some.inj opens] at continues
          exact absurd continues (by decide)
      | cons mark between =>
          rw [remark_eq] at opens unbroken
          obtain rfl := Option.some.inj opens
          rw [endState_remark fun char member => unbroken char (by simp [member])]
            at code
          cases code

theorem exists_definition (document : Executable) (word : field.IsWord)
    (isSealed : Sealed front) {definitions : List Definition}
    (first : First (front ++ (Definition.textOf definitions ++
      (document.trail.text ++ document.remark))) field before after)
    (reached : front.length ≤ before.length) :
    ∃ earlier definition later, definitions = earlier ++ definition :: later ∧
      (∀ other ∈ earlier, ¬ other.Mentions field) ∧
      definition.Mentions field ∧
      definition.Hosts field (front ++ Definition.textOf earlier) before := by
  induction definitions generalizing front with
  | nil =>
      have early := document.not_at_trail isSealed.toNeutral word first.toAt
      exact absurd reached (Nat.not_le.mpr early)
  | cons definition rest induction =>
      have shape : Definition.textOf (definition :: rest) ++
          (document.trail.text ++ document.remark) = definition.text ++
            (Definition.textOf rest ++
              (document.trail.text ++ document.remark)) := by
        simp [Definition.textOf]
      rw [shape] at first
      rcases Definition.hosts_of_first isSealed word definition first reached with
        ⟨mentions, hosts⟩ | ⟨silent, passed⟩
      · refine ⟨[], definition, rest, rfl, by simp, mentions, ?_⟩
        rwa [Definition.textOf, List.flatMap_nil, List.append_nil]
      · rw [← List.append_assoc] at first
        rcases induction (Definition.sealed_append isSealed definition) first
            passed with
          ⟨earlier, found, later, rfl, silentAll, mentions, hosts⟩
        refine ⟨definition :: earlier, found, later, rfl,
          List.forall_mem_cons.mpr ⟨silent, silentAll⟩, mentions, ?_⟩
        rwa [Definition.textOf, List.flatMap_cons, ← List.append_assoc]

theorem exists_at_of_mentions (document : Executable) (word : field.IsWord)
    {definition : Definition} (member : definition ∈ document.definitions)
    (mentions : definition.Mentions field) :
    ∃ before after, At document.text field before after := by
  rcases List.append_of_mem member with ⟨earlier, later, definitions_eq⟩
  have isSealed : Sealed ([] ++ Definition.textOf earlier) :=
    Definition.sealed_textOf ⟨.nil, by simp⟩ earlier
  have shape : document.text = ([] ++ Definition.textOf earlier) ++
      (definition.text ++ (Definition.textOf later ++
        (document.trail.text ++ document.remark))) := by
    simp [text, definitions_eq, Definition.textOf]
  rw [shape]
  rcases mentions with exposed | contained
  · rcases (Definition.within_opening isSealed word definition).mpr exposed with
      ⟨before, after, isAt, _⟩
    exact ⟨before, after, isAt⟩
  · rcases (Definition.within_selections isSealed word definition).mpr
        contained with
      ⟨before, after, isAt, _⟩
    exact ⟨before, after, isAt⟩

/-- The search for a field in an executable document returns. It comes to the
first definition that mentions the field, and there to the selection set, with a
brace open, unless the header exposes the field. -/
theorem first?_in_definition (document : Executable) (isName : field.IsName) :
    ∃ found, FieldOccurrence.first? document.text field = .ok found ∧
      (found = none ↔
        ∀ definition ∈ document.definitions, ¬ definition.Mentions field) ∧
      ∀ occurrence ∈ found, ∃ earlier definition later before,
        document.definitions = earlier ++ definition :: later ∧
        (∀ other ∈ earlier, ¬ other.Mentions field) ∧
        definition.Mentions field ∧ occurrence.start = before.bytes ∧
        definition.Hosts field (Definition.textOf earlier) before ∧
        (¬ definition.header.Exposes field →
          ∃ depth, braceDepthInCode document.text occurrence.start =
            some depth ∧ 1 ≤ depth) := by
  have word := isName.isWord
  rcases FieldOccurrence.first?_first word document.text with
    ⟨absent, found⟩ | ⟨before, dropped, after, first, _, _, found⟩
  · refine ⟨none, found, iff_of_true rfl ?_, fun _ member => nomatch member⟩
    intro definition member mentions
    rcases document.exists_at_of_mentions word member mentions with
      ⟨before, after, isAt⟩
    exact absent before after isAt
  · have isSealed : Sealed [] := ⟨.nil, by simp⟩
    rcases document.exists_definition word isSealed first (Nat.zero_le _) with
      ⟨earlier, definition, later, definitions_eq, silent, mentions, hosts⟩
    have present : ¬ ∀ other ∈ document.definitions, ¬ other.Mentions field :=
      fun silentAll => silentAll definition (by simp [definitions_eq]) mentions
    refine ⟨_, found, iff_of_false (Option.some_ne_none _) present, ?_⟩
    intro occurrence member
    obtain rfl := Option.some.inj member
    refine ⟨earlier, definition, later, before, definitions_eq, silent, mentions,
      rfl, hosts, fun hidden => ⟨openBraces before, ?_, ?_⟩⟩
    · rw [first.text_eq, FieldOccurrence.braceDepthInCode_append,
        if_pos first.opens.code]
    · exact hosts.one_le_openBraces (Definition.sealed_textOf isSealed earlier)
        hidden

def users : Name := ⟨"users".toList, by decide⟩

def namedLikeField : Executable where
  definitions := [
    { lead := .empty
      header := .operation
        { kind := .query
          name := some (.space, users)
          gap := .space
          annex := ⟨"($first: Int)".toList, by simp, ⟨rfl, rfl⟩⟩
          last := .space }
      selections := ⟨" me # users\n ".toList, ⟨rfl, rfl⟩, by decide +kernel⟩ },
    { lead := .space
      header := .fragment
        { beforeName := .space
          name := ⟨"me".toList, by decide⟩
          beforeOn := .space
          beforeCondition := .space
          condition := ⟨"User".toList, by decide⟩
          gap := .space
          annex := .empty
          last := .empty }
      selections := ⟨" users ".toList, ⟨rfl, rfl⟩, by decide +kernel⟩ }]
  trail := .space
  remark := "# users".toList
  isRemark := .inr ⟨rfl, by simp [Text.isLineBreak]⟩

theorem first?_in_definition_namedLikeField :
    users.text.IsName ∧
      FieldOccurrence.first? namedLikeField.text users.text =
        .ok (some ⟨64, 69⟩) ∧
      ∃ earlier definition later before,
        namedLikeField.definitions = earlier ++ definition :: later ∧
        (∀ other ∈ earlier, ¬ other.Mentions users.text) ∧
        definition.Mentions users.text ∧ 64 = Text.bytes before ∧
        definition.Hosts users.text (Definition.textOf earlier) before ∧
        (¬ definition.header.Exposes users.text →
          ∃ depth, braceDepthInCode namedLikeField.text 64 = some depth ∧
            1 ≤ depth) := by
  have run : FieldOccurrence.first? namedLikeField.text users.text =
      .ok (some ⟨64, 69⟩) := by decide +kernel
  rcases namedLikeField.first?_in_definition users.isName with
    ⟨found, found_eq, _, holds⟩
  obtain rfl := Except.ok.inj (run.symm.trans found_eq)
  exact ⟨users.isName, run, holds _ rfl⟩

def remarked : Separation where
  text := " # all\n".toList
  isGap :=
    have unbroken : ∀ char ∈ " all".toList, Text.isLineBreak char = false := by
      simp [Text.isLineBreak]
    .separator (by decide) (.comment unbroken (by decide) .nil)
  apart := by decide

def namedAfterComment : Executable where
  definitions := [
    { lead := .empty
      header := .operation
        { kind := .query
          name := some (remarked, users)
          gap := .space
          annex := .empty
          last := .empty }
      selections := ⟨" users \x7b id \x7d ".toList, ⟨rfl, rfl⟩,
        by decide +kernel⟩ }]
  trail := .empty
  remark := []
  isRemark := .inl rfl

/-- The name of an operation behind a comment is taken for a field. -/
theorem not_forall_first?_in_selections :
    ¬ ∀ (document : Executable) (field : Text) (occurrence : FieldOccurrence),
      field.IsName →
      FieldOccurrence.first? document.text field = .ok (some occurrence) →
      ∃ depth, braceDepthInCode document.text occurrence.start = some depth ∧
        1 ≤ depth := by
  intro every
  have run : FieldOccurrence.first? namedAfterComment.text users.text =
      .ok (some ⟨12, 17⟩) := by decide +kernel
  have outside : braceDepthInCode namedAfterComment.text 12 = some 0 := by
    decide +kernel
  rcases every namedAfterComment users.text ⟨12, 17⟩ users.isName run with
    ⟨depth, depth_eq, positive⟩
  rw [outside] at depth_eq
  obtain rfl := Option.some.inj depth_eq
  exact absurd positive (by decide)

end Executable

end QueryAssembly
