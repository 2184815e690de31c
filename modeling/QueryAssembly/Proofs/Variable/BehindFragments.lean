import QueryAssembly.Proofs.Field.Definitions
import QueryAssembly.Proofs.Variable.HeaderEnd

namespace QueryAssembly

/-! When fragments stand in front of the first operation, its definitions are
inserted after its header if no header of a fragment has a word that is taken for
the keyword, and if nothing but blanks and comments keeps its own name from its
keyword. Where this fails the definitions go elsewhere or get lost. -/

structure FragmentDefinition where
  lead : Gap
  header : FragmentHeader
  selections : SelectionSet

namespace FragmentDefinition

def toDefinition (fragment : FragmentDefinition) : Definition where
  lead := fragment.lead
  header := .fragment fragment.header
  selections := fragment.selections

def textOf (fragments : List FragmentDefinition) : Text :=
  Definition.textOf (fragments.map toDefinition)

end FragmentDefinition

namespace OperationHeader

def nameText (header : OperationHeader) : Text :=
  match header.name with
  | some (separation, name) => separation.text ++ name.text
  | none => []

def named (header : OperationHeader) : Text :=
  header.kind.keyword ++ header.nameText

end OperationHeader

/-- A document that has fragments, then an operation with a keyword and without
variables, and then whatever else. -/
structure LateOperation where
  fragments : List FragmentDefinition
  lead : Gap
  header : OperationHeader
  undeclared : header.annex.text.head? ≠ some '('
  selections : SelectionSet
  rest : Executable

/-- Whether a gap has neither commas nor byte order marks but in its comments. -/
def Gap.IsSkipped (gap : Gap) : Prop := tokensOf gap.text = []

instance (gap : Gap) : Decidable gap.IsSkipped :=
  inferInstanceAs (Decidable (tokensOf gap.text = []))

namespace LateOperation

def document (late : LateOperation) : Executable where
  definitions := late.fragments.map FragmentDefinition.toDefinition ++
    ⟨late.lead, .operation late.header, late.selections⟩ ::
      late.rest.definitions
  trail := late.rest.trail
  remark := late.rest.remark
  isRemark := late.rest.isRemark

def front (late : LateOperation) : Text :=
  FragmentDefinition.textOf late.fragments ++ late.lead.text

def keyword (late : LateOperation) : Token :=
  ⟨late.front.bytes, late.header.kind.keyword⟩

def back (late : LateOperation) : Text :=
  late.header.gap.text ++ (late.header.annex.text ++ (late.header.last.text ++
    (late.selections.text ++ late.rest.text)))

def withList (late : LateOperation) (list : Text) : Text :=
  late.front ++ (late.header.named ++ (list ++ late.back))

def IsFound (late : LateOperation) : Prop :=
  (∀ fragment ∈ late.fragments, ¬ fragment.header.Misleads) ∧
    ∀ named ∈ late.header.name, named.1.IsSkipped

/-- What becomes of a document into which a list is inserted. -/
inductive Outcome (late : LateOperation) (list : Text) : Text → Prop
  | found : late.IsFound → Outcome late list (late.withList list)
  /-- The name is not found behind the keyword. -/
  | unnamed {separation : Separation} {name : Name} :
      (∀ fragment ∈ late.fragments, ¬ fragment.header.Misleads) →
      late.header.name = some (separation, name) →
      ¬ separation.IsSkipped →
      Outcome late list (late.front ++ (late.header.kind.keyword ++
        (list ++ (separation.text ++ (name.text ++ late.back)))))
  /-- The list goes into the first header that misleads. -/
  | misled {earlier later : List FragmentDefinition}
      {fragment : FragmentDefinition} {start rest back : Text} :
      late.fragments = earlier ++ fragment :: later →
      (∀ other ∈ earlier, ¬ other.header.Misleads) →
      fragment.header.Misleads →
      fragment.toDefinition.opening = start ++ rest →
      late.document.text =
        (FragmentDefinition.textOf earlier ++ start) ++ (rest ++ back) →
      (rest ++ back).head? ≠ some '(' →
      Outcome late list ((FragmentDefinition.textOf earlier ++ start) ++
        (list ++ (rest ++ back)))
  /-- The arguments of a directive are taken for a list that is there. -/
  | declared {fragment : FragmentDefinition} :
      fragment ∈ late.fragments → fragment.header.Misleads →
      Outcome late list late.document.text

end LateOperation

theorem Text.eq_of_inserted {inner left right before after : Text}
    (text_eq : left ++ right = before ++ after)
    (rightOpen : right.head? ≠ some '(') (afterOpen : after.head? ≠ some '(')
    (same : left ++ ('(' :: inner ++ right) = before ++ ('(' :: inner ++ after)) :
    left = before := by
  have unmoved : ∀ between back : Text, (between ++ back).head? ≠ some '(' →
      '(' :: inner ++ (between ++ back) = between ++ ('(' :: inner ++ back) →
      between = [] := by
    intro between back opens moved
    cases between with
    | nil => rfl
    | cons char between =>
        obtain rfl : '(' = char := (List.cons.inj moved).1
        exact absurd rfl opens
  rcases List.append_eq_append_iff.mp text_eq with
    ⟨between, rfl, rfl⟩ | ⟨between, rfl, rfl⟩
  · rw [List.append_assoc, List.append_cancel_left_eq] at same
    rw [unmoved between after rightOpen same, List.append_nil]
  · rw [List.append_assoc, List.append_cancel_left_eq] at same
    rw [unmoved between right afterOpen same.symm, List.append_nil]

theorem Sealed.last_apart {front : Text} (isSealed : Sealed front) :
    front.getLast?.any Text.isNameContinue = false := by
  rw [Option.any_eq_false]
  intro char member
  rw [isSealed.last char member]
  decide

namespace FragmentDefinition

theorem sealed_textOf (fragments : List FragmentDefinition) :
    Sealed (textOf fragments) :=
  Definition.sealed_textOf ⟨.nil, by simp⟩ _

theorem operationKeyword?_opening_eq_none_iff (fragment : FragmentDefinition) :
    Token.operationKeyword? fragment.toDefinition.opening = none ↔
      ¬ fragment.header.Misleads := by
  have isGap := fragment.toDefinition.lead.isGap
  rw [Definition.opening, Token.operationKeyword?_parts isGap.neutral
    (.inl isGap.last_apart), isGap.operationKeyword?_eq_none, Option.none_or,
    Option.map_eq_none_iff]
  exact fragment.header.operationKeyword?_eq_none_iff

theorem operationKeyword?_textOf {fragments : List FragmentDefinition}
    (clear : ∀ fragment ∈ fragments, ¬ fragment.header.Misleads) :
    Token.operationKeyword? (textOf fragments) = none := by
  induction fragments with
  | nil => rfl
  | cons fragment rest induction =>
      rw [List.forall_mem_cons] at clear
      have neutral : Neutral fragment.selections.text :=
        fragment.selections.neutral
      have shape : textOf (fragment :: rest) = fragment.toDefinition.opening ++
          (fragment.selections.text ++ textOf rest) := by
        simp [textOf, Definition.textOf, Definition.text, toDefinition]
      rw [shape, Token.operationKeyword?_parts
          fragment.toDefinition.neutral_opening (.inr rfl),
        Token.operationKeyword?_parts neutral
          (.inl fragment.selections.last_apart),
        fragment.operationKeyword?_opening_eq_none_iff.mpr clear.1,
        fragment.selections.operationKeyword?_eq_none, induction clear.2]
      rfl

theorem exists_keyword_of_misleads {earlier : List FragmentDefinition}
    {fragment : FragmentDefinition}
    (clear : ∀ other ∈ earlier, ¬ other.header.Misleads)
    (misleads : fragment.header.Misleads) :
    ∃ keyword, Token.operationKeyword?
        (textOf earlier ++ fragment.toDefinition.opening) = some keyword ∧
      (textOf earlier).bytes ≤ keyword.stop := by
  have isSealed := sealed_textOf earlier
  obtain ⟨inner, inner_eq⟩ : ∃ inner,
      Token.operationKeyword? fragment.toDefinition.opening = some inner :=
    Option.ne_none_iff_exists'.mp fun none =>
      fragment.operationKeyword?_opening_eq_none_iff.mp none misleads
  refine ⟨inner.shift (textOf earlier).bytes, ?_, ?_⟩
  · rw [Token.operationKeyword?_parts isSealed.toNeutral
      (.inl isSealed.last_apart), operationKeyword?_textOf clear, inner_eq]
    rfl
  · simp only [Token.stop, Token.shift]
    omega

end FragmentDefinition

namespace LateOperation

/-! The document around the keyword of its operation. -/

section Shape

variable (late : LateOperation)

theorem document_text :
    late.document.text = late.front ++ (late.header.named ++ late.back) := by
  rcases late with ⟨fragments, lead, ⟨kind, name, gap, annex, last⟩, _,
    selections, rest⟩
  cases name <;>
    simp [document, Executable.text, Definition.textOf, front, back,
      FragmentDefinition.textOf, OperationHeader.named,
      OperationHeader.nameText, Definition.text,
      Definition.opening, Header.text, Header.segments, Segment.textOf,
      Segment.text, OperationKind.name]

theorem document_text_unnamed (name_eq : late.header.name = none) :
    late.document.text =
      (late.front ++ late.header.kind.keyword) ++ late.back := by
  simp [document_text, OperationHeader.named, OperationHeader.nameText, name_eq]

theorem document_text_named {separation : Separation} {name : Name}
    (name_eq : late.header.name = some (separation, name)) :
    late.document.text = (late.front ++ late.header.kind.keyword) ++
      (separation.text ++ (name.text ++ late.back)) := by
  simp [document_text, OperationHeader.named, OperationHeader.nameText, name_eq]

theorem neutral_front : Neutral late.front :=
  (FragmentDefinition.sealed_textOf late.fragments).toNeutral.append
    late.lead.isGap.neutral

theorem neutral_keyword : Neutral (late.front ++ late.header.kind.keyword) :=
  late.neutral_front.append
    (.of_isWord (Operation.keyword_isName late.header.kind).isWord)

theorem stop_keyword :
    late.keyword.stop = Text.bytes (late.front ++ late.header.kind.keyword) :=
  (Text.bytes_append _ _).symm

theorem endsHeader_back : late.back.EndsHeader := by
  have brace : Text.EndsHeader (late.selections.text ++ late.rest.text) :=
    Text.endsHeader_sign (by decide) (by decide) _
  have last := Text.endsHeader_gap late.header.last.isGap fun _ => brace
  exact Text.endsHeader_gap late.header.gap.isGap fun _ =>
    Text.endsHeader_annex late.header.annex late.undeclared last

theorem stops_nameText :
    Text.continuesName (late.header.nameText ++ late.back) = false := by
  rw [OperationHeader.nameText]
  split
  · next separation name _ =>
    rw [List.append_assoc]
    exact separation.isGap.starts_apart separation.apart
  · exact late.endsHeader_back.apart

theorem first?_document :
    Token.first? late.document.text ≠ some ['\x7b'] := by
  rw [document_text, front]
  -- A gap comes first, and then the keyword of a fragment or of the operation.
  cases late.fragments with
  | nil =>
      have stops := late.stops_nameText
      have isName := Operation.keyword_isName late.header.kind
      rw [OperationHeader.named, List.append_assoc, List.append_assoc]
      exact Token.first?_ne_brace late.lead.isGap isName stops
  | cons fragment rest =>
      have apart := fragment.header.beforeName.apart
      have isGap := fragment.header.beforeName.isGap
      have shape : ∀ text, ∃ tail,
          FragmentDefinition.textOf (fragment :: rest) ++ text =
            fragment.lead.text ++ (Header.fragmentKeyword.text ++
              (fragment.header.beforeName.text ++ tail)) := by
        intro text
        simp only [FragmentDefinition.textOf, Definition.textOf, List.map_cons,
          List.flatMap_cons, Definition.text, Definition.opening,
          FragmentDefinition.toDefinition, Header.text, Header.segments,
          Segment.textOf_cons, Segment.text, List.append_assoc]
        exact ⟨_, rfl⟩
      rcases shape (late.lead.text ++ (late.header.named ++ late.back)) with
        ⟨tail, text_eq⟩
      rw [List.append_assoc, text_eq]
      exact Token.first?_ne_brace fragment.lead.isGap
        Header.fragmentKeyword.isName (isGap.starts_apart apart)

end Shape

/-! Where the definitions go. -/

section Search

variable {late : LateOperation} {definitions : VariableDefinitions}

theorem operationKeyword?_document
    (clear : ∀ fragment ∈ late.fragments, ¬ fragment.header.Misleads) :
    Token.operationKeyword? late.document.text = some late.keyword := by
  have isSealed := FragmentDefinition.sealed_textOf late.fragments
  have isGap := late.lead.isGap
  have isWord := (Operation.keyword_isName late.header.kind).isWord
  have begins : isOperationKeyword late.header.kind.keyword := by
    cases late.header.kind <;> decide
  rw [document_text, OperationHeader.named, front, List.append_assoc,
    List.append_assoc,
    Token.operationKeyword?_parts isSealed.toNeutral (.inl isSealed.last_apart),
    Token.operationKeyword?_parts isGap.neutral (.inl isGap.last_apart),
    Token.operationKeyword?_parts (.of_isWord isWord) (.inr late.stops_nameText),
    FragmentDefinition.operationKeyword?_textOf clear,
    isGap.operationKeyword?_eq_none, Token.operationKeyword?_word isWord,
    if_pos begins]
  simp [Token.shift, keyword, front]

theorem inject_of_isFound (written : definitions.isEmpty = false)
    (isFound : late.IsFound) :
    VariableDefinitions.inject late.document.text definitions =
      .ok (late.withList definitions.render) := by
  have found := operationKeyword?_document isFound.1
  have longhand := late.first?_document
  have closed := late.neutral_keyword.closed
  have ends := late.endsHeader_back
  cases name_eq : late.header.name with
  | none =>
      have document_eq := late.document_text_unnamed name_eq
      have end_eq := Token.headerEnd_unnamed closed ends late.stop_keyword
      rw [← document_eq] at end_eq
      have run := VariableDefinitions.inject_of_headerEnd written longhand found
        document_eq end_eq closed ends
      simpa [withList, OperationHeader.named, OperationHeader.nameText, name_eq]
        using run
  | some named =>
      rcases named with ⟨separation, name⟩
      have isGap := separation.isGap
      have neutral := late.neutral_keyword.append
        (isGap.neutral.append (.of_isWord name.isName.isWord))
      have parts := late.document_text_named name_eq
      have document_eq : late.document.text =
          ((late.front ++ late.header.kind.keyword) ++
            (separation.text ++ name.text)) ++ late.back := by
        simp [parts]
      have end_eq := Token.headerEnd_named closed isGap
        (isFound.2 _ name_eq) separation.apart name.isName ends.apart
        late.stop_keyword
      rw [← parts] at end_eq
      have run := VariableDefinitions.inject_of_headerEnd written longhand found
        document_eq end_eq neutral.closed ends
      simpa [withList, OperationHeader.named, OperationHeader.nameText, name_eq]
        using run

theorem inject_of_unnamed (written : definitions.isEmpty = false)
    (clear : ∀ fragment ∈ late.fragments, ¬ fragment.header.Misleads)
    {separation : Separation} {name : Name}
    (name_eq : late.header.name = some (separation, name))
    (hidden : ¬ separation.IsSkipped) :
    VariableDefinitions.inject late.document.text definitions =
      .ok (late.front ++ (late.header.kind.keyword ++
        (definitions.render ++
          (separation.text ++ (name.text ++ late.back))))) := by
  have closed := late.neutral_keyword.closed
  have document_eq := late.document_text_named name_eq
  have ends : Text.EndsHeader (separation.text ++ (name.text ++ late.back)) :=
    Text.endsHeader_gap separation.isGap fun none => absurd none hidden
  have end_eq := Token.headerEnd_unnamed closed ends late.stop_keyword
  rw [← document_eq] at end_eq
  rw [← List.append_assoc late.front]
  exact VariableDefinitions.inject_of_headerEnd written late.first?_document
    (operationKeyword?_document clear) document_eq end_eq closed ends

theorem exists_outcome_of_misleads (written : definitions.isEmpty = false)
    {earlier later : List FragmentDefinition} {fragment : FragmentDefinition}
    (fragments_eq : late.fragments = earlier ++ fragment :: later)
    (clear : ∀ other ∈ earlier, ¬ other.header.Misleads)
    (misleads : fragment.header.Misleads) :
    ∃ result, VariableDefinitions.inject late.document.text definitions =
        .ok result ∧ late.Outcome definitions.render result := by
  have neutral := (FragmentDefinition.sealed_textOf earlier).toNeutral.append
    fragment.toDefinition.neutral_opening
  obtain ⟨tail, document_eq⟩ : ∃ tail, late.document.text =
      (FragmentDefinition.textOf earlier ++ fragment.toDefinition.opening) ++
        '\x7b' :: tail := by
    rw [document_text, front, fragments_eq]
    simp only [FragmentDefinition.textOf, Definition.textOf, List.map_append,
      List.map_cons, List.flatMap_append, List.flatMap_cons, Definition.text,
      SelectionSet.text, List.append_assoc, List.cons_append]
    exact ⟨_, rfl⟩
  rcases FragmentDefinition.exists_keyword_of_misleads clear misleads with
    ⟨keyword, found, reached⟩
  have longhand := late.first?_document
  rw [document_eq] at longhand
  rcases VariableDefinitions.inject_before_brace written longhand neutral.closed
      found with
    unchanged | ⟨before, rest, parts, later_eq, opens, run⟩
  · rw [← document_eq] at unchanged
    exact ⟨_, unchanged, .declared (by simp [fragments_eq]) misleads⟩
  · rcases Text.exists_append_of_bytes_le parts (reached.trans later_eq) with
      ⟨start, rfl, opening_eq⟩
    rw [← document_eq] at run
    rw [parts, List.append_assoc _ rest] at document_eq
    exact ⟨_, run,
      .misled fragments_eq clear misleads opening_eq document_eq opens⟩

theorem exists_outcome (late : LateOperation)
    (written : definitions.isEmpty = false) :
    ∃ result, VariableDefinitions.inject late.document.text definitions =
        .ok result ∧ late.Outcome definitions.render result := by
  -- The search for the keyword stops in the first fragment that misleads.
  cases first : late.fragments.find? fun fragment =>
      decide fragment.header.Misleads with
  | some fragment =>
      rcases List.find?_eq_some_iff_append.mp first with
        ⟨misleads, earlier, later, fragments_eq, clear⟩
      exact exists_outcome_of_misleads written fragments_eq
        (by simpa using clear) (of_decide_eq_true misleads)
  | none =>
      have clear : ∀ fragment ∈ late.fragments, ¬ fragment.header.Misleads := by
        simpa using first
      by_cases skipped : ∀ named ∈ late.header.name, named.1.IsSkipped
      · exact ⟨_, inject_of_isFound written ⟨clear, skipped⟩,
          .found ⟨clear, skipped⟩⟩
      · push Not at skipped
        rcases skipped with ⟨⟨separation, name⟩, name_eq, hidden⟩
        exact ⟨_, inject_of_unnamed written clear name_eq hidden,
          .unnamed clear name_eq hidden⟩

theorem Outcome.eq_withList_iff {inner result : Text}
    (outcome : late.Outcome ('(' :: inner) result) :
    result = late.withList ('(' :: inner) ↔ late.IsFound := by
  have document_eq : late.document.text =
      (late.front ++ late.header.named) ++ late.back := by
    rw [document_text, List.append_assoc]
  have withList_eq : late.withList ('(' :: inner) =
      (late.front ++ late.header.named) ++ ('(' :: inner ++ late.back) := by
    rw [withList, List.append_assoc]
  have opens := late.endsHeader_back.head?_ne
  cases outcome with
  | found isFound => exact iff_of_true rfl isFound
  | @unnamed separation name clear name_eq hidden =>
      refine iff_of_false (fun same => ?_) fun isFound =>
        hidden (isFound.2 _ name_eq)
      have named_eq : late.header.named = late.header.kind.keyword ++
          (separation.text ++ name.text) := by
        rw [OperationHeader.named, OperationHeader.nameText, name_eq]
      have parts := (late.document_text_named name_eq).symm.trans document_eq
      have ends : Text.EndsHeader
          (separation.text ++ (name.text ++ late.back)) :=
        Text.endsHeader_gap separation.isGap fun none => absurd none hidden
      rw [withList_eq, ← List.append_assoc late.front] at same
      have keyword_eq := Text.eq_of_inserted parts ends.head?_ne opens same
      rw [named_eq, ← List.append_assoc, List.self_eq_append_right,
        List.append_eq_nil_iff] at keyword_eq
      exact separation.apart keyword_eq.1
  | @misled earlier later fragment start rest back fragments_eq clear misleads
      opening_eq parts undeclared =>
      refine iff_of_false (fun same => ?_) fun isFound =>
        isFound.1 fragment (by simp [fragments_eq]) misleads
      -- The header of the fragment ends before the front of the operation does.
      have place_eq := Text.eq_of_inserted (parts.symm.trans document_eq)
        undeclared opens (same.trans withList_eq)
      have front_eq : late.front = FragmentDefinition.textOf earlier ++
          (fragment.toDefinition.opening ++ (fragment.selections.text ++
            (FragmentDefinition.textOf later ++ late.lead.text))) := by
        rw [front, fragments_eq]
        simp [FragmentDefinition.textOf, Definition.textOf, Definition.text,
          FragmentDefinition.toDefinition]
      have longer := congrArg List.length place_eq
      simp only [front_eq, opening_eq, SelectionSet.text, List.length_append,
        List.length_cons] at longer
      omega
  | @declared fragment member misleads =>
      refine iff_of_false (fun same => ?_) fun isFound =>
        isFound.1 fragment member misleads
      rw [document_eq, withList_eq, List.append_cancel_left_eq,
        List.self_eq_append_left] at same
      cases same

/-- Definitions go to the operation behind the fragments just when no header of a
fragment misleads and nothing keeps its name from its keyword. -/
theorem inject_eq_withList_iff (late : LateOperation)
    (written : definitions.isEmpty = false) :
    ∃ result, VariableDefinitions.inject late.document.text definitions =
        .ok result ∧ late.Outcome definitions.render result ∧
      (result = late.withList definitions.render ↔ late.IsFound) := by
  rcases late.exists_outcome written with ⟨result, run, outcome⟩
  rcases VariableDefinitions.exists_render_eq written with ⟨inner, list_eq⟩
  rw [list_eq] at outcome ⊢
  exact ⟨result, run, outcome, outcome.eq_withList_iff⟩

end Search

def noMore : Executable :=
  { Executable.namedAfterComment with definitions := [] }

def rootType : Name := ⟨"Query".toList, by decide⟩

def decoyed : LateOperation where
  fragments := [
    { lead := .empty
      header :=
        { beforeName := .space
          name := ⟨"queryFields".toList, by decide⟩
          beforeOn := .space
          beforeCondition := .space
          condition := rootType
          gap := .space
          annex := ⟨"@show(as: \x7bkind: query\x7d, text: \"mutation\")".toList,
            by simp, ⟨rfl, rfl⟩⟩
          last := .space }
      selections := ⟨" user \x7b mutation \x7d ".toList, ⟨rfl, rfl⟩,
        by decide +kernel⟩ }]
  lead := .space
  header :=
    { kind := .query
      name := some (Executable.remarked, Executable.users)
      gap := .space
      annex := .empty
      last := .empty }
  undeclared := by decide
  selections := ⟨" ...queryFields ".toList, ⟨rfl, rfl⟩, by decide +kernel⟩
  rest := noMore

theorem inject_eq_withList_iff_decoyed :
    VariableDefinitions.numbered.isEmpty = false ∧ decoyed.IsFound ∧
      VariableDefinitions.inject decoyed.document.text
          VariableDefinitions.numbered =
        .ok (decoyed.withList "($id: ID!)".toList) := by
  have written : VariableDefinitions.numbered.isEmpty = false := rfl
  have clear : ∀ fragment ∈ decoyed.fragments, ¬ fragment.header.Misleads := by
    decide +kernel
  have skipped : Executable.remarked.IsSkipped := by decide +kernel
  have isFound : decoyed.IsFound := by
    refine ⟨clear, ?_⟩
    rintro named ⟨⟩
    exact skipped
  rcases decoyed.inject_eq_withList_iff written with ⟨result, run, _, place_iff⟩
  rw [place_iff.mpr isFound] at run
  exact ⟨written, isFound, run⟩

def calledQuery : LateOperation where
  fragments := [
    { lead := .empty
      header :=
        { beforeName := .space
          name := ⟨"query".toList, by decide⟩
          beforeOn := .space
          beforeCondition := .space
          condition := rootType
          gap := .space
          annex := .empty
          last := .empty }
      selections := ⟨" user \x7b id \x7d ".toList, ⟨rfl, rfl⟩,
        by decide +kernel⟩ }]
  lead := .space
  header :=
    { kind := .query
      name := some (.space, ⟨"Q".toList, by decide⟩)
      gap := .space
      annex := .empty
      last := .empty }
  undeclared := by decide
  selections := ⟨" ...query ".toList, ⟨rfl, rfl⟩, by decide +kernel⟩
  rest := noMore

/-- Its header is given the definitions of the operation. -/
theorem not_forall_inject_eq_withList :
    ¬ ∀ (late : LateOperation) (definitions : VariableDefinitions),
      definitions.isEmpty = false →
      VariableDefinitions.inject late.document.text definitions =
        .ok (late.withList definitions.render) := by
  intro every
  have run : VariableDefinitions.inject calledQuery.document.text
      VariableDefinitions.numbered =
        .ok ("fragment query on($id: ID!) Query \x7b user \x7b id \x7d \x7d ".toList ++
          "query Q \x7b ...query \x7d".toList) := by
    decide +kernel
  have placed : calledQuery.withList VariableDefinitions.numbered.render =
      "fragment query on Query \x7b user \x7b id \x7d \x7d ".toList ++
        "query Q($id: ID!) \x7b ...query \x7d".toList := by
    decide +kernel
  have expected := every calledQuery VariableDefinitions.numbered rfl
  rw [run, placed] at expected
  exact absurd (Except.ok.inj expected) (by decide)

end LateOperation

end QueryAssembly
