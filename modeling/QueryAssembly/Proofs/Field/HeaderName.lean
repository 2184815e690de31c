import QueryAssembly.Proofs.Document.Executable

namespace QueryAssembly

/-! A field that stands in a document stands in one of its parts. Gaps have none,
a name is a field if the text around it allows one, and a list is searched as on
its own. So the names that a header exposes can be told from its parts. -/

namespace FieldOccurrence

def Contains (text field : Text) : Prop :=
  ∃ before after, At text field before after

def Within (document field : Text) (start stop : Nat) : Prop :=
  ∃ before after, At document field before after ∧ start ≤ before.length ∧
    before.length < stop

theorem within_split {document field : Text} {start stop : Nat} (middle : Nat)
    (first : start ≤ middle) (second : middle ≤ stop) :
    Within document field start stop ↔ Within document field start middle ∨
      Within document field middle stop := by
  constructor
  · rintro ⟨before, after, isAt, reached, inside⟩
    by_cases early : before.length < middle
    · exact .inl ⟨before, after, isAt, reached, early⟩
    · exact .inr ⟨before, after, isAt, Nat.not_lt.mp early, inside⟩
  · rintro (⟨before, after, isAt, reached, inside⟩ |
      ⟨before, after, isAt, reached, inside⟩)
    · exact ⟨before, after, isAt, reached, inside.trans_le second⟩
    · exact ⟨before, after, isAt, first.trans reached, inside⟩

/-! A part of a document that begins and ends with signs has the fields that it has on
its own. -/

section Parts

variable {front part back field before after : Text}

theorem At.between (word : field.IsWord)
    (boundary : part.getLast?.any Text.isNameContinue = false ∨
      back.continuesName = false)
    (isAt : At (front ++ (part ++ back)) field before after)
    (reached : front.length ≤ before.length)
    (inside : before.length < front.length + part.length) :
    ∃ start rest, before = front ++ start ∧ part = start ++ (field ++ rest) ∧
      after = rest ++ back := by
  rcases isAt.of_front reached with ⟨start, rfl⟩
  have text_eq := isAt.text_eq
  rw [List.append_assoc, List.append_cancel_left_eq] at text_eq
  rcases word.split boundary text_eq with
    ⟨rest, part_eq, after_eq⟩ | ⟨between, rfl, _⟩
  · exact ⟨start, rest, rfl, part_eq, after_eq⟩
  · simp only [List.length_append] at inside
    omega

theorem admitsAfter_append_iff (closes : AdmitsAfter back) (after : Text) :
    AdmitsAfter (after ++ back) ↔ AdmitsAfter after := by
  by_cases solid : ∃ char ∈ after, Text.isBlank char = false
  · exact admitsAfter_append solid back
  · have blank : ∀ char ∈ after, Text.isBlank char := by
      simpa using solid
    have none : after.dropWhile Text.isBlank = [] :=
      List.dropWhile_eq_nil_iff.mpr blank
    have starts : Text.continuesName after = false := by
      cases after with
      | nil => rfl
      | cons first after =>
          have here := blank first List.mem_cons_self
          by_contra continues
          rw [Text.continuesName, List.head?_cons, Option.any_some,
            Bool.not_eq_false] at continues
          rw [Text.not_isBlank_of_isNameContinue continues] at here
          cases here
    refine iff_of_true ⟨?_, ?_⟩ ⟨starts, by simp [none]⟩
    · cases after with
      | nil => exact closes.ends
      | cons first after => exact starts
    · rw [List.dropWhile_append, none]
      exact closes.unlabelled

theorem within_word {name : Text} (isName : name.IsName) (word : field.IsWord)
    (closes : AdmitsAfter back) :
    Within (front ++ (name ++ back)) field front.length
        (front.length + name.length) ↔
      name = field ∧ AdmitsBefore front := by
  constructor
  · rintro ⟨before, after, isAt, reached, inside⟩
    rcases isAt.between word (.inr closes.ends) reached inside with
      ⟨start, rest, rfl, name_eq, rfl⟩
    rcases eq_of_within_word isName.isWord.2 name_eq isAt.opens isAt.closes with
      ⟨rfl, rfl⟩
    rw [List.nil_append, List.append_nil] at name_eq
    rw [List.append_nil] at isAt
    exact ⟨name_eq, isAt.opens⟩
  · rintro ⟨rfl, opens⟩
    have positive := List.length_pos_iff.mpr isName.1
    exact ⟨front, back, ⟨rfl, opens, closes⟩, Nat.le_refl _, by omega⟩

theorem within_part (neutral : Neutral front) (word : field.IsWord)
    (begins : ∀ char ∈ part.head?, Text.isBlank char = false ∧
      Text.isNameContinue char = false)
    (boundary : part.getLast?.any Text.isNameContinue = false ∨
      back.continuesName = false)
    (ends : ∀ start rest, part = start ++ (field ++ rest) →
      (AdmitsAfter (rest ++ back) ↔ AdmitsAfter rest)) :
    Within (front ++ (part ++ back)) field front.length
        (front.length + part.length) ↔ Contains part field := by
  have anchored : ∀ start rest, part = start ++ (field ++ rest) →
      Anchored start := by
    intro start rest part_eq
    cases start with
    | nil =>
        rcases List.exists_cons_of_ne_nil word.1 with ⟨first, field, rfl⟩
        have apart := (begins first (by simp [part_eq])).2
        rw [word.2 first List.mem_cons_self] at apart
        cases apart
    | cons first start =>
        exact ⟨first, List.mem_cons_self, begins first (by simp [part_eq])⟩
  constructor
  · rintro ⟨before, after, isAt, reached, inside⟩
    rcases isAt.between word boundary reached inside with
      ⟨start, rest, rfl, part_eq, rfl⟩
    exact ⟨start, rest, (at_part neutral part_eq (anchored _ _ part_eq)
      (ends _ _ part_eq)).mp isAt⟩
  · rintro ⟨start, rest, isAt⟩
    have part_eq := isAt.text_eq
    have positive := List.length_pos_iff.mpr word.1
    refine ⟨front ++ start, rest ++ back, (at_part neutral part_eq
      (anchored _ _ part_eq) (ends _ _ part_eq)).mpr isAt, by simp, ?_⟩
    simp only [part_eq, List.length_append]
    omega

theorem not_within_gap {gap : Text} (isGap : gap.IsGap) (neutral : Neutral front)
    (word : field.IsWord) :
    ¬ Within (front ++ (gap ++ back)) field front.length
      (front.length + gap.length) := by
  rintro ⟨before, after, isAt, reached, inside⟩
  rcases isAt.between word (.inl isGap.last_apart) reached inside with
    ⟨start, rest, rfl, gap_eq, rfl⟩
  rcases List.exists_cons_of_ne_nil word.1 with ⟨first, field, rfl⟩
  have code := isAt.opens.code
  rw [endState_append neutral.closed] at code
  exact isGap.not_code (word.2 first List.mem_cons_self) gap_eq code

end Parts

end FieldOccurrence

open FieldOccurrence (AdmitsBefore AdmitsAfter Contains Within
  isDefinitionKeyword isDefinitionName)

def Gap.IsBlank (gap : Gap) : Prop := ∀ char ∈ gap.text, Text.isBlank char

/-! The names of a header that are not told from a field: its keywords, unless
the last of them seems to be named by the one before, its own name when a comma
or a comment comes before it, the type it is on, and what stands as a field in
variable definitions and directives. -/

def OperationHeader.Exposes (header : OperationHeader) (field : Text) : Prop :=
  header.kind.keyword = field ∨
    (∃ named ∈ header.name, named.2.text = field ∧ ¬ named.1.IsBlank) ∨
    Contains header.annex.text field

def FragmentHeader.Exposes (header : FragmentHeader) (field : Text) : Prop :=
  Header.fragmentKeyword.text = field ∨
    (header.name.text = field ∧ ¬ header.beforeName.IsBlank) ∨
    (Header.onKeyword.text = field ∧
      ¬ (header.beforeOn.IsBlank ∧ isDefinitionKeyword header.name.text)) ∨
    header.condition.text = field ∨
    Contains header.annex.text field

def Header.Exposes : Header → Text → Prop
  | .shorthand, _ => False
  | .operation header, field => header.Exposes field
  | .fragment header, field => header.Exposes field

namespace Segment

def Spaced (back : Text) : List Segment → Prop
  | [] => True
  | .space _ :: rest => Spaced back rest
  | .word _ :: rest => AdmitsAfter (textOf rest ++ back) ∧ Spaced back rest
  | .list _ :: rest => AdmitsAfter (textOf rest ++ back) ∧ Spaced back rest

/-- Whether segments behind a text have a name that is taken for a field. -/
def Expose (field : Text) : Text → List Segment → Prop
  | _, [] => False
  | front, .space gap :: rest => Expose field (front ++ gap.text) rest
  | front, .word name :: rest =>
      (name.text = field ∧ AdmitsBefore front) ∨
        Expose field (front ++ name.text) rest
  | front, .list annex :: rest =>
      Contains annex.text field ∨ Expose field (front ++ annex.text) rest

theorem textOf_cons (segment : Segment) (rest : List Segment) :
    textOf (segment :: rest) = segment.text ++ textOf rest :=
  List.flatMap_cons

theorem neutral (segment : Segment) : Neutral segment.text := by
  cases segment with
  | space gap => exact gap.isGap.neutral
  | word name => exact .of_isWord name.isName.isWord
  | list annex => exact annex.neutral

theorem neutral_textOf (segments : List Segment) : Neutral (textOf segments) := by
  induction segments with
  | nil => exact .nil
  | cons segment rest induction =>
      rw [textOf_cons]
      exact segment.neutral.append induction

theorem within_iff {front back field : Text} (word : field.IsWord)
    (neutral : Neutral front) {segments : List Segment}
    (spaced : Spaced back segments) :
    Within (front ++ (textOf segments ++ back)) field front.length
        (front.length + (textOf segments).length) ↔
      Expose field front segments := by
  induction segments generalizing front with
  | nil =>
      refine iff_of_false ?_ id
      rintro ⟨before, after, _, reached, inside⟩
      simp only [textOf, List.flatMap_nil, List.length_nil] at inside
      omega
  | cons segment rest induction =>
      have later : Spaced back rest →
          (Within (front ++ (textOf (segment :: rest) ++ back)) field
            (front.length + segment.text.length)
            (front.length + (textOf (segment :: rest)).length) ↔
          Expose field (front ++ segment.text) rest) := by
        intro spaced
        have shape : front ++ (textOf (segment :: rest) ++ back) =
            (front ++ segment.text) ++ (textOf rest ++ back) := by
          simp [textOf_cons]
        rw [← induction (neutral.append segment.neutral) spaced, shape,
          textOf_cons, List.length_append, List.length_append, Nat.add_assoc]
      have shape : front ++ (textOf (segment :: rest) ++ back) =
          front ++ (segment.text ++ (textOf rest ++ back)) := by
        simp [textOf_cons]
      have length_eq : (textOf (segment :: rest)).length =
          segment.text.length + (textOf rest).length := by
        simp [textOf_cons]
      rw [FieldOccurrence.within_split (front.length + segment.text.length)
        (by omega) (by omega)]
      cases segment with
      | space gap =>
          rw [later spaced, shape]
          exact or_iff_right
            (FieldOccurrence.not_within_gap gap.isGap neutral word)
      | word name =>
          rw [later spaced.2, shape]
          exact or_congr_left
            (FieldOccurrence.within_word name.isName word spaced.1)
      | list annex =>
          rw [later spaced.2, shape]
          refine or_congr_left (FieldOccurrence.within_part neutral word ?_
            (.inr spaced.1.ends) fun _ rest _ =>
              FieldOccurrence.admitsAfter_append_iff spaced.1 rest)
          intro char member
          rcases annex.begins char member with rfl | rfl <;> decide

end Segment

/-! What stands around the names of a header. -/

section Around

variable {gap front back word : Text}

theorem admitsAfter_of_head {char : Char} (solid : Text.isBlank char = false)
    (apart : Text.isNameContinue char = false) (unlabelled : char ≠ ':')
    (rest : Text) : AdmitsAfter (char :: rest) := by
  refine ⟨apart, ?_⟩
  rw [List.dropWhile_cons_of_neg (by simp [solid]), List.head?_cons]
  simpa using unlabelled

theorem Text.IsGap.unlabelled (isGap : gap.IsGap)
    (unlabelled : (back.dropWhile isBlank).head? ≠ some ':') :
    ((gap ++ back).dropWhile isBlank).head? ≠ some ':' := by
  induction isGap with
  | nil => exact unlabelled
  | @separator char rest separates _ induction =>
      by_cases blank : isBlank char
      · rwa [List.cons_append, List.dropWhile_cons_of_pos blank]
      · rw [List.cons_append, List.dropWhile_cons_of_neg blank, List.head?_cons]
        rw [Ne, Option.some.injEq]
        rintro rfl
        exact absurd separates (by decide)
  | comment _ _ _ _ =>
      rw [List.cons_append, List.dropWhile_cons_of_neg (by decide)]
      simp

theorem Text.IsGap.starts_apart (isGap : gap.IsGap) (nonempty : gap ≠ []) :
    continuesName (gap ++ back) = false := by
  cases isGap with
  | nil => exact absurd rfl nonempty
  | separator separates _ => exact not_continues separates
  | comment _ _ _ => rfl

theorem admitsAfter_gap (isGap : gap.IsGap) (closes : AdmitsAfter back) :
    AdmitsAfter (gap ++ back) := by
  refine ⟨?_, isGap.unlabelled closes.unlabelled⟩
  by_cases empty : gap = []
  · rw [empty]
    exact closes.ends
  · exact isGap.starts_apart empty

theorem admitsAfter_separation (separation : Separation) {name : Text}
    (isName : name.IsName) (rest : Text) :
    AdmitsAfter (separation.text ++ (name ++ rest)) := by
  refine ⟨separation.isGap.starts_apart separation.apart,
    separation.isGap.unlabelled ?_⟩
  rcases List.exists_cons_of_ne_nil isName.1 with ⟨first, later, rfl⟩
  have continues := isName.isWord.2 first List.mem_cons_self
  have solid := Text.not_isBlank_of_isNameContinue continues
  rw [List.cons_append, List.dropWhile_cons_of_neg (by simp [solid]),
    List.head?_cons]
  have unlabelled : first ≠ ':' :=
    Text.ne_of_isNameContinue continues (by decide)
  simpa using unlabelled

theorem admitsAfter_annex (annex : Annex) (closes : AdmitsAfter back) :
    AdmitsAfter (annex.text ++ back) := by
  have begins := annex.begins
  cases text_eq : annex.text with
  | nil => exact closes
  | cons first rest =>
      rcases begins first (by simp [text_eq]) with rfl | rfl <;>
        exact admitsAfter_of_head (by decide) (by decide) (by decide) _

theorem Text.IsGap.last_belongs (isGap : gap.IsGap) :
    gap.getLast?.any FieldOccurrence.belongsToName = false := by
  rw [Option.any_eq_false]
  intro char member
  have separates := isGap.getLast_separates char member
  have apart : ∀ other, isSeparator other = false → char ≠ other := by
    rintro other unlike rfl
    rw [unlike] at separates
    cases separates
  simp [FieldOccurrence.belongsToName, not_continues separates,
    apart '$' (by decide), apart '.' (by decide), apart '@' (by decide)]

theorem Text.IsGap.anchored (isGap : gap.IsGap)
    (mixed : ¬ ∀ char ∈ gap, isBlank char) : FieldOccurrence.Anchored gap := by
  induction isGap with
  | nil => simp at mixed
  | @separator char rest separates _ induction =>
      by_cases blank : isBlank char
      · rcases induction (by simpa [blank] using mixed) with
          ⟨other, member, solid⟩
        exact ⟨other, List.mem_cons_of_mem _ member, solid⟩
      · exact ⟨char, List.mem_cons_self, by simpa using blank,
          not_continues separates⟩
  | comment _ _ _ _ => exact ⟨'#', List.mem_cons_self, by decide, by decide⟩

theorem lastWord_of_isGap (isGap : gap.IsGap) :
    isDefinitionKeyword gap.trimEnd.lastWord = false ∨
      endState gap.trimEnd.beforeLastWord ≠ .code := by
  have words := Text.beforeLastWord_append_lastWord gap.trimEnd
  rcases FieldOccurrence.trimEnd_append_blanks gap with ⟨blanks, gap_eq, _⟩
  cases last : gap.trimEnd.lastWord with
  | nil => exact .inl (by decide)
  | cons first rest =>
      have continues : Text.isNameContinue first := by
        have member : first ∈ gap.trimEnd.lastWord := by simp [last]
        rw [Text.lastWord, List.mem_reverse] at member
        exact List.mem_takeWhile_imp member
      have whole : gap = gap.trimEnd.beforeLastWord ++
          first :: (rest ++ blanks) := by
        rw [← List.cons_append, ← last, ← List.append_assoc, words]
        exact gap_eq
      exact .inr (isGap.not_code continues whole)

theorem isDefinitionName_gap (isGap : gap.IsGap) (neutral : Neutral front)
    (mixed : ¬ ∀ char ∈ gap, Text.isBlank char) :
    isDefinitionName (front ++ gap) = false := by
  rw [FieldOccurrence.isDefinitionName_append neutral (isGap.anchored mixed)]
  rcases lastWord_of_isGap isGap with unnamed | hidden
  · simp [isDefinitionName, unnamed]
  · simp [isDefinitionName, hidden]

theorem isDefinitionName_blank (neutral : Neutral front)
    (apart : front.getLast?.any Text.isNameContinue = false)
    (all : ∀ char ∈ word, Text.isNameContinue char)
    (ends : (front ++ word).getLast?.any Text.isBlank = false)
    (blank : ∀ char ∈ gap, Text.isBlank char) (nonempty : gap ≠ []) :
    isDefinitionName ((front ++ word) ++ gap) = isDefinitionKeyword word := by
  have words := Text.lastWord_append_word all apart
  have longer : (front ++ word).length ≠ ((front ++ word) ++ gap).length := by
    have positive := List.length_pos_iff.mpr nonempty
    rw [List.append_assoc, List.length_append, List.length_append,
      List.length_append]
    omega
  rw [isDefinitionName, Text.trimEnd_append_blank blank,
    Text.trimEnd_eq_self ends]
  simp only [words.1, words.2, neutral.closed, neutral.balanced,
    bne_iff_ne.mpr longer]
  simp

theorem getLast?_word (isName : word.IsName) (front : Text) :
    (front ++ word).getLast?.any Text.isBlank = false := by
  rcases (List.eq_nil_or_concat word).resolve_left isName.1 with
    ⟨start, last, rfl⟩
  have continues := isName.isWord.2 last (by simp)
  rw [List.concat_eq_append, ← List.append_assoc, List.getLast?_concat,
    Option.any_some, Text.not_isBlank_of_isNameContinue continues]

theorem getLast?_separation (separation : Separation) (front : Text) :
    (front ++ separation.text).getLast? = separation.text.getLast? :=
  List.getLast?_append_of_ne_nil front separation.apart

theorem admitsBefore_separation (neutral : Neutral front)
    (apart : front.getLast?.any Text.isNameContinue = false)
    (isName : word.IsName) (separation : Separation) :
    AdmitsBefore ((front ++ word) ++ separation.text) ↔
      ¬ (separation.IsBlank ∧ isDefinitionKeyword word) := by
  have wordNeutral := neutral.append (.of_isWord isName.isWord)
  have whole := wordNeutral.append separation.isGap.neutral
  have last : ((front ++ word) ++ separation.text).getLast?.any
      FieldOccurrence.belongsToName = false := by
    rw [getLast?_separation]
    exact separation.isGap.last_belongs
  have opens_iff : AdmitsBefore ((front ++ word) ++ separation.text) ↔
      isDefinitionName ((front ++ word) ++ separation.text) = false :=
    ⟨AdmitsBefore.undefined, fun undefined => ⟨whole.closed, last, undefined⟩⟩
  rw [opens_iff]
  by_cases blank : separation.IsBlank
  · rw [isDefinitionName_blank neutral apart isName.isWord.2
      (getLast?_word isName front) blank separation.apart]
    simp [blank]
  · rw [isDefinitionName_gap separation.isGap wordNeutral blank]
    simp [blank]

/-- Texts in which all definitions are closed. -/
structure Sealed (front : Text) : Prop extends Neutral front where
  last : ∀ char ∈ front.getLast?, char = '\x7d'

theorem Sealed.admitsBefore_gap (isSealed : Sealed front) (isGap : gap.IsGap) :
    AdmitsBefore (front ++ gap) := by
  have last_eq : ∀ holds : Char → Bool, holds '\x7d' = false →
      front.getLast?.any holds = false := by
    intro holds none
    rw [Option.any_eq_false]
    intro char member
    simp [isSealed.last char member, none]
  refine ⟨(isSealed.toNeutral.append isGap.neutral).closed, ?_, ?_⟩
  · by_cases empty : gap = []
    · rw [empty, List.append_nil]
      exact last_eq _ (by decide)
    · rw [List.getLast?_append_of_ne_nil front empty]
      exact isGap.last_belongs
  · by_cases blank : ∀ char ∈ gap, Text.isBlank char
    · have letters : ∀ char ∈ ([] : Text), Text.isNameContinue char := by simp
      have none := Text.lastWord_append_word letters (last_eq _ (by decide))
      rw [List.append_nil] at none
      have keyword : isDefinitionKeyword [] = false := by decide
      simp [isDefinitionName, Text.trimEnd_append_blank blank,
        Text.trimEnd_eq_self (last_eq _ (by decide)), none.1, keyword]
    · exact isDefinitionName_gap isGap isSealed.toNeutral blank

end Around

namespace Header

variable {front field : Text}

theorem isDefinitionKeyword_name (kind : OperationKind) :
    isDefinitionKeyword kind.name.text = true := by
  cases kind <;> decide

theorem spaced (header : Header) (rest : Text) :
    Segment.Spaced ('\x7b' :: rest) header.segments := by
  have brace : AdmitsAfter ('\x7b' :: rest) :=
    admitsAfter_of_head (by decide) (by decide) (by decide) rest
  have tail : ∀ (gap last : Gap) (annex : Annex),
      AdmitsAfter (last.text ++ '\x7b' :: rest) ∧
        AdmitsAfter (gap.text ++ (annex.text ++
          (last.text ++ '\x7b' :: rest))) := by
    intro gap last annex
    have onward := admitsAfter_gap last.isGap brace
    exact ⟨onward, admitsAfter_gap gap.isGap (admitsAfter_annex annex onward)⟩
  cases header with
  | shorthand => trivial
  | operation header =>
      rcases header with ⟨kind, name, gap, annex, last⟩
      rcases tail gap last annex with ⟨short, long⟩
      cases name with
      | none =>
          simp [segments, Segment.Spaced, Segment.textOf, Segment.text, short,
            long]
      | some named =>
          have apart := admitsAfter_separation named.1 named.2.isName
          simp [segments, Segment.Spaced, Segment.textOf, Segment.text, short,
            long, apart]
  | fragment header =>
      rcases header with ⟨beforeName, name, beforeOn, beforeCondition,
        condition, gap, annex, last⟩
      rcases tail gap last annex with ⟨short, long⟩
      have first := admitsAfter_separation beforeName name.isName
      have second := admitsAfter_separation beforeOn onKeyword.isName
      have third := admitsAfter_separation beforeCondition condition.isName
      simp [segments, Segment.Spaced, Segment.textOf, Segment.text, short, long,
        first, second, third]

theorem expose_iff (isSealed : Sealed front) (lead : Gap) (header : Header) :
    Segment.Expose field (front ++ lead.text) header.segments ↔
      header.Exposes field := by
  have opens := isSealed.admitsBefore_gap lead.isGap
  have neutral := isSealed.toNeutral.append lead.isGap.neutral
  cases header with
  | shorthand => exact Iff.rfl
  | operation header =>
      rcases header with ⟨kind, name, gap, annex, last⟩
      cases name with
      | none =>
          simp [segments, Segment.Expose, Exposes, OperationHeader.Exposes,
            opens, OperationKind.name]
      | some named =>
          have named_iff := admitsBefore_separation neutral opens.not_continues
            kind.name.isName named.1
          simp only [segments, List.cons_append, List.nil_append,
            Segment.Expose, named_iff, opens, and_true, or_false,
            isDefinitionKeyword_name]
          simp [Exposes, OperationHeader.Exposes, OperationKind.name]
  | fragment header =>
      rcases header with ⟨beforeName, name, beforeOn, beforeCondition,
        condition, gap, annex, last⟩
      have behind : ∀ (front : Text) (word : Name) (separation : Separation),
          Neutral front →
          Neutral ((front ++ word.text) ++ separation.text) ∧
            ((front ++ word.text) ++ separation.text).getLast?.any
              Text.isNameContinue = false := by
        intro front word separation neutral
        refine ⟨(neutral.append (.of_isWord word.isName.isWord)).append
          separation.isGap.neutral, ?_⟩
        rw [getLast?_separation]
        exact separation.isGap.last_apart
      have name_iff := admitsBefore_separation neutral opens.not_continues
        fragmentKeyword.isName beforeName
      rcases behind _ fragmentKeyword beforeName neutral with
        ⟨nameNeutral, nameApart⟩
      have on_iff := admitsBefore_separation nameNeutral nameApart name.isName
        beforeOn
      rcases behind _ name beforeOn nameNeutral with ⟨onNeutral, onApart⟩
      have condition_iff := admitsBefore_separation onNeutral onApart
        onKeyword.isName beforeCondition
      have keyword : isDefinitionKeyword fragmentKeyword.text = true := by decide
      have other : isDefinitionKeyword onKeyword.text = false := by decide
      simp only [segments, Segment.Expose, opens, name_iff, on_iff,
        condition_iff, keyword, other, and_true, Bool.false_eq_true, and_false,
        not_false_eq_true, or_false]
      simp [Exposes, FragmentHeader.Exposes]

end Header

end QueryAssembly
