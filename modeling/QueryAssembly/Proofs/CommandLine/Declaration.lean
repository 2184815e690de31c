import QueryAssembly.Proofs.CommandLine.Options
import QueryAssembly.Proofs.Field.DefinitionName

namespace QueryAssembly

/-! Which declarations of variables a command line may give, and what they declare. A
dollar sign is dropped from a name after the name has been found not to be blank, so
what is left of the name may be nothing or begin with a blank. -/

namespace Text

/-! A text without blanks at its ends, a text with blanks around such a one, and what
trimming leaves. -/

structure IsTrimmed (text : Text) : Prop where
  nonempty : text ≠ []
  starts : ∀ first ∈ text.head?, isBlank first = false
  ends : ∀ last ∈ text.getLast?, isBlank last = false

def Pads (text core : Text) : Prop :=
  ∃ left right, text = left ++ (core ++ right) ∧
    (∀ char ∈ left, isBlank char) ∧ ∀ char ∈ right, isBlank char

def IsSolid (text : Text) : Prop := ∃ char ∈ text, isBlank char = false

section Trim

variable {text core : Text}

theorem isSolid_append_iff {blanks : Text}
    (blank : ∀ char ∈ blanks, isBlank char) :
    IsSolid (blanks ++ text) ↔ IsSolid text := by
  constructor
  · rintro ⟨char, member, solid⟩
    rcases List.mem_append.mp member with inBlanks | member
    · rw [blank char inBlanks] at solid
      cases solid
    · exact ⟨char, member, solid⟩
  · rintro ⟨char, member, solid⟩
    exact ⟨char, List.mem_append_right blanks member, solid⟩

theorem IsSolid.trim (solid : text.IsSolid) :
    IsTrimmed text.trim ∧ Pads text text.trim := by
  have blank : ∀ char ∈ text.takeWhile isBlank, isBlank char :=
    fun _ member => List.mem_takeWhile_imp member
  have text_eq := List.takeWhile_append_dropWhile (p := isBlank) (l := text)
  have stops := List.head?_dropWhile_not isBlank text
  rw [← text_eq, isSolid_append_iff blank] at solid
  rw [Text.trim, trimStart]
  generalize text.takeWhile isBlank = left at blank text_eq
  generalize text.dropWhile isBlank = onward at solid text_eq stops
  rcases FieldOccurrence.trimEnd_append_blanks onward with
    ⟨right, onward_eq, rightBlank⟩
  rcases solid with ⟨char, member, solid⟩
  have nonempty := List.ne_nil_of_mem (mem_trimEnd member solid)
  refine ⟨⟨nonempty, fun first isFirst => ?_, fun last isLast => ?_⟩,
    left, right, by rw [← onward_eq, text_eq], blank, rightBlank⟩
  · rw [onward_eq, List.head?_append_of_ne_nil _ nonempty] at stops
    rw [Option.mem_def.mp isFirst] at stops
    exact stops
  · rw [trimEnd, List.getLast?_reverse] at isLast
    have ends := List.head?_dropWhile_not isBlank onward.reverse
    rw [Option.mem_def.mp isLast] at ends
    exact ends

theorem isBlankText_iff :
    CommandLine.isBlankText text = false ↔ text.IsSolid := by
  constructor
  · intro blank
    by_contra empty
    have all : ∀ char ∈ text, isBlank char := fun char member => by
      by_contra solid
      exact empty ⟨char, member, Bool.not_eq_true _ ▸ solid⟩
    have trimmed : text.trim = [] := by
      rw [Text.trim, trimStart, List.dropWhile_eq_nil_iff.mpr all]
      rfl
    rw [CommandLine.isBlankText, trimmed] at blank
    cases blank
  · intro solid
    rw [CommandLine.isBlankText, List.isEmpty_eq_false_iff]
    exact solid.trim.1.nonempty

theorem IsTrimmed.dropWhile (trimmed : core.IsTrimmed) {left : Text}
    (blank : ∀ char ∈ left, isBlank char) (right : Text) :
    (left ++ (core ++ right)).dropWhile isBlank = core ++ right := by
  rcases List.exists_cons_of_ne_nil trimmed.nonempty with ⟨first, rest, rfl⟩
  have solid := trimmed.starts first rfl
  rw [List.dropWhile_append_of_pos blank, List.cons_append,
    List.dropWhile_cons_of_neg (by simp [solid])]

end Trim

end Text

namespace CommandLine

/-- The parts of a declaration: what is written before its first equals sign, parted at
the first colon there, and what is written behind that sign. -/
structure Declaration where
  name : Text
  typeText : Text
  default : Option Text

namespace Declaration

def text (declaration : Declaration) : Text :=
  declaration.name ++ ':' :: (declaration.typeText ++
    match declaration.default with
    | some default => '=' :: default
    | none => [])

structure PartsOf (declaration : Declaration) (given : Text) : Prop where
  text_eq : given = declaration.text
  nameEquals : '=' ∉ declaration.name
  nameColon : ':' ∉ declaration.name
  typeEquals : '=' ∉ declaration.typeText

/-- Whether a name and a type are given, and a default only as JSON. -/
structure IsUsable (declaration : Declaration) : Prop where
  named : declaration.name.IsSolid
  typed : declaration.typeText.IsSolid
  readable : ∀ default ∈ declaration.default,
    (Json.ofText? jsonDepth default).isSome

def value? (declaration : Declaration) : Option Value :=
  (declaration.default.bind (Json.ofText? jsonDepth)).map Value.ofJson

def defaultText (declaration : Declaration) : Text :=
  match declaration.value? with
  | some value => ' ' :: '=' :: ' ' :: value.toDefault
  | none => []

/-- Whether nothing or a blank follows the dollar sign that a name begins with behind
its blanks. -/
def IsBare (declaration : Declaration) : Prop :=
  ∃ blanks rest, declaration.name = blanks ++ '$' :: rest ∧
    (∀ char ∈ blanks, Text.isBlank char) ∧
    ∀ first ∈ rest.head?, Text.isBlank first

/-- Whether a definition is what these parts declare: the name without its blanks and
its dollar sign, the type without its blanks, and the default as a value. -/
structure Defines (declaration : Declaration)
    (definition : VariableDefinition) : Prop where
  name : ∃ core, Text.Pads declaration.name core ∧ Text.IsTrimmed core ∧
    (core = '$' :: definition.name ∨
      core = definition.name ∧ core.head? ≠ some '$')
  typePadded : Text.Pads declaration.typeText definition.typeText
  typeTrimmed : Text.IsTrimmed definition.typeText
  default : definition.default = declaration.value?
  rendered : definition.render = '$' :: (definition.name ++
    ':' :: ' ' :: (definition.typeText ++ declaration.defaultText))

def definition (declaration : Declaration) : VariableDefinition :=
  .declare declaration.name.trim declaration.typeText.trim declaration.value?

section Parts

variable {given name typeText : Text}

theorem partsOf_none_iff : PartsOf ⟨name, typeText, none⟩ given ↔
    Text.splitOnce '=' given = none ∧
      Text.splitOnce ':' given = some (name, typeText) := by
  rw [Text.splitOnce_eq_none_iff, Text.splitOnce_eq_some_iff]
  constructor
  · rintro ⟨rfl, nameEquals, nameColon, typeEquals⟩
    simp [text, nameEquals, nameColon, typeEquals]
  · rintro ⟨absent, rfl, nameColon⟩
    simp only [List.mem_append, List.mem_cons, not_or] at absent
    exact ⟨by simp [text], absent.1, nameColon, absent.2.2⟩

theorem partsOf_some_iff {default : Text} :
    PartsOf ⟨name, typeText, some default⟩ given ↔
      ∃ declared, Text.splitOnce '=' given = some (declared, default) ∧
        Text.splitOnce ':' declared = some (name, typeText) := by
  simp only [Text.splitOnce_eq_some_iff]
  constructor
  · rintro ⟨rfl, nameEquals, nameColon, typeEquals⟩
    refine ⟨name ++ ':' :: typeText, ⟨by simp [text], ?_⟩, rfl, nameColon⟩
    simp [nameEquals, typeEquals]
  · rintro ⟨_, ⟨rfl, absent⟩, rfl, nameColon⟩
    simp only [List.mem_append, List.mem_cons, not_or] at absent
    exact ⟨by simp [text], absent.1, nameColon, absent.2.2⟩

end Parts

end Declaration

/-! What is read, and as what. -/

section Reading

variable {given : Text} {default : Option Value} {definition : VariableDefinition}

theorem readDeclaration_eq_ok_iff {declared : Text} :
    readDeclaration given declared default = .ok definition ↔
      ∃ name typeText, Text.splitOnce ':' declared = some (name, typeText) ∧
        Text.IsSolid name ∧ Text.IsSolid typeText ∧
        definition = .declare (Text.trim name) (Text.trim typeText) default := by
  rw [readDeclaration]
  constructor
  · intro read
    split at read
    · next name typeText parts =>
      split at read
      · cases read
      · next solid =>
        rw [Bool.not_eq_true, Bool.or_eq_false_iff, Text.isBlankText_iff,
          Text.isBlankText_iff] at solid
        exact ⟨name, typeText, parts, solid.1, solid.2,
          (Except.ok.inj read).symm⟩
    · cases read
  · rintro ⟨name, typeText, parts, named, typed, rfl⟩
    rw [← Text.isBlankText_iff] at named typed
    simp [parts, named, typed]

theorem readDefinition_eq_ok_iff :
    readDefinition given = .ok definition ↔
      ∃ declaration : Declaration, declaration.PartsOf given ∧
        declaration.IsUsable ∧ definition = declaration.definition := by
  rw [readDefinition]
  constructor
  · intro read
    split at read
    · next declared default equals =>
      split at read
      · next json isJson =>
        rcases readDeclaration_eq_ok_iff.mp read with
          ⟨name, typeText, colon, named, typed, rfl⟩
        refine ⟨⟨name, typeText, some default⟩,
          Declaration.partsOf_some_iff.mpr ⟨declared, equals, colon⟩,
          ⟨named, typed, ?_⟩, ?_⟩
        · rintro other ⟨⟩
          simp [isJson]
        · simp [Declaration.definition, Declaration.value?, isJson]
      · cases read
    · next equals =>
      rcases readDeclaration_eq_ok_iff.mp read with
        ⟨name, typeText, colon, named, typed, rfl⟩
      exact ⟨⟨name, typeText, none⟩,
        Declaration.partsOf_none_iff.mpr ⟨equals, colon⟩,
        ⟨named, typed, nofun⟩, rfl⟩
  · rintro ⟨⟨name, typeText, default⟩, parts, ⟨named, typed, readable⟩, rfl⟩
    cases default with
    | none =>
        rcases Declaration.partsOf_none_iff.mp parts with ⟨equals, colon⟩
        simp only [equals]
        exact readDeclaration_eq_ok_iff.mpr
          ⟨name, typeText, colon, named, typed, rfl⟩
    | some default =>
        rcases Declaration.partsOf_some_iff.mp parts with
          ⟨declared, equals, colon⟩
        rcases Option.isSome_iff_exists.mp (readable default rfl) with
          ⟨json, isJson⟩
        simp only [equals, isJson]
        refine readDeclaration_eq_ok_iff.mpr
          ⟨name, typeText, colon, named, typed, ?_⟩
        simp [Declaration.definition, Declaration.value?, isJson]

end Reading

/-! What is left of a name once its blanks and its dollar sign are dropped. -/

section Declaring

variable {declaration : Declaration} {given : Text}

theorem name_definition_cases (declaration : Declaration) :
    declaration.name.trim = '$' :: declaration.definition.name ∨
      declaration.name.trim = declaration.definition.name ∧
        declaration.name.trim.head? ≠ some '$' := by
  rw [Declaration.definition, VariableDefinition.name_declare]
  by_cases dollar : declaration.name.trim.head? = some '$'
  · rw [if_pos dollar]
    rcases List.head?_eq_some_iff.mp dollar with ⟨rest, trim_eq⟩
    exact .inl (by rw [trim_eq]; rfl)
  · rw [if_neg dollar]
    exact .inr ⟨rfl, dollar⟩

theorem defines_definition (usable : declaration.IsUsable) :
    declaration.Defines declaration.definition where
  name := ⟨declaration.name.trim, usable.named.trim.2, usable.named.trim.1,
    name_definition_cases declaration⟩
  typePadded := usable.typed.trim.2
  typeTrimmed := usable.typed.trim.1
  default := rfl
  rendered := by
    have default_eq : declaration.definition.default = declaration.value? := rfl
    rw [VariableDefinition.render, default_eq, Declaration.defaultText]
    cases declaration.value? <;> simp

theorem isSome_value?_iff (parts : declaration.PartsOf given)
    (usable : declaration.IsUsable) :
    declaration.value?.isSome ↔ '=' ∈ given := by
  rcases declaration with ⟨name, typeText, default⟩
  cases default with
  | none =>
      have equals := (Declaration.partsOf_none_iff.mp parts).1
      exact iff_of_false nofun (Text.splitOnce_eq_none_iff.mp equals)
  | some default =>
      have readable := usable.readable default rfl
      refine iff_of_true (by simpa [Declaration.value?] using readable) ?_
      simp [parts.text_eq, Declaration.text]

theorem isTrimmed_dollar : Text.IsTrimmed ['$'] where
  nonempty := List.cons_ne_nil _ _
  starts := by rintro _ ⟨⟩; rfl
  ends := by rintro _ ⟨⟩; rfl

theorem exists_of_dollar (usable : declaration.IsUsable) {blanks rest : Text}
    (name_eq : declaration.name = blanks ++ '$' :: rest)
    (blank : ∀ char ∈ blanks, Text.isBlank char) :
    ∃ right, rest = declaration.definition.name ++ right ∧
      (∀ char ∈ right, Text.isBlank char) ∧
      Text.IsTrimmed ('$' :: declaration.definition.name) := by
  rcases usable.named.trim with
    ⟨trimmed, left, right, padded_eq, leftBlank, rightBlank⟩
  have onward : declaration.name.trim ++ right = '$' :: rest := by
    rw [← trimmed.dropWhile leftBlank right, ← padded_eq, name_eq]
    exact isTrimmed_dollar.dropWhile blank rest
  rcases name_definition_cases declaration with dollar | ⟨_, plain⟩
  · rw [dollar] at onward trimmed
    exact ⟨right, (List.cons.inj onward).2.symm, rightBlank, trimmed⟩
  · rcases List.exists_cons_of_ne_nil trimmed.nonempty with
      ⟨first, others, core_eq⟩
    rw [core_eq] at onward plain
    exact absurd (congrArg some (List.cons.inj onward).1) plain

theorem name_eq_nil_iff (usable : declaration.IsUsable) :
    declaration.definition.name = [] ↔ Text.Pads declaration.name ['$'] := by
  rcases usable.named.trim with ⟨trimmed, padded⟩
  constructor
  · intro empty
    rcases name_definition_cases declaration with dollar | ⟨same, _⟩
    · rwa [dollar, empty] at padded
    · exact absurd (same.trans empty) trimmed.nonempty
  · rintro ⟨left, right, name_eq, leftBlank, rightBlank⟩
    rw [List.singleton_append] at name_eq
    rcases exists_of_dollar usable name_eq leftBlank with
      ⟨behind, rfl, _, solid⟩
    rcases List.eq_nil_or_concat declaration.definition.name with
      empty | ⟨start, last, rest_eq⟩
    · exact empty
    · rw [rest_eq, List.concat_eq_append] at solid rightBlank
      have isLast : ('$' :: (start ++ [last])).getLast? = some last :=
        List.getLast?_concat (l := '$' :: start)
      have blank := rightBlank last (by simp)
      rw [solid.ends last isLast] at blank
      cases blank

theorem isTrimmed_name_iff (usable : declaration.IsUsable) :
    Text.IsTrimmed declaration.definition.name ↔ ¬ declaration.IsBare := by
  rcases usable.named.trim with ⟨trimmed, left, right, name_eq, blank, rightBlank⟩
  constructor
  · rintro isTrimmed ⟨blanks, rest, other_eq, otherBlank, stops⟩
    rcases exists_of_dollar usable other_eq otherBlank with ⟨behind, rfl, _, _⟩
    rcases List.exists_cons_of_ne_nil isTrimmed.nonempty with
      ⟨first, others, rest_eq⟩
    rw [rest_eq] at isTrimmed stops
    have solid := isTrimmed.starts first rfl
    rw [stops first rfl] at solid
    cases solid
  · intro guarded
    rcases name_definition_cases declaration with dollar | ⟨same, _⟩
    · rw [dollar] at trimmed name_eq
      generalize declaration.definition.name = name at trimmed name_eq
      cases name with
      | nil =>
          exact absurd ⟨left, right, name_eq, blank, fun first isFirst =>
            rightBlank first (List.mem_of_head? isFirst)⟩ guarded
      | cons first others =>
          refine ⟨List.cons_ne_nil _ _, ?_, fun last isLast => ?_⟩
          · rintro _ ⟨⟩
            by_contra bare
            refine guarded ⟨left, first :: (others ++ right), name_eq, blank, ?_⟩
            rintro _ ⟨⟩
            simpa using bare
          · rw [← List.getLast?_cons_cons] at isLast
            exact trimmed.ends last isLast
    · rwa [← same]

end Declaring

/-- A declaration is read just when it is usable. It then declares its type without the
blanks around it, its default just when an equals sign is given, and its name without the
blanks around it and without its dollar sign. A name is left unless it is a dollar sign
alone, and it is left without blanks unless its dollar sign is bare. -/
theorem readDefinition_usable (given : Text) :
    ((∃ definition, readDefinition given = .ok definition) ↔
      ∃ declaration : Declaration, declaration.PartsOf given ∧
        declaration.IsUsable) ∧
      ∀ definition, readDefinition given = .ok definition →
        ∃ declaration : Declaration, declaration.PartsOf given ∧
          declaration.IsUsable ∧ declaration.Defines definition ∧
          (definition.default.isSome ↔ '=' ∈ given) ∧
          (definition.name = [] ↔ Text.Pads declaration.name ['$']) ∧
          (Text.IsTrimmed definition.name ↔ ¬ declaration.IsBare) := by
  constructor
  · constructor
    · rintro ⟨definition, read⟩
      rcases readDefinition_eq_ok_iff.mp read with ⟨declaration, parts, usable, _⟩
      exact ⟨declaration, parts, usable⟩
    · rintro ⟨declaration, parts, usable⟩
      exact ⟨declaration.definition,
        readDefinition_eq_ok_iff.mpr ⟨declaration, parts, usable, rfl⟩⟩
  · intro definition read
    rcases readDefinition_eq_ok_iff.mp read with
      ⟨declaration, parts, usable, rfl⟩
    exact ⟨declaration, parts, usable, defines_definition usable,
      isSome_value?_iff parts usable, name_eq_nil_iff usable,
      isTrimmed_name_iff usable⟩

def spacedDeclaration : Text := " $id : [ID!]! = null ".toList

theorem readDefinition_usable_spaced :
    readDefinition spacedDeclaration =
        .ok ⟨"id".toList, "[ID!]!".toList, some .null⟩ ∧
      ∃ declaration : Declaration, declaration.PartsOf spacedDeclaration ∧
        declaration.IsUsable ∧
        declaration.Defines ⟨"id".toList, "[ID!]!".toList, some .null⟩ ∧
        ¬ declaration.IsBare := by
  have read : readDefinition spacedDeclaration =
      .ok ⟨"id".toList, "[ID!]!".toList, some .null⟩ := by rfl
  have trimmed : Text.IsTrimmed "id".toList :=
    ⟨nofun, by rintro _ ⟨⟩; rfl, by rintro _ ⟨⟩; rfl⟩
  rcases (readDefinition_usable spacedDeclaration).2 _ read with
    ⟨declaration, parts, usable, defines, _, _, trimmed_iff⟩
  exact ⟨read, declaration, parts, usable, defines, trimmed_iff.mp trimmed⟩

/-- A blank behind the dollar sign remains before the name. -/
theorem not_forall_name_isTrimmed :
    ¬ ∀ (given : Text) (definition : VariableDefinition),
      readDefinition given = .ok definition → Text.IsTrimmed definition.name := by
  intro every
  have trimmed : Text.IsTrimmed " x".toList :=
    every "$ x:ID".toList ⟨" x".toList, "ID".toList, none⟩ rfl
  exact absurd (trimmed.starts ' ' rfl) (by decide)

example : readDefinition "$:ID".toList = .ok ⟨[], "ID".toList, none⟩ := rfl

end CommandLine

end QueryAssembly
