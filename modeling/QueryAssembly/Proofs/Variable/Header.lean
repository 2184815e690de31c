import QueryAssembly.Proofs.Fragment.Behind
import QueryAssembly.Variable.Inject

namespace QueryAssembly

/-! The header of an operation is its keyword and its optional name. Fragments,
aliases and directives leave it alone, and definitions are inserted right after
it unless a parenthesis follows. -/

namespace Operation

def header (operation : Operation) : Text :=
  operation.kind.keyword ++ match operation.name with
    | some name => ' ' :: name
    | none => []

def body (operation : Operation) : Text :=
  ' ' :: '\x7b' :: '\n' :: (operation.tree.render 1 ++ ['\x7d'])

/-- Whether the operation has no name or one that documents may use. -/
def IsNamed (operation : Operation) : Prop :=
  ∀ name ∈ operation.name, name.IsName

theorem render_eq {operation : Operation}
    (selected : operation.tree.isEmpty = false)
    (definitions : VariableDefinitions) :
    operation.render definitions =
      .ok (operation.header ++ (definitions.render ++ operation.body)) := by
  cases name_eq : operation.name <;>
    simp [render, selected, header, body, name_eq]

theorem guarded_body (operation : Operation) : Guarded operation.body :=
  ⟨_, rfl⟩

theorem keyword_isName (kind : OperationKind) : kind.keyword.IsName := by
  cases kind <;> decide

variable {operation : Operation}

theorem header_char (named : operation.IsNamed) :
    ∀ char ∈ operation.header, char = ' ' ∨ Text.isNameContinue char := by
  intro char member
  rcases List.mem_append.mp member with inKeyword | inName
  · exact .inr ((keyword_isName operation.kind).isWord.2 char inKeyword)
  · cases name_eq : operation.name with
    | none =>
        rw [name_eq] at inName
        cases inName
    | some name =>
        rw [name_eq] at inName
        rcases List.mem_cons.mp inName with rfl | inName
        · exact .inl rfl
        · exact .inr ((named name name_eq).isWord.2 char inName)

theorem neutral_header (named : operation.IsNamed) :
    Neutral operation.header := by
  apply Neutral.of_plain
  · intro char member
    rcases header_char named char member with rfl | continues
    · rfl
    · exact Position.isPlain_of_isNameContinue continues
  · intro char member
    rcases header_char named char member with rfl | continues
    · decide
    · exact Text.brace_apart continues

theorem unspread_header (named : operation.IsNamed)
    (entries : List (Text × Text)) :
    Fragment.Unspread entries operation.header := by
  refine ⟨(neutral_header named).closed, fun entry _ member => ?_⟩
  have dot : '.' ∈ operation.header := by
    rw [← Fragment.flatMap_fill_cut (Fragment.only entry.1) .start
      operation.header]
    exact List.mem_flatMap.mpr ⟨_, member, List.mem_cons_self⟩
  rcases header_char named '.' dot with equal | continues
  · exact absurd equal (by decide)
  · exact absurd continues (by decide)

theorem isDefinitionName_keyword (kind : OperationKind) :
    FieldOccurrence.isDefinitionName (kind.keyword ++ [' ']) = true := by
  cases kind <;> decide

theorem untouched_header (named : operation.IsNamed) {field : Text}
    (word : field.IsWord) (different : field ≠ operation.kind.keyword) :
    FieldOccurrence.Untouched operation.header field := by
  intro back stops before after isAt
  rcases isAt with ⟨text_eq, opens, closes⟩
  rcases word.split (.inr stops) text_eq with
    ⟨between, header_eq, after_eq⟩ | ⟨between, before_eq, _⟩
  · exfalso
    have outsideKeyword : ∀ inside rest : Text, after = inside ++ rest →
        operation.kind.keyword ≠ before ++ (field ++ inside) := by
      intro inside rest after_eq keyword_eq
      have opens' : FieldOccurrence.AdmitsBefore ([] ++ before) := opens
      rw [after_eq] at closes
      rcases FieldOccurrence.eq_of_within_word
          (keyword_isName operation.kind).isWord.2 keyword_eq opens' closes with
        ⟨rfl, rfl⟩
      rw [List.nil_append, List.append_nil] at keyword_eq
      exact different keyword_eq.symm
    cases name_eq : operation.name with
    | none =>
        rw [header, name_eq, List.append_nil] at header_eq
        exact outsideKeyword between back after_eq header_eq
    | some name =>
        have tail_stops : Text.continuesName (' ' :: name) = false := rfl
        rw [header, name_eq] at header_eq
        rcases word.split (.inr tail_stops) header_eq with
          ⟨inside, keyword_eq, between_eq⟩ | ⟨inside, before_eq, tail_eq⟩
        · refine outsideKeyword inside (' ' :: name ++ back) ?_ keyword_eq
          rw [after_eq, between_eq, List.append_assoc]
        · cases inside with
          | nil =>
              rcases List.exists_cons_of_ne_nil word.1 with ⟨first, rest, rfl⟩
              have continues := word.2 first List.mem_cons_self
              rw [← (List.cons.inj tail_eq).1] at continues
              exact absurd continues (by decide)
          | cons char inner =>
              rcases List.cons.inj tail_eq with ⟨rfl, name_split⟩
              rw [before_eq, List.append_cons] at opens
              rw [after_eq] at closes
              rcases FieldOccurrence.eq_of_within_word
                  (named name name_eq).isWord.2 name_split opens closes with
                ⟨rfl, _⟩
              have undefined := opens.undefined
              rw [List.append_nil, isDefinitionName_keyword] at undefined
              cases undefined
  · rw [before_eq, List.length_append]
    omega

end Operation

end QueryAssembly
