import QueryAssembly.Proofs.Field.Divergence
import QueryAssembly.Proofs.Variable.Insertion
import QueryAssembly.Session.Build

namespace QueryAssembly

/-! An operation under construction writes its definitions before fragments,
aliases and directives are seen to; its text, loaded as a document, is given
them afterwards. Both lead to the same query as long as nothing in the list is
taken for a field. -/

namespace Session

def fields (session : Session) : List Text :=
  FieldAttachment.fields session.aliases session.directives

structure WellNamed (session : Session) (operation : Operation) : Prop where
  operation : operation.IsNamed
  fragments : ∀ entry ∈ session.fragments.entries, entry.1.IsName
  aliases : ∀ entry ∈ session.aliases.entries,
    entry.1.IsName ∧ entry.2.aliasName.IsName
  directives : ∀ entry ∈ session.directives.entries,
    entry.1.IsName ∧ entry.2.directives ≠ []

/-- A definitions list that ends in code, balances its braces, and has neither
spreads of known fragments nor directives. -/
structure PlainList (session : Session) : Prop where
  neutral : Neutral session.definitions.render
  unspread : ∀ name ∈ session.fragments.keys,
    Fragment.hasSpread session.definitions.render name = .ok false
  undirected : ('@', LexicalState.code) ∉ labelsOf session.definitions.render

/-- When a list is to be written, the keyword of the operation is not also
given an alias or directives. -/
def KeywordApart (session : Session) (operation : Operation) : Prop :=
  ¬ session.definitions.isEmpty → operation.kind.keyword ∉ session.fields

def compose (session : Session) (base : Text) :
    Except ComposeError ComposedQuery := do
  let resolved ← Fragment.resolve base session.fragments
  match session.finishQuery resolved with
  | .ok query => return ⟨query, session.variableValues⟩
  | .error reason => throw (.fault reason)

variable {session : Session} {operation : Operation} {text : Text}

theorem build_of_base {base : Text} (found : session.baseDocument = .ok base) :
    session.build = session.compose base := by
  rw [build, found]
  rfl

theorem selected_of_render {definitions : VariableDefinitions}
    (rendered : operation.render definitions = .ok text) :
    operation.tree.isEmpty = false := by
  by_contra empty
  rw [Bool.not_eq_false] at empty
  rw [Operation.render, if_pos empty] at rendered
  cases rendered

theorem trim_render (operation : Operation) :
    Text.trim (operation.header ++ operation.body) =
      operation.header ++ operation.body := by
  obtain ⟨first, rest, keyword_eq, solid⟩ : ∃ first rest,
      operation.kind.keyword = first :: rest ∧
        Text.isBlank first = false := by
    cases operation.kind <;> exact ⟨_, _, rfl, by decide⟩
  have last : (operation.header ++ operation.body).getLast? = some '\x7d' := by
    rw [Operation.body, ← List.cons_append, ← List.cons_append,
      ← List.cons_append, ← List.append_assoc, List.getLast?_concat]
  refine Text.trim_eq_self ?_ ?_
  · rw [Operation.header, keyword_eq]
    simpa using solid
  · rw [last]
    rfl

theorem load_build (rendered : operation.render ∅ = .ok text) :
    (session.load text).build =
      session.compose (operation.header ++ operation.body) := by
  have selected := selected_of_render rendered
  rw [Operation.render_eq selected] at rendered
  cases rendered
  refine build_of_base ?_
  exact congrArg Except.ok (trim_render operation)

theorem fluent_build (fluent : session.operation = some operation)
    (rendered : operation.render ∅ = .ok text) :
    session.build = session.compose (operation.header ++
      (session.definitions.render ++ operation.body)) := by
  refine build_of_base ?_
  rw [baseDocument, fluent]
  exact Operation.render_eq (selected_of_render rendered) session.definitions

section Registries

theorem isName_of_mem_fields (named : WellNamed session operation)
    {field : Text} (member : field ∈ session.fields) : field.IsName := by
  rcases List.mem_append.mp member with aliased | directed
  · rcases Registry.exists_of_mem_keys aliased with ⟨value, entry, _⟩
    exact (named.aliases _ entry).1
  · rcases Registry.exists_of_mem_keys (List.mem_filter.mp directed).1 with
      ⟨value, entry, _⟩
    exact (named.directives _ entry).1

theorem marked_of_mem_fields (named : WellNamed session operation)
    {field : Text} (member : field ∈ session.fields) :
    FieldOccurrence.Marked session.aliases session.directives field := by
  unfold FieldOccurrence.Marked
  cases given_eq : session.aliases.get? field with
  | some given =>
      exact (named.aliases _ (Registry.get?_eq_some_iff.mp given_eq)).2
  | none =>
      rcases List.mem_append.mp member with aliased | directed
      · rcases Registry.exists_of_mem_keys aliased with ⟨given, _, found⟩
        rw [given_eq] at found
        cases found
      · rcases Registry.exists_of_mem_keys (List.mem_filter.mp directed).1 with
          ⟨held, entry, found⟩
        exact ⟨held, found, (named.directives _ entry).2⟩

theorem nodup_fields (session : Session) : session.fields.Nodup := by
  refine List.nodup_append.mpr ⟨session.aliases.distinct,
    session.directives.distinct.filter _, ?_⟩
  intro field aliased other directed equal
  subst equal
  have unaliased := (List.mem_filter.mp directed).2
  simp [Registry.contains, aliased] at unaliased

end Registries

/-! The selection set comes to the same text behind its header and behind the header
with a list. Only the list may change on the way. -/

section Composing

def finish (session : Session) (attached : Text) :
    Except ComposeError ComposedQuery :=
  match VariableDefinitions.inject attached session.definitions with
  | .ok query => .ok ⟨query, session.variableValues⟩
  | .error reason => .error (.fault reason)

theorem compose_of_error {base : Text} {cause : ComposeError}
    (failed : Fragment.resolve base session.fragments = .error cause) :
    session.compose base = .error cause := by
  rw [compose, failed]
  rfl

theorem compose_of_attached {base resolved attached : Text}
    (resolves : Fragment.resolve base session.fragments = .ok resolved)
    (attaches : session.fields.foldlM
      (FieldAttachment.applyTo session.aliases session.directives) resolved =
        .ok attached) :
    session.compose base = session.finish attached := by
  have applied : FieldAttachment.apply resolved session.aliases
      session.directives = .ok attached := attaches
  rw [compose, resolves, ok_bind, finishQuery, applied, ok_bind, finish]
  cases VariableDefinitions.inject attached session.definitions <;> rfl

/-- A front that no pass of the session touches. -/
structure Clean (session : Session) (front : Text) : Prop where
  neutral : Neutral front
  unspread : Fragment.Unspread session.fragments.entries front
  untouched : ∀ field ∈ session.fields,
    FieldOccurrence.Untouched front field

theorem clean_header (named : WellNamed session operation)
    (apart : operation.kind.keyword ∉ session.fields) :
    session.Clean operation.header where
  neutral := Operation.neutral_header named.operation
  unspread := Operation.unspread_header named.operation _
  untouched _ member :=
    Operation.untouched_header named.operation
      (isName_of_mem_fields named member).isWord
      fun equal => apart (equal ▸ member)

theorem enclosed_render {definitions : VariableDefinitions}
    (nonempty : ¬ definitions.isEmpty) :
    FieldOccurrence.Enclosed definitions.render := by
  rw [VariableDefinitions.render, if_neg nonempty]
  exact ⟨_, rfl⟩

theorem unspread_list (named : WellNamed session operation)
    (plain : PlainList session) :
    Fragment.Unspread session.fragments.entries
      session.definitions.render := by
  refine ⟨plain.neutral.closed, fun entry member spreads => ?_⟩
  have key : entry.1 ∈ session.fragments.keys := List.mem_map_of_mem member
  have absent := plain.unspread entry.1 key
  rw [Fragment.hasSpread_eq (Fragment.only_eq_true_iff.mpr rfl)
    (named.fragments entry member).isWord] at absent
  simp [spreads] at absent

theorem unspread_header_list (named : WellNamed session operation)
    (plain : PlainList session)
    (enclosed : FieldOccurrence.Enclosed session.definitions.render) :
    Fragment.Unspread session.fragments.entries
      (operation.header ++ session.definitions.render) := by
  refine (Operation.unspread_header named.operation _).append
    (unspread_list named plain) ?_
  rcases enclosed with ⟨inner, list_eq⟩
  rw [list_eq]
  rfl

theorem clean_list (named : WellNamed session operation)
    (plain : PlainList session)
    (enclosed : FieldOccurrence.Enclosed session.definitions.render)
    (clean : session.Clean operation.header)
    (absent : ∀ field ∈ session.fields,
      FieldOccurrence.first? session.definitions.render field = .ok none) :
    session.Clean (operation.header ++ session.definitions.render) := by
  refine ⟨clean.neutral.append plain.neutral,
    unspread_header_list named plain enclosed, fun field member => ?_⟩
  have word := (isName_of_mem_fields named member).isWord
  exact (clean.untouched field member).append clean.neutral enclosed word
    ((FieldOccurrence.first?_eq_none_iff word _).mp (absent field member))

theorem compose_behind (named : WellNamed session operation) :
    (∃ middle next, Guarded next ∧
        (∀ front, Fragment.Unspread session.fragments.entries front →
          Fragment.resolve (front ++ operation.body) session.fragments =
            .ok (front ++ middle)) ∧
        ∀ front, session.Clean front →
          session.compose (front ++ operation.body) =
            session.finish (front ++ next)) ∨
      ∃ cause, ∀ front, Fragment.Unspread session.fragments.entries front →
        session.compose (front ++ operation.body) = .error cause := by
  rcases Fragment.resolve_behind
      (fun entry member => (named.fragments entry member).isWord)
      (Operation.guarded_body operation) with
    ⟨middle, guarded, resolves⟩ | ⟨cause, fails⟩
  · rcases FieldOccurrence.apply_front
        (fun field member => (isName_of_mem_fields named member).isWord)
        guarded with
      ⟨next, nextGuarded, attaches⟩
    refine .inl ⟨middle, next, nextGuarded, resolves, fun front clean => ?_⟩
    exact compose_of_attached (resolves front clean.unspread)
      (attaches front clean.neutral clean.untouched)
  · exact .inr ⟨cause, fun front unspread =>
      compose_of_error (fails front unspread)⟩

theorem finish_header (named : WellNamed session operation) {back : Text}
    (guarded : Guarded back) :
    session.finish (operation.header ++ back) =
      .ok ⟨operation.header ++ (session.definitions.render ++ back),
        session.variableValues⟩ := by
  rw [finish, VariableDefinitions.inject_guarded named.operation
    session.definitions guarded]

theorem finish_list (named : WellNamed session operation) {list : Text}
    (enclosed : FieldOccurrence.Enclosed list) (back : Text) :
    session.finish (operation.header ++ (list ++ back)) =
      .ok ⟨operation.header ++ (list ++ back), session.variableValues⟩ := by
  rcases enclosed with ⟨inner, rfl⟩
  have declared := VariableDefinitions.inject_declared named.operation
    session.definitions (inner ++ ')' :: back)
  rw [finish]
  simp only [List.cons_append, List.append_assoc, List.nil_append] at declared ⊢
  rw [declared]

theorem compose_list (named : WellNamed session operation)
    (plain : PlainList session) (apart : KeywordApart session operation)
    (absent : ∀ field ∈ session.fields,
      FieldOccurrence.first? session.definitions.render field = .ok none) :
    session.compose (operation.header ++
        (session.definitions.render ++ operation.body)) =
      session.compose (operation.header ++ operation.body) := by
  by_cases empty : session.definitions.isEmpty
  · rw [VariableDefinitions.render_of_isEmpty empty, List.nil_append]
  · have enclosed := enclosed_render empty
    have clean := clean_header named (apart empty)
    have cleanList := clean_list named plain enclosed clean absent
    rw [← List.append_assoc]
    rcases compose_behind named with
      ⟨middle, next, guarded, _, composes⟩ | ⟨cause, fails⟩
    · rw [composes _ cleanList, composes _ clean, finish_header named guarded,
        List.append_assoc, finish_list named enclosed]
    · rw [fails _ cleanList.unspread, fails _ clean.unspread]

theorem compose_list_of_error {cause : ComposeError}
    (named : WellNamed session operation) (plain : PlainList session)
    (apart : KeywordApart session operation)
    (failed : session.compose (operation.header ++ operation.body) =
      .error cause) :
    session.compose (operation.header ++
      (session.definitions.render ++ operation.body)) = .error cause := by
  by_cases empty : session.definitions.isEmpty
  · rwa [VariableDefinitions.render_of_isEmpty empty, List.nil_append]
  · have clean := clean_header named (apart empty)
    rcases compose_behind named with
      ⟨middle, next, guarded, _, composes⟩ | ⟨found, fails⟩
    · rw [composes _ clean, finish_header named guarded] at failed
      cases failed
    · have unspread := unspread_header_list named plain (enclosed_render empty)
      rw [← failed, ← List.append_assoc, fails _ unspread,
        fails _ clean.unspread]

theorem inject_diverged (named : WellNamed session operation)
    {list attached : Text} (enclosed : FieldOccurrence.Enclosed list)
    (diverged : FieldOccurrence.Diverged session.aliases operation.header list
      [] attached) :
    VariableDefinitions.inject attached session.definitions = .ok attached := by
  rcases diverged with ⟨before, field, after, rest, isAt, word, _, _, rfl⟩
  rcases enclosed.around word isAt.text_eq with ⟨⟨inner, before_eq⟩, _⟩
  rw [before_eq]
  exact VariableDefinitions.inject_declared named.operation _ _

theorem compose_list_ne {composed : ComposedQuery}
    (named : WellNamed session operation) (plain : PlainList session)
    (apart : KeywordApart session operation)
    (occurs : ∃ field ∈ session.fields, ∃ before after,
      FieldOccurrence.At session.definitions.render field before after)
    (composes : session.compose (operation.header ++ operation.body) =
      .ok composed) :
    session.compose (operation.header ++
      (session.definitions.render ++ operation.body)) ≠ .ok composed := by
  have nonempty : ¬ session.definitions.isEmpty := by
    intro empty
    rcases occurs with ⟨field, member, before, after, isAt⟩
    have text_eq := isAt.text_eq
    rw [VariableDefinitions.render_of_isEmpty empty] at text_eq
    have none := (List.append_eq_nil_iff.mp
      (List.append_eq_nil_iff.mp text_eq.symm).2).1
    exact (isName_of_mem_fields named member).1 none
  have enclosed := enclosed_render nonempty
  have clean := clean_header named (apart nonempty)
  rcases compose_behind named with
    ⟨middle, next, guarded, resolves, attached⟩ | ⟨cause, fails⟩
  · rw [attached _ clean, finish_header named guarded] at composes
    cases composes
    have markable : ∀ field ∈ session.fields, FieldOccurrence.Markable
        session.aliases session.directives operation.header field :=
      fun field member => ⟨(isName_of_mem_fields named member).isWord,
        marked_of_mem_fields named member, clean.untouched field member⟩
    rcases FieldOccurrence.diverges enclosed clean.neutral markable
        (nodup_fields session) occurs middle with
      ⟨final, run, diverged⟩
    rw [← List.append_assoc] at run
    rw [← List.append_assoc, compose_of_attached
      (resolves _ (unspread_header_list named plain enclosed)) run, finish,
      inject_diverged named enclosed diverged]
    intro same
    have query_eq := congrArg ComposedQuery.query (Except.ok.inj same)
    exact diverged.ne enclosed plain.undirected next query_eq
  · rw [fails _ clean.unspread] at composes
    cases composes

end Composing

/-- The query of an operation is that of its text in two cases only: neither can
be composed, or no field that is given an alias or directives occurs in the
definitions list. -/
theorem build_eq_build_load_iff (session : Session) (operation : Operation)
    (text : Text) (fluent : session.operation = some operation)
    (rendered : operation.render ∅ = .ok text)
    (named : WellNamed session operation) (plain : PlainList session)
    (apart : KeywordApart session operation) :
    session.build = (session.load text).build ↔
      (∃ cause, (session.load text).build = .error cause) ∨
        ∀ field ∈ session.fields,
          FieldOccurrence.first? session.definitions.render field =
            .ok none := by
  rw [fluent_build fluent rendered, load_build rendered]
  constructor
  · intro same
    cases composes : session.compose (operation.header ++ operation.body) with
    | error cause => exact .inl ⟨cause, rfl⟩
    | ok composed =>
        rw [composes] at same
        refine .inr fun field member => ?_
        have word := (isName_of_mem_fields named member).isWord
        rw [FieldOccurrence.first?_eq_none_iff word]
        intro before after isAt
        exact compose_list_ne named plain apart
          ⟨field, member, before, after, isAt⟩ composes same
  · rintro (⟨cause, failed⟩ | absent)
    · rw [failed]
      exact compose_list_of_error named plain apart failed
    · exact compose_list named plain apart absent

def sortedOperation : Operation where
  kind := .query
  name := none
  tree := ((SelectionTree.openObject ∅ ⟨"user".toList, ∅, none⟩).1.addField
    ⟨"name".toList, ∅, none⟩).1

def sortedSession (field : Text) : Session where
  document := []
  operation := some sortedOperation
  fragments := ∅
  aliases := AliasRegistry.add ∅ ⟨field, "shown".toList, ∅⟩
  directives := ∅
  definitions := VariableDefinitions.add ∅
    (.declare "sort".toList "SortKey".toList (some (.enum "name".toList)))
  variableValues := ∅

def sortedText : Text :=
  "query \x7b\n  user \x7b\n    name\n  \x7d\n\x7d".toList

theorem wellNamed_sortedSession {field : Text} (isName : field.IsName) :
    WellNamed (sortedSession field) sortedOperation where
  operation _ member := nomatch member
  fragments _ member := nomatch member
  aliases entry member := by
    have shown : Text.IsName "shown".toList := by decide
    rw [List.mem_singleton.mp member]
    exact ⟨isName, shown⟩
  directives _ member := nomatch member

theorem build_sortedSession_user :
    (sortedSession "user".toList).operation = some sortedOperation ∧
      sortedOperation.render ∅ = .ok sortedText ∧
      WellNamed (sortedSession "user".toList) sortedOperation ∧
      PlainList (sortedSession "user".toList) ∧
      KeywordApart (sortedSession "user".toList) sortedOperation ∧
      (sortedSession "user".toList).build =
        ((sortedSession "user".toList).load sortedText).build := by
  have rendered : sortedOperation.render ∅ = .ok sortedText := rfl
  have named := @wellNamed_sortedSession "user".toList (by decide)
  have plain : PlainList (sortedSession "user".toList) :=
    ⟨⟨by decide +kernel, by decide +kernel⟩, by decide +kernel,
      by decide +kernel⟩
  have apart : KeywordApart (sortedSession "user".toList) sortedOperation := by
    intro _
    decide +kernel
  have absent : ∀ field ∈ (sortedSession "user".toList).fields,
      FieldOccurrence.first? (sortedSession "user".toList).definitions.render
        field = .ok none := by
    decide +kernel
  exact ⟨rfl, rendered, named, plain, apart,
    (build_eq_build_load_iff _ _ _ rfl rendered named plain apart).mpr
      (.inr absent)⟩

theorem not_forall_build_eq_build_load :
    ¬ ∀ (session : Session) (operation : Operation) (text : Text),
      session.operation = some operation → operation.render ∅ = .ok text →
      WellNamed session operation →
      session.build = (session.load text).build := by
  intro every
  have same := every (sortedSession "name".toList) sortedOperation sortedText
    rfl rfl (wellNamed_sortedSession (by decide))
  have different :
      (sortedSession "name".toList).build.map ComposedQuery.query ≠
        ((sortedSession "name".toList).load sortedText).build.map
          ComposedQuery.query := by
    decide +kernel
  exact different (congrArg (Except.map ComposedQuery.query) same)

end Session

end QueryAssembly
