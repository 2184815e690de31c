import QueryAssembly.Proofs.Field.Definitions
import QueryAssembly.Proofs.Field.Edit
import QueryAssembly.Proofs.Lexical.Join

namespace QueryAssembly

/-! What stands around a field that is replaced keeps its lexemes, except behind an
argument list that is dropped: a selection may follow the list at once, and then it
becomes one name with what is written in the place of the field. -/

namespace FieldAttachment

variable {aliases : AliasRegistry} {directives : DirectiveRegistry}
  {document field : Text}

/-- Whether what replaces a field ends in a name: the last directive has no
arguments, or there is no directive and no alias with arguments. -/
def endsBare (given : Option FieldAlias) (annotated : Option FieldDirectives) : Bool :=
  match annotated.bind fun held => held.directives.getLast? with
  | some directive => directive.arguments.isEmpty
  | none => given.all fun given => given.arguments.isEmpty

theorem getLast?_attached {name : Text} (word : name.IsWord) (front : Text)
    (arguments : Arguments) :
    ∃ last, (front ++ (name ++ Arguments.render arguments)).getLast? = some last ∧
      last ≠ '.' ∧ Text.isNameContinue last = arguments.isEmpty := by
  rw [Arguments.render]
  split
  · next bare =>
    rcases List.eq_nil_or_concat name with rfl | ⟨start, last, rfl⟩
    · exact absurd rfl word.1
    · have continues := word.2 last (by simp)
      refine ⟨last, by simp, Text.ne_of_isNameContinue continues rfl, ?_⟩
      rw [continues, bare]
  · next some =>
    refine ⟨')', ?_, by decide, ?_⟩
    · rw [← List.cons_append, ← List.append_assoc, ← List.append_assoc,
        List.getLast?_concat]
    · rw [Bool.not_eq_true] at some
      rw [some]
      rfl

theorem getLast?_named (isName : field.IsName) (given : Option FieldAlias) :
    ∃ last, (replacement field given none).getLast? = some last ∧ last ≠ '.' ∧
      Text.isNameContinue last = endsBare given none := by
  cases given with
  | none =>
      have bare : replacement field none none =
          [] ++ (field ++ Arguments.render ∅) := by
        have nothing : Arguments.render ∅ = [] := rfl
        simp [replacement, nothing]
      rw [bare]
      exact getLast?_attached isName.isWord [] ∅
  | some given =>
      have shape : replacement field (some given) none =
          (given.aliasName ++ [':', ' ']) ++
            (field ++ Arguments.render given.arguments) := by
        simp [replacement]
      rw [shape]
      exact getLast?_attached isName.isWord _ given.arguments

theorem getLast?_replacement (isName : field.IsName) (given : Option FieldAlias)
    {annotated : Option FieldDirectives}
    (names : ∀ held ∈ annotated, ∀ directive ∈ held.directives,
      directive.name.IsName) :
    ∃ last, (replacement field given annotated).getLast? = some last ∧ last ≠ '.' ∧
      Text.isNameContinue last = endsBare given annotated := by
  cases annotated with
  | none => exact getLast?_named isName given
  | some held =>
      rcases List.eq_nil_or_concat held.directives with
        undirected | ⟨front, directive, held_eq⟩
      · have same : replacement field given (some held) =
            replacement field given none := by
          simp [replacement, undirected]
        have bare : endsBare given (some held) = endsBare given none := by
          simp [endsBare, undirected]
        rw [same, bare]
        exact getLast?_named isName given
      · have bare : endsBare given (some held) = directive.arguments.isEmpty := by
          simp [endsBare, held_eq]
        have isName := names held rfl directive (by simp [held_eq])
        have shape : replacement field given (some held) =
            (replacement field given (some ⟨held.field, front⟩) ++ [' ', '@']) ++
              (directive.name ++ Arguments.render directive.arguments) := by
          simp [replacement, held_eq, Directive.render]
        rw [shape, bare]
        exact getLast?_attached isName.isWord _ directive.arguments

/-- Whether what follows a field keeps its lexemes behind the token that replaces it.
In code it does, unless an argument list is dropped in front of a name, and the token
ends in one. -/
def Keeps (token : Text) (bare : Bool) (dropped : Prop) (after : Text) : Prop :=
  match endState token with
  | .code => ¬(dropped ∧ bare ∧ after.continuesName)
  | .comment => lexemesOf after.fromLineBreak = lexemesOf after
  | .literal _ => after = []

section Replacing

variable {before dropped after token : Text} {given : Option FieldAlias}
  {annotated : Option FieldDirectives}

theorem lexemesOf_before (opens : FieldOccurrence.AdmitsBefore before) (text : Text) :
    lexemesOf (before ++ text) = lexemesOf before ++ lexemesOf text := by
  refine lexemesOf_append opens.code (fun ends => ?_) fun dot => ?_
  · rw [opens.not_continues] at ends
    cases ends
  · have apart := opens.apart
    rw [dot] at apart
    cases apart

theorem lexemesOf_replaced_iff (opens : FieldOccurrence.AdmitsBefore before)
    (isName : field.IsName)
    (names : ∀ held ∈ annotated, ∀ directive ∈ held.directives,
      directive.name.IsName)
    (closes : dropped = [] → after.continuesName = false) :
    lexemesOf (before ++ (replacement field given annotated ++ after)) =
        lexemesOf before ++
          (lexemesOf (replacement field given annotated) ++ lexemesOf after) ↔
      Keeps (replacement field given annotated) (endsBare given annotated)
        (dropped ≠ []) after := by
  rcases getLast?_replacement isName given names with ⟨last, last_eq, solid, bare⟩
  have apart : (replacement field given annotated).getLast? ≠ some '.' := by
    rw [last_eq]
    exact fun dot => solid (Option.some.inj dot)
  rw [lexemesOf_before opens, List.append_cancel_left_eq, lexemesOf_append_iff apart,
    last_eq, Option.any_some, bare, Keeps]
  cases endState (replacement field given annotated) with
  | code =>
      refine not_congr ⟨fun met => ⟨fun kept => ?_, met⟩, And.right⟩
      rw [closes kept] at met
      exact absurd met.2 (by decide)
  | comment => rfl
  | literal quote => rfl

end Replacing

/-- Replacing a field leaves the lexemes before and behind it, with those of the token
in between, just when the token keeps what follows apart. -/
theorem lexemes_applyTo_iff (named : Named aliases directives)
    (member : field ∈ fields aliases directives) (document : Text) :
    ∃ found next, FieldOccurrence.first? document field = .ok found ∧
      applyTo aliases directives document field = .ok next ∧
      (found = none → next = document) ∧
      ∀ range ∈ found, ∃ after, document.onward range.stop = .ok after ∧
        let given := aliases.get? field
        let annotated := directives.get? field
        let token := replacement field given annotated
        (Spelled aliases directives → endState token = .code) ∧
        (lexemesOf next = lexemes (labelsBefore document range.start) ++
            (lexemesOf token ++ lexemes (labelsOnward document range.stop)) ↔
          Keeps token (endsBare given annotated)
            (range.start + field.bytes < range.stop) after) := by
  have isName := named.isName_of_mem_fields member
  rcases FieldOccurrence.first?_first isName.isWord document with
    ⟨_, absent⟩ | ⟨before, dropped, rest, first, rest_eq, text_eq, found⟩
  · refine ⟨none, document, absent, ?_, fun _ => rfl, by simp⟩
    rw [applyTo, absent]
    rfl
  · have removed : endState (field ++ dropped) = .code :=
      (endState_append (endState_of_isName isName) dropped).trans
        (FieldOccurrence.endState_dropped rest_eq)
    have around := labels_around first.opens.code removed text_eq
    refine ⟨_, _, found,
      FieldOccurrence.applyTo_found text_eq found aliases directives, by simp, ?_⟩
    intro range isRange
    obtain rfl := Option.some.inj isRange
    refine ⟨FieldOccurrence.afterArguments rest, ?_,
      fun spelled => endState_replacement spelled isName, ?_⟩
    · rw [text_eq, ← List.append_assoc, Text.onward_append]
    · have names : ∀ held ∈ directives.get? field, ∀ directive ∈ held.directives,
          directive.name.IsName := fun held given =>
        (named.directives _ (Registry.get?_eq_some_iff.mp given)).2
      have closes : dropped = [] →
          (FieldOccurrence.afterArguments rest).continuesName = false := by
        rintro rfl
        rw [List.nil_append] at rest_eq
        rw [← rest_eq]
        exact first.closes.ends
      have length_iff : (before.bytes + field.bytes <
          Text.bytes (before ++ (field ++ dropped))) ↔ dropped ≠ [] := by
        cases dropped with
        | nil => simp
        | cons char dropped =>
            have positive := char.utf8Size_pos
            simp only [Text.bytes_append, Text.bytes_cons, ne_eq, reduceCtorEq,
              not_false_eq_true, iff_true]
            omega
      rw [around.1, around.2, length_iff]
      exact lexemesOf_replaced_iff first.opens isName names closes

def nameBehindList : Executable where
  definitions := [
    { lead := .empty
      header := .shorthand
      selections := ⟨" user(id: 1)name ".toList, ⟨rfl, rfl⟩, by decide +kernel⟩ }]
  trail := .empty
  remark := []
  isRemark := Executable.isRemark_nil

def user : Name := ⟨"user".toList, by decide⟩

def aliasOfUser (arguments : Arguments) : AliasRegistry :=
  .ofList [(user.text, ⟨user.text, "u".toList, arguments⟩)]

theorem spelled_aliasOfUser {arguments : Arguments}
    (spelled : Arguments.Spelled arguments) : Spelled (aliasOfUser arguments) ∅ where
  aliases :=
    have aliasName : Text.IsName "u".toList := by decide
    List.forall_mem_singleton.mpr ⟨user.isName, aliasName, spelled⟩
  directives := nofun

theorem user_mem_fields (arguments : Arguments) :
    user.text ∈ fields (aliasOfUser arguments) ∅ := List.mem_cons_self

def limited : Arguments := .ofList [("first".toList, .int 2)]

theorem spelled_limited : Arguments.Spelled limited :=
  List.forall_mem_singleton.mpr ⟨by decide, .int 2⟩

def limitedNext : Text := "\x7b u: user(first: 2)name \x7d".toList

theorem lexemes_applyTo_iff_limited :
    let aliases := aliasOfUser limited
    let document := nameBehindList.text
    Named aliases ∅ ∧ user.text ∈ fields aliases ∅ ∧
      FieldOccurrence.first? document user.text = .ok (some ⟨2, 13⟩) ∧
      applyTo aliases ∅ document user.text = .ok limitedNext ∧
      lexemesOf limitedNext = lexemes (labelsBefore document 2) ++
        (lexemesOf "u: user(first: 2)".toList ++
          lexemes (labelsOnward document 13)) := by
  intro aliases document
  have spelled : Spelled aliases ∅ := spelled_aliasOfUser spelled_limited
  have member : user.text ∈ fields aliases ∅ := user_mem_fields limited
  have search : FieldOccurrence.first? document user.text = .ok (some ⟨2, 13⟩) := by
    decide +kernel
  have run : applyTo aliases ∅ document user.text = .ok limitedNext := by
    decide +kernel
  rcases lexemes_applyTo_iff spelled.named member document with
    ⟨found, next, searched, applied, -, around⟩
  obtain rfl := Except.ok.inj (search.symm.trans searched)
  obtain rfl := Except.ok.inj (run.symm.trans applied)
  rcases around ⟨2, 13⟩ rfl with ⟨after, -, closed, kept_iff⟩
  refine ⟨spelled.named, member, search, run, kept_iff.mpr ?_⟩
  rw [Keeps, closed spelled]
  rintro ⟨-, bare, -⟩
  cases bare

theorem not_forall_lexemes_kept :
    ¬ ∀ (document : Executable) (aliases : AliasRegistry)
        (directives : DirectiveRegistry) (field next : Text) (range : FieldOccurrence),
      Spelled aliases directives → field ∈ fields aliases directives →
      FieldOccurrence.first? document.text field = .ok (some range) →
      applyTo aliases directives document.text field = .ok next →
      lexemesOf next = lexemes (labelsBefore document.text range.start) ++
        (lexemesOf (replacement field (aliases.get? field) (directives.get? field)) ++
          lexemes (labelsOnward document.text range.stop)) := by
  intro every
  have search : FieldOccurrence.first? nameBehindList.text user.text =
      .ok (some ⟨2, 13⟩) := by decide +kernel
  have run : applyTo (aliasOfUser ∅) ∅ nameBehindList.text user.text =
      .ok "\x7b u: username \x7d".toList := by decide +kernel
  have kept := every nameBehindList (aliasOfUser ∅) ∅ user.text _ _
    (spelled_aliasOfUser nofun) (user_mem_fields ∅) search run
  exact absurd kept (by decide +kernel)

end FieldAttachment

end QueryAssembly
