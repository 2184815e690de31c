import QueryAssembly.Proofs.Field.Place
import QueryAssembly.Proofs.Fragment.Remaining
import QueryAssembly.Proofs.Lexical.Slice
import QueryAssembly.Proofs.Text.ByteSearch
import QueryAssembly.Proofs.Variable.Repetition
import QueryAssembly.Session.Build

namespace QueryAssembly

/-! Composing never stops at a fault, whatever the document and the registries
hold. Every place that a search finds in code is a part of the document between
two boundaries, and each change cuts the document at boundaries only. -/

section Folding

variable {α β ε : Type} {step : β → α → Except ε β} {holds : β → Prop}

theorem exists_foldlM {values : List α} {start : β}
    (kept : ∀ reached, ∀ value ∈ values, holds reached →
      ∃ next, step reached value = .ok next ∧ holds next)
    (holdsStart : holds start) :
    ∃ result, values.foldlM step start = .ok result ∧ holds result := by
  induction values generalizing start with
  | nil => exact ⟨start, rfl, holdsStart⟩
  | cons value values induction =>
      rcases kept start value List.mem_cons_self holdsStart with
        ⟨next, first, holdsNext⟩
      rcases induction (fun reached other member =>
          kept reached other (List.mem_cons_of_mem _ member)) holdsNext with
        ⟨result, later, holdsResult⟩
      refine ⟨result, ?_, holdsResult⟩
      rw [List.foldlM_cons, first]
      exact later

theorem bind_ne_error {first : Except ε α} {next : α → Except ε β} {cause : ε}
    (first_ne : first ≠ .error cause) (next_ne : ∀ value, next value ≠ .error cause) :
    (first >>= next) ≠ .error cause := by
  cases first with
  | error other =>
      intro equal
      cases equal
      exact first_ne rfl
  | ok value => exact next_ne value

end Folding

section Places

/-! The places at which the scanner meets a needle in code. -/

/-- A part of a source that begins in code and is as long as the needle. -/
structure Located (needle source : Text) (place : CodeMatch) : Prop where
  stands : ∃ before, source = before ++ (needle ++ place.following) ∧
    before.bytes = place.offset ∧ endState before = .code

theorem located_of_mem_past {needle passed text : Text} {skip : Nat}
    {place : CodeMatch}
    (member : place ∈ placesFrom needle (.past .start passed) skip text) :
    Located needle (passed ++ text) place := by
  induction text generalizing passed skip with
  | nil => cases member
  | cons char rest induction =>
      have onward : ∀ skip,
          place ∈ placesFrom needle ((Position.start.past passed).after char) skip
            rest →
          Located needle (passed ++ char :: rest) place := by
        intro skip member
        have moved : (Position.start.past passed).after char =
            .past .start (passed ++ [char]) := by
          rw [Position.past_append]
          rfl
        rw [moved] at member
        have found := induction member
        rwa [List.append_assoc] at found
      cases skip with
      | succ skip => exact onward skip member
      | zero =>
          rw [placesFrom] at member
          split at member
          · next found =>
            split at member
            · next code =>
              rcases List.mem_cons.mp member with rfl | member
              · rcases List.isPrefixOf_iff_prefix.mp found with ⟨after, text_eq⟩
                refine ⟨⟨passed, ?_, ?_, (endState_eq passed).trans code⟩⟩
                · rw [← text_eq, List.drop_left]
                · exact (Position.offset_past_start passed).symm
              · exact onward _ member
            · exact onward _ member
          · exact onward 0 member

theorem located_of_mem {needle source : Text} {place : CodeMatch}
    (member : place ∈ placesFrom needle .start 0 source) :
    Located needle source place := by
  rw [← Position.past_nil .start] at member
  exact located_of_mem_past member

theorem exists_matchesInCode {needle source : Text} (nonempty : needle ≠ [])
    {found : List Nat} (search : FoundFrom needle.utf8 source.utf8 0 found) :
    ∃ places, matchesInCode needle.bytes [] (.ofSource source) found =
        .ok places ∧ ∀ place ∈ places, Located needle source place := by
  have found_eq := (Text.foundFrom_utf8_iff nonempty source found).mp search
  have matched : codeMatches needle source = .ok _ :=
    codeMatches_eq nonempty source
  rw [codeMatches, ← found_eq] at matched
  exact ⟨_, matched, fun place member => located_of_mem member⟩

end Places

namespace Fragment

def Splice.Copies (document : Text) (splice : Splice) : Prop :=
  ∃ passed, document = passed ++ splice.rest ∧ passed.bytes = splice.copied

variable {document : Text}

theorem exists_replaceAt {old after : Text} {offset : Nat} (body : Text)
    (stands : ∃ before, document = before ++ (old ++ after) ∧
      before.bytes = offset)
    {splice : Splice} (copies : splice.Copies document) :
    ∃ next, Splice.replaceAt body old.bytes splice offset = .ok next ∧
      next.Copies document := by
  rcases stands with ⟨before, document_eq, rfl⟩
  rcases splice with ⟨pieces, copied, rest, count⟩
  rcases copies with ⟨passed, passed_eq, reached⟩
  have copied_eq : copied = passed.bytes := reached.symm
  have rest_eq : document = passed ++ rest := passed_eq
  subst copied_eq
  by_cases covered : before.bytes < passed.bytes
  · refine ⟨_, ?_, ⟨passed, passed_eq, rfl⟩⟩
    rw [Splice.replaceAt]
    exact if_pos covered
  · rcases Text.exists_append_of_bytes_le (rest_eq.symm.trans document_eq)
        (Nat.not_lt.mp covered) with
      ⟨between, rfl, rfl⟩
    have replaced := replaceAt_passed body pieces passed.bytes between old after
      count
    rw [← Text.bytes_append] at replaced
    refine ⟨_, replaced, ⟨(passed ++ between) ++ old, ?_, ?_⟩⟩
    · rw [document_eq, List.append_assoc _ old]
    · exact Text.bytes_append _ old

theorem exists_spreadOffsets (name document : Text) :
    ∃ offsets, spreadOffsets (spread name) document = .ok offsets ∧
      ∀ offset ∈ offsets, ∃ before after,
        document = before ++ (spread name ++ after) ∧ before.bytes = offset := by
  have matched : codeMatches (spread name) document = .ok _ :=
    codeMatches_eq (List.cons_ne_nil _ _) document
  refine ⟨_, by rw [spreadOffsets, matched]; rfl, ?_⟩
  intro offset member
  rcases List.mem_map.mp member with ⟨place, kept, rfl⟩
  rcases located_of_mem (List.mem_filter.mp kept).1 with
    ⟨before, document_eq, offset_eq, _⟩
  exact ⟨before, place.following, document_eq, offset_eq⟩

theorem exists_replaceSpreads (document name body : Text) :
    ∃ outcome, replaceSpreads document name body = .ok outcome := by
  rw [replaceSpreads]
  split
  · exact ⟨_, rfl⟩
  · rcases exists_spreadOffsets name document with ⟨offsets, found, stand⟩
    have start : (Splice.ofDocument document).Copies document := ⟨[], rfl, rfl⟩
    rcases exists_foldlM (fun reached offset member copies => by
        rcases stand offset member with ⟨before, after, stands⟩
        exact exists_replaceAt body ⟨before, stands⟩ copies) start with
      ⟨splice, replaced, _⟩
    rw [found, ok_bind, replaced]
    exact ⟨_, rfl⟩

theorem exists_pass (fragments : FragmentRegistry) (document : Text) :
    ∃ outcome, pass fragments document = .ok outcome := by
  have replaced : ∀ reached : Text × Nat, ∀ fragment ∈ fragments.entries,
      True → ∃ next, replaceFragment reached fragment = .ok next ∧ True := by
    intro reached fragment _ _
    rcases exists_replaceSpreads reached.1 fragment.1 fragment.2 with
      ⟨outcome, run⟩
    rw [replaceFragment, run]
    cases outcome with
    | none => exact ⟨_, rfl, trivial⟩
    | some replacement => exact ⟨_, rfl, trivial⟩
  rcases exists_foldlM replaced trivial with ⟨outcome, run, _⟩
  exact ⟨outcome, run⟩

theorem exists_repeatPasses (fragments : FragmentRegistry) (remaining : Nat)
    (document : Text) :
    ∃ outcome, repeatPasses fragments remaining document = .ok outcome := by
  induction remaining generalizing document with
  | zero => exact ⟨_, rfl⟩
  | succ remaining induction =>
      rcases exists_pass fragments document with ⟨⟨next, replacements⟩, run⟩
      rw [repeatPasses, run, ok_bind]
      simp only
      split
      · exact ⟨_, rfl⟩
      · exact induction next

theorem exists_remainingNames (fragments : FragmentRegistry) (document : Text) :
    ∃ names, remainingNames fragments document = .ok names := by
  have decided : ∀ name, ∃ found, hasSpread document name = .ok found := by
    intro name
    rw [hasSpread]
    split
    · exact ⟨_, rfl⟩
    · rcases exists_spreadOffsets name document with ⟨offsets, found, _⟩
      rw [found]
      exact ⟨_, rfl⟩
  choose found run using decided
  exact ⟨_, filterM_eq_ok fun name _ => run name⟩

theorem resolve_ne_fault (document : Text) (fragments : FragmentRegistry)
    (reason : Fault) : resolve document fragments ≠ .error (.fault reason) := by
  rw [resolve]
  split
  · exact fun equal => by cases equal
  · rcases exists_repeatPasses fragments passLimit document with ⟨outcome, run⟩
    rw [run]
    cases outcome with
    | settled resolved => exact fun equal => by cases equal
    | unsettled reached =>
        rcases exists_remainingNames fragments reached with ⟨names, remain⟩
        simp only [remain]
        exact fun equal => by cases equal

end Fragment

namespace FieldAttachment

open FieldOccurrence

theorem exists_findSomeM? {α β ε : Type} {find : α → Except ε (Option β)}
    {holds : Option β → Prop} (absent : holds none) {values : List α}
    (found : ∀ value ∈ values, ∃ outcome, find value = .ok outcome ∧
      holds outcome) :
    ∃ outcome, values.findSomeM? find = .ok outcome ∧ holds outcome := by
  induction values with
  | nil => exact ⟨none, rfl, absent⟩
  | cons value values induction =>
      rw [List.forall_mem_cons] at found
      rcases found with ⟨⟨outcome, run, holdsOutcome⟩, later⟩
      rw [List.findSomeM?_cons, run, ok_bind]
      cases outcome with
      | none => exact induction later
      | some value => exact ⟨_, rfl, holdsOutcome⟩

def Bounded (document : Text) (occurrence : FieldOccurrence) : Prop :=
  ∃ before removed after, document = before ++ (removed ++ after) ∧
    occurrence = ⟨before.bytes, Text.bytes (before ++ removed)⟩

theorem exists_first? (document field : Text) :
    ∃ outcome, first? document field = .ok outcome ∧
      ∀ occurrence ∈ outcome, Bounded document occurrence := by
  cases field with
  | nil => exact ⟨none, rfl, fun _ member => by cases member⟩
  | cons char rest =>
      have matched : codeMatches (char :: rest) document = .ok _ :=
        codeMatches_eq (List.cons_ne_nil _ _) document
      simp only [first?, List.isEmpty_cons, Bool.false_eq_true, if_false, matched,
        ok_bind]
      refine exists_findSomeM? (fun _ member => by cases member)
        fun place member => ?_
      rcases located_of_mem member with
        ⟨before, document_eq, offset_eq, code⟩
      rcases place with ⟨offset, after⟩
      cases offset_eq
      by_cases isAt : At document (char :: rest) before after
      · rcases atMatch?_of_at isAt with ⟨dropped, after_eq, found⟩
        refine ⟨_, found, ?_⟩
        rintro occurrence ⟨⟩
        refine ⟨before, (char :: rest) ++ dropped, afterArguments after, ?_, rfl⟩
        rw [List.append_assoc (char :: rest), ← after_eq]
        exact document_eq
      · exact ⟨_, atMatch?_of_not_at document_eq code isAt,
          fun _ member => by cases member⟩

theorem exists_applyTo (aliases : AliasRegistry) (directives : DirectiveRegistry)
    (document field : Text) :
    ∃ next, applyTo aliases directives document field = .ok next := by
  rcases exists_first? document field with ⟨outcome, found, bounded⟩
  cases outcome with
  | none =>
      rw [applyTo, found]
      exact ⟨_, rfl⟩
  | some occurrence =>
      rcases bounded occurrence rfl with
        ⟨before, removed, after, document_eq, rfl⟩
      exact ⟨_, applyTo_found document_eq found aliases directives⟩

theorem exists_apply (document : Text) (aliases : AliasRegistry)
    (directives : DirectiveRegistry) :
    ∃ rewritten, apply document aliases directives = .ok rewritten := by
  have replaced : ∀ reached : Text, ∀ field ∈ fields aliases directives, True →
      ∃ next, applyTo aliases directives reached field = .ok next ∧ True := by
    intro reached field _ _
    rcases exists_applyTo aliases directives reached field with ⟨next, run⟩
    exact ⟨next, run, trivial⟩
  rcases exists_foldlM replaced trivial with ⟨rewritten, run, _⟩
  exact ⟨rewritten, run⟩

end FieldAttachment

namespace VariableDefinitions

theorem exists_inject (document : Text) (definitions : VariableDefinitions) :
    ∃ injected, inject document definitions = .ok injected := by
  rw [inject]
  split
  · exact ⟨_, rfl⟩
  · rcases InsertionPoint.ofDocument_cases document with
      point | point | ⟨header, rest, rfl, point, _⟩ | ⟨gap, rest, rfl, point, _⟩
    · rw [point]
      exact ⟨_, rfl⟩
    · rw [point]
      exact ⟨_, rfl⟩
    · rw [point, ok_bind]
      simp only [Text.cut_append, ok_bind]
      exact ⟨_, rfl⟩
    · rw [point, ok_bind]
      simp only [Text.cut_append, ok_bind]
      exact ⟨_, rfl⟩

end VariableDefinitions

namespace Session

theorem baseDocument_ne_fault (session : Session) (reason : Fault) :
    session.baseDocument ≠ .error (.fault reason) := by
  rw [baseDocument]
  split
  · next operation _ =>
    unfold Operation.render
    split <;> exact fun equal => by cases equal
  · exact fun equal => by cases equal

theorem build_ne_fault (session : Session) (reason : Fault) :
    session.build ≠ .error (.fault reason) := by
  refine bind_ne_error (session.baseDocument_ne_fault reason) fun base => ?_
  refine bind_ne_error (Fragment.resolve_ne_fault _ _ reason) fun resolved => ?_
  rcases FieldAttachment.exists_apply resolved session.aliases
      session.directives with
    ⟨attached, attach⟩
  rcases VariableDefinitions.exists_inject attached session.definitions with
    ⟨query, inject⟩
  have finished : session.finishQuery resolved = .ok query := by
    rw [finishQuery, attach, ok_bind, inject]
  rw [finished]
  exact fun equal => by cases equal

/-- No document, registry or session brings the engine to a fault, and every
text can be cut wherever the engine cuts one without a check. The offsets that a
search passes on are those of the bytes of the needle among the bytes of the
source. -/
theorem faultless :
    (∀ document fragments reason,
        Fragment.resolve document fragments ≠ .error (.fault reason)) ∧
      (∀ document aliases directives, ∃ rewritten,
        FieldAttachment.apply document aliases directives = .ok rewritten) ∧
      (∀ document definitions, ∃ injected,
        VariableDefinitions.inject document definitions = .ok injected) ∧
      (∀ session reason, build session ≠ .error (.fault reason)) ∧
      (∀ text : Text, text.Sliceable) ∧
      ∀ (first : Char) (others source : Text) (found : List Nat),
        FoundFrom (Text.utf8 (first :: others)) source.utf8 0 found →
        found = Text.occurrences (first :: others) source ∧
        ∃ places, matchesInCode (Text.bytes (first :: others)) []
            (.ofSource source) found = .ok places ∧
          ∀ place ∈ places, Located (first :: others) source place :=
  ⟨Fragment.resolve_ne_fault, FieldAttachment.exists_apply,
    VariableDefinitions.exists_inject, build_ne_fault, Text.sliceable,
    fun _ _ source found search =>
      ⟨(Text.foundFrom_utf8_iff (List.cons_ne_nil _ _) source found).mp search,
        exists_matchesInCode (List.cons_ne_nil _ _) search⟩⟩

def accentedSource : Text := "é # é\n(é".toList

theorem faultless_accented :
    FoundFrom (Text.utf8 ['é']) accentedSource.utf8 0 [0, 5, 9] ∧
      ∃ places, matchesInCode (Text.bytes ['é']) [] (.ofSource accentedSource)
          [0, 5, 9] = .ok places ∧
        ∀ place ∈ places, Located ['é'] accentedSource place := by
  have search : FoundFrom (Text.utf8 ['é']) accentedSource.utf8 0 [0, 5, 9] :=
    (Text.foundFrom_utf8_iff (List.cons_ne_nil _ _) _ _).mpr (by decide +kernel)
  exact ⟨search, (faultless.2.2.2.2.2 'é' [] accentedSource _ search).2⟩

end Session

end QueryAssembly
