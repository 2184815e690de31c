import QueryAssembly.Proofs.Field.Place
import QueryAssembly.Proofs.Lexical.Token
import QueryAssembly.Proofs.Value.Closed

namespace QueryAssembly

/-! Attaching aliases and directives edits a document in one place after another.
Every place begins and ends in code, and so does what is written there, so that
all the other characters are read as before. -/

/-! The labels of a document on both sides of an offset, and blocks of labels that stand
in it. -/

def labelsBefore (document : Text) (offset : Nat) : List Label :=
  ((rowsOf document).takeWhile fun row => row.offset < offset).map Row.label

def labelsOnward (document : Text) (offset : Nat) : List Label :=
  ((rowsOf document).dropWhile fun row => row.offset < offset).map Row.label

theorem labelsBefore_append (before after : Text) :
    labelsBefore (before ++ after) before.bytes = labelsOf before := by
  rw [labelsBefore, Scanner.takeWhile_rowsOf]
  rfl

theorem labelsOnward_append (before after : Text) :
    labelsOnward (before ++ after) before.bytes =
      labelsFrom (.past .start before) after := by
  rw [labelsOnward, Scanner.dropWhile_rowsOf]
  rfl

theorem labelsOf_inj {left right : Text} :
    labelsOf left = labelsOf right ↔ left = right := by
  refine ⟨fun equal => ?_, congrArg labelsOf⟩
  rw [← map_fst_labelsOf left, equal, map_fst_labelsOf]

structure IsOpaque (block : List Label) : Prop where
  opens : ∃ mark, block.head? = some (mark, .code) ∧
    Position.isPlain mark = false
  hidden : ∀ label ∈ block.tail, label.2 ≠ .code

/-- Labels that stand in a document, with the offset of the first. -/
def StandsAt (document : Text) (block : List Label) (offset : Nat) : Prop :=
  ∃ front back, labelsOf document = front ++ (block ++ back) ∧
    Text.bytes (front.map Prod.fst) = offset

section Blocks

variable {left right front block back : List Label}

theorem IsOpaque.exists_cons (isOpaque : IsOpaque block) :
    ∃ mark hidden, block = (mark, .code) :: hidden ∧
      Position.isPlain mark = false ∧ ∀ label ∈ hidden, label.2 ≠ .code := by
  rcases isOpaque.opens with ⟨mark, head, special⟩
  rcases List.head?_eq_some_iff.mp head with ⟨hidden, rfl⟩
  exact ⟨mark, hidden, rfl, special, isOpaque.hidden⟩

theorem IsOpaque.split (isOpaque : IsOpaque block)
    (code : ∀ label ∈ right.head?, label.2 = .code)
    (labels_eq : left ++ right = front ++ (block ++ back)) :
    (∃ between, left = front ++ (block ++ between)) ∨
      ∃ between, front = left ++ between ∧
        right = between ++ (block ++ back) := by
  rcases List.append_eq_append_iff.mp labels_eq with
    ⟨between, front_eq, right_eq⟩ | ⟨inside, left_eq, rest_eq⟩
  · exact .inr ⟨between, front_eq, right_eq⟩
  · rcases List.append_eq_append_iff.mp rest_eq with
      ⟨part, inside_eq, _⟩ | ⟨part, block_eq, right_eq⟩
    · exact .inl ⟨part, by rw [left_eq, inside_eq]⟩
    · rcases isOpaque.exists_cons with ⟨mark, hidden, rfl, _, dark⟩
      cases inside with
      | nil =>
          rw [List.nil_append] at block_eq
          exact .inr ⟨[], by simp [left_eq], by simp [right_eq, ← block_eq]⟩
      | cons first inside =>
          cases part with
          | nil =>
              rw [List.append_nil] at block_eq
              exact .inl ⟨[], by rw [left_eq, ← block_eq, List.append_nil]⟩
          | cons label part =>
              have member : label ∈ hidden := by
                rw [(List.cons.inj block_eq).2]
                simp
              exact absurd (code label (by simp [right_eq])) (dark label member)

end Blocks

section Standing

variable {front text : Text} {block : List Label} {offset : Nat}

theorem StandsAt.lt_bytes (isOpaque : IsOpaque block)
    (stands : StandsAt text block offset) : offset < text.bytes := by
  rcases stands with ⟨before, after, labels_eq, rfl⟩
  rcases isOpaque.exists_cons with ⟨mark, hidden, rfl, _⟩
  have positive := mark.utf8Size_pos
  have text_eq := map_fst_labelsOf text
  rw [labels_eq] at text_eq
  rw [← text_eq]
  simp
  omega

theorem standsAt_append_iff (closed : endState front = .code)
    (isOpaque : IsOpaque block) :
    StandsAt (front ++ text) block offset ↔ StandsAt front block offset ∨
      ∃ inner, offset = front.bytes + inner ∧ StandsAt text block inner := by
  constructor
  · rintro ⟨before, after, labels_eq, offset_eq⟩
    rw [labelsOf_append closed] at labels_eq
    have code : ∀ label ∈ (labelsOf text).head?, label.2 = .code := by
      cases text with
      | nil => simp [labelsOf, rowsOf, Scanner.rows, Scanner.ofSource,
          Scanner.rowsFrom]
      | cons char text => rintro _ ⟨rfl⟩; rfl
    rcases isOpaque.split code labels_eq with
      ⟨between, inFront⟩ | ⟨between, before_eq, inText⟩
    · exact .inl ⟨before, between, inFront, offset_eq⟩
    · refine .inr ⟨_, ?_, between, after, inText, rfl⟩
      rw [← offset_eq, before_eq, List.map_append, Text.bytes_append,
        map_fst_labelsOf]
  · rintro (⟨before, after, labels_eq, offset_eq⟩ |
      ⟨inner, rfl, before, after, labels_eq, rfl⟩)
    · refine ⟨before, after ++ labelsOf text, ?_, offset_eq⟩
      simp [labelsOf_append closed, labels_eq]
    · refine ⟨labelsOf front ++ before, after, ?_, ?_⟩
      · simp [labelsOf_append closed, labels_eq]
      · rw [List.map_append, Text.bytes_append, map_fst_labelsOf]

theorem not_standsAt_of_plain (plain : ∀ char ∈ text, Position.isPlain char)
    (isOpaque : IsOpaque block) : ¬ StandsAt text block offset := by
  rintro ⟨before, after, labels_eq, _⟩
  rcases isOpaque.exists_cons with ⟨mark, hidden, rfl, special, _⟩
  have text_eq := map_fst_labelsOf text
  rw [labels_eq] at text_eq
  have member : mark ∈ text := by simp [← text_eq]
  rw [plain mark member] at special
  cases special

end Standing

namespace FieldOccurrence

/-! The range of a field begins and ends in code. -/

section Ranges

variable {position : Position} {document field text after rest dropped : Text}

theorem state_of_afterClosing {depth : Nat}
    (found : afterClosing depth position text = some rest) :
    ∃ passed, text = passed ++ rest ∧ (position.past passed).state = .code := by
  induction text generalizing depth position with
  | nil => cases found
  | cons char text induction =>
      have onward : ∀ next,
          afterClosing next (position.after char) text = some rest →
          ∃ passed, char :: text = passed ++ rest ∧
            (position.past passed).state = .code := by
        intro next later
        rcases induction later with ⟨passed, text_eq, code⟩
        exact ⟨char :: passed, by rw [text_eq]; rfl, code⟩
      simp only [afterClosing] at found
      split_ifs at found with opens closes last
      · exact onward _ found
      · rcases closes with ⟨code, rfl⟩
        obtain rfl := Option.some.inj found
        exact ⟨[')'], rfl, Position.state_after_of_plain code rfl⟩
      · exact onward _ found
      · exact onward _ found

theorem endState_dropped (after_eq : after = dropped ++ afterArguments after) :
    endState dropped = .code := by
  have blanks := List.takeWhile_append_dropWhile (p := Text.isBlank) (l := after)
  have none : afterArguments after = after → endState dropped = .code := by
    intro same
    rw [same, List.self_eq_append_left] at after_eq
    rw [after_eq]
    rfl
  by_cases parenthesis : (after.dropWhile Text.isBlank).head? = some '('
  · cases closing : afterClosing 0 .start (after.dropWhile Text.isBlank) with
    | none =>
        apply none
        rw [afterArguments, if_pos parenthesis, closing]
        rfl
    | some rest =>
        have rest_eq : afterArguments after = rest := by
          rw [afterArguments, if_pos parenthesis, closing]
          rfl
        have blank : endState (after.takeWhile Text.isBlank) = .code :=
          endState_of_plain fun char member =>
            Token.isPlain_of_isBlank (List.mem_takeWhile_imp member)
        rcases state_of_afterClosing closing with ⟨passed, onward_eq, closed⟩
        rw [rest_eq, ← blanks, onward_eq, ← List.append_assoc] at after_eq
        rw [← List.append_cancel_right after_eq, endState_append blank,
          endState_eq, closed]
  · apply none
    rw [afterArguments, if_neg parenthesis]

theorem exists_of_first? {occurrence : FieldOccurrence} (word : field.IsWord)
    (found : first? document field = .ok (some occurrence)) :
    ∃ before dropped after, document = before ++ (field ++ (dropped ++ after)) ∧
      occurrence = ⟨before.bytes, Text.bytes (before ++ (field ++ dropped))⟩ ∧
      endState before = .code ∧ endState dropped = .code := by
  rcases first?_first word document with
    ⟨_, absent⟩ | ⟨before, dropped, after, first, after_eq, text_eq, run⟩
  · rw [absent] at found
    cases found
  · rw [run] at found
    obtain rfl := Option.some.inj (Except.ok.inj found)
    refine ⟨before, dropped, afterArguments after, ?_, rfl, first.opens.code,
      endState_dropped after_eq⟩
    rw [text_eq, List.append_assoc]

end Ranges

end FieldOccurrence

/-! An edit as the range that it replaces and the token that it writes there, and where
it moves what stands outside the range. -/

structure Edit where
  field : Text
  range : FieldOccurrence
  token : Text

namespace Edit

def moved (edit : Edit) (offset : Nat) : Option Nat :=
  if offset < edit.range.start then some offset
  else if offset < edit.range.stop then none
  else some (edit.range.start + edit.token.bytes + (offset - edit.range.stop))

/-- Whether an edit drops a place together with the arguments of its field. -/
def Drops (edit : Edit) (offset : Nat) : Prop :=
  edit.range.start + edit.field.bytes ≤ offset ∧ offset < edit.range.stop

def movedBy : List Edit → Nat → Option Nat
  | [], offset => some offset
  | edit :: edits, offset => (edit.moved offset).bind (movedBy edits)

def DroppedBy : List Edit → Nat → Prop
  | [], _ => False
  | edit :: edits, offset =>
      edit.Drops offset ∨ ∃ next ∈ edit.moved offset, DroppedBy edits next

/-- An edit of a document: the labels outside its range stay, and between them
stand those of its token. -/
def Makes (edit : Edit) (document next : Text) : Prop :=
  labelsOf next = labelsBefore document edit.range.start ++
    (labelsOf edit.token ++ labelsOnward document edit.range.stop)

end Edit

namespace FieldAttachment

/-! Fields are edited one after another, each in what the edits before it lead to. -/

section Editing

variable {aliases : AliasRegistry} {directives : DirectiveRegistry}
  {document field : Text}

/-- Fields are edited one after another, each in the text that the edits before
it lead to. A field without an occurrence is passed by. -/
inductive Edited (aliases : AliasRegistry) (directives : DirectiveRegistry) :
    List Text → Text → List Edit → Text → Prop
  | done {document : Text} : Edited aliases directives [] document [] document
  | absent {field document result : Text} {fields : List Text}
      {edits : List Edit} :
      FieldOccurrence.first? document field = .ok none →
      Edited aliases directives fields document edits result →
      Edited aliases directives (field :: fields) document edits result
  | replaced {document next result : Text} {fields : List Text} {edit : Edit}
      {edits : List Edit} :
      FieldOccurrence.first? document edit.field = .ok (some edit.range) →
      edit.token = replacement edit.field (aliases.get? edit.field)
        (directives.get? edit.field) →
      edit.Makes document next →
      Edited aliases directives fields next edits result →
      Edited aliases directives (edit.field :: fields) document
        (edit :: edits) result

structure Spelled (aliases : AliasRegistry) (directives : DirectiveRegistry) :
    Prop where
  aliases : ∀ entry ∈ aliases.entries, entry.1.IsName ∧
    entry.2.aliasName.IsName ∧ Arguments.Spelled entry.2.arguments
  directives : ∀ entry ∈ directives.entries, entry.1.IsName ∧
    ∀ directive ∈ entry.2.directives,
      directive.name.IsName ∧ Arguments.Spelled directive.arguments

structure Named (aliases : AliasRegistry) (directives : DirectiveRegistry) :
    Prop where
  aliases : ∀ field ∈ aliases.keys, field.IsName
  directives : ∀ entry ∈ directives.entries, entry.1.IsName ∧
    ∀ directive ∈ entry.2.directives, directive.name.IsName

theorem Named.isName_of_mem_fields (named : Named aliases directives)
    (member : field ∈ fields aliases directives) : field.IsName := by
  rcases List.mem_append.mp member with aliased | directed
  · exact named.aliases field aliased
  · rcases Registry.exists_of_mem_keys (List.mem_filter.mp directed).1 with
      ⟨held, entry, _⟩
    exact (named.directives _ entry).1

theorem Spelled.named (spelled : Spelled aliases directives) :
    Named aliases directives where
  aliases field member := by
    rcases Registry.exists_of_mem_keys member with ⟨given, entry, _⟩
    exact (spelled.aliases _ entry).1
  directives entry member :=
    ⟨(spelled.directives entry member).1, fun directive within =>
      ((spelled.directives entry member).2 directive within).1⟩

theorem Spelled.isName_of_mem_fields (spelled : Spelled aliases directives)
    (member : field ∈ fields aliases directives) : field.IsName :=
  spelled.named.isName_of_mem_fields member

theorem endState_directive {directive : Directive}
    (isName : directive.name.IsName)
    (spelled : Arguments.Spelled directive.arguments) :
    endState (' ' :: directive.render) = .code := by
  have mark : endState [' ', '@'] = .code := rfl
  have shape : ' ' :: directive.render = [' ', '@'] ++
      (directive.name ++ Arguments.render directive.arguments) := rfl
  rw [shape, endState_append mark, endState_append (endState_of_isName isName),
    spelled.endState_render]

theorem endState_flatMap {α : Type} {write : α → Text} {values : List α}
    (closed : ∀ value ∈ values, endState (write value) = .code) :
    endState (values.flatMap write) = .code := by
  induction values with
  | nil => rfl
  | cons value values induction =>
      rw [List.forall_mem_cons] at closed
      rw [List.flatMap_cons, endState_append closed.1, induction closed.2]

theorem endState_replacement (spelled : Spelled aliases directives)
    (isName : field.IsName) :
    endState (replacement field (aliases.get? field)
      (directives.get? field)) = .code := by
  have annotations : ∀ held, directives.get? field = some held →
      endState (held.directives.flatMap fun directive =>
        ' ' :: directive.render) = .code := by
    intro held found
    apply endState_flatMap
    intro directive member
    have sound := (spelled.directives _ (Registry.get?_eq_some_iff.mp found)).2
      directive member
    exact endState_directive sound.1 sound.2
  refine (endState_append ?named _).trans ?annotated
  case annotated =>
    cases found : directives.get? field with
    | none => rfl
    | some held => exact annotations held found
  case named =>
    cases found : aliases.get? field with
    | none => exact endState_of_isName isName
    | some given =>
        rcases spelled.aliases _ (Registry.get?_eq_some_iff.mp found) with
          ⟨_, aliasName, arguments⟩
        rw [endState_append (Value.endState_labelled aliasName
          (endState_of_isName isName)), arguments.endState_render]

theorem labels_around {before removed after : Text}
    (code : endState before = .code) (stopCode : endState removed = .code)
    (text_eq : document = before ++ (removed ++ after)) :
    labelsBefore document before.bytes = labelsOf before ∧
      labelsOnward document (Text.bytes (before ++ removed)) =
        labelsOf after := by
  have passed : endState (before ++ removed) = .code :=
    (endState_append code removed).trans stopCode
  constructor
  · rw [text_eq, labelsBefore_append]
  · rw [text_eq, ← List.append_assoc, labelsOnward_append,
      Position.labelsFrom_of_code ((endState_eq _).symm.trans passed)]

theorem applyTo_edits (spelled : Spelled aliases directives)
    (isName : field.IsName) (document : Text) :
    (FieldOccurrence.first? document field = .ok none ∧
        applyTo aliases directives document field = .ok document) ∨
      ∃ (edit : Edit) (next : Text), edit.field = field ∧
        FieldOccurrence.first? document field = .ok (some edit.range) ∧
        edit.token = replacement field (aliases.get? field)
          (directives.get? field) ∧
        edit.Makes document next ∧
        applyTo aliases directives document field = .ok next := by
  rcases FieldOccurrence.first?_first isName.isWord document with
    ⟨_, absent⟩ | ⟨_, _, _, _, _, _, found⟩
  · refine .inl ⟨absent, ?_⟩
    rw [applyTo, absent]
    rfl
  · rcases FieldOccurrence.exists_of_first? isName.isWord found with
      ⟨before, dropped, after, text_eq, range_eq, code, droppedCode⟩
    rw [range_eq] at found
    rw [← List.append_assoc field] at text_eq
    have removedCode : endState (field ++ dropped) = .code :=
      (endState_append (endState_of_isName isName) dropped).trans droppedCode
    have closed := endState_replacement spelled isName
    have around := labels_around code removedCode text_eq
    refine .inr ⟨⟨field, _, _⟩, _, rfl, found, rfl, ?_,
      FieldOccurrence.applyTo_found text_eq found aliases directives⟩
    unfold Edit.Makes
    rw [around.1, around.2, labelsOf_append code]
    exact congrArg (labelsOf before ++ ·) (labelsOf_append closed after)

theorem standsAt_moved {edit : Edit} {next : Text} {block : List Label}
    {offset : Nat} (word : edit.field.IsWord)
    (found : FieldOccurrence.first? document edit.field = .ok (some edit.range))
    (closed : endState edit.token = .code) (makes : edit.Makes document next)
    (isOpaque : IsOpaque block) (stands : StandsAt document block offset)
    (kept : ¬ edit.Drops offset) :
    ∃ moved ∈ edit.moved offset, StandsAt next block moved := by
  rcases FieldOccurrence.exists_of_first? word found with
    ⟨before, dropped, after, text_eq, range_eq, code, droppedCode⟩
  have start_eq : edit.range.start = before.bytes := by rw [range_eq]
  have stop_eq : edit.range.stop =
      before.bytes + (edit.field.bytes + Text.bytes dropped) := by
    simp [range_eq]
  have plain : ∀ char ∈ edit.field, Position.isPlain char := fun char member =>
    Position.isPlain_of_isNameContinue (word.2 char member)
  have fieldCode := endState_of_isWord word
  have next_eq : next = before ++ (edit.token ++ after) := by
    have removedCode : endState (edit.field ++ dropped) = .code :=
      (endState_append fieldCode dropped).trans droppedCode
    have around := labels_around code removedCode
      (text_eq.trans (by rw [List.append_assoc]))
    rw [Edit.Makes, range_eq, around.1, around.2] at makes
    rw [← labelsOf_inj, makes, labelsOf_append code, labelsOf_append closed]
  rw [text_eq] at stands
  simp only [standsAt_append_iff code isOpaque,
    standsAt_append_iff fieldCode isOpaque,
    standsAt_append_iff droppedCode isOpaque] at stands
  rw [next_eq]
  simp only [standsAt_append_iff code isOpaque,
    standsAt_append_iff closed isOpaque]
  -- The block stands before the edit, in the field, in the arguments that are
  -- dropped, or behind them.
  rcases stands with inBefore | ⟨_, rfl, inField | ⟨_, rfl, inDropped |
    ⟨inner, rfl, inAfter⟩⟩⟩
  · have passed := inBefore.lt_bytes isOpaque
    refine ⟨offset, ?_, .inl inBefore⟩
    simp [Edit.moved, start_eq, passed]
  · exact absurd inField (not_standsAt_of_plain plain isOpaque)
  · have inside := inDropped.lt_bytes isOpaque
    refine absurd ?_ kept
    unfold Edit.Drops
    omega
  · refine ⟨before.bytes + (edit.token.bytes + inner), ?_,
      .inr ⟨_, rfl, .inr ⟨inner, rfl, inAfter⟩⟩⟩
    unfold Edit.moved
    rw [if_neg (by omega), if_neg (by omega), Option.mem_some_iff]
    omega

theorem Edited.standsAt_movedBy (spelled : Spelled aliases directives)
    {fields : List Text} {edits : List Edit} {result : Text}
    (edited : Edited aliases directives fields document edits result)
    (names : ∀ field ∈ fields, field.IsName) {block : List Label} {offset : Nat}
    (isOpaque : IsOpaque block) (stands : StandsAt document block offset)
    (kept : ¬ Edit.DroppedBy edits offset) :
    ∃ moved ∈ Edit.movedBy edits offset, StandsAt result block moved := by
  induction edited generalizing offset with
  | done => exact ⟨offset, rfl, stands⟩
  | absent _ _ induction =>
      rw [List.forall_mem_cons] at names
      exact induction names.2 stands kept
  | @replaced document next result fields edit edits found token_eq makes _
      induction =>
      rw [List.forall_mem_cons] at names
      rw [Edit.DroppedBy, not_or] at kept
      have closed : endState edit.token = .code :=
        token_eq ▸ endState_replacement spelled names.1
      rcases standsAt_moved names.1.isWord found closed makes isOpaque stands
        kept.1 with ⟨middle, moved, standsNext⟩
      have keptOnward : ¬ Edit.DroppedBy edits middle := fun drops =>
        kept.2 ⟨middle, moved, drops⟩
      rcases induction names.2 standsNext keptOnward with
        ⟨final, onward, standsLast⟩
      refine ⟨final, ?_, standsLast⟩
      rw [Edit.movedBy, Option.mem_def.mp moved]
      exact onward

theorem exists_edited (spelled : Spelled aliases directives)
    {fields : List Text} (names : ∀ field ∈ fields, field.IsName)
    (document : Text) :
    ∃ edits result, fields.foldlM (applyTo aliases directives) document =
        .ok result ∧ Edited aliases directives fields document edits result := by
  induction fields generalizing document with
  | nil => exact ⟨[], document, rfl, .done⟩
  | cons field fields induction =>
      rw [List.forall_mem_cons] at names
      rw [List.foldlM_cons]
      rcases applyTo_edits spelled names.1 document with
        ⟨none, same⟩ | ⟨edit, next, rfl, found, token_eq, makes, run⟩
      · rcases induction names.2 document with ⟨edits, result, later, edited⟩
        refine ⟨edits, result, ?_, .absent none edited⟩
        rw [same]
        exact later
      · rcases induction names.2 next with ⟨edits, result, later, edited⟩
        refine ⟨edit :: edits, result, ?_, .replaced found token_eq makes edited⟩
        rw [run]
        exact later

/-- Applying aliases and directives edits the fields in turn, each at its first
occurrence, and leaves every literal and comment outside the dropped arguments
as it is. -/
theorem apply_edits (spelled : Spelled aliases directives) (document : Text) :
    ∃ edits result, apply document aliases directives = .ok result ∧
      Edited aliases directives (fields aliases directives) document edits
        result ∧
      ∀ block offset, IsOpaque block → StandsAt document block offset →
        ¬ Edit.DroppedBy edits offset →
        ∃ moved ∈ Edit.movedBy edits offset, StandsAt result block moved := by
  have names : ∀ field ∈ fields aliases directives, field.IsName :=
    fun _ member => spelled.isName_of_mem_fields member
  rcases exists_edited spelled names document with
    ⟨edits, result, run, edited⟩
  exact ⟨edits, result, run, edited, fun _ _ isOpaque stands kept =>
    edited.standsAt_movedBy spelled names isOpaque stands kept⟩

def commented : Text :=
  "\x7b # users\n users(text: \") #\") \x7b name(of: \"name\") \x7d \x7d # name".toList

def renamed : AliasRegistry :=
  .ofList [("users".toList, ⟨"users".toList, "people".toList,
    .ofList [("text".toList, .list [.string "\") # name".toList,
      .object [("at".toList, .enum "TOP".toList)]])]⟩)]

def annotated : DirectiveRegistry :=
  .ofList [("name".toList, ⟨"name".toList,
    [⟨"include".toList, .ofList [("if".toList, .string "$named".toList)]⟩]⟩)]

def commentedRenamed : Text :=
  "\x7b # users\n people: users(text: [\"\\\") # name\", \x7bat: TOP\x7d])".toList ++
    " \x7b name @include(if: $named) \x7d \x7d # name".toList

theorem spelled_renamed : Spelled renamed annotated where
  aliases := by
    have listed : ∀ value ∈ [Value.string "\") # name".toList,
        .object [("at".toList, .enum "TOP".toList)]],
        Value.Spelled .argument value := by
      simp only [List.forall_mem_cons, List.not_mem_nil, false_implies,
        implies_true, and_true]
      refine ⟨.string (by decide) fun _ refers => absurd refers (by decide),
        .object ?_ ?_⟩
      · exact List.forall_mem_singleton.mpr (by decide)
      · exact List.forall_mem_singleton.mpr (.enum (by decide))
    refine List.forall_mem_singleton.mpr ⟨by decide, by decide, ?_⟩
    exact List.forall_mem_singleton.mpr ⟨by decide, .list listed⟩
  directives := by
    refine List.forall_mem_singleton.mpr ⟨by decide, ?_⟩
    refine List.forall_mem_singleton.mpr ⟨by decide, ?_⟩
    refine List.forall_mem_singleton.mpr ⟨by decide, .string (by decide) ?_⟩
    intro _ _
    decide

theorem apply_edits_renamed :
    Spelled renamed annotated ∧
      apply commented renamed annotated = .ok commentedRenamed ∧
      ∃ edits, Edited renamed annotated (fields renamed annotated) commented
          edits commentedRenamed ∧
        ∀ block offset, IsOpaque block → StandsAt commented block offset →
          ¬ Edit.DroppedBy edits offset →
          ∃ moved ∈ Edit.movedBy edits offset,
            StandsAt commentedRenamed block moved := by
  have run : apply commented renamed annotated = .ok commentedRenamed := by
    decide +kernel
  rcases apply_edits spelled_renamed commented with
    ⟨edits, result, applied, edited, moved⟩
  obtain rfl := Except.ok.inj (run.symm.trans applied)
  exact ⟨spelled_renamed, run, edits, edited, moved⟩

end Editing

end FieldAttachment

end QueryAssembly
