import QueryAssembly.Proofs.Field.Place

namespace QueryAssembly

/-! A text in front of a selection set that ends in code, leaves no brace open
and has no field of its own is none of the concern of aliases and directives. -/

/-- A text that leaves code and braces as it found them. -/
structure Neutral (front : Text) : Prop where
  closed : endState front = .code
  balanced : FieldOccurrence.openBraces front = 0

namespace Neutral

theorem nil : Neutral [] := ⟨rfl, rfl⟩

theorem append {left right : Text} (leftNeutral : Neutral left)
    (rightNeutral : Neutral right) : Neutral (left ++ right) where
  closed := (endState_append leftNeutral.closed right).trans rightNeutral.closed
  balanced := (FieldOccurrence.openBraces_append leftNeutral.closed
    leftNeutral.balanced right).trans rightNeutral.balanced

theorem of_plain {text : Text} (plain : ∀ char ∈ text, Position.isPlain char)
    (braceless : ∀ char ∈ text, char ≠ '\x7b' ∧ char ≠ '\x7d') :
    Neutral text :=
  ⟨endState_of_plain plain,
    FieldOccurrence.foldl_braceDepthAfter_of_braceless braceless .start 0⟩

theorem of_isWord {text : Text} (word : text.IsWord) : Neutral text := by
  apply of_plain
  · exact fun char member =>
      Position.isPlain_of_isNameContinue (word.2 char member)
  · exact fun char member => Text.brace_apart (word.2 char member)

end Neutral

def Guarded (text : Text) : Prop := ∃ rest, text = ' ' :: '\x7b' :: rest

namespace FieldOccurrence

variable {front back field before after : Text}

/-- Whether no field at the border of two texts is decided across it. -/
def Anchored (text : Text) : Prop :=
  ∃ char ∈ text, Text.isBlank char = false ∧ Text.isNameContinue char = false

theorem isDefinitionName_append (neutral : Neutral front)
    (anchored : Anchored before) :
    isDefinitionName (front ++ before) = isDefinitionName before := by
  rcases anchored with ⟨char, member, solid, apart⟩
  have trimmed := Text.trimEnd_append ⟨char, member, solid⟩ front
  have stop : ∃ char ∈ before.trimEnd, Text.isNameContinue char = false :=
    ⟨char, Text.mem_trimEnd member solid, apart⟩
  have length_eq : ((front ++ before).trimEnd.length !=
      (front ++ before).length) =
      (before.trimEnd.length != before.length) := by
    rw [trimmed]
    simp [bne, Nat.add_left_cancel_iff]
  simp only [isDefinitionName, length_eq]
  rw [trimmed, Text.lastWord_append stop, Text.beforeLastWord_append stop,
    endState_append neutral.closed,
    openBraces_append neutral.closed neutral.balanced]

theorem admitsBefore_append (neutral : Neutral front)
    (anchored : Anchored before) :
    AdmitsBefore (front ++ before) ↔ AdmitsBefore before := by
  have nonempty : before ≠ [] := by
    rcases anchored with ⟨_, member, _⟩
    exact List.ne_nil_of_mem member
  have last : (front ++ before).getLast? = before.getLast? := by
    rcases (List.eq_nil_or_concat before).resolve_left nonempty with
      ⟨start, last, rfl⟩
    simp
  constructor
  · intro ⟨code, apart, undefined⟩
    rw [endState_append neutral.closed] at code
    rw [last] at apart
    rw [isDefinitionName_append neutral anchored] at undefined
    exact ⟨code, apart, undefined⟩
  · intro ⟨code, apart, undefined⟩
    refine ⟨?_, ?_, ?_⟩
    · rw [endState_append neutral.closed, code]
    · rw [last, apart]
    · rw [isDefinitionName_append neutral anchored, undefined]

theorem admitsAfter_append (solid : ∃ char ∈ after, Text.isBlank char = false)
    (rest : Text) : AdmitsAfter (after ++ rest) ↔ AdmitsAfter after := by
  rcases solid with ⟨char, member, solid⟩
  have starts : Text.continuesName (after ++ rest) =
      Text.continuesName after := by
    cases after with
    | nil => cases member
    | cons first after => rfl
  have some : after.dropWhile Text.isBlank ≠ [] := by
    intro none
    have blank := List.dropWhile_eq_nil_iff.mp none char member
    rw [solid] at blank
    cases blank
  have head : ((after ++ rest).dropWhile Text.isBlank).head? =
      (after.dropWhile Text.isBlank).head? := by
    rw [List.dropWhile_append, if_neg (by simpa using some)]
    rcases List.exists_cons_of_ne_nil some with ⟨first, later, onward⟩
    rw [onward]
    rfl
  constructor
  · intro ⟨ends, unlabelled⟩
    exact ⟨starts ▸ ends, head ▸ unlabelled⟩
  · intro ⟨ends, unlabelled⟩
    exact ⟨starts.trans ends, fun labelled => unlabelled (head ▸ labelled)⟩

theorem anchored_of_guarded (guarded : Guarded back) (word : field.IsWord)
    (back_eq : back = before ++ (field ++ after)) :
    ∃ between, before = ' ' :: '\x7b' :: between := by
  rcases guarded with ⟨rest, rfl⟩
  rcases word with ⟨nonempty, all⟩
  rcases List.exists_cons_of_ne_nil nonempty with ⟨first, field, rfl⟩
  have continues := all first List.mem_cons_self
  cases before with
  | nil =>
      have equal := (List.cons.inj back_eq).1
      rw [← equal] at continues
      exact absurd continues (by decide)
  | cons char before =>
      rcases List.cons.inj back_eq with ⟨rfl, rest_eq⟩
      cases before with
      | nil =>
          have equal := (List.cons.inj rest_eq).1
          rw [← equal] at continues
          exact absurd continues (by decide)
      | cons char before =>
          rcases List.cons.inj rest_eq with ⟨rfl, _⟩
          exact ⟨before, rfl⟩

theorem at_front (neutral : Neutral front) (guarded : Guarded back)
    (word : field.IsWord) :
    At (front ++ back) field (front ++ before) after ↔
      At back field before after := by
  have anchored : back = before ++ (field ++ after) → Anchored before := by
    intro back_eq
    rcases anchored_of_guarded guarded word back_eq with ⟨between, rfl⟩
    exact ⟨'\x7b', by simp, by decide, by decide⟩
  constructor
  · intro ⟨text_eq, opens, closes⟩
    rw [List.append_assoc, List.append_cancel_left_eq] at text_eq
    exact ⟨text_eq, (admitsBefore_append neutral (anchored text_eq)).mp opens,
      closes⟩
  · intro ⟨text_eq, opens, closes⟩
    refine ⟨?_, (admitsBefore_append neutral (anchored text_eq)).mpr opens,
      closes⟩
    rw [text_eq, List.append_assoc]

/-- A front that has no field of the name, whatever follows it. -/
def Untouched (front field : Text) : Prop :=
  ∀ back, Text.continuesName back = false → ∀ before after,
    At (front ++ back) field before after → front.length ≤ before.length

theorem At.of_front (isAt : At (front ++ back) field before after)
    (reached : front.length ≤ before.length) :
    ∃ between, before = front ++ between := by
  have start : front <+: before := List.prefix_of_prefix_length_le
    ⟨back, isAt.text_eq⟩ (List.prefix_append before _) reached
  rcases start with ⟨between, equal⟩
  exact ⟨between, equal.symm⟩

theorem Replaced.behind {token next : Text} (neutral : Neutral front)
    (guarded : Guarded back) (word : field.IsWord)
    (untouched : Untouched front field)
    (replaced : Replaced token back field next) :
    Replaced token (front ++ back) field (front ++ next) ∧ Guarded next := by
  have stops : Text.continuesName back = false := by
    rcases guarded with ⟨rest, rfl⟩
    rfl
  cases replaced with
  | absent none =>
      refine ⟨.absent fun before after isAt => ?_, guarded⟩
      rcases isAt.of_front (untouched back stops before after isAt) with
        ⟨between, rfl⟩
      exact none _ _ ((at_front neutral guarded word).mp isAt)
  | @found before after first =>
      have whole : First (front ++ back) field (front ++ before) after := by
        refine ⟨(at_front neutral guarded word).mpr first.toAt, ?_⟩
        intro other rest otherAt
        rcases otherAt.of_front (untouched back stops other rest otherAt) with
          ⟨between, rfl⟩
        have least := first.least _ _
          ((at_front neutral guarded word).mp otherAt)
        rw [List.length_append, List.length_append]
        omega
      rcases anchored_of_guarded guarded word first.text_eq with
        ⟨between, before_eq⟩
      refine ⟨?_, ?_⟩
      · rw [← List.append_assoc]
        exact .found whole
      · rw [before_eq]
        exact ⟨_, rfl⟩

/-- Aliases and directives change a selection set in the same way behind every
front that they leave untouched. -/
theorem apply_front {aliases : AliasRegistry} {directives : DirectiveRegistry}
    {fields : List Text} (words : ∀ field ∈ fields, field.IsWord)
    (guarded : Guarded back) :
    ∃ next, Guarded next ∧ ∀ front, Neutral front →
      (∀ field ∈ fields, Untouched front field) →
      fields.foldlM (FieldAttachment.applyTo aliases directives)
        (front ++ back) = .ok (front ++ next) := by
  induction fields generalizing back with
  | nil => exact ⟨back, guarded, fun _ _ _ => rfl⟩
  | cons field fields induction =>
      rw [List.forall_mem_cons] at words
      rcases applyTo_replaced words.1 aliases directives back with
        ⟨middle, _, replaced⟩
      have empty : Untouched [] field := fun _ _ _ _ _ => Nat.zero_le _
      rcases replaced.behind .nil guarded words.1 empty with
        ⟨_, middleGuarded⟩
      rcases induction words.2 middleGuarded with ⟨next, nextGuarded, later⟩
      refine ⟨next, nextGuarded, fun front neutral untouched => ?_⟩
      rw [List.forall_mem_cons] at untouched
      rcases applyTo_replaced words.1 aliases directives (front ++ back) with
        ⟨result, run, resultReplaced⟩
      have same := resultReplaced.unique
        (replaced.behind neutral guarded words.1 untouched.1).1
      rw [List.foldlM_cons, run, same]
      exact later front neutral untouched.2

/-! Lists in parentheses between a front and what follows it. -/

def Enclosed (list : Text) : Prop := ∃ inner, list = '(' :: (inner ++ [')'])

theorem Enclosed.around {list : Text} (enclosed : Enclosed list)
    (word : field.IsWord) (list_eq : list = before ++ (field ++ after)) :
    (∃ inner, before = '(' :: inner) ∧ ∃ inner, after = inner ++ [')'] := by
  rcases enclosed with ⟨inner, rfl⟩
  rcases word.enclosed (by decide) (by decide) list_eq with
    ⟨inside, later, before_eq, after_eq, _⟩
  exact ⟨⟨inside, before_eq⟩, ⟨later, after_eq⟩⟩

theorem at_part {part : Text} (neutral : Neutral front)
    (part_eq : part = before ++ (field ++ after)) (anchored : Anchored before)
    (ends : AdmitsAfter (after ++ back) ↔ AdmitsAfter after) :
    At (front ++ (part ++ back)) field (front ++ before) (after ++ back) ↔
      At part field before after := by
  have text_eq : front ++ (part ++ back) =
      (front ++ before) ++ (field ++ (after ++ back)) := by
    simp [part_eq]
  have opens_iff := admitsBefore_append neutral anchored
  constructor
  · intro ⟨_, opens, closes⟩
    exact ⟨part_eq, opens_iff.mp opens, ends.mp closes⟩
  · intro ⟨_, opens, closes⟩
    exact ⟨text_eq, opens_iff.mpr opens, ends.mpr closes⟩

theorem at_list {list : Text} (neutral : Neutral front)
    (enclosed : Enclosed list) (word : field.IsWord) :
    At (front ++ (list ++ back)) field (front ++ before) (after ++ back) ↔
      At list field before after := by
  have part_iff : list = before ++ (field ++ after) →
      (At (front ++ (list ++ back)) field (front ++ before) (after ++ back) ↔
        At list field before after) := by
    intro list_eq
    rcases enclosed.around word list_eq with ⟨⟨inner, rfl⟩, ⟨inner', rfl⟩⟩
    exact at_part neutral list_eq ⟨'(', by simp, by decide, by decide⟩
      (admitsAfter_append ⟨')', by simp, by decide⟩ back)
  constructor
  · intro isAt
    have list_eq : list = before ++ (field ++ after) := by
      have text_eq := isAt.text_eq
      rw [List.append_assoc, List.append_cancel_left_eq, ← List.append_assoc,
        ← List.append_assoc, List.append_cancel_right_eq, List.append_assoc]
        at text_eq
      exact text_eq
    exact (part_iff list_eq).mp isAt
  · intro isAt
    exact (part_iff isAt.text_eq).mpr isAt

theorem At.split_list {list : Text} (enclosed : Enclosed list)
    (word : field.IsWord)
    (isAt : At (front ++ (list ++ back)) field (front ++ before) after) :
    (∃ between, list = before ++ (field ++ between) ∧
        after = between ++ back) ∨
      ∃ between, before = list ++ between ∧
        back = between ++ (field ++ after) := by
  rcases enclosed with ⟨inner, list_eq⟩
  have text_eq := isAt.text_eq
  rw [List.append_assoc, List.append_cancel_left_eq] at text_eq
  refine word.split (.inl ?_) text_eq
  rw [list_eq, ← List.cons_append, List.getLast?_concat]
  rfl

theorem Untouched.append {list : Text} (untouched : Untouched front field)
    (neutral : Neutral front) (enclosed : Enclosed list) (word : field.IsWord)
    (fieldless : ∀ before after, ¬ At list field before after) :
    Untouched (front ++ list) field := by
  intro back _ before after isAt
  rw [List.append_assoc] at isAt
  have stops : Text.continuesName (list ++ back) = false := by
    rcases enclosed with ⟨inner, rfl⟩
    rfl
  rcases isAt.of_front (untouched (list ++ back) stops before after isAt) with
    ⟨inside, rfl⟩
  rcases isAt.split_list enclosed word with
    ⟨between, _, rfl⟩ | ⟨between, rfl, _⟩
  · exact absurd ((at_list neutral enclosed word).mp isAt) (fieldless _ _)
  · simp only [List.length_append]
    omega

end FieldOccurrence

end QueryAssembly
