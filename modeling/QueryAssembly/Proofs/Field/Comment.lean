import QueryAssembly.Proofs.Field.HeaderName
import QueryAssembly.Proofs.Field.Parentheses

namespace QueryAssembly

/-! A line comment put into a document, in code and right behind a blank, hides
three things from the search for a field: a colon behind the name, the keyword of a
definition before it, and an argument list behind it. Where it does not stand
between a name and one of these, the search finds the same field as before. -/

namespace Text

def comment (remark : Text) : Text := '#' :: (remark ++ ['\n'])

def IsRemark (remark : Text) : Prop := ∀ char ∈ remark, isLineBreak char = false

instance (remark : Text) : Decidable remark.IsRemark :=
  List.decidableBAll (fun char => isLineBreak char = false) remark

variable {remark blanks : Text}

theorem isGap_of_blank (blank : ∀ char ∈ blanks, isBlank char) :
    blanks.IsGap := by
  induction blanks with
  | nil => exact .nil
  | cons char blanks induction =>
      rw [List.forall_mem_cons] at blank
      have separates : isSeparator char := by simp [isSeparator, blank.1]
      exact .separator separates (induction blank.2)

theorem isGap_comment (isRemark : remark.IsRemark) {gap : Text}
    (isGap : gap.IsGap) : IsGap (comment remark ++ gap) := by
  have shape : comment remark ++ gap = '#' :: (remark ++ '\n' :: gap) := by
    simp [comment]
  rw [shape]
  exact .comment isRemark rfl isGap

theorem neutral_commentOf (isRemark : remark.IsRemark) :
    Neutral (comment remark) :=
  neutral_comment isRemark rfl

theorem isIgnored_comment (isRemark : remark.IsRemark) {position : Position}
    (code : position.state = .code) :
    ∀ row ∈ Scanner.rowsFrom position (comment remark), row.isIgnored := by
  intro row member
  rcases Scanner.mem_rowsFrom_iff.mp member with
    ⟨before, rest, text_eq, _, state_eq⟩
  rw [Position.state_past_of_code code] at state_eq
  rw [Row.isIgnored_iff, state_eq]
  rcases comment_split isRemark text_eq with
    rfl | comment | ⟨later, _, none⟩
  · exact .inr (.inl (List.cons.inj text_eq).1.symm)
  · exact .inl (by rw [comment]; decide)
  · cases later <;> cases none

end Text

namespace FieldOccurrence

open Text (comment)

/-- A front that ends in code with a blank. -/
structure Seam (front : Text) : Prop where
  code : endState front = .code
  blank : front.getLast?.any Text.isBlank

/-! Names of definitions behind a comment. -/

section Definitions

variable {front other between remark : Text}

theorem Seam.apart (seam : Seam front) {holds : Char → Bool}
    (unlike : ∀ char, Text.isBlank char → holds char = false) :
    front.getLast?.any holds = false := by
  have blank := seam.blank
  cases last : front.getLast? with
  | none => rfl
  | some char =>
      rw [last, Option.any_some] at blank
      exact unlike char blank

theorem not_isNameContinue_of_isBlank {char : Char} (blank : Text.isBlank char) :
    Text.isNameContinue char = false := by
  by_contra continues
  rw [Bool.not_eq_false] at continues
  rw [Text.not_isBlank_of_isNameContinue continues] at blank
  cases blank

theorem Seam.not_continues (seam : Seam front) :
    front.getLast?.any Text.isNameContinue = false :=
  seam.apart fun _ => not_isNameContinue_of_isBlank

theorem isDefinitionName_behind (code : endState front = .code)
    (apart : front.getLast?.any Text.isNameContinue = false)
    (solid : ∃ char ∈ between, Text.isBlank char = false) :
    isDefinitionName (front ++ between) =
      (between.trimEnd.length != between.length &&
        isDefinitionKeyword between.trimEnd.lastWord &&
        (endState between.trimEnd.beforeLastWord == .code &&
          openBraces (front ++ between.trimEnd.beforeLastWord) == 0)) := by
  have trimmed := Text.trimEnd_append solid front
  have length_eq : ((front ++ between).trimEnd.length !=
      (front ++ between).length) =
      (between.trimEnd.length != between.length) := by
    rw [trimmed]
    simp [bne, Nat.add_left_cancel_iff]
  have words : (front ++ between.trimEnd).lastWord = between.trimEnd.lastWord ∧
      (front ++ between.trimEnd).beforeLastWord =
        front ++ between.trimEnd.beforeLastWord := by
    by_cases stop : ∃ char ∈ between.trimEnd, Text.isNameContinue char = false
    · exact ⟨Text.lastWord_append stop front, Text.beforeLastWord_append stop front⟩
    · have all : ∀ char ∈ between.trimEnd, Text.isNameContinue char := by
        simpa using stop
      have none : ([] : Text).getLast?.any Text.isNameContinue = false := rfl
      have alone := Text.lastWord_append_word all none
      have behind := Text.lastWord_append_word all apart
      rw [List.nil_append] at alone
      rw [behind.1, behind.2, alone.1, alone.2, List.append_nil]
      exact ⟨rfl, rfl⟩
  simp only [isDefinitionName, length_eq]
  rw [trimmed, words.1, words.2, endState_append code]

theorem openBraces_append_congr (code : endState front = .code)
    (otherCode : endState other = .code)
    (same : openBraces front = openBraces other) (text : Text) :
    openBraces (front ++ text) = openBraces (other ++ text) := by
  simp only [openBraces, foldl_braceDepthAfter] at same ⊢
  have labels : (rowsOf (front ++ text)).map Row.label = _ :=
    labelsOf_append code text
  have otherLabels : (rowsOf (other ++ text)).map Row.label = _ :=
    labelsOf_append otherCode text
  rw [labels, otherLabels, List.foldl_append, List.foldl_append]
  exact congrArg (fun depth => List.foldl labelDepth depth (labelsOf text)) same

theorem Seam.comment (seam : Seam front) (isRemark : remark.IsRemark) :
    Seam (front ++ comment remark) ∧
      openBraces (front ++ comment remark) = openBraces front := by
  have code : (Position.start.past front).state = .code :=
    (endState_eq front).symm.trans seam.code
  refine ⟨⟨?_, ?_⟩, ?_⟩
  · rw [endState_append seam.code, (Text.neutral_commentOf isRemark).closed]
  · rw [Text.comment, ← List.cons_append, ← List.append_assoc,
      List.getLast?_concat]
    rfl
  · exact openBraces_append_of_ignored front (Text.isIgnored_comment isRemark code)

theorem isDefinitionName_comment_solid (seam : Seam front)
    (isRemark : remark.IsRemark)
    (solid : ∃ char ∈ between, Text.isBlank char = false) :
    isDefinitionName (front ++ (comment remark ++ between)) =
      isDefinitionName (front ++ between) := by
  rcases seam.comment isRemark with ⟨commented, braces⟩
  rw [← List.append_assoc,
    isDefinitionName_behind commented.code commented.not_continues solid,
    isDefinitionName_behind seam.code seam.not_continues solid,
    openBraces_append_congr commented.code seam.code braces]

/-- Behind a comment nothing is the name of a definition, whatever the comment
says. -/
theorem isDefinitionName_comment_blank (seam : Seam front)
    (isRemark : remark.IsRemark) (blank : ∀ char ∈ between, Text.isBlank char) :
    isDefinitionName (front ++ (comment remark ++ between)) = false := by
  have solid : ∃ char ∈ comment remark ++ between, Text.isBlank char = false :=
    ⟨'#', by simp [Text.comment], rfl⟩
  rw [isDefinitionName_behind seam.code seam.not_continues solid]
  rcases lastWord_of_isGap (Text.isGap_comment isRemark
      (Text.isGap_of_blank blank)) with unnamed | hidden
  · simp [unnamed]
  · simp [hidden]

theorem isDefinitionName_blanks (seam : Seam front)
    (blank : ∀ char ∈ between, Text.isBlank char) :
    isDefinitionName (front ++ between) = isDefinitionName front := by
  have shorter : front.trimEnd.length < front.length := by
    rcases List.eq_nil_or_concat front with rfl | ⟨start, last, rfl⟩
    · cases seam.blank
    · have ends := seam.blank
      rw [List.concat_eq_append, List.getLast?_concat, Option.any_some] at ends
      have blank : ∀ char ∈ [last], Text.isBlank char :=
        List.forall_mem_singleton.mpr ends
      have none : Text.trimEnd (start ++ [last]) = Text.trimEnd start :=
        Text.trimEnd_append_blank blank start
      rcases trimEnd_append_blanks start with ⟨rest, start_eq, _⟩
      have length_eq := congrArg List.length start_eq
      rw [List.concat_eq_append, none, List.length_append]
      rw [List.length_append] at length_eq
      simp only [List.length_singleton]
      omega
  have longer : (front.trimEnd.length != (front ++ between).length) = true := by
    rw [bne_iff_ne, List.length_append]
    omega
  have short : (front.trimEnd.length != front.length) = true := by
    rw [bne_iff_ne]
    omega
  simp only [isDefinitionName, Text.trimEnd_append_blank blank, longer, short]

end Definitions

/-! What may stand before and after a field, with a comment in between. -/

section Around

variable {front back between remark : Text}

theorem Seam.append (seam : Seam front)
    (blank : ∀ char ∈ between, Text.isBlank char) : Seam (front ++ between) := by
  refine ⟨?_, ?_⟩
  · rw [endState_append seam.code]
    exact endState_of_plain fun char member =>
      Token.isPlain_of_isBlank (blank char member)
  · rcases List.eq_nil_or_concat between with rfl | ⟨start, last, rfl⟩
    · rw [List.append_nil]
      exact seam.blank
    · rw [List.concat_eq_append, ← List.append_assoc, List.getLast?_concat]
      exact blank last (by simp)

theorem Seam.not_belongs (seam : Seam front) :
    front.getLast?.any belongsToName = false := by
  refine seam.apart fun char blank => ?_
  have different : ∀ other, Text.isBlank other = false → char ≠ other := by
    rintro other solid rfl
    rw [solid] at blank
    cases blank
  simp [belongsToName, not_isNameContinue_of_isBlank blank,
    different '$' rfl, different '.' rfl, different '@' rfl]

theorem admitsBefore_blanks_iff (seam : Seam front)
    (blank : ∀ char ∈ between, Text.isBlank char) :
    AdmitsBefore (front ++ between) ↔ isDefinitionName front = false := by
  rw [← isDefinitionName_blanks seam blank]
  have behind := seam.append blank
  exact ⟨AdmitsBefore.undefined, fun undefined =>
    ⟨behind.code, behind.not_belongs, undefined⟩⟩

theorem admitsBefore_comment_blank (seam : Seam front)
    (isRemark : remark.IsRemark) (blank : ∀ char ∈ between, Text.isBlank char) :
    AdmitsBefore (front ++ (comment remark ++ between)) := by
  have behind := (seam.comment isRemark).1.append blank
  have undefined := isDefinitionName_comment_blank seam isRemark blank
  rw [List.append_assoc] at behind
  exact ⟨behind.code, behind.not_belongs, undefined⟩

theorem admitsBefore_comment_solid (seam : Seam front)
    (isRemark : remark.IsRemark)
    (solid : ∃ char ∈ between, Text.isBlank char = false) :
    AdmitsBefore (front ++ (comment remark ++ between)) ↔
      AdmitsBefore (front ++ between) := by
  have undefined := isDefinitionName_comment_solid seam isRemark solid
  have code : endState (front ++ (comment remark ++ between)) =
      endState (front ++ between) := by
    rw [endState_append seam.code, endState_append seam.code,
      endState_append (Text.neutral_commentOf isRemark).closed]
  have last : (front ++ (comment remark ++ between)).getLast? =
      (front ++ between).getLast? := by
    have nonempty : between ≠ [] := by
      rintro rfl
      rcases solid with ⟨_, member, _⟩
      cases member
    rw [← List.append_assoc, List.getLast?_append_of_ne_nil _ nonempty,
      List.getLast?_append_of_ne_nil _ nonempty]
  constructor
  · intro ⟨closed, apart, unnamed⟩
    exact ⟨code ▸ closed, last ▸ apart, undefined ▸ unnamed⟩
  · intro ⟨closed, apart, unnamed⟩
    exact ⟨code.trans closed, by rw [last]; exact apart, undefined.trans unnamed⟩

theorem admitsAfter_blanks_iff (blank : ∀ char ∈ between, Text.isBlank char)
    (nonempty : between ≠ []) :
    AdmitsAfter (between ++ back) ↔
      (back.dropWhile Text.isBlank).head? ≠ some ':' := by
  have ends : Text.continuesName (between ++ back) = false := by
    rcases List.exists_cons_of_ne_nil nonempty with ⟨first, rest, rfl⟩
    exact not_isNameContinue_of_isBlank (blank first List.mem_cons_self)
  have dropped : (between ++ back).dropWhile Text.isBlank =
      back.dropWhile Text.isBlank := List.dropWhile_append_of_pos blank
  constructor
  · intro closes
    exact dropped ▸ closes.unlabelled
  · intro unlabelled
    exact ⟨ends, by rwa [dropped]⟩

theorem head?_dropWhile_comment (remark back : Text) :
    ((comment remark ++ back).dropWhile Text.isBlank).head? = some '#' := by
  have solid : ¬ Text.isBlank '#' := by decide
  rw [Text.comment, List.cons_append, List.dropWhile_cons_of_neg solid]
  rfl

theorem admitsAfter_blanks_comment (blank : ∀ char ∈ between, Text.isBlank char)
    (nonempty : between ≠ []) :
    AdmitsAfter (between ++ (comment remark ++ back)) := by
  rw [admitsAfter_blanks_iff blank nonempty, head?_dropWhile_comment]
  decide

end Around

/-! Fields on either side of a comment. -/

section Places

variable {front back field remark before between after : Text}

theorem At.split_seam (word : field.IsWord) (seam : Seam front)
    (isAt : At (front ++ back) field before after) :
    (∃ between, front = before ++ (field ++ between) ∧
        after = between ++ back) ∨
      ∃ between, before = front ++ between ∧
        back = between ++ (field ++ after) :=
  word.split (.inl seam.not_continues) isAt.text_eq

theorem At.behind_comment (word : field.IsWord) (seam : Seam front)
    (isRemark : remark.IsRemark)
    (isAt : At (front ++ (comment remark ++ back)) field (front ++ between)
      after) :
    ∃ later, between = comment remark ++ later ∧
      back = later ++ (field ++ after) := by
  have text_eq := isAt.text_eq
  rw [List.append_assoc, List.append_cancel_left_eq] at text_eq
  have isGap : (comment remark).IsGap := .comment isRemark rfl .nil
  rcases word.split (.inl isGap.last_apart) text_eq with
    ⟨inside, comment_eq, _⟩ | found
  · rcases List.exists_cons_of_ne_nil word.1 with ⟨first, others, rfl⟩
    have continues := word.2 first List.mem_cons_self
    have code := isAt.opens.code
    rw [endState_append seam.code] at code
    exact absurd code (isGap.not_code continues comment_eq)
  · exact found

theorem Seam.nonempty (seam : Seam front) (word : field.IsWord)
    (front_eq : front = before ++ (field ++ between)) : between ≠ [] := by
  rintro rfl
  rcases (List.eq_nil_or_concat field).resolve_left word.1 with
    ⟨start, last, rfl⟩
  have continues := word.2 last (by simp)
  have apart := seam.not_continues
  rw [front_eq, List.append_nil, List.concat_eq_append, ← List.append_assoc,
    List.getLast?_concat, Option.any_some, continues] at apart
  cases apart

theorem at_front_comment (word : field.IsWord) (seam : Seam front)
    (front_eq : front = before ++ (field ++ between)) :
    At (front ++ (comment remark ++ back)) field before
        (between ++ (comment remark ++ back)) ↔
      At (front ++ back) field before (between ++ back) ∨
        (∀ char ∈ between, Text.isBlank char) ∧ AdmitsBefore before ∧
          (back.dropWhile Text.isBlank).head? = some ':' := by
  have shape : ∀ rest : Text, front ++ rest =
      before ++ (field ++ (between ++ rest)) := by
    intro rest
    simp [front_eq]
  have at_iff : ∀ rest : Text, At (front ++ rest) field before (between ++ rest) ↔
      AdmitsBefore before ∧ AdmitsAfter (between ++ rest) :=
    fun rest => ⟨fun isAt => ⟨isAt.opens, isAt.closes⟩, fun admits =>
      ⟨shape rest, admits.1, admits.2⟩⟩
  rw [at_iff, at_iff]
  by_cases blank : ∀ char ∈ between, Text.isBlank char
  · have nonempty := seam.nonempty word front_eq
    have hidden : AdmitsAfter (between ++ (comment remark ++ back)) :=
      admitsAfter_blanks_comment blank nonempty
    have labelled : AdmitsAfter (between ++ back) ↔ _ :=
      admitsAfter_blanks_iff blank nonempty
    by_cases colon : (back.dropWhile Text.isBlank).head? = some ':'
    · simp only [hidden, labelled, colon, and_true, ne_eq, not_true_eq_false,
        and_false, false_or]
      exact ⟨fun opens => ⟨blank, opens⟩, And.right⟩
    · simp [hidden, labelled, colon]
  · have solid : ∃ char ∈ between, Text.isBlank char = false := by
      simpa using blank
    rw [admitsAfter_append solid, admitsAfter_append solid]
    exact ⟨.inl, fun found => found.resolve_right fun hidden => blank hidden.1⟩

theorem at_behind_comment (seam : Seam front) (isRemark : remark.IsRemark)
    (back_eq : back = between ++ (field ++ after)) :
    At (front ++ (comment remark ++ back)) field
        (front ++ (comment remark ++ between)) after ↔
      At (front ++ back) field (front ++ between) after ∨
        (∀ char ∈ between, Text.isBlank char) ∧ isDefinitionName front ∧
          AdmitsAfter after := by
  have commented_iff : At (front ++ (comment remark ++ back)) field
      (front ++ (comment remark ++ between)) after ↔
      AdmitsBefore (front ++ (comment remark ++ between)) ∧ AdmitsAfter after :=
    ⟨fun isAt => ⟨isAt.opens, isAt.closes⟩, fun admits =>
      ⟨by simp [back_eq], admits.1, admits.2⟩⟩
  have plain_iff : At (front ++ back) field (front ++ between) after ↔
      AdmitsBefore (front ++ between) ∧ AdmitsAfter after :=
    ⟨fun isAt => ⟨isAt.opens, isAt.closes⟩, fun admits =>
      ⟨by simp [back_eq], admits.1, admits.2⟩⟩
  rw [commented_iff, plain_iff]
  by_cases blank : ∀ char ∈ between, Text.isBlank char
  · have hidden := admitsBefore_comment_blank seam isRemark blank
    rw [admitsBefore_blanks_iff seam blank]
    by_cases named : isDefinitionName front
    · simp only [hidden, named, true_and, Bool.true_eq_false, false_and, false_or]
      exact ⟨fun closes => ⟨blank, closes⟩, And.right⟩
    · simp [hidden, named]
  · have solid : ∃ char ∈ between, Text.isBlank char = false := by
      simpa using blank
    rw [admitsBefore_comment_solid seam isRemark solid]
    exact ⟨.inl, fun found => found.resolve_right fun hidden => blank hidden.1⟩

end Places

/-! The end of an argument list that a comment comes before, stands in or follows. -/

section Arguments

variable {front back field remark before between after gap : Text}
  {position : Position}

theorem afterClosing_append (depth : Nat) (position : Position) (left : Text) :
    (∃ passed rest, left = passed ++ ')' :: rest ∧
        ∀ right, afterClosing depth position (left ++ right) =
          some (rest ++ right)) ∨
      ∃ inner, ∀ right, afterClosing depth position (left ++ right) =
        afterClosing inner (position.past left) right := by
  induction left generalizing depth position with
  | nil => exact .inr ⟨depth, fun _ => rfl⟩
  | cons char left induction =>
      have onward : ∀ next : Nat,
          (∀ right, afterClosing depth position (char :: (left ++ right)) =
            afterClosing next (position.after char) (left ++ right)) →
          (∃ passed rest, char :: left = passed ++ ')' :: rest ∧
            ∀ right, afterClosing depth position (char :: (left ++ right)) =
              some (rest ++ right)) ∨
          ∃ inner, ∀ right,
            afterClosing depth position (char :: (left ++ right)) =
              afterClosing inner ((position.after char).past left) right := by
        intro next step
        rcases induction next (position.after char) with
          ⟨passed, rest, left_eq, closed⟩ | ⟨inner, later⟩
        · exact .inl ⟨char :: passed, rest, by rw [left_eq]; rfl,
            fun right => (step right).trans (closed right)⟩
        · exact .inr ⟨inner, fun right => (step right).trans (later right)⟩
      by_cases opens : position.state = .code ∧ char = '('
      · exact onward (depth + 1) fun right => by rw [afterClosing, if_pos opens]
      · by_cases closes : position.state = .code ∧ char = ')'
        · by_cases last : depth = 1
          · refine .inl ⟨[], left, by rw [closes.2]; rfl, fun right => ?_⟩
            rw [List.cons_append, afterClosing, if_neg opens, if_pos closes,
              if_pos last]
          · exact onward (depth - 1) fun right => by
              rw [afterClosing, if_neg opens, if_pos closes, if_neg last]
        · exact onward depth fun right => by
            rw [afterClosing, if_neg opens, if_neg closes]

theorem afterClosing_of_ignored (depth : Nat)
    (ignored : ∀ row ∈ Scanner.rowsFrom position gap, row.isIgnored)
    (right : Text) :
    afterClosing depth position (gap ++ right) =
      afterClosing depth (position.past gap) right := by
  induction gap generalizing position with
  | nil => rfl
  | cons char gap induction =>
      rw [Scanner.rowsFrom, List.forall_mem_cons] at ignored
      have sign : ∀ other : Char, other = '(' ∨ other = ')' →
          ¬ (position.state = .code ∧ char = other) := by
        rintro other isSign ⟨code, rfl⟩
        rcases Row.isIgnored_iff.mp ignored.1 with elsewhere | sharp | blank
        · exact elsewhere code
        · rcases isSign with rfl | rfl <;> cases sharp
        · rcases isSign with rfl | rfl <;> cases blank
      rw [List.cons_append, afterClosing, if_neg (sign _ (.inl rfl)),
        if_neg (sign _ (.inr rfl))]
      exact induction ignored.2

theorem afterClosing_suffix {depth : Nat} {text tail : Text}
    (closed : afterClosing depth position text = some tail) :
    ∃ passed, text = passed ++ tail := by
  rcases afterClosing_append depth position text with
    ⟨passed, rest, text_eq, found⟩ | ⟨inner, later⟩
  · have same := found []
    rw [List.append_nil, List.append_nil, closed, Option.some_inj] at same
    exact ⟨passed ++ [')'], by simp [text_eq, same]⟩
  · have absent := later []
    rw [List.append_nil, closed] at absent
    cases absent

theorem afterClosing_comment (depth : Nat) (isRemark : remark.IsRemark)
    (code : position.state = .code) (right : Text) :
    afterClosing depth position (comment remark ++ right) =
      afterClosing depth position right := by
  have passed : (position.past (comment remark)).state = .code := by
    rw [Position.state_past_of_code code]
    exact (Text.neutral_commentOf isRemark).closed
  rw [afterClosing_of_ignored depth (Text.isIgnored_comment isRemark code)]
  exact afterClosing_alike depth (.of_code passed code) right

theorem afterArguments_append (solid : ∃ char ∈ between, Text.isBlank char = false)
    (right : Text) :
    afterArguments (between ++ right) =
      if (between.dropWhile Text.isBlank).head? = some '(' then
        (afterClosing 0 .start (between.dropWhile Text.isBlank ++ right)).getD
          (between ++ right)
      else between ++ right := by
  have remains : between.dropWhile Text.isBlank ≠ [] := by
    intro none
    rcases solid with ⟨char, member, solid⟩
    rw [List.dropWhile_eq_nil_iff.mp none char member] at solid
    cases solid
  have dropped : (between ++ right).dropWhile Text.isBlank =
      between.dropWhile Text.isBlank ++ right := by
    rw [List.dropWhile_append, if_neg (by simpa using remains)]
  simp only [afterArguments, dropped, List.head?_append_of_ne_nil _ remains]

theorem Seam.behind_field (seam : Seam front) (word : field.IsWord)
    (opens : AdmitsBefore before) (front_eq : front = before ++ (field ++ between)) :
    (Position.start.past (between.dropWhile Text.isBlank)).state = .code := by
  have fieldCode : endState field = .code :=
    endState_of_plain fun char member =>
      Position.isPlain_of_isNameContinue (word.2 char member)
  have blankCode : endState (between.takeWhile Text.isBlank) = .code :=
    endState_of_plain fun char member =>
      Token.isPlain_of_isBlank (List.mem_takeWhile_imp member)
  rw [← endState_eq, ← endState_append blankCode,
    List.takeWhile_append_dropWhile, ← endState_append fieldCode,
    ← endState_append opens.code, ← front_eq]
  exact seam.code

theorem afterArguments_comment (word : field.IsWord) (seam : Seam front)
    (isRemark : remark.IsRemark) (opens : AdmitsBefore before)
    (front_eq : front = before ++ (field ++ between))
    (solid : ∃ char ∈ between, Text.isBlank char = false) :
    (∃ inside rest, between = inside ++ rest ∧ rest ≠ [] ∧
        afterArguments (between ++ back) = rest ++ back ∧
        afterArguments (between ++ (comment remark ++ back)) =
          rest ++ (comment remark ++ back)) ∨
      ∃ passed tail, back = passed ++ tail ∧
        afterArguments (between ++ back) = tail ∧
        afterArguments (between ++ (comment remark ++ back)) = tail := by
  have nonempty := seam.nonempty word front_eq
  have code := seam.behind_field word opens front_eq
  have between_eq := List.takeWhile_append_dropWhile (p := Text.isBlank)
    (l := between)
  rw [afterArguments_append solid, afterArguments_append solid]
  generalize between.takeWhile Text.isBlank = gap at between_eq
  generalize between.dropWhile Text.isBlank = onward at between_eq code
  by_cases opening : onward.head? = some '('
  · rw [if_pos opening, if_pos opening]
    rcases afterClosing_append 0 .start onward with
      ⟨passed, rest, onward_eq, closed⟩ | ⟨depth, later⟩
    · refine .inl ⟨gap ++ (passed ++ [')']), rest, ?_, ?_, ?_, ?_⟩
      · simp [← between_eq, onward_eq]
      · rintro rfl
        have apart : front.getLast?.any (· == ')') = false :=
          seam.apart fun char blank =>
            beq_eq_false_iff_ne.mpr (isBlank_apart blank).2
        rw [front_eq, ← between_eq, onward_eq, ← List.append_assoc,
          ← List.append_assoc, ← List.append_assoc, List.getLast?_concat] at apart
        cases apart
      · rw [closed]
        rfl
      · rw [closed]
        rfl
    · rw [later, later, afterClosing_comment depth isRemark code]
      cases closed : afterClosing depth (Position.start.past onward) back with
      | none => exact .inl ⟨[], between, rfl, nonempty, rfl, rfl⟩
      | some tail =>
          rcases afterClosing_suffix closed with ⟨passed, back_eq⟩
          exact .inr ⟨passed, tail, back_eq, rfl, rfl⟩
  · rw [if_neg opening, if_neg opening]
    exact .inl ⟨[], between, rfl, nonempty, rfl, rfl⟩

end Arguments

end FieldOccurrence

end QueryAssembly
