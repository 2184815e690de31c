import QueryAssembly.Proofs.Field.Comment

namespace QueryAssembly

/-! The search for a field in a document with and without a comment. Both find
the same field and the same arguments, unless the comment stands between the
field and a colon, a definition keyword or an argument list. -/

namespace FieldOccurrence

open Text (comment)

/-- Where an offset comes to lie when bytes are put in at a border. -/
def movedOffset (border amount offset : Nat) : Nat :=
  if offset < border then offset else offset + amount

def moved (border amount : Nat) (occurrence : FieldOccurrence) :
    FieldOccurrence :=
  ⟨movedOffset border amount occurrence.start,
    movedOffset border amount occurrence.stop⟩

def NoneBefore (front back field : Text) : Prop :=
  ∀ before after, At (front ++ back) field before after →
    front.length ≤ before.length

/-- What a comment between two texts takes from the sight of the search. -/
inductive Hides (front back field : Text) : Prop
  | colon {before blanks : Text} :
      front = before ++ (field ++ blanks) →
      (∀ char ∈ blanks, Text.isBlank char) → AdmitsBefore before →
      (back.dropWhile Text.isBlank).head? = some ':' →
      NoneBefore front back field → Hides front back field
  | keyword {blanks after : Text} :
      back = blanks ++ (field ++ after) →
      (∀ char ∈ blanks, Text.isBlank char) → isDefinitionName front →
      AdmitsAfter after →
      NoneBefore front back field → Hides front back field
  | arguments {before blanks : Text} :
      front = before ++ (field ++ blanks) →
      (∀ char ∈ blanks, Text.isBlank char) →
      First (front ++ back) field before (blanks ++ back) →
      afterArguments (blanks ++ back) ≠ blanks ++ back →
      Hides front back field

section Offsets

variable {border amount offset : Nat} {document field before after : Text}

theorem movedOffset_before (earlier : offset < border) :
    movedOffset border amount offset = offset := if_pos earlier

theorem movedOffset_behind (later : border ≤ offset) :
    movedOffset border amount offset = offset + amount :=
  if_neg (Nat.not_lt.mpr later)

theorem offset_le_movedOffset (border amount offset : Nat) :
    offset ≤ movedOffset border amount offset := by
  unfold movedOffset
  split <;> omega

theorem bytes_pos {text : Text} (nonempty : text ≠ []) : 0 < text.bytes := by
  rcases List.exists_cons_of_ne_nil nonempty with ⟨char, rest, rfl⟩
  have positive := Char.utf8Size_pos char
  rw [Text.bytes_cons]
  omega

end Offsets

/-! Places of a field on either side of the border. -/

section Places

variable {front back field remark before between blanks after : Text}

theorem not_within_blanks (word : field.IsWord)
    (blank : ∀ char ∈ blanks, Text.isBlank char) :
    blanks ≠ before ++ (field ++ after) := by
  rintro rfl
  rcases List.exists_cons_of_ne_nil word.1 with ⟨letter, others, rfl⟩
  have solid :=
    Text.not_isBlank_of_isNameContinue (word.2 letter List.mem_cons_self)
  rw [blank letter (by simp)] at solid
  cases solid

theorem blanks_prefix (word : field.IsWord)
    (blank : ∀ char ∈ blanks, Text.isBlank char)
    (text_eq : blanks ++ (field ++ after) = between ++ (field ++ back)) :
    blanks <+: between := by
  rcases word.split (.inl (Text.isGap_of_blank blank).last_apart) text_eq with
    ⟨_, within, _⟩ | ⟨later, between_eq, _⟩
  · exact absurd within (not_within_blanks word blank)
  · exact ⟨later, between_eq.symm⟩

theorem length_le_of_blanks (word : field.IsWord)
    (blank : ∀ char ∈ blanks, Text.isBlank char)
    (text_eq : before ++ (field ++ blanks) = between ++ (field ++ after)) :
    between.length ≤ before.length := by
  have stops : Text.continuesName blanks = false := by
    cases blanks with
    | nil => rfl
    | cons char blanks =>
        exact not_isNameContinue_of_isBlank (blank char List.mem_cons_self)
  rw [← List.append_assoc] at text_eq
  rcases word.split (.inr stops) text_eq with
    ⟨inside, lead_eq, _⟩ | ⟨inside, _, within⟩
  · have length_eq := congrArg List.length lead_eq
    simp only [List.length_append] at length_eq
    omega
  · exact absurd within (not_within_blanks word blank)

theorem at_behind_of_not_hides (word : field.IsWord) (seam : Seam front)
    (isRemark : remark.IsRemark) (unhidden : ¬ Hides front back field)
    (none : NoneBefore front back field)
    (isAt : At (front ++ (comment remark ++ back)) field before after) :
    ∃ between, before = front ++ (comment remark ++ between) ∧
      At (front ++ back) field (front ++ between) after := by
  rcases isAt.split_seam word seam with
    ⟨between, front_eq, rfl⟩ | ⟨between, rfl, _⟩
  · rcases (at_front_comment word seam front_eq).mp isAt with
      plain | ⟨blank, opens, colon⟩
    · have bound := none _ _ plain
      have length_eq := congrArg List.length front_eq
      have positive := List.length_pos_iff.mpr word.1
      simp only [List.length_append] at length_eq
      omega
    · exact absurd (.colon front_eq blank opens colon none) unhidden
  · rcases isAt.behind_comment word seam isRemark with ⟨later, rfl, back_eq⟩
    refine ⟨later, rfl, ?_⟩
    rcases (at_behind_comment seam isRemark back_eq).mp isAt with
      plain | ⟨blank, defines, closes⟩
    · exact plain
    · exact absurd (.keyword back_eq blank defines closes none) unhidden

theorem First.comment_behind (word : field.IsWord) (seam : Seam front)
    (remark : Text) (front_eq : front = before ++ (field ++ between))
    (first : First (front ++ back) field before (between ++ back)) :
    First (front ++ (comment remark ++ back)) field before
      (between ++ (comment remark ++ back)) := by
  refine ⟨(at_front_comment word seam front_eq).mpr (.inl first.toAt), ?_⟩
  intro other rest otherAt
  rcases otherAt.split_seam word seam with
    ⟨gap, other_eq, rfl⟩ | ⟨gap, rfl, _⟩
  · rcases (at_front_comment word seam other_eq).mp otherAt with
      plain | ⟨blank, _, _⟩
    · exact first.least _ _ plain
    · exact length_le_of_blanks word blank (other_eq.symm.trans front_eq)
  · have length_eq := congrArg List.length front_eq
    simp only [List.length_append] at length_eq ⊢
    omega

theorem First.comment_before (word : field.IsWord) (seam : Seam front)
    (isRemark : remark.IsRemark) (unhidden : ¬ Hides front back field)
    (back_eq : back = between ++ (field ++ after))
    (first : First (front ++ back) field (front ++ between) after) :
    First (front ++ (comment remark ++ back)) field
      (front ++ (comment remark ++ between)) after := by
  refine ⟨(at_behind_comment seam isRemark back_eq).mpr (.inl first.toAt), ?_⟩
  intro other rest otherAt
  have none : NoneBefore front back field := by
    intro before rest isAt
    have least := first.least _ _ isAt
    rw [List.length_append] at least
    omega
  rcases at_behind_of_not_hides word seam isRemark unhidden none otherAt with
    ⟨later, rfl, plain⟩
  have least := first.least _ _ plain
  simp only [List.length_append] at least ⊢
  omega

end Places

/-! What a comment that hides nothing does to the search: it moves what is found. -/

section Search

variable {front back field remark before between blanks after : Text}

theorem afterArguments_blanks_comment
    (blank : ∀ char ∈ blanks, Text.isBlank char) (remark back : Text) :
    afterArguments (blanks ++ (comment remark ++ back)) =
      blanks ++ (comment remark ++ back) := by
  have sharp : ((blanks ++ (comment remark ++ back)).dropWhile
      Text.isBlank).head? = some '#' := by
    rw [List.dropWhile_append_of_pos blank, head?_dropWhile_comment]
  rw [afterArguments, sharp]
  rfl

theorem afterArguments_of_not_hides (word : field.IsWord) (seam : Seam front)
    (isRemark : remark.IsRemark) (unhidden : ¬ Hides front back field)
    (front_eq : front = before ++ (field ++ between))
    (first : First (front ++ back) field before (between ++ back)) :
    (∃ inside rest, between = inside ++ rest ∧ rest ≠ [] ∧
        afterArguments (between ++ back) = rest ++ back ∧
        afterArguments (between ++ (comment remark ++ back)) =
          rest ++ (comment remark ++ back)) ∨
      ∃ passed tail, back = passed ++ tail ∧
        afterArguments (between ++ back) = tail ∧
        afterArguments (between ++ (comment remark ++ back)) = tail := by
  by_cases solid : ∃ char ∈ between, Text.isBlank char = false
  · exact afterArguments_comment word seam isRemark first.opens front_eq solid
  · have blank : ∀ char ∈ between, Text.isBlank char := by
      simpa using solid
    have unlisted : afterArguments (between ++ back) = between ++ back := by
      by_contra listed
      exact unhidden (.arguments front_eq blank first listed)
    exact .inl ⟨[], between, rfl, seam.nonempty word front_eq, unlisted,
      afterArguments_blanks_comment blank remark back⟩

theorem first?_front (word : field.IsWord) (seam : Seam front)
    (isRemark : remark.IsRemark) (unhidden : ¬ Hides front back field)
    (front_eq : front = before ++ (field ++ between))
    (first : First (front ++ back) field before (between ++ back)) :
    ∃ occurrence, first? (front ++ back) field = .ok (some occurrence) ∧
      first? (front ++ (comment remark ++ back)) field =
        .ok (some (moved front.bytes (comment remark).bytes occurrence)) := by
  rcases first?_of_first word first with ⟨dropped, after_eq, found⟩
  rcases first?_of_first word (first.comment_behind word seam remark
    front_eq) with ⟨others, commented_eq, commented⟩
  refine ⟨_, found, ?_⟩
  rw [commented, Except.ok.injEq, Option.some_inj]
  have positive := bytes_pos word.1
  have front_bytes := congrArg Text.bytes front_eq
  simp only [Text.bytes_append] at front_bytes
  rcases afterArguments_of_not_hides word seam isRemark unhidden front_eq first
    with ⟨inside, rest, between_eq, nonempty, plain, shown⟩ |
      ⟨passed, tail, back_eq, plain, shown⟩
  · have remains := bytes_pos nonempty
    rw [plain, between_eq, List.append_assoc] at after_eq
    rw [shown, between_eq, List.append_assoc] at commented_eq
    rw [← List.append_cancel_right after_eq,
      ← List.append_cancel_right commented_eq]
    rw [between_eq, Text.bytes_append] at front_bytes
    simp only [moved, Text.bytes_append]
    rw [movedOffset_before (by omega), movedOffset_before (by omega)]
  · rw [plain, back_eq, ← List.append_assoc] at after_eq
    rw [shown, back_eq, ← List.append_assoc, ← List.append_assoc] at commented_eq
    rw [← List.append_cancel_right after_eq,
      ← List.append_cancel_right commented_eq]
    simp only [moved, Text.bytes_append]
    rw [movedOffset_before (by omega), movedOffset_behind (by omega)]
    congr 1
    omega

theorem first?_back (word : field.IsWord) (seam : Seam front)
    (isRemark : remark.IsRemark) (unhidden : ¬ Hides front back field)
    (back_eq : back = between ++ (field ++ after))
    (first : First (front ++ back) field (front ++ between) after) :
    ∃ occurrence, first? (front ++ back) field = .ok (some occurrence) ∧
      first? (front ++ (comment remark ++ back)) field =
        .ok (some (moved front.bytes (comment remark).bytes occurrence)) := by
  rcases first?_of_first word first with ⟨dropped, after_eq, found⟩
  rcases first?_of_first word (first.comment_before word seam isRemark unhidden
    back_eq) with ⟨others, others_eq, commented⟩
  refine ⟨_, found, ?_⟩
  rw [commented, Except.ok.injEq, Option.some_inj]
  rw [List.append_cancel_right (others_eq.symm.trans after_eq)]
  simp only [moved, Text.bytes_append]
  rw [movedOffset_behind (by omega), movedOffset_behind (by omega)]
  congr 1 <;> omega

theorem first?_ok (word : field.IsWord) (document : Text) :
    ∃ found, first? document field = .ok found := by
  rcases first?_first word document with
    ⟨_, found⟩ | ⟨_, _, _, _, _, _, found⟩
  · exact ⟨_, found⟩
  · exact ⟨_, found⟩

theorem first?_of_not_hides (word : field.IsWord) (seam : Seam front)
    (isRemark : remark.IsRemark) (unhidden : ¬ Hides front back field) :
    ∃ found, first? (front ++ back) field = .ok found ∧
      first? (front ++ (comment remark ++ back)) field =
        .ok (found.map (moved front.bytes (comment remark).bytes)) := by
  rcases first?_first word (front ++ back) with
    ⟨absent, found⟩ | ⟨before, _, after, first, _, _, _⟩
  · refine ⟨none, found, (first?_eq_none_iff word _).mpr fun other rest isAt => ?_⟩
    rcases at_behind_of_not_hides word seam isRemark unhidden
        (fun before after isAt => absurd isAt (absent before after)) isAt with
      ⟨_, _, plain⟩
    exact absent _ _ plain
  · rcases first.toAt.split_seam word seam with
      ⟨between, front_eq, rfl⟩ | ⟨between, rfl, back_eq⟩
    · rcases first?_front word seam isRemark unhidden front_eq first with
        ⟨occurrence, plain, commented⟩
      exact ⟨some occurrence, plain, commented⟩
    · rcases first?_back word seam isRemark unhidden back_eq first with
        ⟨occurrence, plain, commented⟩
      exact ⟨some occurrence, plain, commented⟩

end Search

/-! What is hidden is never found where it would have been moved to. -/

section Hidden

variable {front back field remark before between blanks after : Text}
  {found : Option FieldOccurrence}

theorem NoneBefore.split (none : NoneBefore front back field)
    (word : field.IsWord) (seam : Seam front)
    (isAt : At (front ++ back) field before after) :
    ∃ between, before = front ++ between ∧ back = between ++ (field ++ after) := by
  rcases isAt.split_seam word seam with ⟨between, front_eq, _⟩ | behind
  · have bound := none _ _ isAt
    have length_eq := congrArg List.length front_eq
    have positive := List.length_pos_iff.mpr word.1
    simp only [List.length_append] at length_eq
    omega
  · exact behind

theorem movedOffset_le (word : field.IsWord)
    (plain : first? (front ++ back) field = .ok found)
    (commented : first? (front ++ (comment remark ++ back)) field =
      .ok (found.map (moved front.bytes (comment remark).bytes)))
    (isAt : At (front ++ (comment remark ++ back)) field before after) :
    ∃ other rest, At (front ++ back) field other rest ∧
      movedOffset front.bytes (comment remark).bytes other.bytes ≤
        before.bytes := by
  rcases first?_first word (front ++ (comment remark ++ back)) with
    ⟨absent, _⟩ | ⟨lead, _, _, commentedFirst, _, _, commentedFound⟩
  · exact absurd isAt (absent _ _)
  · rw [commentedFound] at commented
    rcases first?_first word (front ++ back) with
      ⟨_, none⟩ | ⟨other, _, rest, first, _, _, plainFound⟩
    · rw [none] at plain
      rw [← Except.ok.inj plain] at commented
      cases commented
    · rw [plainFound] at plain
      rw [← Except.ok.inj plain, Option.map_some, Except.ok.injEq,
        Option.some_inj] at commented
      have start : lead.bytes =
          movedOffset front.bytes (comment remark).bytes other.bytes :=
        congrArg FieldOccurrence.start commented
      exact ⟨other, rest, first.toAt, start ▸ commentedFirst.bytes_le isAt⟩

theorem not_moved_of_arguments (word : field.IsWord) (seam : Seam front)
    (front_eq : front = before ++ (field ++ blanks))
    (blank : ∀ char ∈ blanks, Text.isBlank char)
    (first : First (front ++ back) field before (blanks ++ back))
    (listed : afterArguments (blanks ++ back) ≠ blanks ++ back)
    (plain : first? (front ++ back) field = .ok found) :
    first? (front ++ (comment remark ++ back)) field ≠
      .ok (found.map (moved front.bytes (comment remark).bytes)) := by
  intro commented
  rcases first?_of_first word first with ⟨dropped, after_eq, plainFound⟩
  rcases first?_of_first word (first.comment_behind word seam remark front_eq) with
    ⟨others, others_eq, commentedFound⟩
  rw [afterArguments_blanks_comment blank] at others_eq
  rw [List.self_eq_append_left.mp others_eq, List.append_nil] at commentedFound
  rw [plain] at plainFound
  rw [commentedFound, Except.ok.inj plainFound, Option.map_some,
    Except.ok.injEq, Option.some_inj] at commented
  have stop : Text.bytes (before ++ field) =
      movedOffset front.bytes (comment remark).bytes
        (Text.bytes (before ++ (field ++ dropped))) :=
    congrArg FieldOccurrence.stop commented
  have nonempty : dropped ≠ [] := by
    rintro rfl
    exact listed after_eq.symm
  have positive := bytes_pos nonempty
  have bound := offset_le_movedOffset front.bytes (comment remark).bytes
    (Text.bytes (before ++ (field ++ dropped)))
  rw [← stop] at bound
  simp only [Text.bytes_append] at bound
  omega

theorem not_moved_of_hides (word : field.IsWord) (seam : Seam front)
    (isRemark : remark.IsRemark) (hides : Hides front back field)
    (plain : first? (front ++ back) field = .ok found) :
    first? (front ++ (comment remark ++ back)) field ≠
      .ok (found.map (moved front.bytes (comment remark).bytes)) := by
  cases hides with
  | @colon before blanks front_eq blank opens colon none =>
      intro commented
      have isAt : At (front ++ (comment remark ++ back)) field before _ :=
        (at_front_comment word seam front_eq).mpr (.inr ⟨blank, opens, colon⟩)
      rcases movedOffset_le word plain commented isAt with
        ⟨_, rest, otherAt, bound⟩
      rcases none.split word seam otherAt with ⟨between, rfl, _⟩
      have front_bytes := congrArg Text.bytes front_eq
      have positive := bytes_pos word.1
      simp only [Text.bytes_append] at front_bytes bound
      rw [movedOffset_behind (by omega)] at bound
      omega
  | @keyword blanks after back_eq blank defines closes none =>
      intro commented
      have isAt := (at_behind_comment seam isRemark back_eq).mpr
        (.inr ⟨blank, defines, closes⟩)
      rcases movedOffset_le word plain commented isAt with
        ⟨_, rest, otherAt, bound⟩
      rcases none.split word seam otherAt with ⟨between, rfl, other_eq⟩
      rcases blanks_prefix word blank (back_eq.symm.trans other_eq) with
        ⟨later, rfl⟩
      simp only [Text.bytes_append] at bound
      rw [movedOffset_behind (by omega)] at bound
      have none : later = [] := by
        by_contra nonempty
        have positive := bytes_pos nonempty
        omega
      have undefined := otherAt.opens.undefined
      rw [none, List.append_nil, isDefinitionName_blanks seam blank, defines]
        at undefined
      cases undefined
  | arguments front_eq blank first listed =>
      exact not_moved_of_arguments word seam front_eq blank first listed plain

/-- The search finds the same field and the same arguments with a comment put
in, just when the comment hides nothing from it. -/
theorem first?_comment_iff (isName : field.IsName) (seam : Seam front)
    (isRemark : remark.IsRemark) (back : Text) :
    ∃ found commented, first? (front ++ back) field = .ok found ∧
      first? (front ++ (comment remark ++ back)) field = .ok commented ∧
      (commented = found.map (moved front.bytes (comment remark).bytes) ↔
        ¬ Hides front back field) := by
  have word := isName.isWord
  by_cases hides : Hides front back field
  · rcases first?_ok word (front ++ back) with ⟨found, plain⟩
    rcases first?_ok word (front ++ (comment remark ++ back)) with
      ⟨commented, shown⟩
    refine ⟨found, commented, plain, shown, iff_of_false ?_ (not_not_intro hides)⟩
    rintro rfl
    exact not_moved_of_hides word seam isRemark hides plain shown
  · rcases first?_of_not_hides word seam isRemark hides with
      ⟨found, plain, commented⟩
    exact ⟨found, _, plain, commented, iff_of_true rfl hides⟩

def listing : Text := "\x7b id ".toList

def listed : Text := "users \x7b id \x7d \x7d".toList

theorem first?_comment_iff_listing :
    Text.IsName "users".toList ∧ Seam listing ∧
      Text.IsRemark " query".toList ∧
      first? (listing ++ listed) "users".toList = .ok (some ⟨5, 10⟩) ∧
      first? (listing ++ (comment " query".toList ++ listed)) "users".toList =
        .ok (some ⟨13, 18⟩) ∧
      ¬ Hides listing listed "users".toList := by
  have isName : Text.IsName "users".toList := by decide
  have seam : Seam listing := ⟨by decide, by decide⟩
  have isRemark : Text.IsRemark " query".toList := by decide
  have plain : first? (listing ++ listed) "users".toList =
      .ok (some ⟨5, 10⟩) := by decide +kernel
  have shown : first? (listing ++ (comment " query".toList ++ listed))
      "users".toList = .ok (some ⟨13, 18⟩) := by
    decide +kernel
  rcases first?_comment_iff isName seam isRemark listed with
    ⟨found, commented, found_eq, commented_eq, iff⟩
  obtain rfl := Except.ok.inj (plain.symm.trans found_eq)
  obtain rfl := Except.ok.inj (shown.symm.trans commented_eq)
  exact ⟨isName, seam, isRemark, plain, shown, iff.mp rfl⟩

def keyword : Text := "query ".toList

def named : Text := "users \x7b users \x7b id \x7d \x7d".toList

/-- Behind a comment the name of an operation is taken for the field. -/
theorem not_forall_first?_comment :
    ¬ ∀ (front remark back field : Text) (found : Option FieldOccurrence),
      Seam front → remark.IsRemark → field.IsName →
      first? (front ++ back) field = .ok found →
      first? (front ++ (comment remark ++ back)) field =
        .ok (found.map (moved front.bytes (comment remark).bytes)) := by
  intro every
  have seam : Seam keyword := ⟨by decide, by decide⟩
  have isRemark : Text.IsRemark " all".toList := by decide
  have isName : Text.IsName "users".toList := by decide
  have plain : first? (keyword ++ named) "users".toList =
      .ok (some ⟨14, 19⟩) := by decide +kernel
  have moves := every keyword " all".toList named "users".toList
    (some ⟨14, 19⟩) seam isRemark isName plain
  have shown : first? (keyword ++ (comment " all".toList ++ named))
      "users".toList = .ok (some ⟨12, 17⟩) := by
    decide +kernel
  rw [shown] at moves
  exact absurd moves (by decide)

end Hidden

end FieldOccurrence

end QueryAssembly
