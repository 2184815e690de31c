import QueryAssembly.Proofs.Lexical.Label
import QueryAssembly.Proofs.Text.Word

namespace QueryAssembly

/-! The lexemes of a text: names, whole literals, the three dots of a spread, and
every other character in code on its own. Blanks and comments are left out. A run
of dots is cut in threes from its end, so that the last three belong to the name
that follows it. -/

namespace Label

def isNamePart (label : Label) : Bool :=
  label.2 == .code && Text.isNameContinue label.1

def isDot (label : Label) : Bool := label == ('.', .code)

/-- Whether a character stands in a literal, behind the mark that opens it. -/
def isInside (label : Label) : Bool :=
  label.2 != .code && label.2 != .comment

def isSkipped (label : Label) : Bool :=
  label.2 == .comment ||
    label.2 == .code && (label.1 == '#' || Text.isBlank label.1)

end Label

def leadingDots (labels : List Label) : Nat :=
  (labels.takeWhile Label.isDot).length

/-- Whether a label and the next one belong to one lexeme. -/
def joins (label : Label) : List Label → Bool
  | [] => false
  | next :: rest =>
      next.isInside || label.isNamePart && next.isNamePart ||
        label.isDot && leadingDots (next :: rest) % 3 != 0

def extendFirst (char : Char) : List Text → List Text
  | [] => [[char]]
  | first :: later => (char :: first) :: later

def lexemes : List Label → List Text
  | [] => []
  | label :: rest =>
      if label.isSkipped then lexemes rest
      else if joins label rest then extendFirst label.1 (lexemes rest)
      else [label.1] :: lexemes rest

def lexemesOf (text : Text) : List Text := lexemes (labelsOf text)

section Labels

variable {label : Label} {left right : List Label}

theorem Label.not_isSkipped_of_isNamePart (isNamePart : label.isNamePart) :
    label.isSkipped = false := by
  simp only [Label.isNamePart, Bool.and_eq_true, beq_iff_eq] at isNamePart
  have sign : label.1 ≠ '#' := Text.ne_of_isNameContinue isNamePart.2 rfl
  have blank := Text.not_isBlank_of_isNameContinue isNamePart.2
  simp [Label.isSkipped, isNamePart.1, sign, blank]

theorem leadingDots_cons (label : Label) (rest : List Label) :
    leadingDots (label :: rest) =
      if label.isDot then leadingDots rest + 1 else 0 := by
  rw [leadingDots, List.takeWhile_cons]
  split <;> rfl

theorem lexemes_ne_nil_of_joins (joined : joins label right) :
    lexemes right ≠ [] := by
  cases right with
  | nil => cases joined
  | cons next rest =>
      have kept : next.isSkipped = false := by
        simp only [joins, Bool.or_eq_true, Bool.and_eq_true] at joined
        rcases joined with (inside | ⟨_, isNamePart⟩) | ⟨_, dots⟩
        · simp_all [Label.isInside, Label.isSkipped]
        · exact Label.not_isSkipped_of_isNamePart isNamePart
        · cases dot : next.isDot with
          | false =>
              rw [leadingDots_cons, dot] at dots
              cases dots
          | true =>
              rw [beq_iff_eq.mp dot]
              rfl
      rw [lexemes, if_neg (by simp [kept])]
      split
      · cases lexemes rest <;> exact List.cons_ne_nil _ _
      · exact List.cons_ne_nil _ _

theorem leadingDots_append_mod
    (apart : ∀ last ∈ (label :: left).getLast?, joins last right = false) :
    leadingDots (label :: left ++ right) % 3 = leadingDots (label :: left) % 3 := by
  induction left generalizing label with
  | nil =>
      have alone : joins label right = false := apart label rfl
      rw [List.singleton_append, leadingDots_cons, leadingDots_cons]
      split
      · next dot =>
        have whole : leadingDots right % 3 = 0 := by
          cases right with
          | nil => rfl
          | cons next rest => simpa [joins, dot] using (Bool.or_eq_false_iff.mp alone).2
        simp only [leadingDots, List.takeWhile_nil, List.length_nil] at whole ⊢
        omega
      · rfl
  | cons next rest induction =>
      rw [List.getLast?_cons_cons] at apart
      have onward := induction apart
      rw [List.cons_append, leadingDots_cons, leadingDots_cons]
      split
      · omega
      · rfl

theorem joins_append {next : Label}
    (apart : ∀ last ∈ (next :: left).getLast?, joins last right = false) :
    joins label (next :: left ++ right) = joins label (next :: left) := by
  have dots := leadingDots_append_mod apart
  simp only [List.cons_append] at dots ⊢
  simp only [joins, dots]

theorem lexemes_append (apart : ∀ last ∈ left.getLast?, joins last right = false) :
    lexemes (left ++ right) = lexemes left ++ lexemes right := by
  induction left with
  | nil => rfl
  | cons label rest induction =>
      cases rest with
      | nil =>
          have alone : joins label right = false := apart label rfl
          rw [List.singleton_append, lexemes, lexemes, alone]
          cases label.isSkipped <;> simp [joins, lexemes]
      | cons next rest =>
          rw [List.getLast?_cons_cons] at apart
          have onward := induction apart
          have same := @joins_append label rest right next apart
          rw [List.cons_append, lexemes, onward, same]
          conv => rhs; rw [lexemes]
          split
          · rfl
          · split
            · next joined =>
              rcases List.exists_cons_of_ne_nil (lexemes_ne_nil_of_joins joined) with
                ⟨first, later, lexemes_eq⟩
              rw [lexemes_eq]
              rfl
            · rfl

end Labels

section Texts

variable {left right word : Text}

theorem leadingDots_labelsFrom (position : Position) {text : Text}
    (starts : text.head? ≠ some '.') : leadingDots (labelsFrom position text) = 0 := by
  cases text with
  | nil => rfl
  | cons first rest =>
      have different : first ≠ '.' := fun equal => starts (congrArg some equal)
      rw [labelsFrom_cons, leadingDots_cons, if_neg (by simp [Label.isDot, different])]

theorem lexemesOf_append (closed : endState left = .code)
    (names : left.getLast?.any Text.isNameContinue → right.continuesName = false)
    (dots : left.getLast? = some '.' → leadingDots (labelsOf right) % 3 = 0) :
    lexemesOf (left ++ right) = lexemesOf left ++ lexemesOf right := by
  rw [lexemesOf, labelsOf_append closed]
  apply lexemes_append
  rintro ⟨last, state⟩ member
  have last_eq : left.getLast? = some last := by
    rw [← map_fst_labelsOf left, List.getLast?_map, Option.mem_def.mp member]
    rfl
  rw [last_eq] at names dots
  cases right with
  | nil => rfl
  | cons first rest =>
      have labels_eq : labelsOf (first :: rest) = (first, .code) :: _ :=
        labelsFrom_cons .start first rest
      rw [labels_eq] at dots ⊢
      simp only [joins, Bool.or_eq_false_iff, Bool.and_eq_false_iff]
      refine ⟨⟨rfl, ?_⟩, ?_⟩
      · cases continues : Text.isNameContinue last with
        | false => exact .inl (by simp [Label.isNamePart, continues])
        | true =>
            have stops : Text.isNameContinue first = false := names continues
            exact .inr (by simp [Label.isNamePart, stops])
      · by_cases dot : last = '.'
        · exact .inr (by simp [dots (congrArg some dot)])
        · exact .inl (by simp [Label.isDot, dot])

theorem lexemesOf_word (isWord : word.IsWord) : lexemesOf word = [word] := by
  rcases isWord with ⟨nonempty, all⟩
  have labels : labelsOf word = word.map fun char => (char, .code) :=
    Position.labelsFrom_of_plain rfl fun char member =>
      Position.isPlain_of_isNameContinue (all char member)
  rw [lexemesOf, labels]
  clear labels
  induction word with
  | nil => exact absurd rfl nonempty
  | cons char rest induction =>
      rw [List.forall_mem_cons] at all
      have part : Label.isNamePart (char, .code) := all.1
      have kept := Label.not_isSkipped_of_isNamePart part
      rw [List.map_cons, lexemes, if_neg (by simp [kept])]
      cases rest with
      | nil => rfl
      | cons next rest =>
          have nextPart : Label.isNamePart (next, .code) :=
            all.2 next List.mem_cons_self
          have joined : joins (char, .code)
              ((next :: rest).map fun letter => (letter, .code)) := by
            simp [joins, part, nextPart]
          rw [if_pos joined, induction (List.cons_ne_nil _ _) all.2]
          rfl

end Texts

end QueryAssembly
