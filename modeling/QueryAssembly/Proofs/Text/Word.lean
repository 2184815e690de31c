import Mathlib.Data.List.TakeWhile
import QueryAssembly.Text.Blank
import QueryAssembly.Text.Name

namespace QueryAssembly

namespace Text

/-! Words are runs of name characters. A word that the text after it does not
continue is found again as the longest run at its place. -/

def IsWord (text : Text) : Prop :=
  text ≠ [] ∧ ∀ char ∈ text, isNameContinue char

/-- A name as documents may use it for fields, fragments and variables. -/
def IsName (text : Text) : Prop :=
  text ≠ [] ∧ text.leadingName = text

instance (text : Text) : Decidable text.IsWord :=
  @instDecidableAnd _ _ inferInstance (List.decidableBAll _ text)

instance (text : Text) : Decidable text.IsName :=
  inferInstanceAs (Decidable (_ ∧ _))

theorem isNameContinue_of_start {char : Char} (start : isNameStart char) :
    isNameContinue char := by
  simp only [isNameStart, isNameContinue, Char.isAlphanum, Bool.or_eq_true]
    at start ⊢
  exact start.imp_right .inl

theorem ne_of_isNameContinue {char other : Char}
    (continues : isNameContinue char) (apart : isNameContinue other = false) :
    char ≠ other := by
  rintro rfl
  rw [apart] at continues
  cases continues

theorem brace_apart {char : Char} (continues : isNameContinue char) :
    char ≠ '\x7b' ∧ char ≠ '\x7d' :=
  ⟨ne_of_isNameContinue continues rfl, ne_of_isNameContinue continues rfl⟩

theorem range_of_isNameContinue {char : Char} (continues : isNameContinue char) :
    48 ≤ char.toNat ∧ char.toNat ≤ 122 := by
  have spelled : (char == '_' ||
      ((decide (65 ≤ char.toNat ∧ char.toNat ≤ 90) ||
        decide (97 ≤ char.toNat) && decide (char.toNat ≤ 122)) ||
        decide (48 ≤ char.toNat) && decide (char.toNat ≤ 57))) = true :=
    continues
  have range : char = '_' ∨ ((65 ≤ char.toNat ∧ char.toNat ≤ 90) ∨
      97 ≤ char.toNat ∧ char.toNat ≤ 122) ∨
      48 ≤ char.toNat ∧ char.toNat ≤ 57 := by
    simpa only [Bool.or_eq_true, Bool.and_eq_true, decide_eq_true_eq,
      beq_iff_eq] using spelled
  rcases range with rfl | range
  · decide
  · omega

theorem not_isBlank_of_isNameContinue {char : Char}
    (continues : isNameContinue char) : isBlank char = false := by
  have range := range_of_isNameContinue continues
  by_contra blank
  simp only [isBlank, Bool.not_eq_false, Bool.or_eq_true, Bool.and_eq_true,
    decide_eq_true_eq, beq_iff_eq] at blank
  omega

theorem not_isControl_of_isNameContinue {char : Char}
    (continues : isNameContinue char) : isControl char = false := by
  have range := range_of_isNameContinue continues
  by_contra control
  simp only [isControl, Bool.not_eq_false, Bool.or_eq_true, Bool.and_eq_true,
    decide_eq_true_eq] at control
  omega

theorem isName_cons_iff {char : Char} {rest : Text} :
    IsName (char :: rest) ↔
      isNameStart char ∧ ∀ next ∈ rest, isNameContinue next := by
  by_cases start : isNameStart char
  · simp [IsName, leadingName, start, List.takeWhile_eq_self_iff]
  · simp [IsName, leadingName, start]

theorem IsName.isWord {text : Text} (name : text.IsName) : text.IsWord := by
  refine ⟨name.1, ?_⟩
  cases text with
  | nil => exact absurd rfl name.1
  | cons char rest =>
      rcases isName_cons_iff.mp name with ⟨start, all⟩
      exact List.forall_mem_cons.mpr ⟨isNameContinue_of_start start, all⟩

theorem longest_run {holds : Char → Bool} {run rest : Text}
    (all : ∀ char ∈ run, holds char) (stops : rest.head?.any holds = false) :
    (run ++ rest).takeWhile holds = run ∧ (run ++ rest).dropWhile holds = rest := by
  rw [List.takeWhile_append_of_pos all, List.dropWhile_append_of_pos all]
  cases rest with
  | nil => simp
  | cons char rest =>
      have stop : ¬holds char := by simpa using stops
      rw [List.takeWhile_cons_of_neg stop, List.dropWhile_cons_of_neg stop,
        List.append_nil]
      exact ⟨rfl, rfl⟩

theorem takeWhile_append_of_not_continues {word rest : Text}
    (all : ∀ char ∈ word, isNameContinue char)
    (stops : rest.continuesName = false) :
    (word ++ rest).takeWhile isNameContinue = word :=
  (longest_run all stops).1

theorem IsName.leadingName_append {name rest : Text} (isName : name.IsName)
    (stops : rest.continuesName = false) :
    leadingName (name ++ rest) = name := by
  cases name with
  | nil => exact absurd rfl isName.1
  | cons char name =>
      rcases isName_cons_iff.mp isName with ⟨start, all⟩
      have run := takeWhile_append_of_not_continues all stops
      simp [leadingName, start, run]

theorem continuesName_dropWhile (text : Text) :
    continuesName (text.dropWhile isNameContinue) = false := by
  induction text with
  | nil => rfl
  | cons char rest induction =>
      by_cases continues : isNameContinue char
      · rwa [List.dropWhile_cons_of_pos continues]
      · rw [List.dropWhile_cons_of_neg continues]
        simpa [continuesName] using continues

theorem IsWord.split {word left right before after : Text} (isWord : word.IsWord)
    (boundary : left.getLast?.any isNameContinue = false ∨
      right.continuesName = false)
    (text_eq : left ++ right = before ++ (word ++ after)) :
    (∃ between, left = before ++ (word ++ between) ∧
        after = between ++ right) ∨
      ∃ between, before = left ++ between ∧
        right = between ++ (word ++ after) := by
  rcases List.append_eq_append_iff.mp text_eq with
    ⟨between, before_eq, right_eq⟩ | ⟨front, left_eq, rest_eq⟩
  · exact .inr ⟨between, before_eq, right_eq⟩
  · rcases List.append_eq_append_iff.mp rest_eq with
      ⟨between, front_eq, after_eq⟩ | ⟨back, word_eq, right_eq⟩
    · exact .inl ⟨between, by rw [left_eq, front_eq], after_eq⟩
    · rcases List.eq_nil_or_concat front with rfl | ⟨start, last, rfl⟩
      · exact .inr ⟨[], by simp [left_eq], by simp [right_eq, word_eq]⟩
      · cases back with
        | nil =>
            exact .inl ⟨[], by simp [left_eq, word_eq], by simp [right_eq]⟩
        | cons first back =>
            have lastContinues := isWord.2 last (by simp [word_eq])
            have firstContinues := isWord.2 first (by simp [word_eq])
            rcases boundary with ends | starts
            · simp [left_eq, lastContinues] at ends
            · simp [right_eq, continuesName, firstContinues] at starts

theorem IsWord.enclosed {word inner before after : Text} {first last : Char}
    (isWord : word.IsWord) (opening : isNameContinue first = false)
    (closing : isNameContinue last = false)
    (text_eq : first :: (inner ++ [last]) = before ++ (word ++ after)) :
    ∃ inside later, before = first :: inside ∧ after = later ++ [last] ∧
      inner = inside ++ (word ++ later) := by
  have absent : ∀ char, isNameContinue char = false → ∀ front back,
      [char] ≠ front ++ (word ++ back) := by
    intro char apart front back single
    rcases List.exists_cons_of_ne_nil isWord.1 with ⟨letter, letters, rfl⟩
    have continues := isWord.2 letter List.mem_cons_self
    have same : letter ∈ [char] := by simp [single]
    rw [List.mem_singleton.mp same, apart] at continues
    cases continues
  rw [← List.singleton_append] at text_eq
  rcases isWord.split (.inl (by simpa using opening)) text_eq with
    ⟨between, single, _⟩ | ⟨inside, before_eq, onward⟩
  · exact absurd single (absent first opening _ _)
  · rcases isWord.split (.inr (by simpa [continuesName] using closing)) onward with
      ⟨later, inner_eq, after_eq⟩ | ⟨between, _, single⟩
    · exact ⟨inside, later, before_eq, after_eq, inner_eq⟩
    · exact absurd single (absent last closing _ _)

/-- The run of name characters that a text ends with. -/
def lastWord (text : Text) : Text :=
  (text.reverse.takeWhile isNameContinue).reverse

def beforeLastWord (text : Text) : Text :=
  (text.reverse.dropWhile isNameContinue).reverse

theorem beforeLastWord_append_lastWord (text : Text) :
    text.beforeLastWord ++ text.lastWord = text := by
  rw [beforeLastWord, lastWord, ← List.reverse_append,
    List.takeWhile_append_dropWhile, List.reverse_reverse]

section End

variable {holds : Char → Bool} {text : Text}

theorem dropWhile_reverse_append (stop : ∃ char ∈ text, holds char = false)
    (front : Text) :
    (front ++ text).reverse.dropWhile holds =
      text.reverse.dropWhile holds ++ front.reverse := by
  rcases stop with ⟨char, member, stops⟩
  have some : text.reverse.dropWhile holds ≠ [] := by
    intro none
    have all := List.dropWhile_eq_nil_iff.mp none char (by simpa using member)
    rw [stops] at all
    cases all
  rw [List.reverse_append, List.dropWhile_append, if_neg (by simpa using some)]

theorem takeWhile_reverse_append (stop : ∃ char ∈ text, holds char = false)
    (front : Text) :
    (front ++ text).reverse.takeWhile holds = text.reverse.takeWhile holds := by
  rcases stop with ⟨char, member, stops⟩
  rw [List.reverse_append, List.takeWhile_append, if_neg]
  intro whole
  have all := (List.takeWhile_prefix holds).eq_of_length whole
  have holdsChar := List.takeWhile_eq_self_iff.mp all char (by simpa using member)
  rw [stops] at holdsChar
  cases holdsChar

theorem trimEnd_append (solid : ∃ char ∈ text, isBlank char = false)
    (front : Text) : trimEnd (front ++ text) = front ++ trimEnd text := by
  rw [trimEnd, dropWhile_reverse_append solid, List.reverse_append,
    List.reverse_reverse, trimEnd]

theorem trimEnd_eq_self (ends : text.getLast?.any isBlank = false) :
    trimEnd text = text := by
  rcases List.eq_nil_or_concat text with rfl | ⟨front, last, rfl⟩
  · rfl
  · rw [List.concat_eq_append, List.getLast?_concat, Option.any_some] at ends
    have final : trimEnd [last] = [last] := by simp [trimEnd, ends]
    rw [List.concat_eq_append, trimEnd_append ⟨last, by simp, ends⟩, final]

theorem trim_eq_self (starts : text.head?.any isBlank = false)
    (ends : text.getLast?.any isBlank = false) : trim text = text := by
  have start : trimStart text = text := by
    cases text with
    | nil => rfl
    | cons first rest =>
        rw [List.head?_cons, Option.any_some] at starts
        rw [trimStart, List.dropWhile_cons_of_neg (by simp [starts])]
  rw [trim, start, trimEnd_eq_self ends]

theorem trimEnd_append_blank {blanks : Text}
    (blank : ∀ char ∈ blanks, isBlank char) (front : Text) :
    trimEnd (front ++ blanks) = trimEnd front := by
  have all : ∀ char ∈ blanks.reverse, isBlank char := by simpa using blank
  rw [trimEnd, List.reverse_append, List.dropWhile_append_of_pos all, trimEnd]

theorem lastWord_append_word {word front : Text}
    (all : ∀ char ∈ word, isNameContinue char)
    (apart : front.getLast?.any isNameContinue = false) :
    lastWord (front ++ word) = word ∧ beforeLastWord (front ++ word) = front := by
  have last : lastWord (front ++ word) = word := by
    have stops : continuesName front.reverse = false := by
      rwa [continuesName, List.head?_reverse]
    have reversed : ∀ char ∈ word.reverse, isNameContinue char := by
      simpa using all
    have run := takeWhile_append_of_not_continues reversed stops
    rw [lastWord, List.reverse_append, run, List.reverse_reverse]
  refine ⟨last, ?_⟩
  have parts := beforeLastWord_append_lastWord (front ++ word)
  rw [last] at parts
  exact List.append_cancel_right parts

theorem lastWord_append (stop : ∃ char ∈ text, isNameContinue char = false)
    (front : Text) : lastWord (front ++ text) = lastWord text := by
  rw [lastWord, takeWhile_reverse_append stop, lastWord]

theorem beforeLastWord_append
    (stop : ∃ char ∈ text, isNameContinue char = false) (front : Text) :
    beforeLastWord (front ++ text) = front ++ beforeLastWord text := by
  rw [beforeLastWord, dropWhile_reverse_append stop, List.reverse_append,
    List.reverse_reverse, beforeLastWord]

theorem mem_trimEnd {char : Char} (member : char ∈ text)
    (solid : isBlank char = false) : char ∈ trimEnd text := by
  rw [← List.mem_reverse,
    ← List.takeWhile_append_dropWhile (p := isBlank) (l := text.reverse),
    List.mem_append] at member
  rcases member with blank | member
  · have isBlank := List.mem_takeWhile_imp blank
    rw [solid] at isBlank
    cases isBlank
  · exact List.mem_reverse.mpr member

end End

end Text

end QueryAssembly
