import Mathlib.Data.Bool.AllAny
import QueryAssembly.Proofs.Value.Closed
import QueryAssembly.Proofs.Value.Reader

namespace QueryAssembly

/-! Strings, numbers and names are read back from their spelling, whatever stands
behind it, as long as no more of a name or number does. -/

open Value (hexDigit quoteChar)

/-- What may stand right behind a value. -/
def Delimited (rest : Text) : Prop :=
  ∀ char ∈ rest.head?, char ∈ [',', ')', ']', '\x7d'] ∨ Text.isBlank char

namespace Delimited

variable {rest : Text}

theorem apart (delimited : Delimited rest) : ∀ char ∈ rest.head?,
    Text.isNameContinue char = false ∧ char ≠ '.' ∧ char ≠ '"' := by
  intro char first
  rcases delimited char first with sign | blank
  · have signs : ∀ sign ∈ [',', ')', ']', '\x7d'],
        Text.isNameContinue sign = false ∧ sign ≠ '.' ∧ sign ≠ '"' :=
      List.all_iff_forall_prop.mp rfl
    exact signs char sign
  · refine ⟨?_, ?_, ?_⟩
    · by_contra continues
      rw [Bool.not_eq_false] at continues
      rw [Text.not_isBlank_of_isNameContinue continues] at blank
      cases blank
    · rintro rfl
      exact absurd blank (by decide)
    · rintro rfl
      exact absurd blank (by decide)

theorem continuesName (delimited : Delimited rest) :
    rest.continuesName = false := by
  cases rest with
  | nil => rfl
  | cons char rest => exact (delimited.apart char rfl).1

end Delimited

namespace ValueReader

section Strings

theorem hexDigit?_hexDigit {value : Nat} (small : value < 16) :
    JsonToken.hexDigit? (hexDigit value) = some value := by
  have all : ∀ digit : Fin 16,
      JsonToken.hexDigit? (hexDigit digit.val) = some digit.val := by decide
  exact all ⟨value, small⟩

theorem letters_quoteChar (char : Char) (tail : Text) :
    letters .plain (quoteChar char ++ tail) =
      (letters .plain tail).map (Prod.map (char :: ·) id) := by
  rw [quoteChar]
  split_ifs with mark backslash newline carriage tab backspace feed control
  · subst mark; rfl
  · subst backslash; rfl
  · subst newline; rfl
  · subst carriage; rfl
  · subst tab; rfl
  · subst backspace; rfl
  · subst feed; rfl
  · have small := Text.toNat_lt_of_isControl control
    have high := @hexDigit?_hexDigit (char.toNat / 16) (by omega)
    have low := @hexDigit?_hexDigit (char.toNat % 16) (by omega)
    have unit : 16 * (char.toNat / 16) + char.toNat % 16 = char.toNat :=
      Nat.div_add_mod _ _
    have zero : JsonToken.hexDigit? '0' = some 0 := by decide
    have valid : char.toNat.isValidChar := char.valid
    have same : Char.ofNat char.toNat = char := Char.ofNat_toNat char
    simp [letters, high, low, zero, unit, valid, same]
  · have visible : ¬(char.toNat < 0x20 ∧ char ≠ '\t') := by
      intro low
      simp [Text.isControl, low.1] at control
    rw [List.singleton_append, letters, if_neg mark, if_neg backslash,
      if_neg visible]

theorem letters_flatMap_quoteChar (text rest : Text) :
    letters .plain (text.flatMap quoteChar ++ '"' :: rest) = some (text, rest) := by
  induction text with
  | nil => rfl
  | cons char text induction =>
      rw [List.flatMap_cons, List.append_assoc, letters_quoteChar, induction]
      rfl

theorem string?_quoted {context : ValueContext} {text rest : Text}
    (literal : ¬(context = .argument ∧ text.head? = some '$'))
    (delimited : Delimited rest) :
    string? context (text.flatMap quoteChar ++ '"' :: rest) =
      some (.string text, rest) := by
  have single : ¬['"', '"'] <+: text.flatMap quoteChar ++ '"' :: rest := by
    rintro ⟨tail, text_eq⟩
    cases text with
    | nil =>
        have rest_eq : rest = '"' :: tail := (List.cons.inj text_eq).2.symm
        exact (delimited.apart '"' (by rw [rest_eq]; rfl)).2.2 rfl
    | cons char text =>
        revert text_eq
        rw [List.flatMap_cons, quoteChar]
        split_ifs <;> simp [*, eq_comm]
  rw [string?, if_neg single, letters_flatMap_quoteChar]
  exact if_neg literal

end Strings

section Numbers

theorem isDigit_ofNat (value : Nat) : ∀ char ∈ Text.ofNat value, char.isDigit :=
  fun _ member => Nat.isDigit_of_mem_toDigits (by decide) (by decide) member

theorem isNameContinue_of_isDigit {char : Char} (digit : char.isDigit) :
    Text.isNameContinue char := by
  simp [Text.isNameContinue, Char.isAlphanum, digit]

theorem digitsValue_ofNat (value : Nat) :
    Numeral.digitsValue (Text.ofNat value) = value :=
  Nat.ofDigitChars_toDigits (by decide) (by decide)

theorem head?_ofNat {value : Nat} (positive : 0 < value) :
    (Text.ofNat value).head? ≠ some '0' := by
  induction value using Nat.strongRecOn with
  | ind value induction =>
      rw [Text.ofNat, Nat.toDigits_eq_if (by decide)]
      split
      · next small =>
        have all : ∀ digit : Fin 10, 0 < digit.val →
            Nat.digitChar digit.val ≠ '0' := by decide
        simpa using all ⟨value, small⟩ positive
      · next large =>
        have front := induction (value / 10) (by omega) (by omega)
        rcases List.exists_cons_of_ne_nil
          (Nat.toDigits_ne_nil (b := 10) (n := value / 10)) with
          ⟨first, digits, digits_eq⟩
        rw [Text.ofNat, digits_eq] at front
        rwa [digits_eq]

theorem digits?_ofNat (value : Nat) {rest : Text} (delimited : Delimited rest) :
    digits? (Text.ofNat value ++ rest) = some (value, rest) := by
  have apart : ∀ char ∈ rest.head?,
      char.isDigit = false ∧ Text.isNameStart char = false ∧ char ≠ '.' := by
    intro char first
    have continues := (delimited.apart char first).1
    simp only [Text.isNameContinue, Char.isAlphanum, Bool.or_eq_false_iff]
      at continues
    simp [Text.isNameStart, continues, (delimited.apart char first).2.1]
  have stops : rest.head?.any Char.isDigit = false := by
    rw [Option.any_eq_false]
    exact fun char first => Bool.not_eq_true _ ▸ (apart char first).1
  have ends : (rest.head?.any fun char =>
      Text.isNameStart char || char == '.') = false := by
    rw [Option.any_eq_false]
    intro char first
    simp [(apart char first).2]
  have run := Text.longest_run (isDigit_ofNat value) stops
  have leading : ¬((Text.ofNat value).isEmpty ∨
      (Text.ofNat value).head? = some '0' ∧ Text.ofNat value ≠ ['0']) := by
    rintro (none | ⟨zero, longer⟩)
    · exact Nat.toDigits_ne_nil (List.isEmpty_iff.mp none)
    · rcases Nat.eq_zero_or_pos value with rfl | positive
      · exact longer rfl
      · exact head?_ofNat positive zero
  rw [digits?, run.1, run.2, if_neg leading, if_neg (by simp [ends]),
    digitsValue_ofNat]

theorem ofNat_eq_cons (value : Nat) :
    ∃ first digits, Text.ofNat value = first :: digits ∧ first.isDigit := by
  rcases List.exists_cons_of_ne_nil
    (Nat.toDigits_ne_nil (b := 10) (n := value)) with ⟨first, digits, value_eq⟩
  refine ⟨first, digits, value_eq, isDigit_ofNat value first ?_⟩
  rw [Text.ofNat, value_eq]
  exact List.mem_cons_self

theorem ofInt_eq_cons (value : Int) : ∃ first digits,
    Text.ofInt value = first :: digits ∧ (first = '-' ∨ first.isDigit) := by
  cases value with
  | ofNat size =>
      rcases ofNat_eq_cons size with ⟨first, digits, size_eq, digit⟩
      exact ⟨first, digits, size_eq, .inr digit⟩
  | negSucc size => exact ⟨'-', _, rfl, .inl rfl⟩

theorem ofInt?_toInt (value : Int64) : ofInt? value.toInt = some (.int value) := by
  have range : -2 ^ 63 ≤ value.toInt ∧ value.toInt < 2 ^ 63 :=
    ⟨value.le_toInt, value.toInt_lt⟩
  rw [ofInt?, if_pos range, value.ofInt_toInt]

theorem signed?_ofNat (sign : Nat → Int) (size : Nat) {value : Int64}
    (value_eq : sign size = value.toInt) {rest : Text}
    (delimited : Delimited rest) :
    signed? sign (Text.ofNat size ++ rest) = some (.int value, rest) := by
  simp only [signed?, digits?_ofNat size delimited, Option.bind_eq_bind,
    Option.bind_some, value_eq, ofInt?_toInt value]
  rfl

theorem integer?_ofInt (value : Int64) {rest : Text}
    (delimited : Delimited rest) :
    integer? (Text.ofInt value.toInt ++ rest) = some (.int value, rest) := by
  cases value_eq : value.toInt with
  | ofNat size =>
      have unsigned : (Text.ofNat size ++ rest).head? ≠ some '-' := by
        rcases ofNat_eq_cons size with ⟨first, digits, size_eq, digit⟩
        rw [size_eq, List.cons_append, List.head?_cons, Ne, Option.some.injEq]
        rintro rfl
        exact absurd digit (by decide)
      have text_eq : Text.ofInt (Int.ofNat size) = Text.ofNat size := rfl
      rw [text_eq, integer?, if_neg unsigned]
      exact signed?_ofNat _ size value_eq.symm delimited
  | negSucc size =>
      have text_eq : Text.ofInt (Int.negSucc size) = '-' :: Text.ofNat (size + 1) :=
        rfl
      rw [text_eq, integer?, List.cons_append, List.head?_cons, if_pos rfl]
      exact signed?_ofNat _ (size + 1) value_eq.symm delimited

end Numbers

section Names

variable {context : ValueContext} {name rest : Text} {height : Nat}

theorem name?_append (isName : name.IsName) (stops : rest.continuesName = false) :
    name? (name ++ rest) = some (name, rest) := by
  simp [name?, isName.leadingName_append stops, isName.1]

theorem not_isDigit_of_isNameStart {char : Char} (start : Text.isNameStart char) :
    char.isDigit = false := by
  by_contra digit
  have bounds := Char.isDigit_iff_toNat.mp (eq_true_of_ne_false digit)
  simp only [Char.reduceToNat] at bounds
  rcases Bool.or_eq_true_iff.mp start with underscore | letter
  · obtain rfl := beq_iff_eq.mp underscore
    exact absurd bounds.2 (by decide)
  · have range : (65 ≤ char.toNat ∧ char.toNat ≤ 90) ∨
        (97 ≤ char.toNat ∧ char.toNat ≤ 122) := by
      rcases Bool.or_eq_true_iff.mp letter with upper | lower
      · exact .inl (of_decide_eq_true upper)
      · rcases Bool.and_eq_true_iff.mp lower with ⟨least, most⟩
        exact .inr ⟨of_decide_eq_true least, of_decide_eq_true most⟩
    omega

def Begins (char : Char) : Prop :=
  isIgnored char = false ∧ char ∉ ['#', ']', '\x7d']

instance (char : Char) : Decidable (Begins char) :=
  inferInstanceAs (Decidable (_ ∧ _))

theorem skip_cons {char : Char} (solid : isIgnored char = false)
    (apart : char ≠ '#') (rest : Text) : skip false (char :: rest) = char :: rest := by
  simp [skip, solid, apart]

theorem Begins.skip_cons {char : Char} (begins : Begins char) (rest : Text) :
    skip false (char :: rest) = char :: rest :=
  ValueReader.skip_cons begins.1
    (fun sign => begins.2 (by simp [sign])) rest

theorem begins_of_isNameContinue {char : Char}
    (continues : Text.isNameContinue char) : Begins char := by
  have apart : ∀ other, Text.isNameContinue other = false → char ≠ other :=
    fun other => Text.ne_of_isNameContinue continues
  have ignored : isIgnored char = false := by
    simp [isIgnored, apart ' ' rfl, apart '\t' rfl, apart '\n' rfl, apart '\r' rfl,
      apart ',' rfl, apart '\uFEFF' rfl]
  exact ⟨ignored, by simp [apart '#' rfl, apart ']' rfl, apart '\x7d' rfl]⟩

theorem value?_name (isName : name.IsName) (rest : Text) :
    value? context (height + 1) (name ++ rest) = word? (name ++ rest) := by
  rcases List.exists_cons_of_ne_nil isName.1 with ⟨char, tail, rfl⟩
  have start := (Text.isName_cons_iff.mp isName).1
  have continues := Text.isNameContinue_of_start start
  have apart : ∀ other, Text.isNameContinue other = false → char ≠ other :=
    fun other => Text.ne_of_isNameContinue continues
  rw [List.cons_append, value?, (begins_of_isNameContinue continues).skip_cons]
  simp [apart '"' rfl, apart '[' rfl, apart '\x7b' rfl, apart '$' rfl,
    apart '-' rfl, not_isDigit_of_isNameStart start]

end Names

end ValueReader

end QueryAssembly
