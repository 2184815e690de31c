import QueryAssembly.Proofs.Value.Tokens

namespace QueryAssembly

/-! A value is read back from its text up to where the text ends, so no two values
have the same text. -/

open Value (quoteChar quoted)

namespace Text

variable {separator : Text} {texts : List Text}

theorem joined_cons (separator first : Text) (rest : List Text) :
    joined separator (first :: rest) =
      first ++ rest.flatMap (separator ++ ·) := by
  induction rest generalizing first with
  | nil => exact (List.append_nil first).symm
  | cons second rest induction =>
      rw [joined, induction, List.flatMap_cons, List.append_assoc,
        List.append_assoc]
      exact nofun

theorem length_le_joined {text : Text} (member : text ∈ texts) :
    text.length ≤ (joined separator texts).length := by
  rcases List.append_of_mem member with ⟨before, after, rfl⟩
  cases before with
  | nil => rw [List.nil_append, joined_cons, List.length_append]; omega
  | cons first before =>
      rw [List.cons_append, joined_cons]
      simp only [List.flatMap_append, List.flatMap_cons, List.length_append]
      omega

theorem count_le_joined (solid : ∀ text ∈ texts, text ≠ []) :
    texts.length ≤ (joined separator texts).length := by
  have counted : ∀ rest : List Text, (∀ text ∈ rest, text ≠ []) →
      rest.length ≤ (rest.flatMap (separator ++ ·)).length := by
    intro rest solid
    induction rest with
    | nil => exact Nat.le_refl 0
    | cons text rest induction =>
        rw [List.forall_mem_cons] at solid
        have positive := List.length_pos_iff.mpr solid.1
        have onward := induction solid.2
        simp only [List.flatMap_cons, List.length_append, List.length_cons]
        omega
  cases texts with
  | nil => exact Nat.zero_le _
  | cons first rest =>
      rw [List.forall_mem_cons] at solid
      have positive := List.length_pos_iff.mpr solid.1
      have onward := counted rest solid.2
      rw [joined_cons, List.length_append, List.length_cons]
      omega

theorem forall_mem_joined {holds : Char → Prop}
    (apart : ∀ char ∈ separator, holds char)
    (all : ∀ text ∈ texts, ∀ char ∈ text, holds char) :
    ∀ char ∈ joined separator texts, holds char := by
  cases texts with
  | nil => exact nofun
  | cons first rest =>
      rw [List.forall_mem_cons] at all
      rw [joined_cons, List.forall_mem_append]
      refine ⟨all.1, fun char member => ?_⟩
      rcases List.mem_flatMap.mp member with ⟨text, textMember, member⟩
      rcases List.mem_append.mp member with inSeparator | inText
      · exact apart char inSeparator
      · exact all.2 text textMember char inText

end Text

namespace Value

/-- Values that can be read back: names where names are called for, no keyword
in place of an enumeration value, no decimals, and among arguments no dollar
sign in front of anything but the name of a variable. -/
inductive Readable (context : ValueContext) : Value → Prop
  | null : Readable context .null
  | bool (value : Bool) : Readable context (.bool value)
  | int (value : Int64) : Readable context (.int value)
  | enum {name : Text} : name.IsName →
      name ∉ ["null".toList, "true".toList, "false".toList] →
      Readable context (.enum name)
  | string {text : Text} :
      (context = .argument → text.head? = some '$' → Text.IsName text.tail) →
      Readable context (.string text)
  | list {values : List Value} : (∀ value ∈ values, Readable context value) →
      Readable context (.list values)
  | object {entries : List (Text × Value)} :
      (∀ entry ∈ entries, entry.1.IsName) →
      (∀ entry ∈ entries, Readable context entry.2) →
      Readable context (.object entries)

end Value

namespace ValueReader

section Parts

variable {α : Type} {close : Char} {part? : Text → Option (α × Text)}
  {spell : α → Text}

/-- Whether a part is read back from its spelling, which does not look like the
end of the parts. -/
structure Reads (part? : Text → Option (α × Text)) (spell : α → Text)
    (part : α) : Prop where
  begins : ∃ char rest, spell part = char :: rest ∧ Begins char
  back : ∀ rest, Delimited rest → part? (spell part ++ rest) = some (part, rest)

theorem delimited_separated (closing : close ∈ [']', '\x7d']) (parts : List α)
    (spell : α → Text) (rest : Text) :
    Delimited (parts.flatMap (fun part => Value.separator ++ spell part) ++
      close :: rest) := by
  intro char first
  cases parts with
  | nil =>
      cases first
      exact .inl (List.mem_cons_of_mem _ (List.mem_cons_of_mem _ closing))
  | cons part parts =>
      cases first
      exact .inl List.mem_cons_self

theorem parts?_separator (bound : Nat) (text : Text) :
    parts? close part? bound (Value.separator ++ text) =
      parts? close part? bound text := by
  cases bound <;> rfl

theorem parts?_cons {part : α} (reads : Reads part? spell part)
    (closing : close ∈ [']', '\x7d']) {rest : Text} (delimited : Delimited rest)
    (bound : Nat) :
    parts? close part? (bound + 1) (spell part ++ rest) =
      (parts? close part? bound rest).map (Prod.map (part :: ·) id) := by
  have back := reads.back rest delimited
  rcases reads.begins with ⟨char, tail, spell_eq, begins⟩
  have apart : char ≠ close := by
    rintro rfl
    exact begins.2 (List.mem_cons_of_mem _ closing)
  rw [spell_eq, List.cons_append] at back ⊢
  rw [parts?, begins.skip_cons]
  simp [apart, back]

theorem parts?_separated (closing : close ∈ [']', '\x7d']) {parts : List α}
    (reads : ∀ part ∈ parts, Reads part? spell part) {bound : Nat}
    (fits : parts.length < bound) (rest : Text) :
    parts? close part? bound
        (parts.flatMap (fun part => Value.separator ++ spell part) ++
          close :: rest) = some (parts, rest) := by
  have sign : isIgnored close = false ∧ close ≠ '#' := by
    have all : ∀ sign ∈ [']', '\x7d'], isIgnored sign = false ∧ sign ≠ '#' :=
      List.all_iff_forall_prop.mp rfl
    exact all close closing
  induction parts generalizing bound with
  | nil =>
      rcases Nat.exists_eq_add_one_of_ne_zero (Nat.ne_zero_of_lt fits) with
        ⟨bound, rfl⟩
      simp [parts?, skip_cons sign.1 sign.2]
  | cons part parts induction =>
      rcases Nat.exists_eq_add_one_of_ne_zero (Nat.ne_zero_of_lt fits) with
        ⟨bound, rfl⟩
      rw [List.forall_mem_cons] at reads
      have delimited := delimited_separated closing parts spell rest
      have onward := induction reads.2 (Nat.lt_of_succ_lt_succ fits)
      rw [List.flatMap_cons, List.append_assoc, List.append_assoc,
        parts?_separator, parts?_cons reads.1 closing delimited, onward]
      rfl

theorem parts?_joined (closing : close ∈ [']', '\x7d']) {parts : List α}
    (reads : ∀ part ∈ parts, Reads part? spell part) {bound : Nat}
    (fits : parts.length < bound) (rest : Text) :
    parts? close part? bound
        (Text.joined Value.separator (parts.map spell) ++ close :: rest) =
      some (parts, rest) := by
  cases parts with
  | nil => exact parts?_separated closing reads fits rest
  | cons part parts =>
      rcases Nat.exists_eq_add_one_of_ne_zero (Nat.ne_zero_of_lt fits) with
        ⟨bound, rfl⟩
      rw [List.forall_mem_cons] at reads
      have delimited := delimited_separated closing parts spell rest
      have onward := parts?_separated closing reads.2
        (Nat.lt_of_succ_lt_succ fits) rest
      rw [List.map_cons, Text.joined_cons, List.flatMap_map, List.append_assoc,
        parts?_cons reads.1 closing delimited, onward]
      rfl

theorem parts?_length (closing : close ∈ [']', '\x7d']) {parts : List α}
    (reads : ∀ part ∈ parts, Reads part? spell part) {text rest : Text}
    (text_eq : text =
      Text.joined Value.separator (parts.map spell) ++ close :: rest) :
    parts? close part? text.length text = some (parts, rest) := by
  have solid : ∀ part ∈ parts, spell part ≠ [] := by
    intro part member
    rcases (reads part member).begins with ⟨char, tail, spell_eq, _⟩
    rw [spell_eq]
    exact List.cons_ne_nil char tail
  have counted := @Text.count_le_joined Value.separator (parts.map spell)
    (List.forall_mem_map.mpr solid)
  have fits : parts.length < text.length := by
    rw [List.length_map] at counted
    rw [text_eq, List.length_append, List.length_cons]
    omega
  have read := parts?_joined closing reads fits rest
  rwa [← text_eq] at read

end Parts

/-! Values of one kind after another. -/

section Values

variable {context : ValueContext}

/-- Whether a value is read back from its text wherever there is room for it. -/
def ReadsBack (context : ValueContext) (value : Value) : Prop :=
  ∀ height, (value.render context).length ≤ height →
    Reads (value? context height) (Value.render context) value

theorem word?_append {name rest : Text} (isName : name.IsName)
    (stops : rest.continuesName = false) :
    word? (name ++ rest) = some
      (if name = "null".toList then .null
      else if name = "true".toList then .bool true
      else if name = "false".toList then .bool false
      else .enum name, rest) := by
  rw [word?, name?_append isName stops]
  rfl

theorem ReadsBack.of_cons {value : Value} {char : Char} {tail : Text}
    (render_eq : value.render context = char :: tail) (begins : Begins char)
    (back : ∀ height rest, Delimited rest → tail.length ≤ height →
      value? context (height + 1) (char :: (tail ++ rest)) = some (value, rest)) :
    ReadsBack context value := by
  intro height fits
  refine ⟨⟨char, tail, render_eq, begins⟩, fun rest delimited => ?_⟩
  rw [render_eq, List.length_cons] at fits
  rcases Nat.exists_eq_add_one_of_ne_zero (Nat.ne_zero_of_lt fits) with
    ⟨height, rfl⟩
  rw [render_eq]
  exact back height rest delimited (Nat.le_of_lt_succ fits)

theorem readsBack_word {value : Value} {name : Text} (isName : name.IsName)
    (render_eq : value.render context = name)
    (meaning : ∀ rest, rest.continuesName = false →
      word? (name ++ rest) = some (value, rest)) : ReadsBack context value := by
  rcases List.exists_cons_of_ne_nil isName.1 with ⟨char, tail, name_eq⟩
  have continues := isName.isWord.2 char (by simp [name_eq])
  apply ReadsBack.of_cons (render_eq.trans name_eq)
    (begins_of_isNameContinue continues)
  intro height rest delimited _
  rw [← List.cons_append, ← name_eq, value?_name isName,
    meaning rest delimited.continuesName]

theorem readsBack_quoted {text : Text}
    (literal : ¬(context = .argument ∧ text.head? = some '$')) :
    ReadsBack context (.string text) := by
  have render_eq : (Value.string text).render context =
      '"' :: (text.flatMap quoteChar ++ ['"']) := by
    rw [Value.render, if_neg literal, quoted]
  apply ReadsBack.of_cons render_eq (by decide)
  intro height rest delimited _
  rw [List.append_assoc]
  exact string?_quoted literal delimited

theorem readsBack_reference {name : Text} (isName : name.IsName) :
    ReadsBack .argument (.string ('$' :: name)) := by
  have render_eq : (Value.string ('$' :: name)).render .argument = '$' :: name :=
    rfl
  apply ReadsBack.of_cons render_eq (by decide)
  intro height rest delimited _
  have name_eq := name?_append isName delimited.continuesName
  simp [value?, skip_cons, isIgnored, reference?, name_eq]

theorem readsBack_int (value : Int64) : ReadsBack context (.int value) := by
  rcases ofInt_eq_cons value.toInt with ⟨first, digits, text_eq, number⟩
  have apart : ∀ other : Char,
      other ≠ '-' ∧ other.isDigit = false → first ≠ other := by
    rintro other ⟨noSign, noDigit⟩ rfl
    rcases number with sign | digit
    · exact noSign sign
    · rw [noDigit] at digit
      cases digit
  have begins : Begins first := by
    rcases number with rfl | digit
    · decide
    · exact begins_of_isNameContinue (isNameContinue_of_isDigit digit)
  have render_eq : (Value.int value).render context = first :: digits := by
    rw [Value.render, text_eq]
  apply ReadsBack.of_cons render_eq begins
  intro height rest delimited _
  have back := integer?_ofInt value delimited
  rw [text_eq, List.cons_append] at back
  rw [value?, begins.skip_cons]
  simp [apart '"' (by decide), apart '[' (by decide), apart '\x7b' (by decide),
    apart '$' (by decide), number, back]

theorem readsBack_list {values : List Value}
    (back : ∀ value ∈ values, ReadsBack context value) :
    ReadsBack context (.list values) := by
  have render_eq : (Value.list values).render context =
      '[' :: (Text.joined Value.separator (values.map (Value.render context)) ++
        [']']) := by
    rw [Value.render, Value.renderItems_eq]
  apply ReadsBack.of_cons render_eq (by decide)
  intro height rest delimited fits
  have reads : ∀ value ∈ values,
      Reads (value? context height) (Value.render context) value := by
    intro value member
    have shorter := @Text.length_le_joined Value.separator
      (values.map (Value.render context)) _ (List.mem_map_of_mem member)
    rw [List.length_append] at fits
    exact back value member height (by omega)
  have closing : ']' ∈ [']', '\x7d'] := List.mem_cons_self
  have parts := parts?_length closing reads (List.append_assoc _ [']'] rest)
  rw [value?, skip_cons rfl (by decide)]
  simp only [Char.reduceEq, if_false, if_true, parts]
  rfl

def entryText (context : ValueContext) (entry : Text × Value) : Text :=
  entry.1 ++ ':' :: ' ' :: entry.2.render context

theorem value?_space (height : Nat) (text : Text) :
    value? context height (' ' :: text) = value? context height text := by
  cases height <;> rfl

theorem reads_entry {key : Text} {value : Value} (isName : key.IsName)
    (back : ReadsBack context value) {height : Nat}
    (fits : (entryText context (key, value)).length ≤ height) :
    Reads (pair? (value? context height)) (entryText context) (key, value) := by
  have shorter : (value.render context).length ≤ height := by
    simp only [entryText, List.length_append, List.length_cons] at fits
    omega
  refine ⟨?_, fun rest delimited => ?_⟩
  · rcases List.exists_cons_of_ne_nil isName.1 with ⟨char, tail, key_eq⟩
    have continues := isName.isWord.2 char (by simp [key_eq])
    exact ⟨char, _, congrArg (· ++ _) key_eq, begins_of_isNameContinue continues⟩
  · have value_eq := (back height shorter).back rest delimited
    have key_eq := @name?_append key
      (':' :: ' ' :: (value.render context ++ rest)) isName rfl
    have colon := @skip_cons ':' rfl (by decide)
      (' ' :: (value.render context ++ rest))
    simp [entryText, pair?, key_eq, colon, value?_space, value_eq]

theorem readsBack_object {entries : List (Text × Value)}
    (names : ∀ entry ∈ entries, entry.1.IsName)
    (back : ∀ entry ∈ entries, ReadsBack context entry.2) :
    ReadsBack context (.object entries) := by
  have render_eq : (Value.object entries).render context =
      '\x7b' :: (Text.joined Value.separator (entries.map (entryText context)) ++
        ['\x7d']) := by
    rw [Value.render, Value.renderEntries_eq]
    rfl
  apply ReadsBack.of_cons render_eq (by decide)
  intro height rest delimited fits
  have reads : ∀ entry ∈ entries,
      Reads (pair? (value? context height)) (entryText context) entry := by
    rintro ⟨key, value⟩ member
    have shorter := @Text.length_le_joined Value.separator
      (entries.map (entryText context)) _ (List.mem_map_of_mem member)
    rw [List.length_append] at fits
    have isName : key.IsName := names _ member
    have value_back : ReadsBack context value := back _ member
    exact reads_entry isName value_back (by omega)
  have closing : '\x7d' ∈ [']', '\x7d'] := by decide
  have parts := parts?_length closing reads (List.append_assoc _ ['\x7d'] rest)
  rw [value?, skip_cons rfl (by decide)]
  simp only [Char.reduceEq, if_false, if_true, parts]
  rfl

theorem readsBack_of_readable {value : Value}
    (readable : value.Readable context) :
    ReadsBack context value := by
  induction readable with
  | null =>
      exact readsBack_word (show Text.IsName "null".toList by decide) rfl
        fun rest stops => word?_append (by decide) stops
  | bool value =>
      cases value with
      | false =>
          exact readsBack_word (show Text.IsName "false".toList by decide) rfl
            fun rest stops => word?_append (by decide) stops
      | true =>
          exact readsBack_word (show Text.IsName "true".toList by decide) rfl
            fun rest stops => word?_append (by decide) stops
  | int value => exact readsBack_int value
  | @enum name isName other =>
      simp only [List.mem_cons, List.not_mem_nil, or_false, not_or] at other
      apply readsBack_word isName rfl
      intro rest stops
      rw [word?_append isName stops, if_neg other.1, if_neg other.2.1,
        if_neg other.2.2]
  | @string text variableName =>
      by_cases refers : context = .argument ∧ text.head? = some '$'
      · rcases refers with ⟨rfl, dollar⟩
        rcases List.head?_eq_some_iff.mp dollar with ⟨name, rfl⟩
        exact readsBack_reference (variableName rfl dollar)
      · exact readsBack_quoted refers
  | list _ induction => exact readsBack_list induction
  | object names _ induction => exact readsBack_object names induction

end Values

end ValueReader

namespace Value

/-! No control character is written of a value. -/

section Controls

variable {context : ValueContext}

theorem isControl_quoteChar (char : Char) :
    ∀ written ∈ quoteChar char, Text.isControl written = false := by
  have digits : Text.isControl char →
      Text.isControl (hexDigit (char.toNat / 16)) = false ∧
        Text.isControl (hexDigit (char.toNat % 16)) = false := by
    intro control
    have small := Text.toNat_lt_of_isControl control
    have all : ∀ digit : Fin 16, Text.isControl (hexDigit digit.val) = false := by
      decide
    exact ⟨all ⟨char.toNat / 16, by omega⟩, all ⟨char.toNat % 16, by omega⟩⟩
  rw [quoteChar]
  split_ifs with _ _ _ _ _ _ _ control
  case neg => simpa using control
  all_goals simp_all [Text.isControl]

theorem isControl_enclosed {first last : Char} {texts : List Text}
    (opening : Text.isControl first = false) (closing : Text.isControl last = false)
    (all : ∀ text ∈ texts, ∀ char ∈ text, Text.isControl char = false) :
    ∀ char ∈ first :: (Text.joined separator texts ++ [last]),
      Text.isControl char = false := by
  have apart : ∀ char ∈ separator, Text.isControl char = false :=
    List.all_iff_forall_prop.mp rfl
  rw [List.forall_mem_cons, List.forall_mem_append, List.forall_mem_singleton]
  exact ⟨opening, Text.forall_mem_joined apart all, closing⟩

theorem Readable.isControl_render {value : Value}
    (readable : Readable context value) :
    ∀ char ∈ value.render context, Text.isControl char = false := by
  have word : ∀ {name : Text}, name.IsName →
      ∀ char ∈ name, Text.isControl char = false :=
    fun isName char member =>
      Text.not_isControl_of_isNameContinue (isName.isWord.2 char member)
  have number : ∀ size, ∀ char ∈ Text.ofNat size, Text.isControl char = false :=
    fun size char member => Text.not_isControl_of_isNameContinue
      (ValueReader.isNameContinue_of_isDigit
        (ValueReader.isDigit_ofNat size char member))
  induction readable with
  | null => exact word (show Text.IsName "null".toList by decide)
  | bool value =>
      cases value with
      | false => exact word (show Text.IsName "false".toList by decide)
      | true => exact word (show Text.IsName "true".toList by decide)
  | int value =>
      rw [render]
      cases value.toInt with
      | ofNat size => exact number size
      | negSucc size =>
          exact List.forall_mem_cons.mpr ⟨by decide, number (size + 1)⟩
  | enum isName _ => exact word isName
  | @string text variableName =>
      rw [render]
      split
      · next refers =>
        rcases List.head?_eq_some_iff.mp refers.2 with ⟨name, rfl⟩
        exact List.forall_mem_cons.mpr ⟨by decide, word (variableName refers.1 rfl)⟩
      · rw [quoted, List.forall_mem_cons, List.forall_mem_append,
          List.forall_mem_singleton]
        refine ⟨by decide, fun char member => ?_, by decide⟩
        rcases List.mem_flatMap.mp member with ⟨source, _, written⟩
        exact isControl_quoteChar source char written
  | list _ induction =>
      rw [render, renderItems_eq]
      exact isControl_enclosed (by decide) (by decide)
        (List.forall_mem_map.mpr induction)
  | object names _ induction =>
      rw [render, renderEntries_eq]
      apply isControl_enclosed (by decide) (by decide)
      intro text member
      rcases List.mem_map.mp member with ⟨entry, inside, rfl⟩
      rw [List.forall_mem_append, List.forall_mem_cons, List.forall_mem_cons]
      exact ⟨word (names entry inside), by decide, by decide,
        induction entry inside⟩

end Controls

/-- A value is read back from its text up to where it ends, so that no other
value has the same text, and the text has no control character. -/
theorem read_render (context : ValueContext) {value : Value}
    (readable : Readable context value) :
    (∀ rest, Delimited rest →
      readValue? context (value.render context ++ rest) = some (value, rest)) ∧
    (∀ other, Readable context other →
      other.render context = value.render context → other = value) ∧
    ∀ char ∈ value.render context, Text.isControl char = false := by
  have back : ∀ other, Readable context other → ∀ rest, Delimited rest →
      readValue? context (other.render context ++ rest) = some (other, rest) := by
    intro other otherReadable rest delimited
    have reads := ValueReader.readsBack_of_readable otherReadable
      (other.render context ++ rest).length
    exact (reads (by simp)).back rest delimited
  refine ⟨back value readable, ?_, readable.isControl_render⟩
  intro other otherReadable same
  have read := back value readable [] nofun
  rw [← same, back other otherReadable [] nofun] at read
  exact (Prod.mk.inj (Option.some.inj read)).1

def escapedValue : Value :=
  .object [("note".toList, .string "a\"\\\n\u0085".toList),
    ("ids".toList, .list [.int (-5), .enum "nullable".toList, .string "$id".toList])]

theorem readable_escapedValue : escapedValue.Readable .argument := by
  have note : Value.Readable .argument (.string "a\"\\\n\u0085".toList) :=
    .string (by decide)
  have reference : Value.Readable .argument (.string "$id".toList) :=
    .string (by decide)
  have word : Value.Readable .argument (.enum "nullable".toList) :=
    .enum (by decide) (by decide)
  have ids : Value.Readable .argument
      (.list [.int (-5), .enum "nullable".toList, .string "$id".toList]) :=
    .list (by simpa using ⟨.int (-5), word, reference⟩)
  exact .object (by decide) (by simpa using ⟨note, ids⟩)

theorem read_render_escapedValue :
    escapedValue.Readable .argument ∧ Delimited ") \x7b id \x7d".toList ∧
      readValue? .argument
          (escapedValue.render .argument ++ ") \x7b id \x7d".toList) =
        some (escapedValue, ") \x7b id \x7d".toList) := by
  have delimited : Delimited ") \x7b id \x7d".toList := by
    rintro char ⟨⟩
    decide
  exact ⟨readable_escapedValue, delimited,
    (read_render .argument readable_escapedValue).1 _ delimited⟩

end Value

end QueryAssembly
