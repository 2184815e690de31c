import QueryAssembly.Proofs.Lexical.Agreement
import QueryAssembly.Proofs.Lexical.Match

namespace QueryAssembly

/-! A search through the bytes of a document finds just what the search through
its characters finds. No byte inside a character can begin one, so the UTF-8 form
of a text occurs in a document only where its characters do. -/

def StandsIn (needle haystack : List UInt8) (offset : Nat) : Prop :=
  ∃ before after, haystack = before ++ (needle ++ after) ∧
    before.length = offset

/-- What a search through bytes yields from an offset on: the leftmost place, then
what it yields behind the bytes found there. -/
inductive FoundFrom (needle haystack : List UInt8) : Nat → List Nat → Prop
  | nothing {start : Nat}
      (absent : ∀ offset, StandsIn needle haystack offset → offset < start) :
      FoundFrom needle haystack start []
  | next {start offset : Nat} {later : List Nat}
      (stands : StandsIn needle haystack offset) (ahead : start ≤ offset)
      (leftmost : ∀ other, StandsIn needle haystack other → start ≤ other →
        offset ≤ other)
      (onward : FoundFrom needle haystack (offset + needle.length) later) :
      FoundFrom needle haystack start (offset :: later)

namespace FoundFrom

variable {needle haystack : List UInt8} {start offset : Nat}
  {found other : List Nat}

theorem unique (search : FoundFrom needle haystack start found)
    (otherSearch : FoundFrom needle haystack start other) : found = other := by
  induction search generalizing other with
  | nothing absent =>
      cases otherSearch with
      | nothing _ => rfl
      | next stands ahead _ _ =>
          exact absurd (absent _ stands) (Nat.not_lt.mpr ahead)
  | @next start offset later stands ahead leftmost onward induction =>
      cases otherSearch with
      | nothing absent =>
          exact absurd (absent _ stands) (Nat.not_lt.mpr ahead)
      | @next _ otherOffset _ otherStands otherAhead otherLeftmost otherOnward =>
          have same : otherOffset = offset :=
            Nat.le_antisymm (otherLeftmost offset stands ahead)
              (leftmost otherOffset otherStands otherAhead)
          subst same
          rw [induction otherOnward]

theorem earlier (search : FoundFrom needle haystack start found)
    (lower : offset ≤ start)
    (passed : ∀ other, StandsIn needle haystack other → offset ≤ other →
      start ≤ other) : FoundFrom needle haystack offset found := by
  cases search with
  | nothing absent =>
      refine .nothing fun other stands => Nat.not_le.mp fun reached => ?_
      exact absurd (absent other stands)
        (Nat.not_lt.mpr (passed other stands reached))
  | next stands ahead leftmost onward =>
      refine .next stands (Nat.le_trans lower ahead) ?_ onward
      intro other otherStands reached
      exact leftmost other otherStands (passed other otherStands reached)

end FoundFrom

namespace Text

/-! The UTF-8 form of a text. The first byte of a character is no byte inside another
one, so a text begins in a document only between two characters. -/

def utf8 (text : Text) : List UInt8 := text.flatMap String.utf8EncodeChar

@[simp] theorem utf8_cons (char : Char) (rest : Text) :
    utf8 (char :: rest) = String.utf8EncodeChar char ++ utf8 rest :=
  List.flatMap_cons

@[simp] theorem utf8_append (left right : Text) :
    utf8 (left ++ right) = utf8 left ++ utf8 right :=
  List.flatMap_append

@[simp] theorem length_utf8 (text : Text) : text.utf8.length = text.bytes := by
  induction text with
  | nil => rfl
  | cons char rest induction => simp [induction]

theorem encoded_inj {char other : Char} {rest otherRest : List UInt8}
    (equal : String.utf8EncodeChar char ++ rest =
      String.utf8EncodeChar other ++ otherRest) : char = other := by
  have arrays := congrArg List.toByteArray equal
  rw [List.toByteArray_append, List.toByteArray_append] at arrays
  have decoded := ByteArray.utf8DecodeChar?_utf8EncodeChar_append
    (b := rest.toByteArray) (c := char)
  rw [arrays, ByteArray.utf8DecodeChar?_utf8EncodeChar_append] at decoded
  exact (Option.some.inj decoded).symm

theorem exists_append_of_utf8 {needle source : Text} {after : List UInt8}
    (source_eq : source.utf8 = needle.utf8 ++ after) :
    ∃ rest, source = needle ++ rest := by
  induction needle generalizing source with
  | nil => exact ⟨source, rfl⟩
  | cons char needle induction =>
      rw [utf8_cons, List.append_assoc] at source_eq
      cases source with
      | nil =>
          have none := (List.append_eq_nil_iff.mp source_eq.symm).1
          exact absurd none String.utf8EncodeChar_ne_nil
      | cons first source =>
          rw [utf8_cons] at source_eq
          obtain rfl := encoded_inj source_eq
          rcases induction (List.append_cancel_left source_eq) with
            ⟨rest, rfl⟩
          exact ⟨rest, rfl⟩

theorem isUTF8FirstByte_of_head? {text : Text} {byte : UInt8}
    (head : text.utf8.head? = some byte) : byte.IsUTF8FirstByte := by
  cases text with
  | nil => cases head
  | cons char rest =>
      have positive : 0 < (String.utf8EncodeChar char).length :=
        List.length_pos_iff.mpr String.utf8EncodeChar_ne_nil
      rw [utf8_cons, List.head?_eq_getElem?, List.getElem?_append_left positive]
        at head
      rcases List.getElem?_eq_some_iff.mp head with ⟨bound, rfl⟩
      exact UInt8.isUTF8FirstByte_getElem_utf8EncodeChar.mpr rfl

theorem exists_append_of_straddling {needle rest : Text} {char : Char}
    {before after : List UInt8} (nonempty : needle ≠ []) (started : before ≠ [])
    (bytes_eq : String.utf8EncodeChar char ++ rest.utf8 =
      before ++ (needle.utf8 ++ after)) :
    ∃ between, before = String.utf8EncodeChar char ++ between ∧
      rest.utf8 = between ++ (needle.utf8 ++ after) := by
  rcases List.append_eq_append_iff.mp bytes_eq with
    found | ⟨inside, char_eq, needle_eq⟩
  · exact found
  · cases inside with
    | nil => exact ⟨[], by simpa using char_eq.symm, needle_eq.symm⟩
    | cons byte inside =>
        have nonempty8 : needle.utf8 ≠ [] := by
          rcases List.exists_cons_of_ne_nil nonempty with ⟨first, others, rfl⟩
          simp [String.utf8EncodeChar_ne_nil]
        have head : needle.utf8.head? = some byte := by
          rcases List.exists_cons_of_ne_nil nonempty8 with ⟨first, others, eq⟩
          rw [eq] at needle_eq ⊢
          rw [(List.cons.inj needle_eq).1]
          rfl
        have bound : before.length < (String.utf8EncodeChar char).length := by
          rw [char_eq]
          simp
        have byte_eq : (String.utf8EncodeChar char)[before.length] = byte := by
          simp [char_eq]
        have first := isUTF8FirstByte_of_head? head
        rw [← byte_eq, UInt8.isUTF8FirstByte_getElem_utf8EncodeChar,
          List.length_eq_zero_iff] at first
        exact absurd first started

theorem standsIn_utf8_iff {needle source : Text} (nonempty : needle ≠ [])
    (offset : Nat) :
    StandsIn needle.utf8 source.utf8 offset ↔
      ∃ before after, source = before ++ (needle ++ after) ∧
        before.bytes = offset := by
  constructor
  · rintro ⟨before, after, source_eq, rfl⟩
    induction source generalizing before with
    | nil =>
        have none := (List.append_eq_nil_iff.mp
          (List.append_eq_nil_iff.mp source_eq.symm).2).1
        rcases List.exists_cons_of_ne_nil nonempty with ⟨first, others, rfl⟩
        simp [String.utf8EncodeChar_ne_nil] at none
    | cons char source induction =>
        cases before with
        | nil =>
            rcases exists_append_of_utf8 source_eq with ⟨rest, rest_eq⟩
            exact ⟨[], rest, rest_eq, rfl⟩
        | cons byte before =>
            rw [utf8_cons] at source_eq
            rcases exists_append_of_straddling nonempty (List.cons_ne_nil _ _)
                source_eq with
              ⟨between, before_eq, rest_eq⟩
            rcases induction between rest_eq with
              ⟨front, back, rfl, length_eq⟩
            refine ⟨char :: front, back, rfl, ?_⟩
            rw [before_eq, bytes_cons, length_eq, List.length_append,
              String.length_utf8EncodeChar]
  · rintro ⟨before, after, rfl, rfl⟩
    exact ⟨before.utf8, after.utf8, by simp, length_utf8 before⟩

theorem foundFrom_occurrencesFrom {needle : Text} (nonempty : needle ≠ [])
    (passed text : Text) (skip : Nat) :
    FoundFrom needle.utf8 (passed ++ text).utf8
      (bytes (passed ++ text.take skip))
      (occurrencesFrom needle [] passed.bytes skip text) := by
  induction text generalizing passed skip with
  | nil =>
      -- A needle that stood here would reach past the end of the text.
      refine .nothing fun offset stands => ?_
      rcases (standsIn_utf8_iff nonempty offset).mp stands with
        ⟨before, after, text_eq, rfl⟩
      rcases List.exists_cons_of_ne_nil nonempty with ⟨first, others, rfl⟩
      have positive := first.utf8Size_pos
      have total := congrArg bytes text_eq
      simp only [bytes_append, bytes_cons, List.take_nil] at total ⊢
      omega
  | cons char rest induction =>
      have moved := fun skip => induction (passed ++ [char]) skip
      simp only [List.append_assoc, List.singleton_append, bytes_append,
        bytes_cons, bytes_nil, Nat.add_zero] at moved
      cases skip with
      | succ skip =>
          simpa [occurrencesFrom] using moved skip
      | zero =>
          have stands_iff : ∀ offset, StandsIn needle.utf8
              (passed ++ char :: rest).utf8 offset ↔ _ :=
            standsIn_utf8_iff nonempty
          simp only [List.take_zero, List.append_nil, occurrencesFrom]
          by_cases found : needle.isPrefixOf (char :: rest)
          · rcases List.isPrefixOf_iff_prefix.mp found with ⟨after, after_eq⟩
            have stands : StandsIn needle.utf8 (passed ++ char :: rest).utf8
                passed.bytes :=
              (stands_iff _).mpr ⟨passed, after, by rw [after_eq], rfl⟩
            have width : needle.bytes =
                char.utf8Size + bytes (rest.take (needle.length - 1)) := by
              rcases List.exists_cons_of_ne_nil nonempty with
                ⟨first, others, rfl⟩
              rcases List.cons.inj after_eq with ⟨rfl, rfl⟩
              simp
            have onward := moved (needle.length - 1)
            rw [← width, ← length_utf8 needle] at onward
            rw [if_pos found, occurrencesFrom_found]
            exact .next stands (Nat.le_refl _) (fun _ _ reached => reached) onward
          · have onward := moved 0
            simp only [List.take_zero, bytes_nil, Nat.add_zero] at onward
            rw [if_neg found]
            refine onward.earlier (Nat.le_add_right _ _) fun offset stands ahead => ?_
            rcases (stands_iff offset).mp stands with
              ⟨before, after, text_eq, rfl⟩
            rcases exists_append_of_bytes_le text_eq ahead with
              ⟨between, rfl, rest_eq⟩
            cases between with
            | nil =>
                exact absurd (List.isPrefixOf_iff_prefix.mpr ⟨after, rest_eq.symm⟩)
                  found
            | cons first between =>
                rw [(List.cons.inj rest_eq).1, bytes_append, bytes_cons]
                omega

/-- Searching bytes for the form of a text yields its occurrences. -/
theorem foundFrom_utf8_iff {needle : Text} (nonempty : needle ≠ [])
    (source : Text) (found : List Nat) :
    FoundFrom needle.utf8 source.utf8 0 found ↔
      found = needle.occurrences source := by
  have empty : needle.isEmpty = false := List.isEmpty_eq_false_iff.mpr nonempty
  have search := foundFrom_occurrencesFrom nonempty [] source 0
  simp only [List.nil_append, List.take_zero, bytes_nil] at search
  rw [occurrences, empty]
  refine ⟨fun given => given.unique search, ?_⟩
  rintro rfl
  exact search

end Text

end QueryAssembly
