import Mathlib.Algebra.BigOperators.Group.List.Basic
import Mathlib.Algebra.Ring.Int.Defs
import Mathlib.Data.List.Induction
import QueryAssembly.Proofs.Field.DefinitionName

namespace QueryAssembly

/-! How the braces of a text nest. Its level is the number of braces that it
opens in code less the number that it closes there, so one closed too early
takes the level below zero, where a depth that stops at zero would hide it. -/

open FieldOccurrence (openBraces labelDepth foldl_braceDepthAfter)

def braceRise (label : Label) : Int :=
  if label = ('\x7b', .code) then 1
  else if label = ('\x7d', .code) then -1
  else 0

def braceLevel (text : Text) : Int := ((labelsOf text).map braceRise).sum

/-- Read where `low` braces are open, the text leaves `high` of them open, ends
in code, and on its way closes none that is not open. -/
structure Nested (low high : Nat) (text : Text) : Prop where
  closed : endState text = .code
  level : low + braceLevel text = high
  passing : ∀ before, before <+: text → 0 ≤ low + braceLevel before

def Balanced (text : Text) : Prop := ∀ depth, Nested depth depth text

theorem braceLevel_append {front : Text} (closed : endState front = .code)
    (text : Text) : braceLevel (front ++ text) = braceLevel front + braceLevel text := by
  simp only [braceLevel, labelsOf_append closed, List.map_append, List.sum_append]

theorem braceLevel_concat (front : Text) (char : Char) :
    braceLevel (front ++ [char]) =
      braceLevel front + braceRise (char, endState front) := by
  have labels : labelsOf (front ++ [char]) =
      labelsOf front ++ [(char, endState front)] := by
    rw [endState_eq]
    exact labelsFrom_append .start front [char]
  simp [braceLevel, labels]

theorem braceLevel_singleton (char : Char) :
    braceLevel [char] = braceRise (char, .code) := Int.add_zero _

theorem openBraces_eq_braceLevel {text : Text}
    (passing : ∀ before, before <+: text → 0 ≤ braceLevel before) :
    (openBraces text : Int) = braceLevel text := by
  induction text using List.reverseRecOn with
  | nil => rfl
  | append_singleton front char induction =>
      have front_eq := induction fun before isFront =>
        passing before (isFront.trans (List.prefix_append front [char]))
      have whole := passing (front ++ [char]) (List.prefix_refl _)
      have depth : openBraces (front ++ [char]) =
          labelDepth (openBraces front) (char, endState front) := by
        simp only [openBraces, foldl_braceDepthAfter]
        have labels : (rowsOf (front ++ [char])).map Row.label = _ :=
          labelsFrom_append .start front [char]
        rw [labels, List.foldl_append, endState_eq]
        rfl
      rw [braceLevel_concat, braceRise] at whole
      rw [depth, braceLevel_concat, braceRise, labelDepth,
        FieldOccurrence.braceDepthAfter]
      simp only [Prod.mk.injEq] at whole ⊢
      split_ifs at whole ⊢ <;> first | omega | simp_all

namespace Nested

variable {low middle high : Nat} {left right text : Text}

theorem append (first : Nested low middle left)
    (second : Nested middle high right) : Nested low high (left ++ right) where
  closed := by rw [endState_append first.closed, second.closed]
  level := by
    have firstLevel := first.level
    have secondLevel := second.level
    rw [braceLevel_append first.closed]
    omega
  passing := by
    intro before isFront
    rcases isFront with ⟨after, text_eq⟩
    rcases List.append_eq_append_iff.mp text_eq with
      ⟨between, left_eq, _⟩ | ⟨onward, rfl, right_eq⟩
    · exact first.passing before ⟨between, left_eq.symm⟩
    · have firstLevel := first.level
      have later := second.passing onward ⟨after, right_eq.symm⟩
      rw [braceLevel_append first.closed]
      omega

theorem brace {char : Char} (closed : endState [char] = .code)
    (level : low + braceRise (char, .code) = high) : Nested low high [char] where
  closed := closed
  level := by
    rw [braceLevel_singleton, level]
  passing := by
    intro before isFront
    rcases List.prefix_cons_iff.mp isFront with rfl | ⟨rest, rfl, isNil⟩
    · exact Int.add_nonneg (Int.natCast_nonneg low) (Int.le_refl 0)
    · rw [List.prefix_nil.mp isNil]
      rw [braceLevel_singleton, level]
      exact Int.natCast_nonneg high

theorem opening (depth : Nat) : Nested depth (depth + 1) ['\x7b'] :=
  brace rfl rfl

theorem closing (depth : Nat) : Nested (depth + 1) depth ['\x7d'] := by
  apply brace rfl
  rw [braceRise, if_neg (by decide), if_pos rfl]
  omega

theorem braceDepthInCode {depth : Nat} (nested : Nested 0 depth text)
    (rest : Text) :
    FieldOccurrence.braceDepthInCode (text ++ rest) text.bytes = some depth := by
  have passing : ∀ before, before <+: text → 0 ≤ braceLevel before := by
    intro before isFront
    have passed := nested.passing before isFront
    omega
  have level := nested.level
  have depth_eq := openBraces_eq_braceLevel passing
  rw [FieldOccurrence.braceDepthInCode_append, if_pos nested.closed,
    Option.some.injEq]
  omega

end Nested

namespace Balanced

variable {left right text : Text}

theorem append (first : Balanced left) (second : Balanced right) :
    Balanced (left ++ right) := fun depth => (first depth).append (second depth)

theorem of_labels (closed : endState text = .code)
    (flat : ∀ label ∈ labelsOf text, braceRise label = 0) : Balanced text := by
  have level : ∀ before, before <+: text → braceLevel before = 0 := by
    rintro before ⟨after, rfl⟩
    have labels : labelsOf (before ++ after) = labelsOf before ++ _ :=
      labelsFrom_append .start before after
    rw [labels, List.forall_mem_append] at flat
    exact List.sum_eq_zero (List.forall_mem_map.mpr flat.1)
  intro depth
  refine ⟨closed, ?_, ?_⟩
  · rw [level text (List.prefix_refl _), Int.add_zero]
  · intro before isFront
    rw [level before isFront, Int.add_zero]
    exact Int.natCast_nonneg depth

theorem of_plain (plain : ∀ char ∈ text, Position.isPlain char)
    (braceless : ∀ char ∈ text, char ≠ '\x7b' ∧ char ≠ '\x7d') :
    Balanced text := by
  apply of_labels (endState_of_plain plain)
  have labels : labelsOf text = _ := Position.labelsFrom_of_plain rfl plain
  rw [labels, List.forall_mem_map]
  intro char member
  simp [braceRise, braceless char member]

theorem of_isName (isName : text.IsName) : Balanced text :=
  of_plain
    (fun char member =>
      Position.isPlain_of_isNameContinue (isName.isWord.2 char member))
    (fun char member => Text.brace_apart (isName.isWord.2 char member))

theorem nil : Balanced [] := of_plain nofun nofun

theorem sign {char : Char}
    (apart : Position.isPlain char ∧ char ≠ '\x7b' ∧ char ≠ '\x7d') :
    Balanced [char] :=
  of_plain (List.forall_mem_singleton.mpr apart.1)
    (List.forall_mem_singleton.mpr apart.2)

theorem enclosed {first last : Char}
    (opening : Position.isPlain first ∧ first ≠ '\x7b' ∧ first ≠ '\x7d')
    (closing : Position.isPlain last ∧ last ≠ '\x7b' ∧ last ≠ '\x7d')
    (balanced : Balanced text) : Balanced (first :: (text ++ [last])) :=
  (sign opening).append (balanced.append (sign closing))

theorem braced (balanced : Balanced text) :
    Balanced ('\x7b' :: (text ++ ['\x7d'])) := fun depth =>
  (Nested.opening depth).append
    ((balanced (depth + 1)).append (Nested.closing depth))

theorem joined {separator : Text} {texts : List Text}
    (apart : Balanced separator) (balanced : ∀ text ∈ texts, Balanced text) :
    Balanced (Text.joined separator texts) := by
  match texts, balanced with
  | [], _ => exact nil
  | [last], balanced => exact balanced last List.mem_cons_self
  | first :: second :: rest, balanced =>
      rw [List.forall_mem_cons] at balanced
      exact (balanced.1.append apart).append (joined apart balanced.2)

end Balanced

end QueryAssembly
