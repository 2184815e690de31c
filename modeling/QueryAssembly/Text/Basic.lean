namespace QueryAssembly

/-! A text is a list of characters. Its length and every offset into it count
the bytes of its UTF-8 form, and it is only ever cut between two characters. -/

abbrev Text := List Char

/-! What stops a pass over a text: a cut inside a character or past the end, a
scanner asked to go back, or a closing parenthesis that nothing opened. -/

inductive Fault
  | offBoundary (offset : Nat)
  | behindScanner (offset : Nat)
  | nothingOpen (offset : Nat)
  deriving DecidableEq, Repr

@[simp] theorem ok_bind {ε : Type u} {α β : Type v} (value : α)
    (next : α → Except ε β) : (Except.ok value >>= next) = next value := rfl

theorem bind_eq_ok_iff {ε : Type u} {α β : Type v} {first : Except ε α}
    {next : α → Except ε β} {result : β} :
    (first >>= next) = .ok result ↔
      ∃ value, first = .ok value ∧ next value = .ok result := by
  cases first with
  | error cause => simp [bind, Except.bind]
  | ok value => simp

namespace Text

def bytes (text : Text) : Nat :=
  text.foldr (fun char total => char.utf8Size + total) 0

@[simp] theorem bytes_nil : bytes [] = 0 := rfl

@[simp] theorem bytes_cons (char : Char) (rest : Text) :
    bytes (char :: rest) = char.utf8Size + bytes rest := rfl

@[simp] theorem bytes_append (left right : Text) :
    bytes (left ++ right) = bytes left + bytes right := by
  induction left with
  | nil => simp
  | cons char rest induction => simp [induction, Nat.add_assoc]

/-- Move characters from the text to the reversed front until `offset` bytes
have moved. -/
def cutFrom (front : Text) : Nat → Text → Option (Text × Text)
  | 0, rest => some (front.reverse, rest)
  | _ + 1, [] => none
  | offset + 1, char :: rest =>
      if char.utf8Size ≤ offset + 1 then
        cutFrom (char :: front) (offset + 1 - char.utf8Size) rest
      else
        none

def cut? (text : Text) (offset : Nat) : Option (Text × Text) :=
  cutFrom [] offset text

private theorem cutFrom_eq_some {front text before after : Text} {offset : Nat}
    (found : cutFrom front offset text = some (before, after)) :
    ∃ moved, before = front.reverse ++ moved ∧ text = moved ++ after ∧
      bytes moved = offset := by
  induction text generalizing front offset with
  | nil =>
      cases offset with
      | zero =>
          simp only [cutFrom, Option.some.injEq, Prod.mk.injEq] at found
          exact ⟨[], by simp [found.1], by simp [found.2], rfl⟩
      | succ offset => simp [cutFrom] at found
  | cons char rest induction =>
      cases offset with
      | zero =>
          simp only [cutFrom, Option.some.injEq, Prod.mk.injEq] at found
          exact ⟨[], by simp [found.1], by simp [found.2], rfl⟩
      | succ offset =>
          simp only [cutFrom] at found
          split at found
          · next fits =>
            rcases induction found with ⟨moved, front_eq, rest_eq, total⟩
            refine ⟨char :: moved, by simp [front_eq], by simp [rest_eq], ?_⟩
            simp only [bytes_cons, total]
            omega
          · simp at found

private theorem cutFrom_append (front moved after : Text) :
    cutFrom front (bytes moved) (moved ++ after) =
      some (front.reverse ++ moved, after) := by
  induction moved generalizing front with
  | nil => simp [cutFrom]
  | cons char rest induction =>
      have positive := char.utf8Size_pos
      obtain ⟨size, equal⟩ : ∃ size, char.utf8Size + bytes rest = size + 1 :=
        ⟨char.utf8Size + bytes rest - 1, by omega⟩
      rw [bytes_cons, equal, List.cons_append, cutFrom, if_pos (by omega)]
      rw [← equal, Nat.add_sub_cancel_left, induction]
      simp

theorem cut?_eq_some_iff {text before after : Text} {offset : Nat} :
    text.cut? offset = some (before, after) ↔
      text = before ++ after ∧ bytes before = offset := by
  constructor
  · intro found
    rcases cutFrom_eq_some found with ⟨moved, before_eq, text_eq, total⟩
    simp only [List.reverse_nil, List.nil_append] at before_eq
    subst before_eq
    exact ⟨text_eq, total⟩
  · intro ⟨text_eq, total⟩
    subst text_eq total
    simpa [cut?] using cutFrom_append [] before after

/-- Cut at an offset, or report that it does not lie between two characters. -/
def cut (text : Text) (offset : Nat) : Except Fault (Text × Text) :=
  match text.cut? offset with
  | some parts => .ok parts
  | none => .error (.offBoundary offset)

def before (text : Text) (offset : Nat) : Except Fault Text :=
  (text.cut offset).map Prod.fst

def onward (text : Text) (offset : Nat) : Except Fault Text :=
  (text.cut offset).map Prod.snd

theorem cut_append (left right : Text) :
    (left ++ right).cut left.bytes = .ok (left, right) := by
  unfold cut
  rw [cut?_eq_some_iff.mpr ⟨rfl, rfl⟩]

theorem before_append (left right : Text) :
    (left ++ right).before left.bytes = .ok left := by
  rw [before, cut_append]
  rfl

theorem onward_append (left right : Text) :
    (left ++ right).onward left.bytes = .ok right := by
  rw [onward, cut_append]
  rfl

def joined (separator : Text) : List Text → Text
  | [] => []
  | [last] => last
  | first :: rest => first ++ separator ++ joined separator rest

end Text

end QueryAssembly
