import Mathlib.Data.List.Chain
import QueryAssembly.Proofs.Fragment.Pieces

namespace QueryAssembly

/-! Where two texts meet, a name or a spread may run on from one into the other.
Where none does, the pieces of both together are those of the one and then those
of the other. A spread that follows always begins a piece of its own, whatever
stands before it. -/

namespace Fragment

def isSpreadChar (char : Char) : Bool :=
  char == '.' || Text.isNameContinue char

/-- Whether two neighbouring characters may belong to one name or one spread. -/
def runsOn (last first : Char) : Bool :=
  last == '.' && first == '.' || isSpreadChar last && Text.isNameContinue first

def Clear (left right : Text) : Prop :=
  ∀ last ∈ left.getLast?, ∀ first ∈ right.head?, runsOn last first = false

-- Not left to inference, which may go through all characters there are.
instance (left right : Text) : Decidable (Clear left right) :=
  @Option.decidableForallMem _ _
    (fun _ => Option.decidableForallMem right.head?) left.getLast?

/-- Two texts of which the second is read apart from the first. -/
def Parted (left right : Text) : Prop :=
  Clear left right ∨ ∃ name after, right = spread name ++ after

/-! Names and spreads end where nothing runs on. -/

section Ends

variable {front left right more : Text}

theorem Clear.of_append_left (clear : Clear (front ++ left) right) :
    Clear left right := by
  intro last member
  have nonempty : left ≠ [] := by
    rintro rfl
    cases member
  exact clear last (by rwa [List.getLast?_append_of_ne_nil front nonempty])

theorem Clear.of_append_right (clear : Clear left (right ++ more)) :
    Clear left right := by
  intro last member first isFirst
  cases right with
  | nil => cases isFirst
  | cons char rest => exact clear last member first isFirst

theorem Clear.stops (clear : Clear left right)
    (ends : left.getLast?.any Text.isNameContinue) :
    right.continuesName = false := by
  cases last_eq : left.getLast? with
  | none =>
      rw [last_eq] at ends
      cases ends
  | some last =>
      rw [last_eq] at ends
      have continues : Text.isNameContinue last := ends
      cases right with
      | nil => rfl
      | cons first rest =>
          have apart := (Bool.or_eq_false_iff.mp (clear last last_eq first rfl)).2
          rw [isSpreadChar, continues, Bool.or_true, Bool.true_and] at apart
          exact apart

theorem Parted.of_append_left (parted : Parted (front ++ left) right) :
    Parted left right :=
  parted.imp_left Clear.of_append_left

theorem Parted.stops (parted : Parted left right)
    (ends : left.getLast?.any Text.isNameContinue) :
    right.continuesName = false := by
  rcases parted with clear | ⟨name, after, rfl⟩
  · exact clear.stops ends
  · rfl

theorem getLast?_spread {name : Text} (word : name.IsWord) (front : Text) :
    (front ++ spread name).getLast?.any Text.isNameContinue := by
  rcases (List.eq_nil_or_concat name).resolve_left word.1 with ⟨start, last, rfl⟩
  have ends : front ++ spread (start.concat last) =
      front ++ spread start ++ [last] := by
    simp [spread]
  rw [ends, List.getLast?_concat]
  exact word.2 last (by simp)

theorem Parted.stops_append {name : Text} (word : name.IsWord)
    (parted : Parted (spread name ++ left) right)
    (stops : left.continuesName = false) :
    (left ++ right).continuesName = false := by
  cases left with
  | cons char rest => exact stops
  | nil =>
      rw [List.append_nil] at parted
      exact parted.stops (getLast?_spread word [])

end Ends

/-! Spreads at the border of two texts. -/

section Spreads

variable {left right before after other rest name : Text}

theorem isChain_spread (word : name.IsWord) :
    (spread name).IsChain fun last first => runsOn last first := by
  have names : ∀ (char : Char) (text : Text), isSpreadChar char →
      (∀ letter ∈ text, Text.isNameContinue letter) →
      (char :: text).IsChain fun last first => runsOn last first := by
    intro char text
    induction text generalizing char with
    | nil => exact fun _ _ => .singleton char
    | cons letter text induction =>
        intro spreads all
        rw [List.forall_mem_cons] at all
        refine List.isChain_cons_cons.mpr
          ⟨by simp [runsOn, spreads, all.1], ?_⟩
        exact induction letter (by simp [isSpreadChar, all.1]) all.2
  exact List.isChain_cons_cons.mpr ⟨rfl,
    List.isChain_cons_cons.mpr ⟨rfl, names '.' name rfl word.2⟩⟩

theorem spread_append_split (word : other.IsWord) (later : before ≠ [])
    (text_eq : spread other ++ rest = before ++ (spread name ++ after)) :
    ∃ between, before = spread other ++ between ∧
      rest = between ++ (spread name ++ after) := by
  have names_eq := congrArg (List.drop 3) text_eq
  have noDot : ∀ tail : Text, other ++ rest ≠ '.' :: tail := by
    intro tail equal
    rcases List.exists_cons_of_ne_nil word.1 with ⟨first, last, rfl⟩
    exact Text.ne_of_isNameContinue (word.2 first List.mem_cons_self) rfl
      (List.cons.inj equal).1
  -- A spread that began at one of the later two dots would have a dot where
  -- the name of this one begins.
  match before, later with
  | [_], _ => exact absurd names_eq (noDot (name ++ after))
  | [_, _], _ => exact absurd names_eq (noDot ('.' :: (name ++ after)))
  | first :: second :: third :: inside, _ =>
      have dots := congrArg (List.take 3) text_eq
      have stops : Text.continuesName (spread name ++ after) = false := rfl
      have inside_eq : inside ++ (spread name ++ after) =
          [] ++ (other ++ rest) := names_eq.symm
      rcases word.split (.inr stops) inside_eq with
        ⟨between, inside_eq, rest_eq⟩ | ⟨between, nil_eq, names_eq⟩
      · refine ⟨between, ?_, rest_eq⟩
        rw [inside_eq]
        simpa [spread] using dots.symm
      · rcases List.append_eq_nil_iff.mp nil_eq.symm with ⟨_, rfl⟩
        exact absurd names_eq.symm (noDot _)

theorem Parted.split (parted : Parted left right) (nonempty : left ≠ [])
    (word : other.IsWord) (text_eq : spread other ++ rest = left ++ right) :
    ∃ between, left = spread other ++ between ∧ rest = between ++ right := by
  rcases parted with clear | ⟨name, after, rfl⟩
  · rcases List.append_eq_append_iff.mp text_eq with
      ⟨between, left_eq, rest_eq⟩ | ⟨back, spread_eq, right_eq⟩
    · exact ⟨between, left_eq, rest_eq⟩
    · cases back with
      | nil => exact ⟨[], by simp [spread_eq], by simp [right_eq]⟩
      | cons first back =>
          have chain := isChain_spread word
          rw [spread_eq, List.isChain_append] at chain
          rcases (List.eq_nil_or_concat left).resolve_left nonempty with
            ⟨start, last, rfl⟩
          have joined := chain.2.2 last (by simp) first rfl
          rw [clear last (by simp) first (by simp [right_eq])] at joined
          cases joined
  · exact spread_append_split word nonempty text_eq

theorem leadingSpread?_append (parted : Parted left right)
    (nonempty : left ≠ []) :
    leadingSpread? (left ++ right) = leadingSpread? left := by
  refine Option.ext fun found => ?_
  rw [leadingSpread?_eq_some_iff, leadingSpread?_eq_some_iff]
  refine and_congr_right fun word => ⟨?_, ?_⟩
  · rintro ⟨rest, text_eq, stops⟩
    rcases parted.split nonempty word text_eq.symm with
      ⟨between, left_eq, rfl⟩
    refine ⟨between, left_eq, ?_⟩
    cases between with
    | nil => rfl
    | cons char rest => exact stops
  · rintro ⟨between, rfl, stops⟩
    exact ⟨between ++ right, List.append_assoc _ _ _,
      parted.stops_append word stops⟩

end Spreads

section Pieces

variable {chosen : Text → Bool} {position other : Position}
  {left right run name rest : Text}

theorem chosenSpread?_append (parted : Parted left right) (nonempty : left ≠ [])
    (state : LexicalState) :
    chosenSpread? chosen state (left ++ right) = chosenSpread? chosen state left := by
  rw [chosenSpread?, chosenSpread?, leadingSpread?_append parted nonempty]

theorem cut_alike (chosen : Text → Bool) (text : Text)
    (alike : position.Alike other) :
    cut chosen position text = cut chosen other text := by
  induction position, text using cut_induction chosen generalizing other with
  | nil position => rfl
  | kept position char rest none induction =>
      rw [cut_kept none, induction (alike.after char), alike.1]
      rw [alike.1] at none
      rw [cut_kept none]
  | spread position name rest code isChosen word stops induction =>
      rw [cut_spread code isChosen word stops, induction (alike.past _),
        cut_spread (alike.1 ▸ code) isChosen word stops]

theorem cut_append_of_parted (position : Position) (parted : Parted left right) :
    cut chosen position (left ++ right) =
      cut chosen position left ++ cut chosen (position.past left) right := by
  induction position, left using cut_induction chosen with
  | nil position => rfl
  | kept position char rest absent induction =>
      have none := (chosenSpread?_append parted (List.cons_ne_nil _ _) _).trans
        absent
      rw [cut_kept absent]
      have onward : Parted rest right := @Parted.of_append_left [char] _ _ parted
      exact (cut_kept none).trans (congrArg _ (induction onward))
  | spread position name rest code isChosen word stops induction =>
      rw [List.append_assoc,
        cut_spread code isChosen word (parted.stops_append word stops),
        induction parted.of_append_left, cut_spread code isChosen word stops,
        Position.past_append]
      rfl

theorem piecesOf_append_of_parted (closed : endState left = .code)
    (parted : Parted left right) :
    piecesOf chosen (left ++ right) =
      piecesOf chosen left ++ piecesOf chosen right := by
  have code : (Position.start.past left).state = .code :=
    (endState_eq left).symm.trans closed
  have start_code : Position.start.state = .code := rfl
  rw [piecesOf, cut_append_of_parted .start parted,
    cut_alike chosen right (.of_code code start_code)]
  rfl

/-! A text up to its first chosen spread. -/

def Free (chosen : Text → Bool) (text : Text) : Prop :=
  ∀ name, .spread name ∉ piecesOf chosen text

theorem Free.append (closed : endState left = .code) (parted : Parted left right)
    (leftFree : Free chosen left) (rightFree : Free chosen right) :
    Free chosen (left ++ right) := by
  intro name
  rw [piecesOf_append_of_parted closed parted, List.mem_append, not_or]
  exact ⟨leftFree name, rightFree name⟩

/-- The first chosen spread of a text, between what stands before and after it. -/
structure FirstSpread (chosen : Text → Bool) (run name rest : Text) : Prop where
  free : Free chosen run
  closed : endState run = .code
  isChosen : chosen name
  word : name.IsWord
  stops : rest.continuesName = false

theorem FirstSpread.piecesOf_eq (first : FirstSpread chosen run name rest) :
    piecesOf chosen (run ++ (spread name ++ rest)) =
      piecesOf chosen run ++ .spread name :: piecesOf chosen rest := by
  have start_code : Position.start.state = .code := rfl
  have code := state_past_spread start_code first.word
  rw [piecesOf_append_of_parted first.closed (.inr ⟨name, rest, rfl⟩)]
  refine congrArg _
    ((cut_spread start_code first.isChosen first.word first.stops).trans ?_)
  rw [cut_alike chosen rest (.of_code code start_code)]
  rfl

theorem cut_first_spread (chosen : Text → Bool) (position : Position)
    (text : Text) :
    (∀ name, .spread name ∉ cut chosen position text) ∨
      ∃ run name rest, text = run ++ (spread name ++ rest) ∧
        (∀ other, .spread other ∉ cut chosen position run) ∧
        (position.past run).state = .code ∧ chosen name ∧ name.IsWord ∧
        rest.continuesName = false := by
  induction position, text using cut_induction chosen with
  | nil position => exact .inl fun _ => List.not_mem_nil
  | kept position char text absent induction =>
      have onward : ∀ more, chosenSpread? chosen position.state (char :: more) =
          none → (∀ name, .spread name ∉ cut chosen (position.after char) more) →
          ∀ name, .spread name ∉ cut chosen position (char :: more) := by
        intro more none later name
        simpa [cut_kept none] using later name
      rcases induction with free | ⟨run, name, rest, rfl, free, code, found⟩
      · exact .inl (onward text absent free)
      · have parted : Parted (char :: run) (spread name ++ rest) :=
          .inr ⟨name, rest, rfl⟩
        have none := (chosenSpread?_append parted (List.cons_ne_nil _ _) _).symm.trans
          absent
        exact .inr ⟨char :: run, name, rest, rfl, onward run none free, code, found⟩
  | spread position name rest code isChosen word stops _ =>
      exact .inr ⟨[], name, rest, rfl, fun _ => List.not_mem_nil, code, isChosen,
        word, stops⟩

theorem free_or_firstSpread (chosen : Text → Bool) (text : Text) :
    Free chosen text ∨ ∃ run name rest, text = run ++ (spread name ++ rest) ∧
      FirstSpread chosen run name rest := by
  refine (cut_first_spread chosen .start text).imp_right ?_
  rintro ⟨run, name, rest, text_eq, free, code, isChosen, word, stops⟩
  exact ⟨run, name, rest, text_eq, free, (endState_eq run).trans code, isChosen,
    word, stops⟩

/-- Induction along the chosen spreads of a text. -/
@[elab_as_elim]
theorem spread_induction (chosen : Text → Bool) {motive : Text → Prop}
    (free : ∀ text, Free chosen text → motive text)
    (spread : ∀ run name rest, FirstSpread chosen run name rest → motive rest →
      motive (run ++ (spread name ++ rest)))
    (text : Text) : motive text := by
  obtain ⟨bound, length_eq⟩ : ∃ bound, text.length = bound := ⟨_, rfl⟩
  induction bound using Nat.strongRecOn generalizing text with
  | ind bound induction =>
      rcases free_or_firstSpread chosen text with
        absent | ⟨run, name, rest, rfl, first⟩
      · exact free text absent
      · refine spread run name rest first (induction rest.length ?_ rest rfl)
        simp only [← length_eq, Fragment.spread, List.length_append,
          List.length_cons]
        omega

end Pieces

end Fragment

end QueryAssembly
