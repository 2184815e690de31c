import QueryAssembly.Proofs.Fragment.Replace

namespace QueryAssembly

/-! The names reported when fragments are out of hand are those that have a
spread among the pieces. -/

theorem filterM_eq_ok {α : Type} {ε : Type u} {test : α → Except ε Bool}
    {holds : α → Bool} {values : List α}
    (decided : ∀ value ∈ values, test value = .ok (holds value)) :
    values.filterM test = .ok (values.filter holds) := by
  have collected : ∀ (values found : List α),
      (∀ value ∈ values, test value = .ok (holds value)) →
      values.filterAuxM test found =
        .ok ((values.filter holds).reverse ++ found) := by
    intro values
    induction values with
    | nil => exact fun found _ => rfl
    | cons value values induction =>
        intro found decided
        rw [List.forall_mem_cons] at decided
        rw [List.filterAuxM, decided.1, ok_bind, induction _ decided.2]
        cases kept : holds value <;> simp [kept]
  rw [List.filterM, collected values [] decided, List.append_nil]
  simp [pure, Except.pure]

namespace Fragment

variable {chosen : Text → Bool} {name : Text}

theorem offsetsOf_eq_nil_iff (name : Text) (offset : Nat)
    (pieces : List Piece) :
    offsetsOf name offset pieces = [] ↔ .spread name ∉ pieces := by
  induction pieces generalizing offset with
  | nil => simp [offsetsOf]
  | cons piece rest induction =>
      cases piece with
      | kept char state => simp [offsetsOf, induction]
      | spread other =>
          by_cases same : other = name
          · simp [offsetsOf, same]
          · have different : name ≠ other := fun equal => same equal.symm
            simp [offsetsOf, same, different, induction]

theorem hasSpread_eq (isChosen : chosen name) (word : name.IsWord)
    (document : Text) :
    hasSpread document name =
      .ok (decide (.spread name ∈ piecesOf chosen document)) := by
  have empty : name.isEmpty = false := List.isEmpty_eq_false_iff.mpr word.1
  have found : codeMatches (spread name) document = .ok _ :=
    codeMatches_eq (List.cons_ne_nil _ _) document
  have offsets := uncontinued_placesFrom_cut isChosen word .start document
  have searched : spreadOffsets (spread name) document =
      .ok (offsetsOf name 0 (piecesOf chosen document)) := by
    rw [spreadOffsets, found]
    exact congrArg Except.ok offsets
  have decided : (!(offsetsOf name 0 (piecesOf chosen document)).isEmpty) =
      decide (.spread name ∈ piecesOf chosen document) := by
    rw [Bool.eq_iff_iff]
    simp [offsetsOf_eq_nil_iff]
  rw [hasSpread, if_neg (by simp [empty]), searched]
  exact congrArg Except.ok decided

theorem remainingNames_eq {fragments : FragmentRegistry}
    (words : ∀ name ∈ fragments.keys, name.IsWord) (document : Text) :
    remainingNames fragments document =
      .ok (fragments.keys.filter fun name =>
        .spread name ∈ piecesOf (only name) document) :=
  filterM_eq_ok fun name member =>
    hasSpread_eq (only_eq_true_iff.mpr rfl) (words name member) document

end Fragment

end QueryAssembly
