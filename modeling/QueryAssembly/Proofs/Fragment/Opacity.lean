import QueryAssembly.Proofs.Fragment.Replace

namespace QueryAssembly

/-! Literals and comments are opaque to the resolution of fragments: no splice
changes the state of a character that it keeps, as long as the spliced bodies
end in code. -/

namespace Fragment

section Passes

variable {fragments : FragmentRegistry} {holds : Text → Prop}

/-- A property that replacing the spreads of any one fragment preserves. -/
def Preserved (fragments : FragmentRegistry) (holds : Text → Prop) : Prop :=
  ∀ entry ∈ fragments.entries, ∀ document next replacements, holds document →
    replaceSpreads document entry.1 entry.2 = .ok (some (next, replacements)) →
    holds next

theorem replaceFragment_preserves (preserved : Preserved fragments holds)
    {reached result : Text × Nat} {entry : Text × Text}
    (member : entry ∈ fragments.entries) (before : holds reached.1)
    (run : replaceFragment reached entry = .ok result) : holds result.1 := by
  rcases bind_eq_ok_iff.mp run with ⟨outcome, replaced, finish⟩
  cases outcome with
  | none =>
      cases finish
      exact before
  | some replacement =>
      rcases replacement with ⟨next, replacements⟩
      cases finish
      exact preserved entry member _ _ _ before replaced

theorem foldlM_replaceFragment_preserves
    (preserved : Preserved fragments holds) {entries : List (Text × Text)}
    (known : ∀ entry ∈ entries, entry ∈ fragments.entries)
    {reached result : Text × Nat} (before : holds reached.1)
    (run : entries.foldlM replaceFragment reached = .ok result) :
    holds result.1 := by
  induction entries generalizing reached with
  | nil =>
      cases run
      exact before
  | cons entry entries induction =>
      rw [List.forall_mem_cons] at known
      rw [List.foldlM_cons] at run
      rcases bind_eq_ok_iff.mp run with ⟨next, first, rest⟩
      exact induction known.2
        (replaceFragment_preserves preserved known.1 before first) rest

theorem repeatPasses_preserves (preserved : Preserved fragments holds)
    {remaining : Nat} {document resolved : Text} (before : holds document)
    (run : repeatPasses fragments remaining document = .ok (.settled resolved)) :
    holds resolved := by
  induction remaining generalizing document with
  | zero => cases run
  | succ remaining induction =>
      rcases bind_eq_ok_iff.mp run with ⟨⟨next, replacements⟩, passed, finish⟩
      have after : holds next :=
        foldlM_replaceFragment_preserves preserved (fun _ member => member)
          before passed
      by_cases done : replacements = 0
      · simp only [done, if_true] at finish
        cases finish
        exact after
      · simp only [done, if_false] at finish
        exact induction after finish

theorem resolve_preserves (preserved : Preserved fragments holds)
    {document resolved : Text} (before : holds document)
    (run : resolve document fragments = .ok resolved) : holds resolved := by
  unfold resolve at run
  split at run
  · cases run
    exact before
  · split at run
    · cases run
    · next settled =>
      cases run
      exact repeatPasses_preserves preserved before settled
    · split at run <;> cases run

end Passes

/-! The labels of literals and comments are kept by each replacement. -/

theorem labelsOf_replaceSpreads {name body : Text} (word : name.IsWord)
    (closed : endState body = .code) (document : Text) :
    ∃ outcome, replaceSpreads document name body = .ok outcome ∧
      labelsOf ((outcome.map Prod.fst).getD document) =
        (piecesOf (only name) document).flatMap
          (Piece.labels fun _ => body) := by
  rcases replaceSpreads_text (only_eq_true_iff.mpr rfl) word document body with
    ⟨outcome, run, text_eq, _⟩
  refine ⟨outcome, run, ?_⟩
  have filled_alike : ∀ piece ∈ piecesOf (only name) document,
      piece.fill (replacing name body) = piece.fill fun _ => body := by
    intro piece member
    cases piece with
    | kept char state => rfl
    | spread other =>
        have same : other = name := only_eq_true_iff.mp (of_mem_cut member).1
        simp [Piece.fill, replacing, same]
  have bodies : ∀ other, only name other → other.IsWord →
      endState ((fun _ => body) other) = .code := fun _ _ _ => closed
  rw [text_eq, List.flatMap_congr filled_alike]
  exact labelsFrom_fill bodies .start .start document (.refl _)

theorem opaque_sublist_labels (body : Text)
    {pieces : List Piece}
    (spreads : ∀ name, .spread name ∈ pieces → name.IsWord) :
    ((pieces.flatMap (Piece.labels spread)).filter
        fun label => label.2 ≠ .code).Sublist
      ((pieces.flatMap (Piece.labels fun _ => body)).filter
        fun label => label.2 ≠ .code) := by
  induction pieces with
  | nil => exact .slnil
  | cons piece pieces induction =>
      have rest := induction fun name member =>
        spreads name (List.mem_cons_of_mem _ member)
      simp only [List.flatMap_cons, List.filter_append]
      refine List.Sublist.append ?_ rest
      cases piece with
      | kept char state => exact .refl _
      | spread name =>
          have word := spreads name List.mem_cons_self
          have plain : labelsOf (spread name) = (spread name).map (·, .code) :=
            Position.labelsFrom_of_plain rfl (isPlain_of_mem_spread word)
          have transparent : (labelsOf (spread name)).filter
              (fun label => label.2 ≠ .code) = [] := by
            rw [plain, List.filter_eq_nil_iff]
            simp
          simp only [Piece.labels, transparent]
          exact List.nil_sublist _

theorem opaqueLabels_preserved {fragments : FragmentRegistry} (source : Text)
    (words : ∀ entry ∈ fragments.entries, entry.1.IsWord)
    (closed : ∀ entry ∈ fragments.entries, endState entry.2 = .code) :
    Preserved fragments fun document =>
      (opaqueLabels source).Sublist (opaqueLabels document) := by
  intro entry member document next replacements before replaced
  have word := words entry member
  rcases labelsOf_replaceSpreads word (closed entry member) document with
    ⟨outcome, run, labels_eq⟩
  rw [replaced] at run
  cases run
  refine before.trans ?_
  simp only [Option.map_some, Option.getD_some] at labels_eq
  simp only [opaqueLabels, labels_eq]
  rw [labelsOf_eq_flatMap (only entry.1) document]
  exact opaque_sublist_labels entry.2 fun name member =>
    (of_mem_cut member).2

/-- Literals and comments survive a resolution in order, and one replacement
changes the labels of a document in the spreads alone. -/
theorem literals_and_comments_survive :
    (∀ (document resolved : Text) (fragments : FragmentRegistry),
      (∀ entry ∈ fragments.entries,
        entry.1.IsWord ∧ endState entry.2 = .code) →
      resolve document fragments = .ok resolved →
      (opaqueLabels document).Sublist (opaqueLabels resolved)) ∧
    ∀ document name body : Text, name.IsWord → endState body = .code →
      ∃ outcome, replaceSpreads document name body = .ok outcome ∧
        labelsOf document =
          (piecesOf (only name) document).flatMap (Piece.labels spread) ∧
        labelsOf ((outcome.map Prod.fst).getD document) =
          (piecesOf (only name) document).flatMap
            (Piece.labels fun _ => body) := by
  constructor
  · intro document resolved fragments sound run
    exact resolve_preserves (opaqueLabels_preserved document
      (fun entry member => (sound entry member).1)
      (fun entry member => (sound entry member).2)) (.refl _) run
  · intro document name body word closed
    rcases labelsOf_replaceSpreads word closed document with
      ⟨outcome, run, labels_eq⟩
    exact ⟨outcome, run, labelsOf_eq_flatMap _ document, labels_eq⟩

def quotedDocument : Text :=
  "\x7b a(s: \"...F\") # ...F\n ...F ...G \x7d".toList

def quotedResolved : Text :=
  "\x7b a(s: \"...F\") # ...F\n b c # d\n c # d\n \x7d".toList

def commentedFragments : FragmentRegistry :=
  Registry.ofList
    [("F".toList, "b ...G".toList), ("G".toList, "c # d\n".toList)]

theorem quoted_literals_and_comments_survive :
    (∀ entry ∈ commentedFragments.entries,
        entry.1.IsWord ∧ endState entry.2 = .code) ∧
      resolve quotedDocument commentedFragments = .ok quotedResolved ∧
      (opaqueLabels quotedDocument).Sublist (opaqueLabels quotedResolved) ∧
      ∃ outcome,
        replaceSpreads quotedDocument "F".toList "b ...G".toList =
          .ok outcome ∧
        labelsOf quotedDocument =
          (piecesOf (only "F".toList) quotedDocument).flatMap
            (Piece.labels spread) ∧
        labelsOf ((outcome.map Prod.fst).getD quotedDocument) =
          (piecesOf (only "F".toList) quotedDocument).flatMap
            (Piece.labels fun _ => "b ...G".toList) := by
  have sound : ∀ entry ∈ commentedFragments.entries,
      entry.1.IsWord ∧ endState entry.2 = .code := by
    decide +kernel
  have run : resolve quotedDocument commentedFragments =
      .ok quotedResolved := by
    decide +kernel
  exact ⟨sound, run, literals_and_comments_survive.1 _ _ _ sound run,
    literals_and_comments_survive.2 quotedDocument "F".toList
      "b ...G".toList (by decide) (by decide)⟩

end Fragment

end QueryAssembly
