import Mathlib.Data.List.Forall2
import Mathlib.Logic.Function.Iterate
import QueryAssembly.Proofs.Fragment.Opacity

namespace QueryAssembly

/-! Where the characters of a resolved text come from. A trace follows the document
through the passes of a resolution: each splice takes the characters of a spread
out and puts those of a body in, and all others keep the state that they had in
the document. A trace is faithful when that is still the state they are read in. -/

namespace Fragment

/-- A character and, when it is one of the document, the state it had there. -/
abbrev Traced := Char × Option LexicalState

abbrev Trace := List Traced

namespace Trace

def text (trace : Trace) : Text := trace.map Prod.fst

def ofDocument (document : Text) : Trace :=
  (labelsOf document).map fun label => (label.1, some label.2)

def ofBody (body : Text) : Trace := body.map fun char => (char, none)

def along (body : Text) : List Piece → Trace → Trace
  | [], _ => []
  | .kept _ _ :: pieces, trace => trace.take 1 ++ along body pieces (trace.drop 1)
  | .spread name :: pieces, trace =>
      ofBody body ++ along body pieces (trace.drop (spread name).length)

def replace (trace : Trace) (fragment : Text × Text) : Trace :=
  along fragment.2 (piecesOf (only fragment.1) trace.text) trace

def pass (fragments : FragmentRegistry) (trace : Trace) : Trace :=
  fragments.entries.foldl replace trace

def afterPasses (fragments : FragmentRegistry) (document : Text) (count : Nat) :
    Trace :=
  Nat.iterate (pass fragments) count (ofDocument document)

/-- Whether a traced character is read in the state it had in the document. -/
def Agrees (traced : Traced) (label : Label) : Prop :=
  traced.1 = label.1 ∧ ∀ state ∈ traced.2, state = label.2

instance : DecidableRel Agrees := fun traced label =>
  inferInstanceAs (Decidable (traced.1 = label.1 ∧
    ∀ state ∈ traced.2, state = label.2))

def Faithful (trace : Trace) : Prop :=
  List.Forall₂ Agrees trace (labelsOf trace.text)

instance (trace : Trace) : Decidable trace.Faithful :=
  inferInstanceAs (Decidable (List.Forall₂ Agrees trace (labelsOf trace.text)))

theorem text_eq_of_agrees {trace : Trace} {labels : List Label}
    (agrees : List.Forall₂ Agrees trace labels) :
    trace.text = labels.map Prod.fst := by
  induction agrees with
  | nil => rfl
  | cons agree _ induction =>
      rw [List.map_cons, ← induction, ← agree.1]
      rfl

@[simp] theorem text_ofDocument (document : Text) :
    (ofDocument document).text = document := by
  rw [text, ofDocument, List.map_map]
  exact map_fst_labelsOf document

theorem faithful_ofDocument (document : Text) : (ofDocument document).Faithful := by
  rw [Faithful, text_ofDocument, ofDocument, List.forall₂_map_left_iff,
    List.forall₂_same]
  exact fun label _ => ⟨rfl, fun state member => (Option.some.inj member).symm⟩

theorem agrees_ofBody (body : Text) :
    List.Forall₂ Agrees (ofBody body) (labelsOf body) := by
  have all : ∀ position,
      List.Forall₂ Agrees (ofBody body) (labelsFrom position body) := by
    intro position
    induction body generalizing position with
    | nil => exact .nil
    | cons char rest induction => exact .cons ⟨rfl, nofun⟩ (induction _)
  exact all .start

theorem agrees_along (body : Text) {pieces : List Piece} {trace : Trace}
    (agrees : List.Forall₂ Agrees trace
      (pieces.flatMap (Piece.labels spread))) :
    List.Forall₂ Agrees (along body pieces trace)
      (pieces.flatMap (Piece.labels fun _ => body)) := by
  induction pieces generalizing trace with
  | nil => exact .nil
  | cons piece pieces induction =>
      rw [List.flatMap_cons] at agrees
      cases piece with
      | kept char state =>
          rcases agrees with _ | ⟨here, later⟩
          exact .cons here (induction later)
      | spread name =>
          have later := List.forall₂_drop (labelsOf (spread name)).length agrees
          rw [Piece.labels, List.drop_left, length_labelsOf] at later
          rw [List.flatMap_cons]
          exact List.rel_append (agrees_ofBody body) (induction later)

section Replacement

variable {trace : Trace} {fragment : Text × Text}

theorem replaceFragment_text (word : fragment.1.IsWord)
    (closed : endState fragment.2 = .code) (faithful : trace.Faithful)
    (count : Nat) :
    (trace.replace fragment).Faithful ∧ ∃ total,
      replaceFragment (trace.text, count) fragment =
        .ok ((trace.replace fragment).text, total) := by
  rcases labelsOf_replaceSpreads word closed trace.text with
    ⟨outcome, run, labels_eq⟩
  have agrees := faithful
  rw [Faithful, labelsOf_eq_flatMap (only fragment.1)] at agrees
  have after : List.Forall₂ Agrees (trace.replace fragment) _ :=
    agrees_along fragment.2 agrees
  have text_eq := text_eq_of_agrees after
  rw [← labels_eq, map_fst_labelsOf] at text_eq
  refine ⟨?_, ?_⟩
  · rwa [Faithful, text_eq, labels_eq]
  · rw [replaceFragment, run, text_eq]
    cases outcome with
    | none => exact ⟨count, rfl⟩
    | some replacement => exact ⟨_, rfl⟩

end Replacement

section Passes

variable {fragments : FragmentRegistry} {trace : Trace} {document : Text}

def Sound (entries : List (Text × Text)) : Prop :=
  ∀ entry ∈ entries, entry.1.IsWord ∧ endState entry.2 = .code

theorem foldlM_replaceFragment {entries : List (Text × Text)}
    (sound : Sound entries) (faithful : trace.Faithful) (count : Nat) :
    (entries.foldl replace trace).Faithful ∧ ∃ total,
      entries.foldlM replaceFragment (trace.text, count) =
        .ok ((entries.foldl replace trace).text, total) := by
  induction entries generalizing trace count with
  | nil => exact ⟨faithful, count, rfl⟩
  | cons entry entries induction =>
      rw [Sound, List.forall_mem_cons] at sound
      rcases replaceFragment_text sound.1.1 sound.1.2 faithful count with
        ⟨next, middle, run⟩
      rcases induction sound.2 next middle with ⟨last, total, rest⟩
      rw [List.foldlM_cons, run]
      exact ⟨last, total, rest⟩

theorem faithful_iterate (sound : Sound fragments.entries)
    (faithful : trace.Faithful) (count : Nat) :
    (Nat.iterate (pass fragments) count trace).Faithful := by
  induction count generalizing trace with
  | zero => exact faithful
  | succ count induction =>
      exact induction (foldlM_replaceFragment sound faithful 0).1

theorem repeatPasses_text (sound : Sound fragments.entries)
    (faithful : trace.Faithful) {remaining : Nat} {resolved : Text}
    (run : repeatPasses fragments remaining trace.text =
      .ok (.settled resolved)) :
    ∃ count ≤ remaining,
      (Nat.iterate (pass fragments) count trace).text = resolved := by
  induction remaining generalizing trace with
  | zero => cases run
  | succ remaining induction =>
      rcases foldlM_replaceFragment sound faithful 0 with ⟨next, total, passed⟩
      have first : Fragment.pass fragments trace.text =
          .ok ((pass fragments trace).text, total) := passed
      rw [repeatPasses, first, ok_bind] at run
      by_cases done : total = 0
      · simp only [done, if_true] at run
        cases run
        exact ⟨1, Nat.le_add_left 1 remaining, rfl⟩
      · simp only [done, if_false] at run
        rcases induction next run with ⟨count, bound, text_eq⟩
        exact ⟨count + 1, Nat.succ_le_succ bound, text_eq⟩

end Passes

end Trace

/-- Whether a resolution keeps the state of every character of the document that
no splice takes out: the resolved text is what the trace of the document comes to
within the limit, and every trace on the way is faithful. -/
def KeepsStates (fragments : FragmentRegistry) (document resolved : Text) : Prop :=
  (∃ count ≤ passLimit,
    (Trace.afterPasses fragments document count).text = resolved) ∧
  ∀ count, (Trace.afterPasses fragments document count).Faithful

theorem keepsStates_of_resolve {fragments : FragmentRegistry}
    {document resolved : Text} (sound : Trace.Sound fragments.entries)
    (run : resolve document fragments = .ok resolved) :
    KeepsStates fragments document resolved := by
  have start := Trace.faithful_ofDocument document
  refine ⟨?_, Trace.faithful_iterate sound start⟩
  unfold resolve at run
  split at run
  · cases run
    exact ⟨0, Nat.zero_le _, Trace.text_ofDocument document⟩
  · split at run
    · cases run
    · next settled =>
      cases run
      rw [← Trace.text_ofDocument document] at settled
      exact Trace.repeatPasses_text sound start settled
    · split at run <;> cases run

end Fragment

end QueryAssembly
