import QueryAssembly.Proofs.Fragment.Cycle

namespace QueryAssembly

/-! The texts that resolution ends with are those in which nothing is left to
replace. A pass makes no replacement exactly on such a text, whatever the bodies
are, and so resolving it once more changes nothing. -/

namespace Fragment

/-- Whether a text has no spread of a name in code. A longer name that begins
with this one is another name. -/
def Lacks (text name : Text) : Prop :=
  ∀ before after, text = before ++ (spread name ++ after) →
    stateAt text before.bytes = .code → after.continuesName

/-- Whether a text has no spread of a registered fragment in code. Fragments
without a name have no spreads. -/
def Reduced (fragments : FragmentRegistry) (text : Text) : Prop :=
  ∀ name ∈ fragments.keys, name ≠ [] → Lacks text name

def Spelled (name : Text) : Prop := ∀ char ∈ name, Text.isNameContinue char

instance (name : Text) : Decidable (Spelled name) := List.decidableBAll _ name

section Passes

variable {name document resolved : Text} {fragments : FragmentRegistry}

theorem lacks_iff (word : name.IsWord) (text : Text) :
    Lacks text name ↔ .spread name ∉ piecesOf (only name) text := by
  constructor
  · intro lacks member
    rcases List.append_of_mem member with ⟨before, after, pieces_eq⟩
    rcases cut_eq_append_spread pieces_eq with ⟨text_eq, code, _, stops⟩
    have continues := lacks _ _ text_eq (by rwa [text_eq, stateAt_append])
    rw [stops] at continues
    cases continues
  · intro absent before after text_eq code
    rw [text_eq, stateAt_append] at code
    by_contra stops
    exact absent (mem_cut (only_eq_true_iff.mpr rfl) word text_eq code
      (Bool.not_eq_true _ ▸ stops))

theorem replaceFragment_settled_iff {entry : Text × Text}
    (spelled : Spelled entry.1) (document : Text) (count : Nat) :
    ∃ next added, replaceFragment (document, count) entry =
        .ok (next, count + added) ∧
      (added = 0 ↔ (entry.1 ≠ [] → Lacks document entry.1)) ∧
      (added = 0 → next = document) := by
  by_cases empty : entry.1 = []
  · have kept : replaceSpreads document entry.1 entry.2 = .ok none := by
      rw [replaceSpreads, empty]
      rfl
    refine ⟨document, 0, ?_, by simp [empty], fun _ => rfl⟩
    rw [replaceFragment, kept]
    rfl
  · have word : entry.1.IsWord := ⟨empty, spelled⟩
    have absent_iff := lacks_iff word document
    rw [← List.count_eq_zero] at absent_iff
    refine ⟨_, _, replaceFragment_text (only_eq_true_iff.mpr rfl) word document
      count entry.2, by rw [absent_iff, forall_prop_of_true empty], ?_⟩
    intro none
    exact flatMap_fill_replacing_of_not_mem (List.count_eq_zero.mp none) entry.2

theorem foldlM_settled_iff {entries : List (Text × Text)}
    (spelled : ∀ entry ∈ entries, Spelled entry.1) (document : Text)
    (count : Nat) :
    ∃ next total, entries.foldlM replaceFragment (document, count) =
        .ok (next, total) ∧
      (total = 0 ↔ count = 0 ∧
        ∀ entry ∈ entries, entry.1 ≠ [] → Lacks document entry.1) ∧
      (total = 0 → next = document) := by
  induction entries generalizing document count with
  | nil => exact ⟨document, count, rfl, by simp, fun _ => rfl⟩
  | cons entry entries induction =>
      rw [List.forall_mem_cons] at spelled
      rcases replaceFragment_settled_iff spelled.1 document count with
        ⟨middle, added, run, added_iff, middle_eq⟩
      rcases induction spelled.2 middle (count + added) with
        ⟨next, total, later, total_iff, next_eq⟩
      refine ⟨next, total, ?_, ?_, fun none => ?_⟩
      · rw [List.foldlM_cons, run]
        exact later
      · rw [total_iff, Nat.add_eq_zero_iff, added_iff, List.forall_mem_cons,
          and_assoc]
        refine and_congr_right fun _ => and_congr_right fun lacks => ?_
        rw [middle_eq (added_iff.mpr lacks)]
      · have kept := (Nat.add_eq_zero_iff.mp (total_iff.mp none).1).2
        exact (next_eq none).trans (middle_eq kept)

theorem pass_settled_iff (spelled : ∀ name ∈ fragments.keys, Spelled name)
    (document : Text) :
    ∃ next replacements, pass fragments document = .ok (next, replacements) ∧
      (replacements = 0 ↔ Reduced fragments document) ∧
      (replacements = 0 → next = document) := by
  have entrySpelled : ∀ entry ∈ fragments.entries, Spelled entry.1 :=
    fun entry member => spelled entry.1 (List.mem_map_of_mem member)
  rcases foldlM_settled_iff entrySpelled document 0 with
    ⟨next, total, run, total_iff, next_eq⟩
  refine ⟨next, total, run, total_iff.trans ?_, next_eq⟩
  rw [Reduced, Registry.keys, List.forall_mem_map, and_iff_right rfl]

theorem reduced_of_repeatPasses
    (spelled : ∀ name ∈ fragments.keys, Spelled name) {remaining : Nat}
    (run : repeatPasses fragments remaining document = .ok (.settled resolved)) :
    Reduced fragments resolved := by
  induction remaining generalizing document with
  | zero => cases run
  | succ remaining induction =>
      rcases pass_settled_iff spelled document with
        ⟨next, replacements, passed, none_iff, next_eq⟩
      simp only [repeatPasses, passed, ok_bind] at run
      by_cases none : replacements = 0
      · rw [if_pos none, next_eq none] at run
        cases run
        exact none_iff.mp none
      · rw [if_neg none] at run
        exact induction run

theorem resolve_of_reduced (spelled : ∀ name ∈ fragments.keys, Spelled name)
    (reduced : Reduced fragments document) :
    resolve document fragments = .ok document := by
  rcases pass_settled_iff spelled document with
    ⟨next, replacements, passed, none_iff, next_eq⟩
  have none := none_iff.mpr reduced
  have settled : repeatPasses fragments passLimit document =
      .ok (.settled document) := by
    simp only [passLimit, repeatPasses, passed, ok_bind, if_pos none,
      next_eq none]
    rfl
  rw [resolve, settled]
  split <;> rfl

theorem reduced_of_resolve (spelled : ∀ name ∈ fragments.keys, Spelled name)
    (run : resolve document fragments = .ok resolved) :
    Reduced fragments resolved := by
  rw [resolve] at run
  split at run
  · next empty =>
    intro name member
    rw [Registry.keys, List.isEmpty_iff.mp empty] at member
    cases member
  · split at run
    · cases run
    · next reached settled =>
      cases run
      exact reduced_of_repeatPasses spelled settled
    · split at run <;> cases run

end Passes

/-- What a document resolves to has nothing left to replace and resolves to
itself, and documents that have nothing to replace are left as they are. -/
theorem resolve_fixed (fragments : FragmentRegistry)
    (spelled : ∀ name ∈ fragments.keys, Spelled name) :
    (∀ document resolved, resolve document fragments = .ok resolved →
        Reduced fragments resolved ∧
          resolve resolved fragments = .ok resolved) ∧
      ∀ document, Reduced fragments document →
        resolve document fragments = .ok document := by
  refine ⟨fun document resolved run => ?_, fun _ => resolve_of_reduced spelled⟩
  have reduced := reduced_of_resolve spelled run
  exact ⟨reduced, resolve_of_reduced spelled reduced⟩

/-! One body forms a spread with the text behind it, one leaves a literal open,
one calls itself and is not used, and one fragment has no name. -/

def looseFragments : FragmentRegistry :=
  Registry.ofList [("G".toList, "c".toList), ("F".toList, "b..".toList),
    ("7".toList, "\x7b \"".toList), ("Loop".toList, "...Loop".toList),
    ([], "none".toList)]

def looseDocument : Text := "a...F.G ...GG ... ...7 ...Loop".toList

def looseResolved : Text := "abc ...GG ... \x7b \" ...Loop".toList

theorem resolve_fixed_loose :
    (∀ name ∈ looseFragments.keys, Spelled name) ∧
      resolve looseDocument looseFragments = .ok looseResolved ∧
      Reduced looseFragments looseResolved ∧
      resolve looseResolved looseFragments = .ok looseResolved := by
  have spelled : ∀ name ∈ looseFragments.keys, Spelled name := by
    decide +kernel
  have run : resolve looseDocument looseFragments = .ok looseResolved := by
    decide +kernel
  exact ⟨spelled, run, (resolve_fixed looseFragments spelled).1 _ _ run⟩

end Fragment

end QueryAssembly
