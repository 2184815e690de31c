import Mathlib.Logic.Relation
import QueryAssembly.Proofs.Fragment.Expansion
import QueryAssembly.Proofs.Fragment.Remaining

namespace QueryAssembly

/-! A cycle of fragments in reach of a document is never resolved. Some spread
always leads to it: replacing that spread leaves one a step closer, or one step
around the cycle. So every pass replaces something, and the names reported at
the limit include one that leads to the cycle. -/

namespace Fragment

/-! Which fragments spread which others. -/

def Spreads (bodies : Text → Option Text) (text name : Text) : Prop :=
  ∃ before after, SpreadAt bodies text before name after

def Leads (bodies : Text → Option Text) (name other : Text) : Prop :=
  ∃ body, bodies name = some body ∧ Spreads bodies body other

abbrev Reaches (bodies : Text → Option Text) : Text → Text → Prop :=
  Relation.ReflTransGen (Leads bodies)

/-- Whether spreads in bodies lead from a fragment back to it. -/
def OnCycle (bodies : Text → Option Text) (name : Text) : Prop :=
  Relation.TransGen (Leads bodies) name name

section Pieces

variable {chosen : Text → Bool} {name other before rest after : Text}

theorem mem_cut {position : Position} {text : Text} (isChosen : chosen name)
    (word : name.IsWord) (text_eq : text = before ++ (spread name ++ after))
    (code : (position.past before).state = .code)
    (stops : after.continuesName = false) :
    .spread name ∈ cut chosen position text := by
  induction position, text using cut_induction chosen generalizing before with
  | nil position => simp [spread] at text_eq
  | kept position char rest absent induction =>
      cases before with
      | nil =>
          have found : chosenSpread? chosen position.state (char :: rest) =
              some name :=
            chosenSpread?_eq_some_iff.mpr
              ⟨code, isChosen, word, after, text_eq, stops⟩
          rw [absent] at found
          cases found
      | cons first before =>
          rcases List.cons.inj text_eq with ⟨rfl, rest_eq⟩
          rw [cut_kept absent]
          exact List.mem_cons_of_mem _ (induction rest_eq code)
  | spread position other rest codeHere isChosenHere wordHere ends induction =>
      rw [cut_spread codeHere isChosenHere wordHere ends]
      by_cases first : before = []
      · subst first
        have names_eq : other ++ rest = name ++ after :=
          congrArg (List.drop 3) text_eq
        have run := Text.takeWhile_append_of_not_continues wordHere.2 ends
        rw [names_eq, Text.takeWhile_append_of_not_continues word.2 stops] at run
        rw [run]
        exact List.mem_cons_self
      · rcases spread_append_split wordHere first text_eq with
          ⟨between, rfl, rest_eq⟩
        rw [Position.past_append] at code
        exact List.mem_cons_of_mem _ (induction rest_eq code)

variable {bodies : Text → Option Text} {text : Text}

theorem Spreads.mem_piecesOf (spreads : Spreads bodies text name)
    (isChosen : chosen name) (word : name.IsWord) :
    .spread name ∈ piecesOf chosen text := by
  rcases spreads with ⟨before, after, text_eq, code, _, stops⟩
  rw [text_eq, stateAt_append] at code
  exact mem_cut isChosen word text_eq code stops

theorem spreads_of_mem (member : .spread name ∈ knownPieces bodies text) :
    Spreads bodies text name := by
  rcases List.append_of_mem member with ⟨before, after, pieces_eq⟩
  exact ⟨_, _, spreadAt_of_pieces pieces_eq⟩

theorem Spreads.known (spreads : Spreads bodies text name) :
    isKnown bodies name := by
  rcases spreads with ⟨_, _, spreadAt⟩
  exact spreadAt.known

end Pieces

/-! While a cycle can be reached, every pass finds something to replace. -/

section Cycles

variable {bodies : Text → Option Text} {cyclic document : Text}
  {fragments : FragmentRegistry}

/-- Whether some spread of a document leads to a fragment. -/
def Pursues (bodies : Text → Option Text) (cyclic document : Text) : Prop :=
  ∃ name, .spread name ∈ knownPieces bodies document ∧
    Reaches bodies name cyclic

theorem Reaches.exists_leads {name : Text} (reaches : Reaches bodies name cyclic)
    (loop : OnCycle bodies cyclic) :
    ∃ inner, Leads bodies name inner ∧ Reaches bodies inner cyclic := by
  rcases reaches.cases_head with rfl | found
  · exact Relation.TransGen.head'_iff.mp loop
  · exact found

theorem Pursues.splice {entry : Text × Text} {next : Text}
    (loop : OnCycle bodies cyclic)
    (words : ∀ name, isKnown bodies name → name.IsWord)
    (found : bodies entry.1 = some entry.2)
    (spliced : knownPieces bodies next = (knownPieces bodies document).flatMap
      (Piece.splice entry.1 (knownPieces bodies entry.2)))
    (pursues : Pursues bodies cyclic document) :
    Pursues bodies cyclic next := by
  rcases pursues with ⟨name, member, reaches⟩
  rw [Pursues, spliced]
  -- A spread that is replaced hands over to the next one towards the cycle.
  by_cases replaced : name = entry.1
  · rcases reaches.exists_leads loop with ⟨inner, ⟨body, held, spreads⟩, onward⟩
    rw [replaced, found, Option.some.injEq] at held
    subst held
    have inBody : .spread inner ∈ knownPieces bodies entry.2 :=
      spreads.mem_piecesOf spreads.known (words inner spreads.known)
    refine ⟨inner, List.mem_flatMap.mpr ⟨.spread name, member, ?_⟩, onward⟩
    rwa [Piece.splice, if_pos replaced]
  · refine ⟨name, List.mem_flatMap.mpr ⟨.spread name, member, ?_⟩, reaches⟩
    rw [Piece.splice, if_neg replaced]
    exact List.mem_singleton_self _

section Registered

variable (spliceable : ∀ entry ∈ fragments.entries, Spliceable bodies entry)
  (registered : ∀ name, isKnown bodies name → name ∈ fragments.keys)

include spliceable in
theorem isWord_of_mem_keys {name : Text} (member : name ∈ fragments.keys) :
    name.IsWord := by
  rcases List.mem_map.mp member with ⟨entry, entryMember, rfl⟩
  exact (spliceable entry entryMember).word

include spliceable registered

theorem repeatPasses_pursues (loop : OnCycle bodies cyclic)
    (spaced : Spaced (knownPieces bodies document))
    (pursues : Pursues bodies cyclic document) (remaining : Nat) :
    ∃ reached, repeatPasses fragments remaining document =
        .ok (.unsettled reached) ∧
      Pursues bodies cyclic reached := by
  have words : ∀ name, isKnown bodies name → name.IsWord := fun name known =>
    isWord_of_mem_keys spliceable (registered name known)
  induction remaining generalizing document with
  | zero => exact ⟨document, rfl, pursues⟩
  | succ remaining induction =>
      rcases foldlM_replaceFragment (fun _ => Pursues bodies cyclic)
          (fun _ _ _ _ here spliced held =>
            held.splice loop words here.found spliced)
          spliceable spaced pursues 0 with
        ⟨next, total, run, nextSpaced, nextPursues, total_iff, _⟩
      have passed : pass fragments document = .ok (next, total) := run
      -- Each pass meets the spread that leads to the cycle, so none is the last.
      have positive : total ≠ 0 := by
        intro none
        rcases pursues with ⟨name, member, _⟩
        rcases List.mem_map.mp (registered name (of_mem_cut member).1) with
          ⟨entry, entryMember, rfl⟩
        exact (total_iff.mp none).2 entry entryMember member
      simp only [repeatPasses, passed, ok_bind, if_neg positive]
      exact induction nextSpaced nextPursues

theorem resolve_eq_error_of_pursues (loop : OnCycle bodies cyclic)
    (spaced : Spaced (knownPieces bodies document))
    (pursues : Pursues bodies cyclic document) :
    ∃ unresolved, resolve document fragments =
        .error (.excessiveExpansion passLimit unresolved) ∧
      ∃ name ∈ unresolved, Reaches bodies name cyclic := by
  rcases repeatPasses_pursues spliceable registered loop spaced pursues
      passLimit with
    ⟨reached, run, name, member, reaches⟩
  have isRegistered := registered name (of_mem_cut member).1
  have nonempty : fragments.isEmpty = false := by
    rw [Registry.isEmpty, List.isEmpty_eq_false_iff]
    rintro none
    rw [Registry.keys, none] at isRegistered
    cases isRegistered
  have spread : .spread name ∈ piecesOf (only name) reached :=
    (spreads_of_mem member).mem_piecesOf (only_eq_true_iff.mpr rfl)
      (isWord_of_mem_keys spliceable isRegistered)
  have reported := remainingNames_eq
    (fun _ member => isWord_of_mem_keys spliceable member) reached
  refine ⟨fragments.keys.filter fun name =>
    .spread name ∈ piecesOf (only name) reached, ?_, name, ?_, reaches⟩
  · rw [resolve, nonempty, run]
    simp only [reported, Bool.false_eq_true, if_false]
  · exact List.mem_filter.mpr ⟨isRegistered, decide_eq_true spread⟩

end Registered

/-- Documents from which a cycle of fragments can be reached never resolve, in
whatever order the fragments are registered, and one of the names reported leads
to the cycle. -/
theorem resolve_eq_error_of_cycle (document : Text) (fragments : FragmentRegistry)
    (sound : ∀ entry ∈ fragments.entries, entry.1.IsName ∧
      endState entry.2 = .code ∧ Bounded fragments.get? entry.2)
    (bounded : Bounded fragments.get? document) {start cyclic : Text}
    (spreads : Spreads fragments.get? document start)
    (reaches : Reaches fragments.get? start cyclic)
    (loop : OnCycle fragments.get? cyclic) :
    ∀ entries, entries.Perm fragments.entries →
      ∃ unresolved, resolve document (Registry.ofList entries) =
          .error (.excessiveExpansion passLimit unresolved) ∧
        ∃ name ∈ unresolved, Reaches fragments.get? name cyclic := by
  intro entries perm
  rcases spliceable_of_perm sound perm with ⟨spliceable, registered⟩
  have word : start.IsWord :=
    isWord_of_mem_keys spliceable (registered start spreads.known)
  exact resolve_eq_error_of_pursues spliceable registered loop
    (spaced_of_bounded bounded)
    ⟨start, spreads.mem_piecesOf spreads.known word, reaches⟩

/-! Outside literals and comments the document spreads `A` alone, which leads
to a cycle that it is not part of. -/

def cyclicDocument : Text :=
  "\x7b a(s: \"...F\") ...A # ...G\n \x7d".toList

def cyclicFragments : FragmentRegistry :=
  Registry.ofList
    [("F".toList, "b \x7b ...G \x7d".toList), ("A".toList, "a ...F".toList),
      ("G".toList, "...F c".toList)]

theorem resolve_eq_error_of_cycle_nested :
    (∀ entry ∈ cyclicFragments.entries, entry.1.IsName ∧
        endState entry.2 = .code ∧ Bounded cyclicFragments.get? entry.2) ∧
      Bounded cyclicFragments.get? cyclicDocument ∧
      Spreads cyclicFragments.get? cyclicDocument "A".toList ∧
      Reaches cyclicFragments.get? "A".toList "F".toList ∧
      OnCycle cyclicFragments.get? "F".toList ∧
      ∀ entries, entries.Perm cyclicFragments.entries →
        ∃ unresolved, resolve cyclicDocument (Registry.ofList entries) =
            .error (.excessiveExpansion passLimit unresolved) ∧
          ∃ name ∈ unresolved,
            Reaches cyclicFragments.get? name "F".toList := by
  have sound : ∀ entry ∈ cyclicFragments.entries, entry.1.IsName ∧
      endState entry.2 = .code ∧ Bounded cyclicFragments.get? entry.2 := by
    decide +kernel
  have bounded : Bounded cyclicFragments.get? cyclicDocument := by
    decide +kernel
  have spreads : Spreads cyclicFragments.get? cyclicDocument "A".toList :=
    ⟨"\x7b a(s: \"...F\") ".toList, " # ...G\n \x7d".toList,
      by decide +kernel⟩
  have first : Leads cyclicFragments.get? "A".toList "F".toList :=
    ⟨_, rfl, "a ".toList, [], by decide +kernel⟩
  have second : Leads cyclicFragments.get? "F".toList "G".toList :=
    ⟨_, rfl, "b \x7b ".toList, " \x7d".toList, by decide +kernel⟩
  have third : Leads cyclicFragments.get? "G".toList "F".toList :=
    ⟨_, rfl, [], " c".toList, by decide +kernel⟩
  have reaches : Reaches cyclicFragments.get? "A".toList "F".toList :=
    .single first
  have loop : OnCycle cyclicFragments.get? "F".toList :=
    .head second (.single third)
  exact ⟨sound, bounded, spreads, reaches, loop,
    resolve_eq_error_of_cycle _ _ sound bounded spreads reaches loop⟩

end Cycles

end Fragment

end QueryAssembly
