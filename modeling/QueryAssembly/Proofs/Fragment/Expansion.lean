import QueryAssembly.Proofs.Fragment.Nesting

namespace QueryAssembly

/-! Resolution computes the full expansion. A replacement may splice in a spread
that its own pass replaces next or only a later pass, but none changes what the
document expands to, and a whole pass makes the deepest nesting shallower. -/

namespace Fragment

/-- What pieces expand to when every spread stands for the expansion of its
body. -/
inductive Expands (bodies : Text → Option Text) : List Piece → Text → Prop
  | nil : Expands bodies [] []
  | kept {char : Char} {state : LexicalState} {rest : List Piece}
      {expanded : Text} :
      Expands bodies rest expanded →
      Expands bodies (.kept char state :: rest) (char :: expanded)
  | spread {name body inner expanded : Text} {rest : List Piece} :
      bodies name = some body →
      Expands bodies (knownPieces bodies body) inner →
      Expands bodies rest expanded →
      Expands bodies (.spread name :: rest) (inner ++ expanded)

section Expanding

variable {bodies : Text → Option Text} {name body resolved : Text}
  {pieces : List Piece}

namespace Expands

theorem append {left right : List Piece} {first second : Text}
    (front : Expands bodies left first) (back : Expands bodies right second) :
    Expands bodies (left ++ right) (first ++ second) := by
  induction front with
  | nil => exact back
  | kept _ induction => exact .kept induction
  | spread found inner _ _ induction =>
      rw [List.append_assoc]
      exact .spread found inner induction

theorem splice (expands : Expands bodies pieces resolved)
    (found : bodies name = some body) :
    Expands bodies
      (pieces.flatMap (Piece.splice name (knownPieces bodies body)))
      resolved := by
  induction expands with
  | nil => exact .nil
  | kept _ induction => exact .kept induction
  | @spread other otherBody _ _ _ otherFound inner _ _ induction =>
      rw [List.flatMap_cons, Piece.splice]
      split
      · next same =>
        subst same
        rw [found, Option.some.injEq] at otherFound
        subst otherFound
        exact inner.append induction
      · exact .spread otherFound inner induction

theorem unique {other : Text} (expands : Expands bodies pieces resolved)
    (otherExpands : Expands bodies pieces other) : resolved = other := by
  induction expands generalizing other with
  | nil =>
      cases otherExpands
      rfl
  | kept _ induction =>
      cases otherExpands with
      | kept rest => rw [induction rest]
  | spread found _ _ inner induction =>
      cases otherExpands with
      | spread otherFound otherInner rest =>
          rw [found, Option.some.injEq] at otherFound
          subst otherFound
          rw [inner otherInner, induction rest]

theorem eq_of_no_spread (expands : Expands bodies pieces resolved)
    (absent : ∀ name, .spread name ∉ pieces) :
    resolved = pieces.flatMap (Piece.fill Fragment.spread) := by
  induction expands with
  | nil => rfl
  | kept _ induction =>
      have rest := induction fun name member =>
        absent name (List.mem_cons_of_mem _ member)
      rw [rest]
      rfl
  | spread => exact absurd List.mem_cons_self (absent _)

end Expands

theorem exists_expands
    (inner : ∀ name, .spread name ∈ pieces → ∃ body expanded,
      bodies name = some body ∧
        Expands bodies (knownPieces bodies body) expanded) :
    ∃ resolved, Expands bodies pieces resolved := by
  induction pieces with
  | nil => exact ⟨_, .nil⟩
  | cons piece rest induction =>
      rcases induction
          (fun name member => inner name (List.mem_cons_of_mem _ member)) with
        ⟨expanded, expands⟩
      cases piece with
      | kept char state => exact ⟨_, .kept expands⟩
      | spread name =>
          rcases inner name List.mem_cons_self with
            ⟨body, expandedBody, found, bodyExpands⟩
          exact ⟨_, .spread found bodyExpands expands⟩

theorem Within.exists_expands {depth : Nat} (known : isKnown bodies name)
    (within : Within bodies depth name) :
    ∃ body expanded, bodies name = some body ∧
      Expands bodies (knownPieces bodies body) expanded := by
  induction depth generalizing name with
  | zero => exact within.elim
  | succ depth induction =>
      rcases Option.isSome_iff_exists.mp known with ⟨body, found⟩
      have inner : ∀ name, .spread name ∈ knownPieces bodies body →
          ∃ text expanded, bodies name = some text ∧
            Expands bodies (knownPieces bodies text) expanded :=
        fun name member =>
          induction (of_mem_cut member).1 (within body found name member)
      rcases Fragment.exists_expands inner with ⟨expanded, expands⟩
      exact ⟨body, expanded, found, expands⟩

end Expanding

/-! What a pass leaves to be expanded, and how deep that still nests. -/

section Passes

variable {bodies : Text → Option Text} {document resolved : Text}

structure Spliceable (bodies : Text → Option Text) (entry : Text × Text) :
    Prop where
  found : bodies entry.1 = some entry.2
  word : entry.1.IsWord
  closed : endState entry.2 = .code
  spaced : Spaced (knownPieces bodies entry.2)

theorem Spliceable.known {entry : Text × Text}
    (spliceable : Spliceable bodies entry) : isKnown bodies entry.1 :=
  Option.isSome_iff_exists.mpr ⟨entry.2, spliceable.found⟩

theorem replaceFragment_eq {entry : Text × Text}
    (spliceable : Spliceable bodies entry)
    (spaced : Spaced (knownPieces bodies document)) (count : Nat) :
    ∃ next, replaceFragment (document, count) entry =
        .ok (next,
          count + (knownPieces bodies document).count (.spread entry.1)) ∧
      knownPieces bodies next = (knownPieces bodies document).flatMap
        (Piece.splice entry.1 (knownPieces bodies entry.2)) ∧
      (.spread entry.1 ∉ knownPieces bodies document → next = document) := by
  refine ⟨_, replaceFragment_text spliceable.known spliceable.word document
    count entry.2, ?_, ?_⟩
  · exact cut_fill_replacing spliceable.closed .start .start document (.refl _)
      spaced
  · intro absent
    exact flatMap_fill_replacing_of_not_mem absent entry.2

/-- What holds of a document between two replacements: its spreads stand apart
and it still expands to the text it is to become. -/
structure Pending (bodies : Text → Option Text) (resolved document : Text) :
    Prop where
  spaced : Spaced (knownPieces bodies document)
  expands : Expands bodies (knownPieces bodies document) resolved

theorem Pending.eq_of_no_spread (pending : Pending bodies resolved document)
    (absent : ∀ name, .spread name ∉ knownPieces bodies document) :
    resolved = document :=
  (pending.expands.eq_of_no_spread absent).trans
    (flatMap_fill_cut _ .start document)

/-- The spreads that a pass has yet to come to may nest one level deeper than
the others. -/
def PassDepth (bodies : Text → Option Text) (depth : Nat)
    (ahead : List (Text × Text)) (document : Text) : Prop :=
  ∀ name, .spread name ∈ knownPieces bodies document →
    Within bodies (depth + 1) name ∧
      (name ∈ ahead.map Prod.fst ∨ Within bodies depth name)

theorem passDepth_splice {depth : Nat} {entry : Text × Text}
    {ahead : List (Text × Text)} {next : Text}
    (spliceable : Spliceable bodies entry)
    (spliced : knownPieces bodies next = (knownPieces bodies document).flatMap
      (Piece.splice entry.1 (knownPieces bodies entry.2)))
    (deep : PassDepth bodies depth (entry :: ahead) document) :
    PassDepth bodies depth ahead next := by
  intro name member
  rw [spliced, List.mem_flatMap] at member
  rcases member with ⟨piece, pieceMember, member⟩
  cases piece with
  | kept char state => simp [Piece.splice] at member
  | spread other =>
      rcases deep other pieceMember with ⟨within, place⟩
      rw [Piece.splice] at member
      split at member
      · next same =>
        subst same
        have shallow := within entry.2 spliceable.found name member
        exact ⟨shallow.succ, .inr shallow⟩
      · next different =>
        rw [List.mem_singleton, Piece.spread.injEq] at member
        subst member
        simp only [List.map_cons, List.mem_cons, different, false_or] at place
        exact ⟨within, place⟩

theorem foldlM_replaceFragment (holds : List (Text × Text) → Text → Prop)
    (kept : ∀ entry ahead document next, Spliceable bodies entry →
      knownPieces bodies next = (knownPieces bodies document).flatMap
        (Piece.splice entry.1 (knownPieces bodies entry.2)) →
      holds (entry :: ahead) document → holds ahead next)
    {ahead : List (Text × Text)}
    (spliceable : ∀ entry ∈ ahead, Spliceable bodies entry)
    (spaced : Spaced (knownPieces bodies document))
    (before : holds ahead document) (count : Nat) :
    ∃ next total, ahead.foldlM replaceFragment (document, count) =
        .ok (next, total) ∧
      Spaced (knownPieces bodies next) ∧ holds [] next ∧
      (total = 0 ↔ count = 0 ∧
        ∀ entry ∈ ahead, .spread entry.1 ∉ knownPieces bodies document) ∧
      (total = 0 → next = document) := by
  induction ahead generalizing document count with
  | nil => exact ⟨document, count, rfl, spaced, before, by simp, fun _ => rfl⟩
  | cons entry ahead induction =>
      rw [List.forall_mem_cons] at spliceable
      rcases spliceable with ⟨found, rest⟩
      rcases replaceFragment_eq found spaced count with
        ⟨middle, run, spliced, unchanged⟩
      have spaced' : Spaced (knownPieces bodies middle) := by
        rw [spliced]
        exact spaced_splice found.spaced spaced
      rcases induction rest spaced'
          (kept entry ahead document middle found spliced before) _ with
        ⟨next, total, later, nextSpaced, after, total_iff, same⟩
      have whole : (entry :: ahead).foldlM replaceFragment (document, count) =
          .ok (next, total) := by
        rw [List.foldlM_cons, run]
        exact later
      refine ⟨next, total, whole, nextSpaced, after, ?_⟩
      rw [Nat.add_eq_zero_iff, List.count_eq_zero] at total_iff
      rw [List.forall_mem_cons]
      by_cases present : .spread entry.1 ∈ knownPieces bodies document
      · have positive : total ≠ 0 := fun zero =>
          (total_iff.mp zero).1.2 present
        exact ⟨by simp [present, positive], fun zero => absurd zero positive⟩
      · cases unchanged present
        refine ⟨total_iff.trans ?_, same⟩
        simp [present]

theorem repeatPasses_settles {depth remaining : Nat}
    {fragments : FragmentRegistry}
    (spliceable : ∀ entry ∈ fragments.entries, Spliceable bodies entry)
    (registered : ∀ name, isKnown bodies name → name ∈ fragments.keys)
    (enough : depth < remaining) (pending : Pending bodies resolved document)
    (within : ∀ name, .spread name ∈ knownPieces bodies document →
      Within bodies depth name) :
    repeatPasses fragments remaining document = .ok (.settled resolved) := by
  induction remaining generalizing depth document with
  | zero => cases enough
  | succ remaining induction =>
      -- At the start of a pass every fragment is still ahead of it.
      have deep : PassDepth bodies (depth - 1) fragments.entries document := by
        intro name member
        have isRegistered := registered name (of_mem_cut member).1
        have inDepth := within name member
        cases depth with
        | zero => exact inDepth.elim
        | succ depth => exact ⟨inDepth, .inl isRegistered⟩
      rcases foldlM_replaceFragment
          (fun ahead document =>
            Expands bodies (knownPieces bodies document) resolved ∧
              PassDepth bodies (depth - 1) ahead document)
          (fun entry _ _ _ found spliced held =>
            ⟨spliced ▸ held.1.splice found.found,
              passDepth_splice found spliced held.2⟩)
          spliceable pending.spaced ⟨pending.expands, deep⟩ 0 with
        ⟨next, total, run, spaced, ⟨expands, shallow⟩, total_iff, same⟩
      have passed : pass fragments document = .ok (next, total) := run
      simp only [repeatPasses, passed, ok_bind]
      by_cases done : total = 0
      · have absent : ∀ name, .spread name ∉ knownPieces bodies document := by
          intro name member
          rcases List.mem_map.mp (registered name (of_mem_cut member).1) with
            ⟨entry, entryMember, name_eq⟩
          exact (total_iff.mp done).2 entry entryMember (name_eq ▸ member)
        rw [if_pos done, same done, pending.eq_of_no_spread absent]
        rfl
      · have positive : depth ≠ 0 := by
          rintro rfl
          exact done (total_iff.mpr ⟨rfl, fun entry _ => within entry.1⟩)
        -- The pass took one level of nesting away and used up one of the rest.
        rw [if_neg done]
        refine induction (by omega : depth - 1 < remaining) ⟨spaced, expands⟩ ?_
        intro name member
        exact (shallow name member).2.resolve_left List.not_mem_nil

end Passes

/-! Enough passes leave nothing to be expanded. -/

section Resolution

variable {bodies : Text → Option Text} {document resolved : Text}

theorem resolve_eq_of_within {depth : Nat} {fragments : FragmentRegistry}
    (spliceable : ∀ entry ∈ fragments.entries, Spliceable bodies entry)
    (registered : ∀ name, isKnown bodies name → name ∈ fragments.keys)
    (enough : depth < passLimit) (pending : Pending bodies resolved document)
    (within : ∀ name, .spread name ∈ knownPieces bodies document →
      Within bodies depth name) :
    resolve document fragments = .ok resolved := by
  have settled := repeatPasses_settles spliceable registered enough pending
    within
  rw [resolve]
  split
  · next isEmpty =>
    have unknown : ∀ name, .spread name ∉ knownPieces bodies document := by
      intro name member
      have isRegistered := registered name (of_mem_cut member).1
      rw [Registry.keys, List.isEmpty_iff.mp isEmpty] at isRegistered
      cases isRegistered
    rw [pending.eq_of_no_spread unknown]
  · rw [settled]

theorem spliceable_of_perm {fragments : FragmentRegistry}
    (sound : ∀ entry ∈ fragments.entries, entry.1.IsName ∧
      endState entry.2 = .code ∧ Bounded fragments.get? entry.2)
    {entries : List (Text × Text)} (perm : entries.Perm fragments.entries) :
    (∀ entry ∈ (Registry.ofList entries).entries,
        Spliceable fragments.get? entry) ∧
      ∀ name, isKnown fragments.get? name →
        name ∈ (Registry.ofList entries).keys := by
  have distinct : (entries.map Prod.fst).Nodup :=
    (perm.map Prod.fst).nodup_iff.mpr fragments.distinct
  have entries_eq := Registry.entries_ofList distinct
  constructor
  · intro entry member
    rw [entries_eq, perm.mem_iff] at member
    rcases sound entry member with ⟨name, closed, bodyBounded⟩
    exact ⟨Registry.get?_eq_some_iff.mpr member, name.isWord, closed,
      spaced_of_bounded bodyBounded⟩
  · intro name known
    rcases Option.isSome_iff_exists.mp known with ⟨body, found⟩
    have member := perm.mem_iff.mpr (Registry.get?_eq_some_iff.mp found)
    rw [Registry.keys, entries_eq]
    exact List.mem_map.mpr ⟨(name, body), member, rfl⟩

/-- Documents and fragments whose spreads are bounded and nest at most nine
deep resolve to their expansion, in whatever order the fragments are
registered. -/
theorem resolve_eq_expansion (document : Text) (fragments : FragmentRegistry)
    (sound : ∀ entry ∈ fragments.entries, entry.1.IsName ∧
      endState entry.2 = .code ∧ Bounded fragments.get? entry.2)
    (bounded : Bounded fragments.get? document)
    (shallow : ∀ names, Nesting fragments.get? document names →
      names.length ≤ 9) :
    ∃ resolved,
      Expands fragments.get? (knownPieces fragments.get? document) resolved ∧
        ∀ entries, entries.Perm fragments.entries →
          resolve document (Registry.ofList entries) = .ok resolved := by
  have within : ∀ name, .spread name ∈ knownPieces fragments.get? document →
      Within fragments.get? 9 name :=
    fun name member => within_of_nesting shallow member
  rcases exists_expands (fun name member =>
      (within name member).exists_expands (of_mem_cut member).1) with
    ⟨resolved, expands⟩
  refine ⟨resolved, expands, ?_⟩
  intro entries perm
  rcases spliceable_of_perm sound perm with ⟨spliceable, registered⟩
  exact resolve_eq_of_within spliceable registered (by decide)
    ⟨spaced_of_bounded bounded, expands⟩ within

def nestedDocument : Text := "\x7b a ...F # ...G\n ...G \x7d".toList

def nestedFragments : FragmentRegistry :=
  Registry.ofList [("F".toList, "b ...G".toList), ("G".toList, "c".toList)]

theorem resolve_eq_expansion_nested :
    (∀ entry ∈ nestedFragments.entries, entry.1.IsName ∧
        endState entry.2 = .code ∧ Bounded nestedFragments.get? entry.2) ∧
      Bounded nestedFragments.get? nestedDocument ∧
      (∀ names, Nesting nestedFragments.get? nestedDocument names →
        names.length ≤ 9) ∧
      ∃ resolved, Expands nestedFragments.get?
          (knownPieces nestedFragments.get? nestedDocument) resolved ∧
        ∀ entries, entries.Perm nestedFragments.entries →
          resolve nestedDocument (Registry.ofList entries) = .ok resolved := by
  have sound : ∀ entry ∈ nestedFragments.entries, entry.1.IsName ∧
      endState entry.2 = .code ∧ Bounded nestedFragments.get? entry.2 := by
    decide +kernel
  have bounded : Bounded nestedFragments.get? nestedDocument := by
    decide +kernel
  have within : nestsWithin nestedFragments.get? 9 nestedDocument := by
    decide +kernel
  have shallow : ∀ names, Nesting nestedFragments.get? nestedDocument names →
      names.length ≤ 9 :=
    fun _ nesting => nesting.length_le within
  exact ⟨sound, bounded, shallow,
    resolve_eq_expansion _ _ sound bounded shallow⟩

end Resolution

end Fragment

end QueryAssembly
