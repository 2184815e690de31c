import QueryAssembly.Proofs.Field.Front
import QueryAssembly.Proofs.Fragment.Remaining
import QueryAssembly.Proofs.Fragment.Splice

namespace QueryAssembly

/-! Resolving fragments in a selection set does not depend on what stands in
front of it, as long as that ends in code and has no spread of its own. -/

namespace Fragment

/-- A front without spreads of the given fragments. -/
structure Unspread (entries : List (Text × Text)) (front : Text) : Prop where
  closed : endState front = .code
  absent : ∀ entry ∈ entries,
    .spread entry.1 ∉ piecesOf (only entry.1) front

variable {fragments : FragmentRegistry} {front back : Text}

theorem takeWhile_of_guarded (guarded : Guarded back) :
    back.takeWhile isSpreadChar = [] := by
  rcases guarded with ⟨rest, rfl⟩
  rfl

theorem piecesOf_append (chosen : Text → Bool)
    (closed : endState front = .code)
    (stops : back.takeWhile isSpreadChar = []) :
    piecesOf chosen (front ++ back) =
      piecesOf chosen front ++ piecesOf chosen back :=
  piecesOf_append_of_parted closed (.inl (clear_of_stops front stops))

theorem Unspread.append {entries : List (Text × Text)} {list : Text}
    (unspread : Unspread entries front) (listUnspread : Unspread entries list)
    (stops : list.takeWhile isSpreadChar = []) :
    Unspread entries (front ++ list) := by
  refine ⟨?_, fun entry member => ?_⟩
  · rw [endState_append unspread.closed, listUnspread.closed]
  · rw [piecesOf_append _ unspread.closed stops, List.mem_append, not_or]
    exact ⟨unspread.absent entry member, listUnspread.absent entry member⟩

theorem guarded_flatMap_fill (chosen : Text → Bool) (meaning : Text → Text)
    (guarded : Guarded back) :
    Guarded ((piecesOf chosen back).flatMap (Piece.fill meaning)) := by
  rcases guarded with ⟨rest, rfl⟩
  rw [piecesOf, cut_kept rfl, cut_kept rfl]
  exact ⟨_, rfl⟩

theorem replaceFragment_behind {entry : Text × Text} (word : entry.1.IsWord)
    (guarded : Guarded back) :
    ∃ next added, Guarded next ∧ ∀ front count,
      Unspread [entry] front →
      replaceFragment (front ++ back, count) entry =
        .ok (front ++ next, count + added) := by
  let chosen := only entry.1
  have isChosen : chosen entry.1 := only_eq_true_iff.mpr rfl
  refine ⟨_, (piecesOf chosen back).count (.spread entry.1),
    guarded_flatMap_fill chosen (replacing entry.1 entry.2) guarded, ?_⟩
  intro front count unspread
  have absent := unspread.absent entry List.mem_cons_self
  have kept : (piecesOf chosen front).flatMap
      (Piece.fill (replacing entry.1 entry.2)) = front :=
    flatMap_fill_replacing_of_not_mem absent entry.2
  have run := replaceFragment_text isChosen word (front ++ back) count entry.2
  rw [piecesOf_append chosen unspread.closed (takeWhile_of_guarded guarded),
    List.flatMap_append, kept, List.count_append,
    List.count_eq_zero.mpr absent, Nat.zero_add] at run
  exact run

theorem foldlM_behind {entries : List (Text × Text)}
    (words : ∀ entry ∈ entries, entry.1.IsWord) (guarded : Guarded back) :
    ∃ next added, Guarded next ∧ ∀ front count,
      Unspread entries front →
      entries.foldlM replaceFragment (front ++ back, count) =
        .ok (front ++ next, count + added) := by
  induction entries generalizing back with
  | nil => exact ⟨back, 0, guarded, fun _ _ _ => rfl⟩
  | cons entry entries induction =>
      rw [List.forall_mem_cons] at words
      rcases replaceFragment_behind words.1 guarded with
        ⟨middle, first, middleGuarded, run⟩
      rcases induction words.2 middleGuarded with
        ⟨next, added, nextGuarded, later⟩
      refine ⟨next, first + added, nextGuarded, ?_⟩
      intro front count unspread
      have here : Unspread [entry] front :=
        ⟨unspread.closed, fun other member => by
          rw [List.mem_singleton.mp member]
          exact unspread.absent entry List.mem_cons_self⟩
      have rest : Unspread entries front :=
        ⟨unspread.closed, fun other member =>
          unspread.absent other (List.mem_cons_of_mem _ member)⟩
      rw [List.foldlM_cons, run front count here, ok_bind,
        later front (count + first) rest, Nat.add_assoc]

def Outcome.text : Outcome → Text
  | .settled document => document
  | .unsettled document => document

def Outcome.behind (front : Text) : Outcome → Outcome
  | .settled document => .settled (front ++ document)
  | .unsettled document => .unsettled (front ++ document)

theorem repeatPasses_behind
    (words : ∀ entry ∈ fragments.entries, entry.1.IsWord) (remaining : Nat)
    (guarded : Guarded back) :
    ∃ outcome : Outcome, Guarded outcome.text ∧ ∀ front,
      Unspread fragments.entries front →
      repeatPasses fragments remaining (front ++ back) =
        .ok (outcome.behind front) := by
  induction remaining generalizing back with
  | zero => exact ⟨.unsettled back, guarded, fun _ _ => rfl⟩
  | succ remaining induction =>
      rcases foldlM_behind words guarded with ⟨next, added, nextGuarded, run⟩
      by_cases done : added = 0
      · refine ⟨.settled next, nextGuarded, fun front unspread => ?_⟩
        have passed : pass fragments (front ++ back) = .ok _ :=
          run front 0 unspread
        simp only [repeatPasses, passed, ok_bind, done, Nat.add_zero]
        rfl
      · rcases induction nextGuarded with ⟨outcome, outcomeGuarded, later⟩
        refine ⟨outcome, outcomeGuarded, fun front unspread => ?_⟩
        have passed : pass fragments (front ++ back) = .ok _ :=
          run front 0 unspread
        simp only [repeatPasses, passed, ok_bind, Nat.zero_add, if_neg done]
        exact later front unspread

theorem remainingNames_behind
    (words : ∀ name ∈ fragments.keys, name.IsWord) (guarded : Guarded back)
    (unspread : Unspread fragments.entries front) :
    remainingNames fragments (front ++ back) =
      remainingNames fragments back := by
  rw [remainingNames_eq words, remainingNames_eq words]
  refine congrArg Except.ok (List.filter_congr fun name member => ?_)
  rcases List.mem_map.mp member with ⟨entry, entryMember, rfl⟩
  have absent := unspread.absent entry entryMember
  rw [piecesOf_append _ unspread.closed (takeWhile_of_guarded guarded)]
  simp [absent]

theorem resolve_behind
    (words : ∀ entry ∈ fragments.entries, entry.1.IsWord)
    (guarded : Guarded back) :
    (∃ next, Guarded next ∧ ∀ front, Unspread fragments.entries front →
        resolve (front ++ back) fragments = .ok (front ++ next)) ∨
      ∃ cause, ∀ front, Unspread fragments.entries front →
        resolve (front ++ back) fragments = .error cause := by
  by_cases empty : fragments.isEmpty
  · exact .inl ⟨back, guarded, fun front _ => by rw [resolve, if_pos empty]⟩
  · have names : ∀ name ∈ fragments.keys, name.IsWord := by
      intro name member
      rcases List.mem_map.mp member with ⟨entry, entryMember, rfl⟩
      exact words entry entryMember
    rcases repeatPasses_behind words passLimit guarded with
      ⟨outcome, outcomeGuarded, run⟩
    cases outcome with
    | settled next =>
        refine .inl ⟨next, outcomeGuarded, fun front unspread => ?_⟩
        rw [resolve, if_neg empty, run front unspread]
        rfl
    | unsettled reached =>
        refine .inr ⟨.excessiveExpansion passLimit (fragments.keys.filter
          fun name => .spread name ∈ piecesOf (only name) reached), ?_⟩
        intro front unspread
        have remaining := remainingNames_behind names outcomeGuarded unspread
        have reached_eq : (Outcome.unsettled reached).text = reached := rfl
        rw [reached_eq, remainingNames_eq names reached] at remaining
        rw [resolve, if_neg empty, run front unspread]
        simp only [Outcome.behind, remaining]

end Fragment

end QueryAssembly
