import Mathlib.Data.List.Induction
import QueryAssembly.Registry

namespace QueryAssembly

/-! Registries into which entries are put one after another. The keys stand in
the order in which they are first given, and each has the value it is given
last. -/

namespace Registry

theorem eraseDups_concat {α : Type} [BEq α] [LawfulBEq α]
    (keys : List α) (key : α) :
    (keys ++ [key]).eraseDups =
      if key ∈ keys.eraseDups then keys.eraseDups
      else keys.eraseDups ++ [key] := by
  rw [List.eraseDups_append]
  by_cases present : key ∈ keys
  · have none : [key].removeAll keys = [] := by
      simpa [List.removeAll] using present
    rw [if_pos (List.mem_eraseDups.mpr present), none, List.eraseDups_nil,
      List.append_nil]
  · have alone : [key].removeAll keys = [key] := by
      simpa [List.removeAll] using present
    rw [if_neg (mt List.mem_eraseDups.mp present), alone]
    rfl

section Last

variable {α : Type}

theorem insertAll_append (registry : Registry α) (entries added : List (Text × α)) :
    registry.insertAll (entries ++ added) =
      (registry.insertAll entries).insertAll added :=
  List.foldl_append

theorem ofList_concat (entries : List (Text × α)) (entry : Text × α) :
    ofList (entries ++ [entry]) = (ofList entries).insert entry.1 entry.2 :=
  insertAll_append empty entries [entry]

theorem get?_ofList (entries : List (Text × α)) (key : Text) :
    (ofList entries).get? key = entries.reverse.lookup key := by
  induction entries using List.reverseRecOn with
  | nil => rfl
  | append_singleton entries entry induction =>
      rw [ofList_concat, get?_insert, induction, List.reverse_append,
        List.reverse_singleton, List.singleton_append, List.lookup_cons]
      by_cases same : key = entry.1
      · simp [same]
      · simp [same, beq_eq_false_iff_ne.mpr same]

theorem keys_ofList (entries : List (Text × α)) :
    (ofList entries).keys = (entries.map Prod.fst).eraseDups := by
  induction entries using List.reverseRecOn with
  | nil => rfl
  | append_singleton entries entry induction =>
      rw [ofList_concat, keys_insert, induction, List.map_append,
        List.map_singleton, eraseDups_concat]

end Last

/-- What a registry holds when entries are given one after another. -/
structure Holds {α : Type} (registry : Registry α)
    (given : List (Text × α)) : Prop where
  keys : registry.keys = (given.map Prod.fst).eraseDups
  values : ∀ key, registry.get? key = given.reverse.lookup key

theorem holds_ofList {α : Type} (given : List (Text × α)) :
    (ofList given).Holds given :=
  ⟨keys_ofList given, get?_ofList given⟩

end Registry

end QueryAssembly
