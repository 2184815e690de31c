import QueryAssembly.Text.Basic

namespace QueryAssembly

/-! A registry holds one value for each of its keys, in the order in which the
keys were first inserted. Inserting a present key replaces its value in place. -/

/-- Put `value` under `key` in a list of entries, in place or at the end. -/
def putEntry {α : Type u} (key : Text) (value : α) :
    List (Text × α) → List (Text × α)
  | [] => [(key, value)]
  | (other, held) :: rest =>
      if other = key then (key, value) :: rest
      else (other, held) :: putEntry key value rest

theorem keys_putEntry {α : Type u} (key : Text) (value : α)
    (entries : List (Text × α)) :
    (putEntry key value entries).map Prod.fst =
      if key ∈ entries.map Prod.fst then entries.map Prod.fst
      else entries.map Prod.fst ++ [key] := by
  induction entries with
  | nil => simp [putEntry]
  | cons entry rest induction =>
      rcases entry with ⟨other, held⟩
      by_cases equal : other = key
      · simp [putEntry, equal]
      · have different : key ≠ other := fun same => equal same.symm
        simp only [putEntry, if_neg equal, List.map_cons, induction,
          List.mem_cons, different, false_or]
        split <;> rfl

theorem putEntry_of_not_mem {α : Type u} {key : Text}
    {entries : List (Text × α)} (absent : key ∉ entries.map Prod.fst)
    (value : α) : putEntry key value entries = entries ++ [(key, value)] := by
  induction entries with
  | nil => rfl
  | cons entry rest induction =>
      rcases entry with ⟨other, held⟩
      simp only [List.map_cons, List.mem_cons, not_or] at absent
      have different : other ≠ key := fun same => absent.1 same.symm
      simp [putEntry, different, induction absent.2]

theorem lookup_eq_some_iff_mem {α : Type u} {entries : List (Text × α)}
    (distinct : (entries.map Prod.fst).Nodup) {key : Text} {value : α} :
    entries.lookup key = some value ↔ (key, value) ∈ entries := by
  induction entries with
  | nil => simp
  | cons entry rest induction =>
      rcases entry with ⟨other, held⟩
      rw [List.map_cons, List.nodup_cons] at distinct
      by_cases same : key = other
      · subst same
        have absent : (key, value) ∉ rest := fun member =>
          distinct.1 (List.mem_map.mpr ⟨(key, value), member, rfl⟩)
        simp [absent, eq_comm]
      · simp [List.lookup_cons, beq_eq_false_iff_ne.mpr same, same,
          induction distinct.2]

structure Registry (α : Type u) where
  entries : List (Text × α)
  distinct : (entries.map Prod.fst).Nodup

namespace Registry

variable {α : Type u}

def empty : Registry α := ⟨[], by simp⟩

instance : EmptyCollection (Registry α) := ⟨empty⟩

instance : Inhabited (Registry α) := ⟨empty⟩

def keys (registry : Registry α) : List Text :=
  registry.entries.map Prod.fst

def values (registry : Registry α) : List α :=
  registry.entries.map Prod.snd

def size (registry : Registry α) : Nat :=
  registry.entries.length

def isEmpty (registry : Registry α) : Bool :=
  registry.entries.isEmpty

def get? (registry : Registry α) (key : Text) : Option α :=
  registry.entries.lookup key

def contains (registry : Registry α) (key : Text) : Bool :=
  registry.keys.contains key

def insert (registry : Registry α) (key : Text) (value : α) : Registry α where
  entries := putEntry key value registry.entries
  distinct := by
    rw [keys_putEntry]
    split
    · exact registry.distinct
    · next absent =>
      refine List.nodup_append.mpr ⟨registry.distinct, by simp, ?_⟩
      intro other member key' isKey
      simp only [List.mem_singleton] at isKey
      subst isKey
      exact fun equal => absent (equal ▸ member)

def insertAll (registry : Registry α) (entries : List (Text × α)) :
    Registry α :=
  entries.foldl (fun held entry => held.insert entry.1 entry.2) registry

def ofList (entries : List (Text × α)) : Registry α :=
  insertAll empty entries

theorem keys_insert (registry : Registry α) (key : Text) (value : α) :
    (registry.insert key value).keys =
      if key ∈ registry.keys then registry.keys else registry.keys ++ [key] :=
  keys_putEntry key value registry.entries

theorem get?_insert (registry : Registry α) (key other : Text) (value : α) :
    (registry.insert key value).get? other =
      if other = key then some value else registry.get? other := by
  rcases registry with ⟨entries, distinct⟩
  simp only [get?, insert]
  clear distinct
  induction entries with
  | nil =>
      by_cases equal : other = key
      · simp [putEntry, equal]
      · simp [putEntry, List.lookup_cons, equal, beq_eq_false_iff_ne.mpr equal]
  | cons entry rest induction =>
      rcases entry with ⟨first, held⟩
      by_cases same : first = key
      · subst same
        by_cases equal : other = first
        · simp [putEntry, equal]
        · simp [putEntry, List.lookup_cons, equal, beq_eq_false_iff_ne.mpr equal]
      · by_cases equal : other = first
        · subst equal
          simp [putEntry, same]
        · simp [putEntry, same, List.lookup_cons, induction,
            beq_eq_false_iff_ne.mpr equal]

theorem get?_eq_some_iff {registry : Registry α} {key : Text} {value : α} :
    registry.get? key = some value ↔ (key, value) ∈ registry.entries :=
  lookup_eq_some_iff_mem registry.distinct

theorem exists_of_mem_keys {registry : Registry α} {key : Text}
    (member : key ∈ registry.keys) : ∃ value, (key, value) ∈ registry.entries ∧
      registry.get? key = some value := by
  rcases List.mem_map.mp member with ⟨⟨_, value⟩, entryMember, rfl⟩
  exact ⟨value, entryMember, get?_eq_some_iff.mpr entryMember⟩

theorem insertAll_of_not_mem (registry : Registry α)
    {added : List (Text × α)} (distinct : (added.map Prod.fst).Nodup)
    (absent : ∀ key ∈ added.map Prod.fst, key ∉ registry.keys) :
    (insertAll registry added).entries = registry.entries ++ added := by
  induction added generalizing registry with
  | nil => simp [insertAll]
  | cons entry rest induction =>
      rcases entry with ⟨key, value⟩
      rw [List.map_cons, List.nodup_cons] at distinct
      rw [List.map_cons, List.forall_mem_cons] at absent
      have later := induction (registry.insert key value) distinct.2 ?_
      · refine later.trans ?_
        simp [insert, putEntry_of_not_mem absent.1 value]
      · intro other member
        have different : other ≠ key := fun same => distinct.1 (same ▸ member)
        rw [keys_insert, if_neg absent.1]
        simp [absent.2 other member, different]

theorem entries_ofList {entries : List (Text × α)}
    (distinct : (entries.map Prod.fst).Nodup) :
    (ofList entries).entries = entries :=
  insertAll_of_not_mem empty distinct fun _ _ member => by cases member

end Registry

end QueryAssembly
