import Mathlib.Data.List.Lex
import Mathlib.Data.Char
import QueryAssembly.Proofs.Files.Location

namespace QueryAssembly

/-! What a walk through a directory lists: each file below it once, in the order
of the names on the way to it. -/

/-! Items in the order of their names. -/

section Sorting

variable {α β : Type} {item : Text × α} {items : List (Text × α)}

def Ascending (items : List (Text × α)) : Prop :=
  items.Pairwise fun left right => left.1 < right.1

theorem insertByName_perm (item : Text × α) (items : List (Text × α)) :
    (insertByName item items).Perm (item :: items) := by
  induction items with
  | nil => exact .refl _
  | cons other rest induction =>
      rw [insertByName]
      split
      · exact .refl _
      · exact (induction.cons other).trans (.swap item other rest)

theorem Ascending.insertByName (ascending : Ascending items)
    (fresh : item.1 ∉ items.map Prod.fst) :
    Ascending (insertByName item items) := by
  induction items with
  | nil => exact List.pairwise_singleton _ _
  | cons other rest induction =>
      rw [List.map_cons, List.mem_cons, not_or] at fresh
      rcases List.pairwise_cons.mp ascending with ⟨first, later⟩
      rw [QueryAssembly.insertByName]
      split
      · next earlier =>
        refine List.pairwise_cons.mpr ⟨?_, ascending⟩
        exact List.forall_mem_cons.mpr
          ⟨earlier, fun entry member => lt_trans earlier (first entry member)⟩
      · next notEarlier =>
        refine List.pairwise_cons.mpr ⟨fun entry member => ?_, induction later fresh.2⟩
        rcases List.mem_cons.mp ((insertByName_perm item rest).mem_iff.mp member)
          with rfl | member
        · exact lt_of_le_of_ne (not_lt.mp notEarlier) (Ne.symm fresh.1)
        · exact first entry member

theorem sortByName_sorts (distinct : (items.map Prod.fst).Nodup) :
    Ascending (sortByName items) ∧ (sortByName items).Perm items := by
  suffices ∀ sorted : List (Text × α), Ascending sorted →
      ((items ++ sorted).map Prod.fst).Nodup →
      Ascending (items.foldl (fun sorted item => insertByName item sorted) sorted) ∧
        (items.foldl (fun sorted item => insertByName item sorted) sorted).Perm
          (items ++ sorted) by
    have sorts := this [] List.Pairwise.nil (by simpa using distinct)
    rwa [List.append_nil] at sorts
  clear distinct
  induction items with
  | nil => exact fun sorted ascending _ => ⟨ascending, .refl _⟩
  | cons item items induction =>
      intro sorted ascending distinct
      rw [List.cons_append, List.map_cons, List.nodup_cons, List.map_append,
        List.mem_append, not_or] at distinct
      have inserted := insertByName_perm item sorted
      have onward := induction (insertByName item sorted)
        (ascending.insertByName distinct.1.2) ?_
      · refine ⟨onward.1, onward.2.trans ?_⟩
        exact (inserted.append_left items).trans List.perm_middle
      · have names := ((inserted.append_left items).trans
          List.perm_middle).map Prod.fst
        rw [names.nodup_iff, List.map_cons, List.nodup_cons, List.map_append,
          List.mem_append, not_or]
        exact distinct

theorem sortByName_map (held : Text × α → β) (items : List (Text × α)) :
    sortByName (items.map fun item => (item.1, held item)) =
      (sortByName items).map fun item => (item.1, held item) := by
  have insert_map : ∀ (item : Text × α) (sorted : List (Text × α)),
      insertByName (item.1, held item)
          (sorted.map fun item => (item.1, held item)) =
        (insertByName item sorted).map fun item => (item.1, held item) := by
    intro item sorted
    induction sorted with
    | nil => rfl
    | cons other rest induction =>
        simp only [List.map_cons, insertByName, induction]
        split <;> rfl
  suffices ∀ sorted : List (Text × α),
      (items.map fun item => (item.1, held item)).foldl
          (fun sorted item => insertByName item sorted)
          (sorted.map fun item => (item.1, held item)) =
        (items.foldl (fun sorted item => insertByName item sorted) sorted).map
          fun item => (item.1, held item) from this []
  induction items with
  | nil => exact fun _ => rfl
  | cons item items induction =>
      intro sorted
      rw [List.map_cons, List.foldl_cons, List.foldl_cons, insert_map]
      exact induction (insertByName item sorted)

end Sorting

/-- The path of what lies at the end of a way below a path. -/
def Path.along (path : Path) (way : List Text) : Path :=
  way.foldl Path.entry path

/-- The ways from an entry to the files at or under it, in ascending order. -/
structure DiskEntry.ListsFiles (entry : DiskEntry) (ways : List (List Text)) :
    Prop where
  ascending : ways.Pairwise (· < ·)
  mem_iff : ∀ way, way ∈ ways ↔ ∃ content, entry.at? way = some (.file content)

/-! The files of a walk, and where their paths lead. -/

section Walking

variable {entry : DiskEntry} {entries : List (Text × DiskEntry)}
  {path : Path} {paths : List Path}

theorem DiskEntry.filesByName_eq (path : Path)
    (entries : List (Text × DiskEntry)) :
    filesByName path entries = entries.map fun entry =>
      (entry.1, entry.2.filesBelow (path.entry entry.1)) := by
  induction entries with
  | nil => rfl
  | cons entry entries induction =>
      rcases entry with ⟨name, held⟩
      rw [filesByName, induction]
      rfl

theorem exists_ways_joined (ascending : Ascending entries)
    (parts : ∀ entry ∈ entries, ∀ paths,
      entry.2.filesBelow (path.entry entry.1) = .ok paths →
        ∃ ways, entry.2.ListsFiles ways ∧
          paths = ways.map (path.entry entry.1).along)
    (joined : joinWalks (entries.map fun entry =>
      entry.2.filesBelow (path.entry entry.1)) = .ok paths) :
    ∃ ways : List (List Text), ways.Pairwise (· < ·) ∧
      (∀ way, way ∈ ways ↔ ∃ entry ∈ entries, ∃ rest content,
        way = entry.1 :: rest ∧ entry.2.at? rest = some (.file content)) ∧
      paths = ways.map path.along := by
  induction entries generalizing paths with
  | nil =>
      cases joined
      exact ⟨[], .nil, by simp, rfl⟩
  | cons first entries induction =>
      rw [List.forall_mem_cons] at parts
      rcases List.pairwise_cons.mp ascending with ⟨earlier, ascending⟩
      rcases bind_eq_ok_iff.mp joined with ⟨here, walked, onward⟩
      rcases bind_eq_ok_iff.mp onward with ⟨later, joinedLater, returned⟩
      obtain rfl := Except.ok.inj returned
      rcases parts.1 here walked with ⟨inner, ⟨sorted, inner_iff⟩, rfl⟩
      rcases induction ascending parts.2 joinedLater with
        ⟨outer, outerSorted, outer_iff, rfl⟩
      refine ⟨inner.map (first.1 :: ·) ++ outer, ?_, fun way => ?_, ?_⟩
      · refine List.pairwise_append.mpr ⟨?_, outerSorted, ?_⟩
        · rw [List.pairwise_map]
          exact sorted.imp fun less => List.cons_lt_cons_iff.mpr (.inr ⟨rfl, less⟩)
        · intro way member other otherMember
          rcases List.mem_map.mp member with ⟨rest, _, rfl⟩
          rcases (outer_iff other).mp otherMember with
            ⟨entry, entryMember, rest, _, rfl, _⟩
          exact List.cons_lt_cons_iff.mpr (.inl (earlier entry entryMember))
      · simp only [List.mem_append, List.mem_map, inner_iff, outer_iff,
          List.mem_cons, exists_eq_or_imp]
        constructor
        · rintro (⟨rest, ⟨content, isFile⟩, rfl⟩ | found)
          · exact .inl ⟨rest, content, rfl, isFile⟩
          · exact .inr found
        · rintro (⟨rest, content, rfl, isFile⟩ | found)
          · exact .inl ⟨rest, ⟨content, isFile⟩, rfl⟩
          · exact .inr found
      · rw [List.map_append, List.map_map]
        rfl

theorem DiskEntry.IsTree.exists_ways (isTree : entry.IsTree)
    (walked : entry.filesBelow path = .ok paths) :
    ∃ ways, entry.ListsFiles ways ∧ paths = ways.map path.along := by
  induction isTree generalizing path paths with
  | file content =>
      cases walked
      refine ⟨[[]], ⟨List.pairwise_singleton _ _, fun way => ?_⟩, rfl⟩
      rw [List.mem_singleton]
      cases way with
      | nil => exact iff_of_true rfl ⟨content, rfl⟩
      | cons name way =>
          exact iff_of_false (List.cons_ne_nil _ _) fun ⟨_, found⟩ => nomatch found
  | @directory entries distinct names isTree induction =>
      rw [filesBelow] at walked
      split at walked
      · cases walked
      · rcases sortByName_sorts distinct with ⟨ascending, sorted⟩
        rw [filesByName_eq, sortByName_map, List.map_map] at walked
        rcases exists_ways_joined ascending (fun entry member paths walked =>
            induction entry.2 (List.mem_map.mpr
              ⟨entry, sorted.mem_iff.mp member, rfl⟩) walked) walked with
          ⟨ways, waysSorted, mem_iff, paths_eq⟩
        refine ⟨ways, ⟨waysSorted, fun way => ?_⟩, paths_eq⟩
        rw [mem_iff]
        constructor
        · rintro ⟨⟨name, held⟩, member, rest, content, rfl, isFile⟩
          exact ⟨content, (at?_directory distinct).mpr
            ⟨held, sorted.mem_iff.mp member, isFile⟩⟩
        · rintro ⟨content, isFile⟩
          cases way with
          | nil => cases isFile
          | cons name rest =>
              rcases (at?_directory distinct).mp isFile with ⟨held, member, found⟩
              exact ⟨(name, held), sorted.mem_iff.mpr member, rest, content, rfl,
                found⟩

theorem Disk.resolve_along {disk : Disk} {location way : List Text}
    {found : DiskEntry} (isTree : disk.root.IsTree)
    (resolved : disk.resolve path = .ok location)
    (leads : disk.root.at? (location ++ way) = some found) :
    disk.resolve (path.along way) = .ok (location ++ way) := by
  induction way generalizing path location with
  | nil => rwa [List.append_nil]
  | cons name way induction =>
      have onward := leads
      rw [DiskEntry.at?_append] at onward
      rcases Option.bind_eq_some_iff.mp onward with ⟨held, isHeld, inside⟩
      have inTree := isTree.at? isHeld
      cases inTree with
      | file => cases inside
      | @directory entries distinct names _ =>
          rcases (DiskEntry.at?_directory distinct).mp inside with
            ⟨entry, member, _⟩
          have stands : name ∈ entries.map Prod.fst :=
            List.mem_map.mpr ⟨_, member, rfl⟩
          have next := resolve_entry resolved isHeld (names name stands) stands
          rw [List.append_cons] at leads ⊢
          exact induction next leads

theorem Disk.resolve_listed {disk : Disk} {location way : List Text}
    {ways : List (List Text)} (isTree : disk.root.IsTree)
    (resolved : disk.resolve path = .ok location)
    (isEntry : disk.root.at? location = some entry)
    (listed : entry.ListsFiles ways) (member : way ∈ ways) :
    ∃ content, disk.root.at? (location ++ way) = some (.file content) ∧
      disk.resolve (path.along way) = .ok (location ++ way) := by
  rcases (listed.mem_iff way).mp member with ⟨content, isFile⟩
  have leads : disk.root.at? (location ++ way) = some (.file content) := by
    rw [DiskEntry.at?_append, isEntry]
    exact isFile
  exact ⟨content, leads, resolve_along isTree resolved leads⟩

end Walking

end QueryAssembly
