import Mathlib.Data.List.TakeWhile
import QueryAssembly.Error
import QueryAssembly.Files.Disk
import QueryAssembly.Registry

namespace QueryAssembly

/-! Where paths lead in a tree of files. A path that is extended by the name of an
entry leads on to that entry, and whatever path leads to a file ends in the name
of the file. -/

namespace Text

section Fields

variable {separator : Char}

theorem exists_fields_cons (separator char : Char) (rest : Text) :
    ∃ first others, fields separator rest = first :: others ∧
      fields separator (char :: rest) =
        if char = separator then [] :: first :: others
        else (char :: first) :: others := by
  cases rest_eq : fields separator rest with
  | cons first others => exact ⟨first, others, rfl, by rw [fields, rest_eq]⟩
  | nil =>
      cases rest with
      | nil => cases rest_eq
      | cons next rest =>
          rw [fields] at rest_eq
          split at rest_eq
          · split at rest_eq <;> cases rest_eq
          · cases rest_eq

theorem fields_append_separator (left right : Text) :
    fields separator (left ++ separator :: right) =
      fields separator left ++ fields separator right := by
  induction left with
  | nil =>
      rcases exists_fields_cons separator separator right with
        ⟨first, others, right_eq, found⟩
      rw [List.nil_append, found, if_pos rfl, right_eq]
      rfl
  | cons char left induction =>
      rcases exists_fields_cons separator char left with
        ⟨first, others, left_eq, found⟩
      rcases exists_fields_cons separator char (left ++ separator :: right) with
        ⟨next, more, whole_eq, whole⟩
      rw [induction, left_eq, List.cons_append, List.cons.injEq] at whole_eq
      rw [List.cons_append, whole, found, ← whole_eq.1, ← whole_eq.2]
      split <;> rfl

theorem fields_of_not_mem {text : Text} (absent : separator ∉ text) :
    fields separator text = [text] := by
  induction text with
  | nil => rfl
  | cons char text induction =>
      rw [List.mem_cons, not_or] at absent
      rcases exists_fields_cons separator char text with
        ⟨first, others, text_eq, found⟩
      rw [induction absent.2, List.cons.injEq] at text_eq
      rw [found, if_neg (Ne.symm absent.1), ← text_eq.1, ← text_eq.2]

theorem fields_ne_nil (separator : Char) (text : Text) :
    fields separator text ≠ [] := by
  cases text with
  | nil => exact List.cons_ne_nil _ _
  | cons char rest =>
      rcases exists_fields_cons separator char rest with
        ⟨first, others, _, found⟩
      rw [found]
      split <;> exact List.cons_ne_nil _ _

end Fields

end Text

theorem Path.splitExtension_eq_iff {name stem extension : Text} :
    Path.splitExtension name = (stem, some extension) ↔
      name = stem ++ '.' :: extension ∧ stem ≠ [] ∧ '.' ∉ extension := by
  constructor
  · intro split_eq
    have parts := List.takeWhile_append_dropWhile (p := (· != '.'))
      (l := name.reverse)
    have undotted : ∀ char ∈ name.reverse.takeWhile (· != '.'), char ≠ '.' :=
      fun _ member =>
        bne_iff_ne.mp (List.mem_takeWhile_imp (p := (· != '.')) member)
    have stopped := List.head?_dropWhile_not (· != '.') name.reverse
    simp only [Path.splitExtension] at split_eq
    split at split_eq
    · cases split_eq
    · next nonempty =>
      rw [Prod.mk.injEq, Option.some_inj] at split_eq
      rcases split_eq with ⟨rfl, rfl⟩
      cases onward_eq : name.reverse.dropWhile (· != '.') with
      | nil =>
          rw [onward_eq] at nonempty
          exact absurd rfl nonempty
      | cons dot onward =>
          simp only [onward_eq, List.head?_cons, bne_eq_false_iff_eq] at stopped
          rw [onward_eq, stopped] at parts
          rw [onward_eq, stopped] at nonempty
          have name_eq := congrArg List.reverse parts
          simp only [List.reverse_append, List.reverse_cons, List.reverse_reverse,
            List.append_assoc, List.singleton_append] at name_eq
          refine ⟨?_, ?_, fun member => ?_⟩
          · simpa using name_eq.symm
          · simpa using nonempty
          · exact undotted '.' (List.mem_reverse.mp member) rfl
  · rintro ⟨rfl, nonempty, undotted⟩
    have reversed : (stem ++ '.' :: extension).reverse =
        extension.reverse ++ '.' :: stem.reverse := by simp
    have all : ∀ char ∈ extension.reverse, (char != '.') = true := by
      intro char member
      rw [bne_iff_ne]
      rintro rfl
      exact undotted (List.mem_reverse.mp member)
    rw [Path.splitExtension, reversed, List.takeWhile_append_of_pos all,
      List.dropWhile_append_of_pos all]
    simp [nonempty]

structure IsEntryName (name : Text) : Prop where
  nonempty : name ≠ []
  notCurrent : name ≠ ['.']
  notParent : name ≠ ['.', '.']
  slashless : '/' ∉ name
  unended : '\x00' ∉ name
  short : Text.bytes name ≤ longestName

instance (name : Text) : Decidable (IsEntryName name) :=
  decidable_of_iff
    (name ≠ [] ∧ name ≠ ['.'] ∧ name ≠ ['.', '.'] ∧ '/' ∉ name ∧
      '\x00' ∉ name ∧ Text.bytes name ≤ longestName)
    ⟨fun ⟨nonempty, current, parent, slash, ended, short⟩ =>
        ⟨nonempty, current, parent, slash, ended, short⟩,
      fun ⟨nonempty, current, parent, slash, ended, short⟩ =>
        ⟨nonempty, current, parent, slash, ended, short⟩⟩

namespace DiskEntry

/-- A tree of files: the entries of each directory have names of their own. -/
inductive IsTree : DiskEntry → Prop
  | file (content : List UInt8) : IsTree (.file content)
  | directory {entries : List (Text × DiskEntry)} :
      (entries.map Prod.fst).Nodup →
      (∀ name ∈ entries.map Prod.fst, IsEntryName name) →
      (∀ entry ∈ entries.map Prod.snd, IsTree entry) →
      IsTree (.directory entries)

section Ways

variable {entry found : DiskEntry} {way : List Text}

theorem at?_append (entry : DiskEntry) (way rest : List Text) :
    entry.at? (way ++ rest) = (entry.at? way).bind fun found => found.at? rest := by
  induction way generalizing entry with
  | nil => rfl
  | cons name way induction =>
      rw [List.cons_append, at?, at?]
      cases entry.entries.lookup name with
      | none => rfl
      | some found => exact induction found

theorem at?_directory {entries : List (Text × DiskEntry)} {name : Text}
    (distinct : (entries.map Prod.fst).Nodup) :
    at? (.directory entries) (name :: way) = some found ↔
      ∃ held, (name, held) ∈ entries ∧ held.at? way = some found := by
  simp only [← lookup_eq_some_iff_mem distinct, at?, DiskEntry.entries]
  cases entries.lookup name <;> simp

theorem IsTree.at? (isTree : entry.IsTree)
    (leads : entry.at? way = some found) : found.IsTree := by
  induction way generalizing entry with
  | nil => exact Option.some.inj leads ▸ isTree
  | cons name way induction =>
      cases isTree with
      | file => cases leads
      | directory distinct _ parts =>
          rcases (at?_directory distinct).mp leads with ⟨held, member, onward⟩
          exact induction (parts held (List.mem_map.mpr ⟨_, member, rfl⟩)) onward

end Ways

theorem at?_dropLast {way : List Text} (entry : DiskEntry)
    (leads : (entry.at? way).isSome) (nonempty : way ≠ []) :
    ∃ entries, entry.at? way.dropLast = some (.directory entries) := by
  rcases (List.eq_nil_or_concat way).resolve_left nonempty with
    ⟨above, name, rfl⟩
  rw [List.concat_eq_append, at?_append] at leads
  rw [List.concat_eq_append, List.dropLast_concat]
  cases above_eq : entry.at? above with
  | none =>
      rw [above_eq] at leads
      cases leads
  | some held =>
      cases held with
      | file content =>
          rw [above_eq] at leads
          cases leads
      | directory entries => exact ⟨entries, rfl⟩

end DiskEntry

namespace Disk

/-! Components are followed one by one. -/

section Following

variable {disk : Disk} {reached middle location : List Text} {field : Text}
  {entries : List (Text × DiskEntry)}

theorem follow_append (disk : Disk) (reached left right : List Text) :
    disk.follow reached (left ++ right) =
      disk.follow reached left >>= fun middle => disk.follow middle right := by
  induction left generalizing reached with
  | nil => rfl
  | cons field left induction =>
      rw [List.cons_append, follow, follow]
      cases disk.root.at? reached with
      | none => rfl
      | some held =>
          cases held with
          | file content => rfl
          | directory entries =>
              simp only [induction]
              split
              · rfl
              · split
                · rfl
                · split
                  · rfl
                  · split <;> rfl

theorem follow_field (leads : disk.follow reached [field] = .ok location) :
    ∃ entries, disk.root.at? reached = some (.directory entries) ∧
      ((field = [] ∨ field = ['.']) ∧ location = reached ∨
        field = ['.', '.'] ∧ location = reached.dropLast ∨
        (field ≠ [] ∧ field ≠ ['.'] ∧ field ≠ ['.', '.']) ∧
          location = reached ++ [field]) := by
  rw [follow] at leads
  split at leads
  · next entries isDirectory =>
    refine ⟨entries, isDirectory, ?_⟩
    split at leads
    · next stays => exact .inl ⟨stays, (Except.ok.inj leads).symm⟩
    · next moves =>
      rw [not_or] at moves
      split at leads
      · next up => exact .inr (.inl ⟨up, (Except.ok.inj leads).symm⟩)
      · next named =>
        split at leads
        · cases leads
        · split at leads
          · exact .inr (.inr ⟨⟨moves.1, moves.2, named⟩,
              (Except.ok.inj leads).symm⟩)
          · cases leads
  · cases leads
  · cases leads

theorem follow_entry {name : Text} (isName : IsEntryName name)
    (isDirectory : disk.root.at? reached = some (.directory entries))
    (stands : name ∈ entries.map Prod.fst) :
    disk.follow reached [name] = .ok (reached ++ [name]) := by
  have held : (entries.lookup name).isSome := by
    rw [List.lookup_isSome_iff]
    rcases List.mem_map.mp stands with ⟨entry, member, rfl⟩
    exact ⟨entry, member, by simp⟩
  have moves : ¬ (name = [] ∨ name = ['.']) := by
    rw [not_or]
    exact ⟨isName.nonempty, isName.notCurrent⟩
  rw [follow, isDirectory]
  simp only [if_neg moves, if_neg isName.notParent,
    if_neg (Nat.not_lt.mpr isName.short), if_pos held]
  rfl

end Following

section Resolving

variable {disk : Disk} {path : Path} {location : List Text} {name : Text}

theorem resolve_eq_ok_iff :
    disk.resolve path = .ok location ↔
      '\x00' ∉ path ∧ path ≠ [] ∧
        disk.follow (if path.head? = some '/' then [] else disk.current)
          (Text.fields '/' path) = .ok location := by
  unfold resolve
  split
  · next ended =>
    rw [List.contains_iff_mem] at ended
    exact iff_of_false (fun found => nomatch found) fun found => found.1 ended
  · next unended =>
    rw [List.contains_iff_mem] at unended
    split
    · next empty =>
      exact iff_of_false (fun found => nomatch found) fun found =>
        found.2.1 empty
    · next nonempty =>
      exact ⟨fun found => ⟨unended, nonempty, found⟩, fun found => found.2.2⟩

theorem resolve_entry {entries : List (Text × DiskEntry)}
    (found : disk.resolve path = .ok location)
    (isDirectory : disk.root.at? location = some (.directory entries))
    (isName : IsEntryName name) (stands : name ∈ entries.map Prod.fst) :
    disk.resolve (path.entry name) = .ok (location ++ [name]) := by
  rcases resolve_eq_ok_iff.mp found with ⟨unended, nonempty, leads⟩
  have onward := follow_entry isName isDirectory stands
  have last := Text.fields_of_not_mem isName.slashless
  have head : ∀ rest : Text, (path ++ rest).head? = path.head? := by
    rcases List.exists_cons_of_ne_nil nonempty with ⟨first, others, rfl⟩
    exact fun _ => rfl
  rw [resolve_eq_ok_iff, Path.entry]
  split
  · next slash =>
    refine ⟨by simp [unended, isName.unended], by simp [nonempty], ?_⟩
    rw [head]
    generalize (if path.head? = some '/' then [] else disk.current) = start
      at leads ⊢
    rcases (List.eq_nil_or_concat path).resolve_left nonempty with
      ⟨above, char, path_eq⟩
    rw [List.concat_eq_append] at path_eq
    rw [path_eq, List.getLast?_concat, Option.some_inj] at slash
    rw [path_eq, slash, Text.fields_append_separator, follow_append] at leads
    rcases bind_eq_ok_iff.mp leads with ⟨middle, first, rest⟩
    -- Behind a slash at the end of a path there is one more, empty field.
    have same : location = middle := by
      rcases follow_field rest with ⟨_, _, ⟨_, same⟩ | ⟨up, _⟩ | ⟨named, _⟩⟩
      · exact same
      · cases up
      · exact absurd rfl named.1
    rw [path_eq, slash, List.append_assoc, List.singleton_append,
      Text.fields_append_separator, follow_append, first, last]
    exact same ▸ onward
  · refine ⟨by simp [unended, isName.unended], by simp, ?_⟩
    rw [head, Text.fields_append_separator, follow_append, leads, last]
    exact onward

theorem fileName_of_file {content : List UInt8}
    (found : disk.resolve path = .ok location)
    (isFile : disk.root.at? location = some (.file content)) :
    path.fileName = location.getLast? := by
  rcases resolve_eq_ok_iff.mp found with ⟨_, nonempty, leads⟩
  rcases (List.eq_nil_or_concat (Text.fields '/' path)).resolve_left
      (Text.fields_ne_nil '/' path) with
    ⟨above, last, fields_eq⟩
  rw [List.concat_eq_append] at fields_eq
  rw [fields_eq, follow_append] at leads
  rcases bind_eq_ok_iff.mp leads with ⟨middle, _, onward⟩
  rcases follow_field onward with
    ⟨entries, isDirectory, ⟨_, rfl⟩ | ⟨_, rfl⟩ | ⟨⟨named, stays, up⟩, rfl⟩⟩
  · rw [isDirectory] at isFile
    cases isFile
  · by_cases root : middle = []
    · rw [root, List.dropLast_nil] at isFile
      rw [root, isFile] at isDirectory
      cases isDirectory
    · rcases DiskEntry.at?_dropLast disk.root
          (Option.isSome_of_eq_some isDirectory) root with
        ⟨_, above⟩
      rw [above] at isFile
      cases isFile
  · have component : Path.ofField last = some (.name last) := by
      rw [Path.ofField, if_neg (not_or.mpr ⟨named, stays⟩), if_neg up]
    rw [Path.fileName, Path.components, fields_eq, List.filterMap_append,
      List.getLast?_concat]
    simp [component]

end Resolving

end Disk

end QueryAssembly
