import QueryAssembly.Files.Path

namespace QueryAssembly

/-! A disk is a tree of directories and files with a current directory in it.
The entries of a directory stand in no particular order. -/

inductive DiskEntry
  | file (content : List UInt8)
  | directory (entries : List (Text × DiskEntry))

instance : Inhabited DiskEntry := ⟨.directory []⟩

structure Disk where
  root : DiskEntry
  /-- The names on the way from the root to the current directory. -/
  current : List Text

/-! Why a path leads to no entry. -/

inductive LookupFailure
  | noEntry
  | notDirectory
  | nameTooLong
  | nulByte
  deriving DecidableEq, Repr

namespace LookupFailure

def message : LookupFailure → Text
  | .noEntry => "No such file or directory (os error 2)".toList
  | .notDirectory => "Not a directory (os error 20)".toList
  | .nameTooLong => "File name too long (os error 36)".toList
  | .nulByte => "file name contained an unexpected NUL byte".toList

end LookupFailure

/-! Names and paths are measured in bytes. -/

def longestName : Nat := 255

def longestPath : Nat := 4095

namespace DiskEntry

def entries : DiskEntry → List (Text × DiskEntry)
  | .file _ => []
  | .directory entries => entries

def at? : DiskEntry → List Text → Option DiskEntry
  | entry, [] => some entry
  | entry, name :: names =>
      match entry.entries.lookup name with
      | some found => found.at? names
      | none => none

def alterEntry (name : Text) (change : Option DiskEntry → DiskEntry) :
    List (Text × DiskEntry) → List (Text × DiskEntry)
  | [] => [(name, change none)]
  | (other, held) :: rest =>
      if name = other then (name, change (some held)) :: rest
      else (other, held) :: alterEntry name change rest

/-- Put an entry at the end of a way of names. Missing directories are made,
and putting a directory leaves a directory that is there as it is. -/
def put (added : DiskEntry) : List Text → Option DiskEntry → DiskEntry
  | [], held =>
      match added, held with
      | .directory [], some (.directory entries) => .directory entries
      | _, _ => added
  | name :: names, held =>
      .directory (alterEntry name (put added names)
        (held.getD (.directory [])).entries)

/-- Follow components from the end of a way of names, and put an entry where
they lead. A directory is made before it is left for its parent. -/
def putAlong (root added : DiskEntry) : List Text → List Path.Component → DiskEntry
  | reached, [] => put added reached (some root)
  | reached, component :: rest =>
      match component with
      | .root => root.putAlong added [] rest
      | .current => root.putAlong added reached rest
      | .parent =>
          (put (.directory []) reached (some root)).putAlong added
            reached.dropLast rest
      | .name text => root.putAlong added (reached ++ [text]) rest

end DiskEntry

namespace Disk

def blank (current : List Text) : Disk where
  root := DiskEntry.put (.directory []) current none
  current := current

def follow (disk : Disk) : List Text → List Text → Except LookupFailure (List Text)
  | reached, [] => .ok reached
  | reached, field :: fields =>
      match disk.root.at? reached with
      | some (.directory entries) =>
          if field = [] ∨ field = ['.'] then disk.follow reached fields
          else if field = ['.', '.'] then disk.follow reached.dropLast fields
          else if longestName < Text.bytes field then .error .nameTooLong
          else if (entries.lookup field).isSome then
            disk.follow (reached ++ [field]) fields
          else .error .noEntry
      | some (.file _) => .error .notDirectory
      | none => .error .noEntry

def resolve (disk : Disk) (path : Path) : Except LookupFailure (List Text) :=
  if path.contains '\x00' then .error .nulByte
  else if path = [] then .error .noEntry
  else
    disk.follow (if path.head? = some '/' then [] else disk.current)
      (Text.fields '/' path)

/-- A path that is too long is refused before any of it is followed. -/
def locate (disk : Disk) (path : Path) : Except LookupFailure (List Text) :=
  if path.contains '\x00' then .error .nulByte
  else if longestPath < Text.bytes path then .error .nameTooLong
  else disk.resolve path

def find (disk : Disk) (path : Path) : Except LookupFailure DiskEntry := do
  match disk.root.at? (← disk.locate path) with
  | some entry => return entry
  | none => throw .noEntry

def put (disk : Disk) (path : Path) (added : DiskEntry) : Disk :=
  { disk with root := disk.root.putAlong added disk.current path.components }

end Disk

/-- The names on the way to an entry, which are the same for every path that
leads to it. Since a path is made canonical name by name, a long one will do. -/
def Disk.canonical? (disk : Disk) (path : Path) : Option (List Text) :=
  (disk.resolve path).toOption

def insertByName {α : Type} (item : Text × α) :
    List (Text × α) → List (Text × α)
  | [] => [item]
  | other :: rest =>
      if item.1 < other.1 then item :: other :: rest
      else other :: insertByName item rest

def sortByName {α : Type} (items : List (Text × α)) : List (Text × α) :=
  items.foldl (fun sorted item => insertByName item sorted) []

/-! Where a walk through a directory stops, and why. -/

structure WalkFailure where
  path : Path
  cause : LookupFailure
  deriving DecidableEq, Repr

def joinWalks : List (Except WalkFailure (List Path)) →
    Except WalkFailure (List Path)
  | [] => .ok []
  | part :: rest => do return (← part) ++ (← joinWalks rest)

mutual
/-- The paths of the files at or under an entry. Directories are entered in the
order of their names, and a directory whose path is too long cannot be entered.
Files are listed without looking them up. -/
def DiskEntry.filesBelow (path : Path) : DiskEntry → Except WalkFailure (List Path)
  | .file _ => .ok [path]
  | .directory entries =>
      if longestPath < Text.bytes path then .error ⟨path, .nameTooLong⟩
      else
        joinWalks ((sortByName (DiskEntry.filesByName path entries)).map Prod.snd)

def DiskEntry.filesByName (path : Path) :
    List (Text × DiskEntry) → List (Text × Except WalkFailure (List Path))
  | [] => []
  | (name, entry) :: rest =>
      (name, entry.filesBelow (path.entry name)) ::
        DiskEntry.filesByName path rest
end

def Disk.filesBelow (disk : Disk) (path : Path) :
    Except WalkFailure (List Path) :=
  match disk.find path with
  | .error cause => .error ⟨path, cause⟩
  | .ok entry => entry.filesBelow path

end QueryAssembly
