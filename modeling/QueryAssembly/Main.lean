import QueryAssembly.CommandLine.Compose
import QueryAssembly.CommandLine.Reader

/-! The command-line program. It reads from the real disk what a request may
ask for, runs the request on that, and prints the outcome. -/

namespace QueryAssembly.CommandLine

/-- Names below the root that a path leads to, taken literally. -/
def namesOf (current : List Text) (path : Path) : List Text :=
  path.components.foldl (fun names component =>
    match component with
    | .root => []
    | .current => names
    | .parent => names.dropLast
    | .name name => names ++ [name]) current

def pathString (names : List Text) : String :=
  String.ofList ('/' :: Text.joined ['/'] names)

def putAt (disk : Disk) (names : List Text) (entry : DiskEntry) : Disk :=
  { disk with root := DiskEntry.put entry names (some disk.root) }

/-- Add what stands at a name, if anything does. The answer tells whether it is
a directory. -/
def addEntry (disk : Disk) (names : List Text) : IO (Disk × Bool) := do
  try
    let handle ← IO.FS.realPath (pathString names)
    if ← handle.isDir then
      return (putAt disk names (.directory []), true)
    else
      let content ← IO.FS.readBinFile handle
      return (putAt disk names (.file content.toList), false)
  catch _ => return (disk, false)

def addFragments (extensions : List Text) (height : Nat) (disk : Disk)
    (names : List Text) : IO Disk := do
  match height with
  | 0 => return disk
  | height + 1 =>
      let (added, isDirectory) ← addEntry disk names
      if !isDirectory then
        return added
      else
        let handle ← IO.FS.realPath (pathString names)
        let mut disk := added
        for entry in ← handle.readDir do
          let name := entry.fileName.toList
          if (← entry.path.isDir) ||
              (ComposeRequest.fragmentName? extensions name).isSome then
            disk ← addFragments extensions height disk (names ++ [name])
        return disk

def addPath (disk : Disk) (path : Path) : IO Disk := do
  let mut disk := disk
  let mut names := disk.current
  for component in path.components do
    names := namesOf names (match component with
      | .root => ['/']
      | .current => ['.']
      | .parent => ['.', '.']
      | .name name => name)
    disk := (← addEntry disk names).1
  return disk

/-- No path is longer than 4096 bytes, so no directory lies deeper than half as
many levels. -/
def greatestHeight : Nat := 2048

/-- The part of the real disk that a request may look at. -/
def snapshot (request : ComposeRequest) : IO Disk := do
  let current := (← IO.currentDir).toString.toList
  let mut disk := Disk.blank (namesOf [] current)
  for directory in request.fragmentDirectories do
    disk ← addPath disk directory
    disk ← addFragments request.fragmentExtensions greatestHeight disk
      (namesOf disk.current directory)
  for path in request.queryFile.toList ++ request.fragmentFiles.map Prod.snd do
    disk ← addPath disk path
  return disk

def usage : String :=
  "usage: [-v] compose (--query TEXT | --query-file PATH) [options]\n\n" ++
  "  --fragment-dir DIR              register the fragment files below DIR\n" ++
  "  --fragment-file-exts EXT,...    extensions of fragment files\n" ++
  "  --fragment-file NAME=PATH       register a file as a fragment\n" ++
  "  --fragment NAME=BODY            register a fragment\n" ++
  "  --alias ALIAS=FIELD             alias the first occurrence of FIELD\n" ++
  "  --directive FIELD=NAME          append @NAME to the first FIELD\n" ++
  "  --define-variable NAME:TYPE[=JSON_DEFAULT]\n" ++
  "  --variables JSON                values passed on to the output\n" ++
  "  --query-only                    print the query alone\n"

def UsageError.message : UsageError → String
  | .helpRequested => usage
  | .versionRequested => "0.1.0"
  | .unknownArgument => "unexpected argument"
  | .unknownCommand => "unrecognized command"
  | .missingValue => "a value is required"
  | .unexpectedValue => "unexpected value for a flag"
  | .refusedValue cause =>
      "invalid value: " ++
        String.ofList (cause.message fun _ => "the text cannot be read".toList)
  | .conflict => "an argument cannot be used here"
  | .missingDocument => "one of --query and --query-file is required"

def report (cause : UsageError) : IO UInt32 := do
  if cause = .helpRequested ∨ cause = .versionRequested then
    IO.println cause.message
    return 0
  else
    IO.eprintln ("error: " ++ cause.message)
    return 2

end QueryAssembly.CommandLine

open QueryAssembly.CommandLine in
def main (arguments : List String) : IO UInt32 := do
  match read (arguments.map String.toList) with
  | .error cause => report cause
  | .ok (.nothing _) =>
      IO.println usage
      return 0
  | .ok (.compose request) =>
      match request.run (← snapshot request) with
      | .ok output =>
          IO.println (String.ofList output)
          return 0
      | .error cause =>
          IO.eprintln (String.ofList (failureText cause))
          return 1
