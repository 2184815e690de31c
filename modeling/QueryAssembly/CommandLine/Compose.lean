import QueryAssembly.CommandLine.Request
import QueryAssembly.Session.Build

namespace QueryAssembly.CommandLine

/-! Running the compose command. Fragments are registered from directories,
then from files, then from the command line itself, so that a later source
replaces what an earlier one registered under the same name. -/

inductive CommandError
  | compose (cause : ComposeError)
  | scan (directory : Path) (failure : WalkFailure)
  deriving DecidableEq, Repr

namespace CommandError

def message : CommandError → Text
  | .compose cause => cause.message
  | .scan directory failure =>
      "Failed to scan fragment directory ".toList ++ directory ++
        ": IO error for operation on ".toList ++ failure.path ++ ": ".toList ++
        failure.cause.message ++ ": ".toList ++ failure.cause.message

end CommandError

def defaultExtensions : List Text := ["graphql".toList, "gql".toList]

namespace ComposeRequest

def fragmentExtensions (request : ComposeRequest) : List Text :=
  (request.extensions.getD defaultExtensions).map (·.dropWhile (· == '.'))

def loadDocument (request : ComposeRequest) (disk : Disk) (session : Session) :
    Except ComposeError Session :=
  match request.queryFile, request.query with
  | some path, _ => session.loadFile disk path
  | none, some text => .ok (session.load text)
  | none, none => .ok session

/-- The name under which a fragment file is registered, if its extension is
one of those given. -/
def fragmentName? (extensions : List Text) (path : Path) : Option Text := do
  let (stem, extension) := Path.splitExtension (← path.fileName)
  if extensions.contains (← extension) then some stem else none

def fragmentFilesBelow (extensions : List Text) (disk : Disk)
    (directory : Path) : Except CommandError (List (Text × Path)) :=
  match disk.filesBelow directory with
  | .error failure => .error (.scan directory failure)
  | .ok paths =>
      .ok (paths.filterMap fun path =>
        (fragmentName? extensions path).map fun name => (name, path))

/-- Whether a path leads to the file that the document was loaded from. -/
def isQueryFile (request : ComposeRequest) (disk : Disk) (path : Path) : Bool :=
  match request.queryFile with
  | some queryFile => disk.canonical? queryFile == disk.canonical? path
  | none => false

def loadFragmentFiles (disk : Disk) (session : Session)
    (files : List (Text × Path)) : Except ComposeError Session :=
  files.foldlM (fun session (name, path) =>
    session.addFragmentFile disk name path) session

def loadDirectory (request : ComposeRequest) (disk : Disk) (session : Session)
    (directory : Path) : Except CommandError Session := do
  let files ← fragmentFilesBelow request.fragmentExtensions disk directory
  (loadFragmentFiles disk session
    (files.filter fun file => !request.isQueryFile disk file.2)).mapError
      .compose

def addInline (request : ComposeRequest) (session : Session) : Session :=
  let withFragments := request.fragments.foldl
    (fun session (name, body) => session.addFragment name body) session
  let withAliases := request.aliases.foldl
    (fun session (given, field) => session.addAlias ⟨field, given, ∅⟩)
    withFragments
  let withDirectives := request.directives.foldl
    (fun session (field, name) => session.addDirective field ⟨name, ∅⟩)
    withAliases
  let withDefinitions := request.definitions.foldl Session.define withDirectives
  withDefinitions.setVariables (request.variableValues.getD [])

def session (request : ComposeRequest) (disk : Disk) :
    Except CommandError Session := do
  let loaded ← (request.loadDocument disk ∅).mapError .compose
  let withDirectories ←
    request.fragmentDirectories.foldlM (request.loadDirectory disk) loaded
  let withFiles ← (loadFragmentFiles disk withDirectories
    request.fragmentFiles).mapError .compose
  return request.addInline withFiles

def output (request : ComposeRequest) (composed : ComposedQuery) : Text :=
  if request.queryOnly then composed.query else composed.toJson.pretty 0

def run (request : ComposeRequest) (disk : Disk) : Except CommandError Text := do
  let session ← request.session disk
  let composed ← session.build.mapError .compose
  return request.output composed

end ComposeRequest

def failureText (cause : CommandError) : Text :=
  '❌' :: ' ' :: cause.message

end QueryAssembly.CommandLine
