import QueryAssembly.CommandLine.Value
import QueryAssembly.Files.Path

namespace QueryAssembly.CommandLine

/-! What a command line asks for, and why one is refused. Asking for help or
for the version ends the reading as a refusal does. -/

structure ComposeRequest where
  query : Option Text
  queryFile : Option Path
  fragmentDirectories : List Path
  extensions : Option (List Text)
  fragmentFiles : List (Text × Path)
  fragments : List (Text × Text)
  /-- Pairs of an alias and the field it is for. -/
  aliases : List (Text × Text)
  /-- Pairs of a field and the directive it gets. -/
  directives : List (Text × Text)
  definitions : List VariableDefinition
  variableValues : Option (List (Text × Json))
  queryOnly : Bool
  verbose : Bool

def ComposeRequest.empty : ComposeRequest :=
  ⟨none, none, [], none, [], [], [], [], [], none, false, false⟩

inductive Request
  | nothing (verbose : Bool)
  | compose (request : ComposeRequest)

inductive UsageError
  | helpRequested
  | versionRequested
  | unknownArgument
  | unknownCommand
  | missingValue
  | unexpectedValue
  | refusedValue (cause : ValueError)
  | conflict
  | missingDocument
  deriving DecidableEq, Repr

inductive ValueOption
  | fieldAlias
  | defineVariable
  | directive
  | fragment
  | fragmentDirectory
  | extensions
  | fragmentFile
  | query
  | queryFile
  | variableValues
  deriving DecidableEq, Repr

inductive Flag
  | help
  | queryOnly
  | verbose
  deriving DecidableEq, Repr

def ValueOption.ofName? (name : Text) : Option ValueOption :=
  if name = "alias".toList then some .fieldAlias
  else if name = "define-variable".toList then some .defineVariable
  else if name = "directive".toList then some .directive
  else if name = "fragment".toList then some .fragment
  else if name = "fragment-dir".toList then some .fragmentDirectory
  else if name = "fragment-file-exts".toList then some .extensions
  else if name = "fragment-file".toList then some .fragmentFile
  else if name = "query".toList then some .query
  else if name = "query-file".toList then some .queryFile
  else if name = "variables".toList then some .variableValues
  else none

def Flag.ofName? (name : Text) : Option Flag :=
  if name = "help".toList then some .help
  else if name = "query-only".toList then some .queryOnly
  else if name = "verbose".toList then some .verbose
  else none

def Flag.ofLetter? (letter : Char) : Option Flag :=
  if letter = 'h' then some .help
  else if letter = 'v' then some .verbose
  else none

namespace ComposeRequest

def refuse {α : Type} (result : Except ValueError α) : Except UsageError α :=
  result.mapError .refusedValue

def nonEmptyPath (given : Text) : Except UsageError Path :=
  if given.isEmpty then .error .missingValue else .ok given

/-- Take in the value of an option. Only lists may be given more than once. -/
def accept (request : ComposeRequest) (given : Text) :
    ValueOption → Except UsageError ComposeRequest
  | .fieldAlias => do
      let named ← refuse (readNamed given)
      return { request with aliases := request.aliases ++ [named] }
  | .defineVariable => do
      let definition ← refuse (readDefinition given)
      return { request with definitions := request.definitions ++ [definition] }
  | .directive => do
      let named ← refuse (readNamed given)
      return { request with directives := request.directives ++ [named] }
  | .fragment => do
      let named ← refuse (readNamed given)
      return { request with fragments := request.fragments ++ [named] }
  | .fragmentDirectory => do
      let path ← nonEmptyPath given
      return { request with
        fragmentDirectories := request.fragmentDirectories ++ [path] }
  | .extensions =>
      .ok { request with
        extensions :=
          some (request.extensions.getD [] ++ Text.fields ',' given) }
  | .fragmentFile => do
      let named ← refuse (readNamed given)
      return { request with fragmentFiles := request.fragmentFiles ++ [named] }
  | .query =>
      if request.query.isSome then .error .conflict
      else .ok { request with query := some given }
  | .queryFile =>
      if request.queryFile.isSome then .error .conflict
      else do
        let path ← nonEmptyPath given
        return { request with queryFile := some path }
  | .variableValues =>
      if request.variableValues.isSome then .error .conflict
      else do
        let values ← refuse (readVariables given)
        return { request with variableValues := some values }

def raise (request : ComposeRequest) : Flag → Except UsageError ComposeRequest
  | .help => .error .helpRequested
  | .queryOnly =>
      if request.queryOnly then .error .conflict
      else .ok { request with queryOnly := true }
  | .verbose =>
      if request.verbose then .error .conflict
      else .ok { request with verbose := true }

def validated (request : ComposeRequest) : Except UsageError ComposeRequest :=
  if request.query.isSome && request.queryFile.isSome then .error .conflict
  else if request.query.isNone && request.queryFile.isNone then
    .error .missingDocument
  else .ok request

end ComposeRequest

end QueryAssembly.CommandLine
