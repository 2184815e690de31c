import QueryAssembly.CommandLine.Request

namespace QueryAssembly.CommandLine

/-! Reading arguments from left to right. A value that follows its option as an
argument of its own is taken in when the next option starts or the arguments
end, so an argument that is not known is refused before such a value is looked
at. Nothing but a lone dash is a value when it starts with a dash. -/

/-- The option that the reader is in the middle of. -/
inductive Pending
  | nothing
  | awaiting (option : ValueOption)
  | holding (option : ValueOption) (value : Text)

def ComposeRequest.settle (request : ComposeRequest) :
    Pending → Except UsageError ComposeRequest
  | .nothing => .ok request
  | .awaiting _ => .error .missingValue
  | .holding option value => request.accept value option

inductive ArgumentShape
  | doubleDash
  | long (name : Text) (value : Option Text)
  | short (letters : Text)
  | plain

def ArgumentShape.ofText : Text → ArgumentShape
  | '-' :: '-' :: [] => .doubleDash
  | '-' :: '-' :: rest =>
      match Text.splitOnce '=' rest with
      | some (name, value) => .long name (some value)
      | none => .long rest none
  | '-' :: letter :: letters => .short (letter :: letters)
  | _ => .plain

def readLetters (request : ComposeRequest) (pending : Pending) :
    Text → Except UsageError ComposeRequest
  | [] => request.settle pending
  | letter :: letters =>
      match Flag.ofLetter? letter with
      | none => .error .unknownArgument
      | some flag => do
          let raised ← (← request.settle pending).raise flag
          readLetters raised .nothing letters

def readLong (request : ComposeRequest) (pending : Pending) (name : Text)
    (value : Option Text) : Except UsageError (ComposeRequest × Pending) :=
  match ValueOption.ofName? name, Flag.ofName? name, value with
  | some option, _, some value => do
      let accepted ← (← request.settle pending).accept value option
      return (accepted, .nothing)
  | some option, _, none => do
      return (← request.settle pending, .awaiting option)
  | none, some _, some _ => .error .unexpectedValue
  | none, some flag, none => do
      return (← (← request.settle pending).raise flag, .nothing)
  | none, none, _ => .error .unknownArgument

/-- The arguments of the compose command. Nothing may follow a double dash. -/
def readCompose (request : ComposeRequest) (pending : Pending) :
    List Text → Except UsageError ComposeRequest
  | [] => do (← request.settle pending).validated
  | argument :: rest =>
      match ArgumentShape.ofText argument with
      | .doubleDash =>
          if rest.isEmpty then do (← request.settle pending).validated
          else .error .unknownArgument
      | .long name value => do
          let (next, pending) ← readLong request pending name value
          readCompose next pending rest
      | .short letters => do
          readCompose (← readLetters request pending letters) .nothing rest
      | .plain =>
          match pending with
          | .awaiting option =>
              readCompose request (.holding option argument) rest
          | _ => .error .unknownArgument

def composeCommand : Text := "compose".toList

def helpCommand : Text := "help".toList

/-- Help on commands. Of help itself there is no further command. -/
def readHelp : List Text → UsageError
  | [] => .helpRequested
  | [command] =>
      if command = composeCommand ∨ command = helpCommand then .helpRequested
      else .unknownCommand
  | _ => .unknownCommand

def readGlobalLetters (verbose : Bool) : Text → Except UsageError Bool
  | [] => .ok verbose
  | letter :: letters =>
      if letter = 'h' then .error .helpRequested
      else if letter = 'V' then .error .versionRequested
      else if letter ≠ 'v' then .error .unknownArgument
      else if verbose then .error .conflict
      else readGlobalLetters true letters

def readGlobalLong (verbose : Bool) (name : Text) (value : Option Text) :
    Except UsageError Bool :=
  let raised : Except UsageError Bool :=
    if name = "help".toList then .error .helpRequested
    else if name = "version".toList then .error .versionRequested
    else if verbose then .error .conflict
    else .ok true
  let known := name = "help".toList ∨ name = "version".toList ∨
    name = "verbose".toList
  if ¬ known then .error .unknownArgument
  else if value.isSome then .error .unexpectedValue
  else raised

def readAfterDoubleDash (verbose : Bool) : List Text → Except UsageError Request
  | [] => .ok (.nothing verbose)
  | argument :: _ =>
      if argument = composeCommand ∨ argument = helpCommand then
        .error .unknownArgument
      else .error .unknownCommand

def readFrom (verbose : Bool) : List Text → Except UsageError Request
  | [] => .ok (.nothing verbose)
  | argument :: rest =>
      if argument = composeCommand then do
        return .compose (← readCompose .empty .nothing rest)
      else if argument = helpCommand then .error (readHelp rest)
      else
        match ArgumentShape.ofText argument with
        | .doubleDash => readAfterDoubleDash verbose rest
        | .long name value => do
            readFrom (← readGlobalLong verbose name value) rest
        | .short letters => do
            readFrom (← readGlobalLetters verbose letters) rest
        | .plain => .error .unknownCommand

def read (arguments : List Text) : Except UsageError Request :=
  readFrom false arguments

end QueryAssembly.CommandLine
