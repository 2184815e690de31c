import QueryAssembly.Json.Reader
import QueryAssembly.Text.Blank
import QueryAssembly.Text.Split
import QueryAssembly.Variable.Definition

namespace QueryAssembly.CommandLine

/-! The values of options. A value that does not have the form its option asks
for is refused with a message that quotes it. Where JSON was asked for, the message
ends in what the JSON reader itself says about the text it refused; `explain` stands
for its words. -/

inductive ValueError
  | notNamed (given : Text)
  | notDeclaration (given : Text)
  | defaultNotJson (default : Text)
  | variablesNotObject (given : Text)
  deriving DecidableEq, Repr

namespace ValueError

def inQuotes (given : Text) : Text := '\x60' :: given ++ ['\x60']

/-- The message without the words of the JSON reader. -/
def summary : ValueError → Text
  | .notNamed given =>
      "expected ".toList ++ inQuotes "NAME=VALUE".toList ++ ", got ".toList ++
        inQuotes given
  | .notDeclaration given =>
      "expected ".toList ++ inQuotes "NAME:TYPE[=JSON_DEFAULT]".toList ++
        ", got ".toList ++ inQuotes given
  | .defaultNotJson default =>
      "invalid JSON default ".toList ++ inQuotes default
  | .variablesNotObject _ => "expected a JSON object of variables".toList

def message (explain : ValueError → Text) (cause : ValueError) : Text :=
  match cause with
  | .notNamed _ | .notDeclaration _ => cause.summary
  | .defaultNotJson _ | .variablesNotObject _ =>
      cause.summary ++ ": ".toList ++ explain cause

end ValueError

/-- How deep arrays and objects may be nested in JSON on the command line. -/
def jsonDepth : Nat := 127

def isBlankText (text : Text) : Bool := text.trim.isEmpty

/-- Read `NAME=VALUE`. The name loses its outer blanks, the value does not. -/
def readNamed (given : Text) : Except ValueError (Text × Text) :=
  match given.splitOnce '=' with
  | some (name, value) =>
      if isBlankText name then .error (.notNamed given)
      else .ok (Text.trim name, value)
  | none => .error (.notNamed given)

def readDeclaration (given declaration : Text) (default : Option Value) :
    Except ValueError VariableDefinition :=
  match declaration.splitOnce ':' with
  | some (name, typeText) =>
      if isBlankText name || isBlankText typeText then
        .error (.notDeclaration given)
      else
        .ok (.declare (Text.trim name) (Text.trim typeText) default)
  | none => .error (.notDeclaration given)

def readDefinition (given : Text) : Except ValueError VariableDefinition :=
  match given.splitOnce '=' with
  | some (declaration, default) =>
      match Json.ofText? jsonDepth default with
      | some json => readDeclaration given declaration (some (.ofJson json))
      | none => .error (.defaultNotJson default)
  | none => readDeclaration given given none

def readVariables (given : Text) : Except ValueError (List (Text × Json)) :=
  match Json.ofText? jsonDepth given with
  | some (.object members) => .ok members
  | _ => .error (.variablesNotObject given)

end QueryAssembly.CommandLine
