import QueryAssembly.Files.Disk
import QueryAssembly.Text.Utf8
import QueryAssembly.Number.Layout

namespace QueryAssembly

/-! Reading source files as text, exactly as stored. -/

inductive ReadError
  | notFound (path : Path)
  | notAFile (path : Path)
  | notText (path : Path) (content : List UInt8) (refusal : Utf8Refusal)
  deriving DecidableEq, Repr

namespace Utf8Refusal

def message (refusal : Utf8Refusal) : Text :=
  match refusal.length with
  | some length =>
      "invalid utf-8 sequence of ".toList ++ Text.ofNat length ++
        " bytes from index ".toList ++ Text.ofNat refusal.offset
  | none =>
      "incomplete utf-8 byte sequence from index ".toList ++
        Text.ofNat refusal.offset

end Utf8Refusal

namespace ReadError

def path : ReadError → Path
  | .notFound path => path
  | .notAFile path => path
  | .notText path _ _ => path

def message : ReadError → Text
  | .notFound path => "No file exists at ".toList ++ path
  | .notAFile path => "Path is not a file: ".toList ++ path
  | .notText path _ refusal =>
      "File at ".toList ++ path ++ " is not valid UTF-8: ".toList ++
        refusal.message

/-- Two errors are the same when they have one cause and their paths have the
same components. -/
def same : ReadError → ReadError → Bool
  | .notFound left, .notFound right => Path.same left right
  | .notAFile left, .notAFile right => Path.same left right
  | .notText left leftContent _, .notText right rightContent _ =>
      Path.same left right && leftContent == rightContent
  | _, _ => false

end ReadError

namespace Disk

/-- A path that leads nowhere counts as not found, whatever the reason. -/
def read (disk : Disk) (path : Path) : Except ReadError Text :=
  match disk.find path with
  | .error _ => .error (.notFound path)
  | .ok (.directory _) => .error (.notAFile path)
  | .ok (.file content) =>
      match Utf8.decode content with
      | .ok text => .ok text
      | .error refusal => .error (.notText path content refusal)

end Disk

end QueryAssembly
