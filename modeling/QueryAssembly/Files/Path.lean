import QueryAssembly.Text.Split

namespace QueryAssembly

/-! A path is kept as it was given, since messages show it that way. Its
components leave out repeated slashes and every dot but a leading one; two
paths with the same components are the same path. -/

abbrev Path := Text

namespace Path

inductive Component
  | root
  | current
  | parent
  | name (text : Text)
  deriving DecidableEq, Repr

def ofField (field : Text) : Option Component :=
  if field = [] ∨ field = ['.'] then none
  else if field = ['.', '.'] then some .parent
  else some (.name field)

def components (path : Path) : List Component :=
  let fields := Text.fields '/' path
  let leading :=
    if path.head? = some '/' then [Component.root]
    else if fields.head? = some ['.'] then [Component.current]
    else []
  leading ++ fields.filterMap ofField

def same (left right : Path) : Bool := left.components == right.components

def fileName (path : Path) : Option Text :=
  match path.components.getLast? with
  | some (.name name) => some name
  | _ => none

/-- A name split at its last dot, unless that dot comes first or the name has
none. -/
def splitExtension (name : Text) : Text × Option Text :=
  let extension := (name.reverse.takeWhile (· != '.')).reverse
  let stem := (name.reverse.dropWhile (· != '.')).reverse.dropLast
  if stem.isEmpty then (name, none) else (stem, some extension)

def entry (path : Path) (name : Text) : Path :=
  if path.getLast? = some '/' then path ++ name else path ++ '/' :: name

end Path

end QueryAssembly
