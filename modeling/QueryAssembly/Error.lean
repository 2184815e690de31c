import QueryAssembly.Files.Source

namespace QueryAssembly

/-! Why a composition fails. A file that cannot be loaded is reported together
with what it was to be loaded as. -/

inductive SourceKind
  | query
  | fragment (name : Text)
  deriving DecidableEq, Repr

inductive ComposeError
  /-- Fragments whose spreads were still being replaced after `passes` passes. -/
  | excessiveExpansion (passes : Nat) (unresolved : List Text)
  | emptySelection
  | sourceNotFound (kind : SourceKind) (path : Path)
  | sourceUnreadable (kind : SourceKind) (cause : ReadError)
  | unbalancedScope
  | fault (reason : Fault)
  deriving DecidableEq, Repr

namespace Fault

def message : Fault → Text
  | .offBoundary offset =>
      "No character begins at offset ".toList ++ Text.ofNat offset
  | .behindScanner offset =>
      "The scanner has already passed offset ".toList ++ Text.ofNat offset
  | .nothingOpen offset =>
      "No parenthesis is open at offset ".toList ++ Text.ofNat offset

end Fault

namespace SourceKind

def describe : SourceKind → Text
  | .query => "query".toList
  | .fragment name => "fragment \x60".toList ++ name ++ "\x60".toList

end SourceKind

namespace ComposeError

def ofReadError (kind : SourceKind) : ReadError → ComposeError
  | .notFound path => .sourceNotFound kind path
  | cause => .sourceUnreadable kind cause

def spreadList : List Text → Text
  | [] => "<none detected>".toList
  | names => Text.joined [',', ' '] (names.map ("...".toList ++ ·))

def message : ComposeError → Text
  | .excessiveExpansion passes unresolved =>
      "Fragment resolution did not settle after ".toList ++ Text.ofNat passes ++
        " passes; spreads still expanding: ".toList ++ spreadList unresolved
  | .emptySelection => "No fluent operation or selections defined".toList
  | .sourceNotFound kind path =>
      "GraphQL ".toList ++ kind.describe ++ " file not found: ".toList ++ path
  | .sourceUnreadable kind cause =>
      "Failed to read GraphQL ".toList ++ kind.describe ++ " file ".toList ++
        cause.path ++ ": ".toList ++ cause.message
  | .unbalancedScope =>
      "Cannot call end() - no nested selection to close".toList
  | .fault reason => reason.message

end ComposeError

end QueryAssembly
