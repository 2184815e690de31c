import QueryAssembly.Field.Occurrence

namespace QueryAssembly

/-! Aliases and directives are given by field name and change the first
occurrence of that field. The occurrence, with its argument list, is replaced
by what the registries say alone; later occurrences stay as they are. -/

structure FieldAlias where
  field : Text
  aliasName : Text
  arguments : Arguments

structure Directive where
  name : Text
  arguments : Arguments

structure FieldDirectives where
  field : Text
  directives : List Directive

/-! At most one alias is kept for a field. -/

abbrev AliasRegistry := Registry FieldAlias

abbrev DirectiveRegistry := Registry FieldDirectives

namespace AliasRegistry

def add (aliases : AliasRegistry) (added : FieldAlias) : AliasRegistry :=
  Registry.insert aliases added.field added

end AliasRegistry

namespace DirectiveRegistry

def add (registry : DirectiveRegistry) (field : Text) (directive : Directive) :
    DirectiveRegistry :=
  let held := match registry.get? field with
    | some held => held.directives
    | none => []
  Registry.insert registry field ⟨field, held ++ [directive]⟩

end DirectiveRegistry

namespace Directive

def render (directive : Directive) : Text :=
  '@' :: directive.name ++ Arguments.render directive.arguments

end Directive

namespace FieldAttachment

/-- What replaces a field: its alias, its name, the arguments of the alias, and
its directives. -/
def replacement (field : Text) (given : Option FieldAlias)
    (annotated : Option FieldDirectives) : Text :=
  let named := match given with
    | some given =>
        given.aliasName ++ ':' :: ' ' :: field ++ Arguments.render given.arguments
    | none => field
  let directives := match annotated with
    | some annotated => annotated.directives
    | none => []
  named ++ directives.flatMap fun directive => ' ' :: directive.render

def applyTo (aliases : AliasRegistry) (directives : DirectiveRegistry)
    (document field : Text) : Except Fault Text := do
  match ← FieldOccurrence.first? document field with
  | none => return document
  | some occurrence =>
      let before ← document.before occurrence.start
      let after ← document.onward occurrence.stop
      return before ++
        replacement field (aliases.get? field) (directives.get? field) ++ after

/-- The fields to change: those with an alias, then those with directives
alone. -/
def fields (aliases : AliasRegistry) (directives : DirectiveRegistry) :
    List Text :=
  aliases.keys ++ directives.keys.filter fun field => !aliases.contains field

def apply (document : Text) (aliases : AliasRegistry)
    (directives : DirectiveRegistry) : Except Fault Text :=
  (fields aliases directives).foldlM (applyTo aliases directives) document

end FieldAttachment

end QueryAssembly
