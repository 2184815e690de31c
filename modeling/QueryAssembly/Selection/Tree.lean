import QueryAssembly.Error
import QueryAssembly.Value.Render

namespace QueryAssembly

/-! A selection tree under construction. Nodes are numbered in the order in
which they are added and refer to their children by number. What is still open is
kept as a stack of scopes, the innermost last. Its first frame is the root of the
tree, which is never closed; new nodes join the innermost scope. -/

abbrev NodeId := Nat

structure SelectionHeader where
  name : Text
  arguments : Arguments
  aliasName : Option Text

inductive SelectionNode
  | field (header : SelectionHeader)
  | object (header : SelectionHeader) (children : List NodeId)

namespace SelectionHeader

def render (header : SelectionHeader) : Text :=
  let name := header.name ++ Arguments.render header.arguments
  match header.aliasName with
  | some given => given ++ ':' :: ' ' :: name
  | none => name

end SelectionHeader

namespace SelectionNode

def header : SelectionNode → SelectionHeader
  | .field header => header
  | .object header _ => header

def children? : SelectionNode → Option (List NodeId)
  | .field _ => none
  | .object _ children => some children

def adopt (child : NodeId) : SelectionNode → SelectionNode
  | .field header => .field header
  | .object header children => .object header (children ++ [child])

end SelectionNode

inductive Scope
  | root
  | object (id : NodeId)
  deriving DecidableEq, Repr

structure SelectionTree where
  nodes : List SelectionNode
  root : List NodeId
  scopes : List Scope

namespace SelectionTree

def empty : SelectionTree := ⟨[], [], [.root]⟩

instance : EmptyCollection SelectionTree := ⟨empty⟩

def isEmpty (tree : SelectionTree) : Bool := tree.root.isEmpty

def openDepth (tree : SelectionTree) : Nat := tree.scopes.length - 1

def node? (tree : SelectionTree) (id : NodeId) : Option SelectionNode :=
  tree.nodes[id]?

def innermost (tree : SelectionTree) : Scope := tree.scopes.getLast?.getD .root

/-- Add a node to the innermost scope, and return its number. -/
def push (tree : SelectionTree) (node : SelectionNode) :
    SelectionTree × NodeId :=
  let id := tree.nodes.length
  let nodes := tree.nodes ++ [node]
  match tree.innermost with
  | .root => ({ tree with nodes := nodes, root := tree.root ++ [id] }, id)
  | .object parent =>
      ({ tree with nodes := nodes.modify parent (·.adopt id) }, id)

def addField (tree : SelectionTree) (header : SelectionHeader) :
    SelectionTree × NodeId :=
  tree.push (.field header)

def openObject (tree : SelectionTree) (header : SelectionHeader) :
    SelectionTree × NodeId :=
  let (pushed, id) := tree.push (.object header [])
  ({ pushed with scopes := pushed.scopes ++ [.object id] }, id)

/-- Take the innermost scope from the stack, unless it is the root. -/
def closeObject (tree : SelectionTree) : Except ComposeError SelectionTree :=
  if tree.scopes.length ≤ 1 then .error .unbalancedScope
  else .ok { tree with scopes := tree.scopes.dropLast }

def indentation (depth : Nat) : Text := List.replicate (2 * depth) ' '

/-- Write the given nodes, each on lines of its own, with at most `height`
levels of nodes below one another. -/
def renderNodes (tree : SelectionTree) :
    (height depth : Nat) → List NodeId → Text
  | 0, _, _ => []
  | height + 1, depth, ids =>
      ids.flatMap fun id =>
        match tree.node? id with
        | none => []
        | some (.field header) =>
            indentation depth ++ header.render ++ ['\n']
        | some (.object header children) =>
            indentation depth ++ header.render ++ [' ', '\x7b', '\n'] ++
              tree.renderNodes height (depth + 1) children ++
              indentation depth ++ ['\x7d', '\n']

def render (tree : SelectionTree) (depth : Nat) : Text :=
  tree.renderNodes tree.nodes.length depth tree.root

end SelectionTree

end QueryAssembly
