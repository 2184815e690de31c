import Mathlib.Data.List.Chain
import QueryAssembly.Proofs.Selection.Forest

namespace QueryAssembly

/-! The scopes of a selection tree as a stack. Steps keep the root at its bottom,
and every later frame is an object among the selections of the frame before it. -/

namespace SelectionTree

def selections (tree : SelectionTree) : Scope → List NodeId
  | .root => tree.root
  | .object id => ((tree.node? id).bind SelectionNode.children?).getD []

/-- Whether a scope is that of an object directly in another one. -/
def Encloses (tree : SelectionTree) (outer : Scope) : Scope → Prop
  | .root => False
  | .object id => id ∈ tree.selections outer ∧
      ∃ header children, tree.node? id = some (.object header children)

theorem selections_object {tree : SelectionTree} {id : NodeId}
    {header : SelectionHeader} {children : List NodeId}
    (found : tree.nodes[id]? = some (.object header children)) :
    tree.selections (.object id) = children := by
  rw [selections, node?, found]
  rfl

theorem isChain_encloses {tree : SelectionTree} {path ids : List NodeId}
    {first last : Nat} (opens : Opens tree.nodes path ids first last)
    {outer : Scope} (within : tree.selections outer = ids) :
    (outer :: path.map Scope.object).IsChain tree.Encloses := by
  induction opens generalizing outer with
  | here _ => exact .singleton _
  | @inside front path children first parent last header before found inner
      induction =>
      have enclosed : tree.Encloses outer (.object parent) := by
        refine ⟨?_, header, children, found⟩
        rw [within]
        exact List.mem_append_right _ List.mem_cons_self
      exact .cons_cons enclosed (induction (selections_object found))

namespace InOrder

variable {tree : SelectionTree}

theorem head?_scopes (ordered : tree.InOrder) :
    tree.scopes.head? = some .root := by
  rcases ordered with ⟨path, along⟩
  rw [along.framed, List.head?_cons]

theorem isChain_scopes (ordered : tree.InOrder) :
    tree.scopes.IsChain tree.Encloses := by
  rcases ordered with ⟨path, along⟩
  rw [along.framed]
  exact isChain_encloses along.opens rfl

end InOrder

end SelectionTree

end QueryAssembly
