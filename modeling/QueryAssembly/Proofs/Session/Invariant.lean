import QueryAssembly.Proofs.Selection.Forest
import QueryAssembly.Proofs.Session.FragmentFiles
import QueryAssembly.Session.Step

namespace QueryAssembly

/-! What holds of a session however it was reached: a document and an operation
never stand beside each other, what is registered is found under its own name, and
the nodes of the operation are in order. -/

namespace Session

structure Sound (session : Session) : Prop where
  document : session.operation.isSome → session.document = []
  ordered : ∀ operation ∈ session.operation, operation.tree.InOrder
  aliases : ∀ entry ∈ session.aliases.entries, entry.2.field = entry.1
  definitions : ∀ entry ∈ session.definitions.entries, entry.2.name = entry.1
  directives : ∀ entry ∈ session.directives.entries,
    entry.2.field = entry.1 ∧ entry.2.directives ≠ []

/-- The sessions that steps lead to. Between two steps the files may change. -/
inductive Reached : Session → Prop
  | start : Reached ∅
  | step {session : Session} (disk : Disk) (step : SessionStep) :
      Reached session → Reached (session.perform disk step).1

section Invariant

variable {session : Session}

theorem sound_empty : Sound ∅ where
  document _ := rfl
  ordered _ member := by cases member
  aliases _ member := by cases member
  definitions _ member := by cases member
  directives _ member := by cases member

theorem Sound.load (sound : session.Sound) (text : Text) :
    (session.load text).Sound :=
  { sound with
    document := fun started => by cases started
    ordered := fun _ member => by cases member }

theorem Sound.start (sound : session.Sound) (kind : OperationKind)
    (name : Option Text) : (session.start kind name).Sound :=
  { sound with
    document := fun _ => rfl
    ordered := fun operation member => by
      cases member
      exact SelectionTree.inOrder_empty }

theorem Sound.addAlias (sound : session.Sound) (added : FieldAlias) :
    (session.addAlias added).Sound :=
  { sound with
    aliases := forall_mem_putEntry (by rfl) sound.aliases }

theorem Sound.define (sound : session.Sound) (definition : VariableDefinition) :
    (session.define definition).Sound :=
  { sound with
    definitions := forall_mem_putEntry (by rfl) sound.definitions }

theorem Sound.addDirective (sound : session.Sound) (field : Text)
    (directive : Directive) : (session.addDirective field directive).Sound :=
  { sound with
    directives := forall_mem_putEntry ⟨rfl, by simp⟩ sound.directives }

theorem Sound.alterTree (sound : session.Sound)
    {change : SelectionTree → SelectionTree}
    (kept : ∀ tree : SelectionTree, tree.InOrder → (change tree).InOrder) :
    (session.alterTree change).Sound := by
  rw [Session.alterTree]
  split
  · next operation given =>
    refine { sound with
      document := fun _ => sound.document (by rw [given]; rfl)
      ordered := fun changed member => ?_ }
    cases member
    exact kept _ (sound.ordered operation given)
  · refine { sound with
      document := fun _ => rfl
      ordered := fun changed member => ?_ }
    cases member
    exact kept _ SelectionTree.inOrder_empty

theorem Sound.closeObject (sound : session.Sound) {closed : Session}
    (done : session.closeObject = .ok closed) : closed.Sound := by
  rw [Session.closeObject] at done
  split at done
  · cases done
  · next operation given =>
    split at done
    · cases done
    · next tree treeDone =>
      cases done
      refine { sound with
        document := fun _ => sound.document (by rw [given]; rfl)
        ordered := fun changed member => ?_ }
      cases member
      exact SelectionTree.inOrder_closeObject (sound.ordered operation given)
        treeDone

theorem Sound.settle (sound : session.Sound) {outcome : Except ComposeError Session}
    (kept : ∀ changed, outcome = .ok changed → changed.Sound) :
    (session.settle outcome).1.Sound := by
  cases outcome with
  | ok changed => exact kept changed rfl
  | error cause => exact sound

theorem Sound.perform (sound : session.Sound) (disk : Disk) (step : SessionStep) :
    (session.perform disk step).1.Sound := by
  cases step with
  | load text => exact sound.load text
  | loadFile path =>
      refine sound.settle fun changed loaded => ?_
      rw [loadFile] at loaded
      split at loaded <;> cases loaded
      exact sound.load _
  | setVariables values => exact { sound with }
  | define definition => exact sound.define definition
  | addFragment name body => exact { sound with }
  | addFragmentFile name path =>
      refine sound.settle fun changed added => ?_
      rw [addFragmentFile] at added
      split at added <;> cases added
      exact { sound with }
  | addAlias added => exact sound.addAlias added
  | addDirective field directive => exact sound.addDirective field directive
  | start kind name => exact sound.start kind name
  | addField header =>
      exact sound.alterTree fun _ ordered => SelectionTree.inOrder_push ordered rfl
  | openObject header =>
      exact sound.alterTree fun _ ordered =>
        SelectionTree.inOrder_openObject ordered header
  | closeObject => exact sound.settle fun _ done => sound.closeObject done
  | reset => exact sound_empty
  | build =>
      simp only [Session.perform]
      split <;> exact sound

theorem Reached.sound (reached : Reached session) : session.Sound := by
  induction reached with
  | start => exact sound_empty
  | step disk step _ induction => exact induction.perform disk step

end Invariant

end Session

end QueryAssembly
