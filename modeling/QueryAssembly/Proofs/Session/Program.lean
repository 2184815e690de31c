import QueryAssembly.Proofs.Selection.Scope
import QueryAssembly.Proofs.Session.Invariant

namespace QueryAssembly

/-! Steps as programs that change a session assignment by assignment. Each checks
all that can fail before it assigns anything, so a failed step changes nothing. -/

theorem putEntry_putEntry {α : Type u} (key : Text) (first second : α)
    (entries : List (Text × α)) :
    putEntry key second (putEntry key first entries) =
      putEntry key second entries := by
  induction entries with
  | nil => simp [putEntry]
  | cons entry rest induction =>
      rcases entry with ⟨other, held⟩
      by_cases same : other = key
      · simp [putEntry, same]
      · simp [putEntry, same, induction]

theorem Registry.insert_insert {α : Type u} (registry : Registry α) (key : Text)
    (first second : α) :
    (registry.insert key first).insert key second = registry.insert key second := by
  simp only [Registry.insert, putEntry_putEntry]

namespace Session

/-- A program that works on a session. What it has assigned before it fails stays
assigned. -/
abbrev Program (α : Type) := ExceptT ComposeError (StateM Session) α

namespace Program

def runOn {α : Type} (program : Program α) (session : Session) :
    Except ComposeError α × Session :=
  Id.run (StateT.run (ExceptT.run program) session)

section Running

variable {α β : Type} (session : Session)

@[simp] theorem runOn_pure (value : α) :
    runOn (pure value) session = (.ok value, session) := rfl

@[simp] theorem runOn_get : runOn get session = (.ok session, session) := rfl

@[simp] theorem runOn_set (next : Session) :
    runOn (set next) session = (.ok ⟨⟩, next) := rfl

@[simp] theorem runOn_modify (change : Session → Session) :
    runOn (modify change) session = (.ok ⟨⟩, change session) := rfl

@[simp] theorem runOn_bind (first : Program α) (next : α → Program β) :
    runOn (first >>= next) session =
      match first.runOn session with
      | (.ok value, reached) => (next value).runOn reached
      | (.error cause, reached) => (.error cause, reached) := by
  have unfolded : runOn (first >>= next) session =
      match first.runOn session with
      | (outcome, reached) =>
          (ExceptT.bindCont next outcome : StateM Session _) reached := rfl
  rw [unfolded]
  rcases first.runOn session with ⟨outcome, reached⟩
  cases outcome <;> rfl

end Running

/-! Programs that leave the session as it was when they fail. -/

def Quiet {α : Type} (program : Program α) : Prop :=
  ∀ session, (program.runOn session).2 = session

def Sure {α : Type} (program : Program α) : Prop :=
  ∀ session, ∃ value, (program.runOn session).1 = .ok value

/-- A program that has assigned nothing when it fails. -/
def Careful {α : Type} (program : Program α) : Prop :=
  ∀ session cause after, program.runOn session = (.error cause, after) →
    after = session

section Care

variable {α β : Type} {first : Program α} {next : α → Program β}

theorem sure_pure (value : α) : Sure (pure value) := fun _ => ⟨value, rfl⟩

theorem sure_modify (change : Session → Session) : Sure (modify change) :=
  fun _ => ⟨⟨⟩, rfl⟩

theorem Sure.careful (sure : Sure first) : Careful first := by
  intro session cause after failed
  rcases sure session with ⟨value, done⟩
  rw [failed] at done
  cases done

theorem Sure.bind (sure : Sure first) (sureNext : ∀ value, Sure (next value)) :
    Sure (first >>= next) := by
  intro session
  rcases sure session with ⟨value, done⟩
  rw [runOn_bind]
  rcases outcome : first.runOn session with ⟨result, reached⟩
  rw [outcome] at done
  cases done
  exact sureNext value reached

theorem Quiet.bind_careful (quiet : Quiet first)
    (carefulNext : ∀ value, Careful (next value)) : Careful (first >>= next) := by
  intro session cause after failed
  have same := quiet session
  rw [runOn_bind] at failed
  rcases outcome : first.runOn session with ⟨result, reached⟩
  rw [outcome] at failed same
  cases same
  cases result with
  | ok value => exact carefulNext value _ _ _ failed
  | error _ =>
      cases failed
      rfl

end Care

/-! The steps as programs. -/

def load (text : Text) : Program Unit := do
  modify fun session => { session with document := text.trim }
  modify fun session => { session with operation := none }

def start (kind : OperationKind) (name : Option Text) : Program Unit := do
  modify fun session => { session with document := [] }
  modify fun session => { session with operation := some (.start kind name) }

def read (disk : Disk) (kind : SourceKind) (path : Path) : Program Text :=
  match disk.read path with
  | .ok text => pure text
  | .error cause => throw (.ofReadError kind cause)

def setVariables (values : List (Text × Json)) : Program Unit :=
  forM values fun entry => modify fun session =>
    { session with
      variableValues := session.variableValues.insert entry.1 entry.2 }

def ensureEntry (field : Text) : Program Unit := do
  let session ← get
  if session.directives.get? field = none then
    set { session with directives := session.directives.insert field ⟨field, []⟩ }
  else
    pure ()

def addDirective (field : Text) (directive : Directive) : Program Unit := do
  ensureEntry field
  modify fun session =>
    match session.directives.get? field with
    | none => session
    | some held =>
        { session with
          directives := session.directives.insert field
            { held with directives := held.directives ++ [directive] } }

def ensureOperation : Program Unit := do
  let session ← get
  if session.operation.isNone then start .query none else pure ()

def alterTree (change : SelectionTree → SelectionTree) : Program Unit := do
  ensureOperation
  modify fun session =>
    { session with
      operation := session.operation.map fun operation =>
        { operation with tree := change operation.tree } }

def closeObject : Program Unit := do
  let session ← get
  match session.operation with
  | none => throw .unbalancedScope
  | some operation =>
      if operation.tree.scopes.length ≤ 1 then throw .unbalancedScope
      else
        let tree := { operation.tree with scopes := operation.tree.scopes.dropLast }
        set { session with operation := some { operation with tree := tree } }

def build : Program ComposedQuery := do
  let session ← get
  match session.build with
  | .ok composed => pure composed
  | .error cause => throw cause

def silently (program : Program Unit) : Program (Option ComposedQuery) := do
  program
  return none

def carryOut (disk : Disk) : SessionStep → Program (Option ComposedQuery)
  | .load text => silently (load text)
  | .loadFile path => silently (read disk .query path >>= load)
  | .setVariables values => silently (setVariables values)
  | .define definition => silently (modify (Session.define · definition))
  | .addFragment name body => silently (modify (Session.addFragment · name body))
  | .addFragmentFile name path => silently (do
      let text ← read disk (.fragment name) path
      modify (Session.addFragment · name text.trim))
  | .addAlias added => silently (modify (Session.addAlias · added))
  | .addDirective field directive => silently (addDirective field directive)
  | .start kind name => silently (start kind name)
  | .addField header => silently (alterTree fun tree => (tree.addField header).1)
  | .openObject header => silently (alterTree fun tree => (tree.openObject header).1)
  | .closeObject => silently closeObject
  | .reset => silently (set (∅ : Session))
  | .build => build >>= fun composed => pure (some composed)

def answer : Except ComposeError (Option ComposedQuery) → StepResult
  | .ok none => .done
  | .ok (some composed) => .built composed
  | .error cause => .failed cause

/-! No step fails after it has assigned something, and each comes to what the session
comes to. -/

section Steps

theorem sure_load (text : Text) : Sure (load text) :=
  (sure_modify _).bind fun _ => sure_modify _

theorem sure_start (kind : OperationKind) (name : Option Text) :
    Sure (start kind name) :=
  (sure_modify _).bind fun _ => sure_modify _

theorem quiet_read (disk : Disk) (kind : SourceKind) (path : Path) :
    Quiet (read disk kind path) := by
  intro session
  rw [read]
  split <;> rfl

theorem sure_setVariables (values : List (Text × Json)) :
    Sure (setVariables values) := by
  induction values with
  | nil => exact sure_pure _
  | cons entry values induction => exact (sure_modify _).bind fun _ => induction

theorem sure_ensureEntry (field : Text) : Sure (ensureEntry field) := by
  intro session
  simp only [ensureEntry, runOn_bind, runOn_get]
  split <;> exact ⟨_, rfl⟩

theorem sure_ensureOperation : Sure ensureOperation := by
  intro session
  simp only [ensureOperation, runOn_bind, runOn_get]
  split
  · exact sure_start .query none session
  · exact ⟨_, rfl⟩

theorem Careful.silently {program : Program Unit} (careful : Careful program) :
    Careful (silently program) := by
  intro session cause after failed
  rw [Program.silently, runOn_bind] at failed
  rcases outcome : program.runOn session with ⟨result, reached⟩
  rw [outcome] at failed
  cases result with
  | ok value => cases failed
  | error _ =>
      cases failed
      exact careful session _ _ outcome

theorem careful_closeObject : Careful closeObject := by
  intro session cause after failed
  simp only [closeObject, runOn_bind, runOn_get] at failed
  split at failed
  · cases failed
    rfl
  · split at failed <;> cases failed
    rfl

theorem quiet_build : Quiet build := by
  intro session
  simp only [build, runOn_bind, runOn_get]
  split <;> rfl

theorem careful_carryOut (disk : Disk) (step : SessionStep) :
    Careful (carryOut disk step) := by
  cases step with
  | load text => exact (sure_load text).careful.silently
  | loadFile path =>
      exact ((quiet_read disk .query path).bind_careful fun text =>
        (sure_load text).careful).silently
  | setVariables values => exact (sure_setVariables values).careful.silently
  | define definition => exact (sure_modify _).careful.silently
  | addFragment name body => exact (sure_modify _).careful.silently
  | addFragmentFile name path =>
      exact ((quiet_read disk (.fragment name) path).bind_careful fun _ =>
        (sure_modify _).careful).silently
  | addAlias added => exact (sure_modify _).careful.silently
  | addDirective field directive =>
      exact ((sure_ensureEntry field).bind fun _ =>
        sure_modify _).careful.silently
  | start kind name => exact (sure_start kind name).careful.silently
  | addField header =>
      exact (sure_ensureOperation.bind fun _ => sure_modify _).careful.silently
  | openObject header =>
      exact (sure_ensureOperation.bind fun _ => sure_modify _).careful.silently
  | closeObject => exact careful_closeObject.silently
  | reset => exact Careful.silently fun _ _ _ failed => by cases failed
  | build => exact quiet_build.bind_careful fun _ => (sure_pure _).careful

theorem runOn_read (disk : Disk) (kind : SourceKind) (path : Path)
    (session : Session) :
    (read disk kind path).runOn session =
      ((disk.read path).mapError (.ofReadError kind), session) := by
  rw [read]
  cases disk.read path <;> rfl

theorem runOn_setVariables (values : List (Text × Json)) (session : Session) :
    (setVariables values).runOn session =
      (.ok ⟨⟩, session.setVariables values) := by
  induction values generalizing session with
  | nil => rfl
  | cons entry values induction =>
      rw [setVariables, List.forM_cons, runOn_bind, runOn_modify]
      exact induction _

theorem runOn_addDirective {session : Session} (sound : session.Sound)
    (field : Text) (directive : Directive) :
    (addDirective field directive).runOn session =
      (.ok ⟨⟩, session.addDirective field directive) := by
  simp only [addDirective, ensureEntry, runOn_bind, runOn_get,
    Session.addDirective, DirectiveRegistry.add]
  cases held : session.directives.get? field with
  | none => simp [Registry.get?_insert, Registry.insert_insert]
  | some entry =>
      have own := (sound.directives _ (Registry.get?_eq_some_iff.mp held)).1
      rcases entry with ⟨other, directives⟩
      cases own
      simp [held]

theorem runOn_alterTree (change : SelectionTree → SelectionTree)
    (session : Session) :
    (alterTree change).runOn session =
      (.ok ⟨⟩, session.alterTree change) := by
  rw [Session.alterTree]
  simp only [alterTree, ensureOperation, runOn_bind, runOn_get]
  cases given : session.operation with
  | none => simp [start]
  | some operation => simp [given]

theorem runOn_closeObject (session : Session) :
    closeObject.runOn session =
      match session.closeObject with
      | .ok closed => (.ok ⟨⟩, closed)
      | .error cause => (.error cause, session) := by
  simp only [closeObject, runOn_bind, runOn_get, Session.closeObject]
  cases session.operation with
  | none => rfl
  | some operation =>
      simp only [SelectionTree.closeObject]
      split <;> rfl

theorem runOn_build (session : Session) :
    build.runOn session = (session.build, session) := by
  simp only [build, runOn_bind, runOn_get]
  cases session.build <;> rfl

theorem perform_eq {session : Session} (sound : session.Sound) (disk : Disk)
    (step : SessionStep) :
    session.perform disk step =
      (((carryOut disk step).runOn session).2,
        answer ((carryOut disk step).runOn session).1) := by
  cases step with
  | load text => rfl
  | loadFile path =>
      simp only [Session.perform, Session.loadFile, carryOut, silently,
        runOn_bind, runOn_read]
      cases disk.read path <;> rfl
  | setVariables values =>
      simp only [carryOut, silently, runOn_bind, runOn_setVariables]
      rfl
  | define definition => rfl
  | addFragment name body => rfl
  | addFragmentFile name path =>
      simp only [Session.perform, Session.addFragmentFile, carryOut, silently,
        runOn_bind, runOn_read]
      cases disk.read path <;> rfl
  | addAlias added => rfl
  | addDirective field directive =>
      simp only [carryOut, silently, runOn_bind, runOn_addDirective sound]
      rfl
  | start kind name => rfl
  | addField header =>
      simp only [carryOut, silently, runOn_bind, runOn_alterTree]
      rfl
  | openObject header =>
      simp only [carryOut, silently, runOn_bind, runOn_alterTree]
      rfl
  | closeObject =>
      simp only [Session.perform, carryOut, silently, runOn_bind,
        runOn_closeObject]
      cases session.closeObject <;> rfl
  | reset => rfl
  | build =>
      simp only [Session.perform, carryOut, runOn_bind, runOn_build]
      cases session.build <;> rfl

end Steps

end Program

/-- Whatever steps led to a session, its parts fit together, the scopes of its
operation are those of objects inside one another, and a step that fails leaves
all of it as it was. -/
theorem reached_sound {session : Session} (reached : Reached session) :
    session.Sound ∧
      (∀ operation ∈ session.operation,
        operation.tree.scopes.head? = some .root ∧
        operation.tree.scopes.IsChain operation.tree.Encloses) ∧
      ∀ disk step,
        session.perform disk step =
          ((((Program.carryOut disk step).runOn session).2,
            Program.answer ((Program.carryOut disk step).runOn session).1)) ∧
        ∀ cause, (session.perform disk step).2 = .failed cause →
          ((Program.carryOut disk step).runOn session).2 = session := by
  have sound := reached.sound
  refine ⟨sound, fun operation member => ?_, fun disk step =>
    ⟨Program.perform_eq sound disk step, fun cause failed => ?_⟩⟩
  · have ordered := sound.ordered operation member
    exact ⟨ordered.head?_scopes, ordered.isChain_scopes⟩
  · rw [Program.perform_eq sound] at failed
    rcases outcome : (Program.carryOut disk step).runOn session with
      ⟨result, after⟩
    rw [outcome] at failed
    rcases result with cause' | answered
    · exact Program.careful_carryOut disk step session _ _ outcome
    · cases answered <;> cases failed

def blankDisk : Disk := .blank []

def closedUser : SelectionHeader := ⟨"user".toList, ∅, none⟩

def closedSession : Session :=
  ((((∅ : Session).perform blankDisk (.load "\x7b stale \x7d".toList)).1.perform
    blankDisk (.openObject closedUser)).1.perform blankDisk .closeObject).1

theorem reached_sound_closed :
    Reached closedSession ∧ closedSession.Sound ∧
      (closedSession.perform blankDisk .closeObject).2 =
        .failed .unbalancedScope ∧
      ((Program.carryOut blankDisk .closeObject).runOn closedSession).2 =
        closedSession := by
  have reached : Reached closedSession :=
    .step blankDisk _ (.step blankDisk _ (.step blankDisk _ .start))
  have failed : (closedSession.perform blankDisk .closeObject).2 =
      .failed .unbalancedScope := rfl
  rcases reached_sound reached with ⟨sound, _, steps⟩
  exact ⟨reached, sound, failed, (steps blankDisk .closeObject).2 _ failed⟩

end Session

end QueryAssembly
