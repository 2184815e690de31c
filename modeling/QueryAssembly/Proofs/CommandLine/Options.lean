import Mathlib.Data.List.Forall2
import QueryAssembly.CommandLine.Reader
import QueryAssembly.Error

namespace QueryAssembly

/-! Which options a command line gives, read from its arguments alone. A command
line that is accepted asks for the sources of the document and of fragments that
its options name, in the order in which they are given. -/

namespace Text

variable {separator : Char} {text before after : Text}

theorem splitOnce_eq_some_iff :
    splitOnce separator text = some (before, after) ↔
      text = before ++ separator :: after ∧ separator ∉ before := by
  induction text generalizing before with
  | nil => simp [splitOnce]
  | cons char rest induction =>
      rw [splitOnce]
      split
      · next found =>
        subst found
        rw [Option.some_inj, Prod.mk.injEq]
        constructor
        · rintro ⟨rfl, rfl⟩
          exact ⟨rfl, List.not_mem_nil⟩
        · rintro ⟨text_eq, absent⟩
          cases before with
          | nil => exact ⟨rfl, (List.cons.inj text_eq).2⟩
          | cons first others =>
              rw [List.cons_append, List.cons.injEq] at text_eq
              exact absurd (by simp [text_eq.1]) absent
      · next different =>
        rw [Option.map_eq_some_iff]
        constructor
        · rintro ⟨⟨inner, later⟩, found, same⟩
          rw [Prod.mk.injEq] at same
          rcases same with ⟨rfl, rfl⟩
          rcases induction.mp found with ⟨rfl, absent⟩
          refine ⟨rfl, ?_⟩
          rw [List.mem_cons, not_or]
          exact ⟨Ne.symm different, absent⟩
        · rintro ⟨text_eq, absent⟩
          cases before with
          | nil => exact absurd (List.cons.inj text_eq).1 different
          | cons first inner =>
              rw [List.cons_append, List.cons.injEq] at text_eq
              rw [List.mem_cons, not_or] at absent
              exact ⟨(inner, after), induction.mpr ⟨text_eq.2, absent.2⟩,
                by rw [text_eq.1]⟩

theorem splitOnce_eq_none_iff :
    splitOnce separator text = none ↔ separator ∉ text := by
  induction text with
  | nil => simp [splitOnce]
  | cons char rest induction =>
      rw [splitOnce, List.mem_cons, not_or, ← induction]
      split
      · next found => simp [found]
      · next different => simp [Ne.symm different]

end Text

namespace CommandLine

theorem eq_ok_of_mapError {α β γ : Type} {result : Except α γ} {cause : α → β}
    {found : γ} (mapped : result.mapError cause = .ok found) :
    result = .ok found := by
  cases result with
  | error => cases mapped
  | ok other =>
      obtain rfl := Except.ok.inj mapped
      rfl

/-- A text of the form `NAME=VALUE`, with or without blanks around the name. -/
def Names (given name value : Text) : Prop :=
  ∃ front, given = front ++ '=' :: value ∧ '=' ∉ front ∧ name = front.trim

theorem names_of_readNamed {given : Text} {named : Text × Text}
    (read : readNamed given = .ok named) : Names given named.1 named.2 := by
  rw [readNamed] at read
  split at read
  · next front value split_eq =>
    split at read
    · cases read
    · obtain rfl := Except.ok.inj read
      rcases Text.splitOnce_eq_some_iff.mp split_eq with ⟨given_eq, absent⟩
      exact ⟨front, given_eq, absent, rfl⟩
  · cases read

/-- The options among arguments with their values, where the first argument may
be the value of an option before it. -/
def optionsFrom : Option ValueOption → List Text → List (ValueOption × Text)
  | _, [] => []
  | some option, argument :: rest => (option, argument) :: optionsFrom none rest
  | none, argument :: rest =>
      match ArgumentShape.ofText argument with
      | .long name (some value) =>
          ((ValueOption.ofName? name).map fun option => (option, value)).toList ++
            optionsFrom none rest
      | .long name none => optionsFrom (ValueOption.ofName? name) rest
      | _ => optionsFrom none rest

def givenOptions (arguments : List Text) : List (ValueOption × Text) :=
  optionsFrom none (arguments.dropWhile (· != composeCommand)).tail

def valuesOf (option : ValueOption) (options : List (ValueOption × Text)) :
    List Text :=
  options.filterMap fun given => if given.1 = option then some given.2 else none

def Pending.options (arguments : List Text) : Pending → List (ValueOption × Text)
  | .nothing => optionsFrom none arguments
  | .awaiting option => optionsFrom (some option) arguments
  | .holding option value => (option, value) :: optionsFrom none arguments

namespace ComposeRequest

/-- A request asks for the sources that options name. -/
structure Carries (request : ComposeRequest)
    (options : List (ValueOption × Text)) : Prop where
  queryFile : request.queryFile.toList = valuesOf .queryFile options
  directories :
    request.fragmentDirectories = valuesOf .fragmentDirectory options
  extensions : request.extensions =
    if valuesOf .extensions options = [] then none
    else some ((valuesOf .extensions options).flatMap (Text.fields ','))
  files : List.Forall₂ (fun given named => readNamed given = .ok named)
    (valuesOf .fragmentFile options) request.fragmentFiles
  fragments : List.Forall₂ (fun given named => readNamed given = .ok named)
    (valuesOf .fragment options) request.fragments

section Reading

variable {request next : ComposeRequest} {options : List (ValueOption × Text)}
  {option : ValueOption} {value : Text}

theorem valuesOf_concat (asked : ValueOption)
    (options : List (ValueOption × Text)) (option : ValueOption) (value : Text) :
    valuesOf asked (options ++ [(option, value)]) =
      valuesOf asked options ++ if option = asked then [value] else [] := by
  rw [valuesOf, valuesOf, List.filterMap_append]
  split <;> simp_all

/-! Each part of the reader takes in the options it reads and leaves the others as they
were. -/

theorem Carries.empty : ComposeRequest.empty.Carries [] :=
  ⟨rfl, rfl, rfl, .nil, .nil⟩

theorem nonEmptyPath_eq_ok {path : Path}
    (accepted : nonEmptyPath value = .ok path) : path = value := by
  rw [nonEmptyPath] at accepted
  split at accepted
  · cases accepted
  · exact (Except.ok.inj accepted).symm

theorem Carries.accept (carries : request.Carries options)
    (accepted : request.accept value option = .ok next) :
    next.Carries (options ++ [(option, value)]) := by
  rcases carries with ⟨queryFile, directories, extensions, files, fragments⟩
  cases option
  case fieldAlias | defineVariable | directive =>
    rcases bind_eq_ok_iff.mp accepted with ⟨_, _, returned⟩
    obtain rfl := Except.ok.inj returned
    constructor <;> simpa [valuesOf_concat]
  case query =>
    rw [ComposeRequest.accept] at accepted
    split at accepted
    · cases accepted
    · obtain rfl := Except.ok.inj accepted
      constructor <;> simpa [valuesOf_concat]
  case variableValues =>
    rw [ComposeRequest.accept] at accepted
    split at accepted
    · cases accepted
    · rcases bind_eq_ok_iff.mp accepted with ⟨_, _, returned⟩
      obtain rfl := Except.ok.inj returned
      constructor <;> simpa [valuesOf_concat]
  case queryFile =>
    rw [ComposeRequest.accept] at accepted
    split at accepted
    · cases accepted
    · next none =>
      rcases bind_eq_ok_iff.mp accepted with ⟨path, read, returned⟩
      obtain rfl := Except.ok.inj returned
      rw [Bool.not_eq_true, Option.isSome_eq_false_iff, Option.isNone_iff_eq_none]
        at none
      rw [none] at queryFile
      obtain rfl := nonEmptyPath_eq_ok read
      constructor
      case queryFile =>
        rw [valuesOf_concat, ← queryFile]
        rfl
      all_goals simpa [valuesOf_concat]
  case fragmentDirectory =>
    rcases bind_eq_ok_iff.mp accepted with ⟨path, read, returned⟩
    obtain rfl := Except.ok.inj returned
    obtain rfl := nonEmptyPath_eq_ok read
    constructor <;> simpa [valuesOf_concat]
  case extensions =>
    obtain rfl := Except.ok.inj accepted
    constructor
    case extensions =>
      rw [extensions, valuesOf_concat]
      by_cases none : valuesOf .extensions options = []
      · simp [none]
      · simp [none]
    all_goals simpa [valuesOf_concat]
  case fragmentFile =>
    rcases bind_eq_ok_iff.mp accepted with ⟨named, read, returned⟩
    obtain rfl := Except.ok.inj returned
    constructor
    case files =>
      rw [valuesOf_concat, if_pos rfl]
      exact List.rel_append files (.cons (eq_ok_of_mapError read) .nil)
    all_goals simpa [valuesOf_concat]
  case fragment =>
    rcases bind_eq_ok_iff.mp accepted with ⟨named, read, returned⟩
    obtain rfl := Except.ok.inj returned
    constructor
    case fragments =>
      rw [valuesOf_concat, if_pos rfl]
      exact List.rel_append fragments (.cons (eq_ok_of_mapError read) .nil)
    all_goals simpa [valuesOf_concat]

theorem Carries.raise (carries : request.Carries options) {flag : Flag}
    (raised : request.raise flag = .ok next) : next.Carries options := by
  rcases carries with ⟨queryFile, directories, extensions, files, fragments⟩
  cases flag
  case help => cases raised
  case queryOnly | verbose =>
    rw [ComposeRequest.raise] at raised
    split at raised
    · cases raised
    · obtain rfl := Except.ok.inj raised
      exact ⟨queryFile, directories, extensions, files, fragments⟩

theorem optionsFrom_nil (before : Option ValueOption) :
    optionsFrom before [] = [] := by
  cases before <;> rfl

theorem Carries.settle (carries : request.Carries options) {pending : Pending}
    (settled : request.settle pending = .ok next) :
    ∃ held, next.Carries (options ++ held) ∧
      ∀ arguments, pending.options arguments = held ++ optionsFrom none arguments := by
  cases pending with
  | nothing =>
      obtain rfl := Except.ok.inj settled
      exact ⟨[], by rwa [List.append_nil], fun _ => rfl⟩
  | awaiting option => cases settled
  | holding option value =>
      exact ⟨[(option, value)], carries.accept settled, fun _ => rfl⟩

theorem Carries.readLetters (carries : request.Carries options)
    {pending : Pending} {letters : Text}
    (read : readLetters request pending letters = .ok next) :
    ∃ held, next.Carries (options ++ held) ∧
      ∀ arguments, pending.options arguments = held ++ optionsFrom none arguments := by
  induction letters generalizing request options pending with
  | nil => exact carries.settle read
  | cons letter letters induction =>
      rw [CommandLine.readLetters] at read
      split at read
      · cases read
      · rcases bind_eq_ok_iff.mp read with ⟨settled, settle, onward⟩
        rcases bind_eq_ok_iff.mp onward with ⟨raised, raise, rest⟩
        rcases carries.settle settle with ⟨held, carriesHeld, options_eq⟩
        rcases induction (carriesHeld.raise raise) rest with
          ⟨more, carriesMore, more_eq⟩
        have none := more_eq []
        rw [Pending.options, optionsFrom_nil, List.append_nil] at none
        rw [← none, List.append_nil] at carriesMore
        exact ⟨held, carriesMore, options_eq⟩

theorem Carries.readLong (carries : request.Carries options)
    {pending later : Pending} {name : Text} {given : Option Text}
    (read : readLong request pending name given = .ok (next, later)) :
    ∃ held, next.Carries (options ++ held) ∧ ∀ argument arguments,
      ArgumentShape.ofText argument = .long name given →
        pending.options (argument :: arguments) =
          held ++ later.options arguments := by
  unfold CommandLine.readLong at read
  split at read
  · next option value known =>
    rcases bind_eq_ok_iff.mp read with ⟨settled, settle, onward⟩
    rcases bind_eq_ok_iff.mp onward with ⟨accepted, accept, returned⟩
    obtain ⟨rfl, rfl⟩ := Prod.mk.inj (Except.ok.inj returned)
    rcases carries.settle settle with ⟨held, carriesHeld, options_eq⟩
    refine ⟨held ++ [(option, value)], ?_, fun argument arguments shape => ?_⟩
    · rw [← List.append_assoc]
      exact carriesHeld.accept accept
    · rw [options_eq, optionsFrom, shape]
      simp [known, Pending.options]
  · next option known =>
    rcases bind_eq_ok_iff.mp read with ⟨settled, settle, returned⟩
    obtain ⟨rfl, rfl⟩ := Prod.mk.inj (Except.ok.inj returned)
    rcases carries.settle settle with ⟨held, carriesHeld, options_eq⟩
    refine ⟨held, carriesHeld, fun argument arguments shape => ?_⟩
    rw [options_eq, optionsFrom, shape]
    simp [known, Pending.options]
  · cases read
  · next flag unknown known =>
    rcases bind_eq_ok_iff.mp read with ⟨settled, settle, onward⟩
    rcases bind_eq_ok_iff.mp onward with ⟨raised, raise, returned⟩
    obtain ⟨rfl, rfl⟩ := Prod.mk.inj (Except.ok.inj returned)
    rcases carries.settle settle with ⟨held, carriesHeld, options_eq⟩
    refine ⟨held, carriesHeld.raise raise, fun argument arguments shape => ?_⟩
    rw [options_eq, optionsFrom, shape]
    simp [unknown, Pending.options]
  · cases read

theorem Carries.validated (carries : request.Carries options)
    (valid : request.validated = .ok next) : next.Carries options := by
  rw [ComposeRequest.validated] at valid
  split at valid
  · cases valid
  · split at valid
    · cases valid
    · exact Except.ok.inj valid ▸ carries

theorem Carries.readCompose (carries : request.Carries options)
    {pending : Pending} {arguments : List Text}
    (read : readCompose request pending arguments = .ok next) :
    next.Carries (options ++ pending.options arguments) := by
  induction arguments generalizing request options pending with
  | nil =>
      rcases bind_eq_ok_iff.mp read with ⟨settled, settle, valid⟩
      rcases carries.settle settle with ⟨held, carriesHeld, options_eq⟩
      rw [options_eq, optionsFrom_nil, List.append_nil]
      exact carriesHeld.validated valid
  | cons argument rest induction =>
      unfold CommandLine.readCompose at read
      split at read
      · next shape =>
        split at read
        · next last =>
          rw [List.isEmpty_iff] at last
          rcases bind_eq_ok_iff.mp read with ⟨settled, settle, valid⟩
          rcases carries.settle settle with ⟨held, carriesHeld, options_eq⟩
          rw [options_eq, optionsFrom, shape, last, optionsFrom_nil,
            List.append_nil]
          exact carriesHeld.validated valid
        · cases read
      · next name value shape =>
        rcases bind_eq_ok_iff.mp read with ⟨⟨reached, later⟩, long, onward⟩
        rcases carries.readLong long with ⟨held, carriesHeld, options_eq⟩
        rw [options_eq argument rest shape, ← List.append_assoc]
        exact induction carriesHeld onward
      · next letters shape =>
        rcases bind_eq_ok_iff.mp read with ⟨reached, short, onward⟩
        rcases carries.readLetters short with ⟨held, carriesHeld, options_eq⟩
        rw [options_eq, optionsFrom, shape, ← List.append_assoc]
        exact induction carriesHeld onward
      · split at read
        · next option => exact induction carries read
        · cases read

theorem carries_readFrom {verbose : Bool} {arguments : List Text}
    (accepted : readFrom verbose arguments = .ok (.compose request)) :
    request.Carries (givenOptions arguments) := by
  induction arguments generalizing verbose with
  | nil => cases accepted
  | cons argument rest induction =>
      rw [readFrom] at accepted
      split at accepted
      · next command =>
        rcases bind_eq_ok_iff.mp accepted with ⟨composed, read, returned⟩
        obtain rfl := Request.compose.inj (Except.ok.inj returned)
        have carried := Carries.empty.readCompose read
        simpa [givenOptions, command, Pending.options] using carried
      · next another =>
        have later : givenOptions (argument :: rest) = givenOptions rest := by
          simp [givenOptions, another]
        rw [later]
        split at accepted
        · cases accepted
        · split at accepted
          · cases rest with
            | nil => cases accepted
            | cons command others =>
                rw [readAfterDoubleDash] at accepted
                split at accepted <;> cases accepted
          · rcases bind_eq_ok_iff.mp accepted with ⟨_, _, onward⟩
            exact induction onward
          · rcases bind_eq_ok_iff.mp accepted with ⟨_, _, onward⟩
            exact induction onward
          · cases accepted

end Reading

end ComposeRequest

end CommandLine

end QueryAssembly
