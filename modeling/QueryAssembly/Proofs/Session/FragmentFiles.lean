import QueryAssembly.Proofs.Fragment.Trace
import QueryAssembly.Session.Build

namespace QueryAssembly

/-! Fragments from files. A body is registered without its outer blanks, and a line
break among them may be what closes a comment; so it is the trimmed contents that
have to end in code for the text around a spread to be read as it was. -/

theorem forall_mem_putEntry {α : Type u} {holds : Text × α → Prop} {key : Text}
    {value : α} (added : holds (key, value)) {entries : List (Text × α)}
    (held : ∀ entry ∈ entries, holds entry) :
    ∀ entry ∈ putEntry key value entries, holds entry := by
  induction entries with
  | nil => exact List.forall_mem_singleton.mpr added
  | cons entry rest induction =>
      rcases entry with ⟨other, before⟩
      rw [List.forall_mem_cons] at held
      rw [putEntry]
      split
      · exact List.forall_mem_cons.mpr ⟨added, held.2⟩
      · exact List.forall_mem_cons.mpr ⟨held.1, induction held.2⟩

namespace Session

open Fragment (Trace KeepsStates)

def addFragmentFiles (session : Session) (disk : Disk) :
    List (Text × Path) → Except ComposeError Session :=
  List.foldlM (fun reached file => reached.addFragmentFile disk file.1 file.2)
    session

section Files

variable {start session : Session} {disk : Disk} {files : List (Text × Path)}

theorem sound_addFragmentFiles (inherited : Trace.Sound start.fragments.entries)
    (names : ∀ file ∈ files, file.1.IsName)
    (closed : ∀ file ∈ files, ∀ stored, disk.read file.2 = .ok stored →
      endState stored.trim = .code)
    (registered : start.addFragmentFiles disk files = .ok session) :
    Trace.Sound session.fragments.entries := by
  induction files generalizing start with
  | nil =>
      cases registered
      exact inherited
  | cons file files induction =>
      rw [List.forall_mem_cons] at names closed
      rw [addFragmentFiles, List.foldlM_cons] at registered
      rcases bind_eq_ok_iff.mp registered with ⟨next, added, rest⟩
      apply induction _ names.2 closed.2 rest
      rw [addFragmentFile] at added
      split at added
      · next stored read =>
        cases added
        exact forall_mem_putEntry ⟨names.1.isWord, closed.1 stored read⟩ inherited
      · cases added

/-- A document in which fragments from files were spliced is read as before,
apart from the spreads, as long as the trimmed contents end in code. -/
theorem build_keepsStates {composed : ComposedQuery}
    (inherited : Trace.Sound start.fragments.entries)
    (names : ∀ file ∈ files, file.1.IsName)
    (closed : ∀ file ∈ files, ∀ stored, disk.read file.2 = .ok stored →
      endState stored.trim = .code)
    (registered : start.addFragmentFiles disk files = .ok session)
    (built : session.build = .ok composed) :
    ∃ document resolved, session.baseDocument = .ok document ∧
      Fragment.resolve document session.fragments = .ok resolved ∧
      KeepsStates session.fragments document resolved := by
  rcases bind_eq_ok_iff.mp built with ⟨document, base, onward⟩
  rcases bind_eq_ok_iff.mp onward with ⟨resolved, run, _⟩
  have sound := sound_addFragmentFiles inherited names closed registered
  exact ⟨document, resolved, base, run, Fragment.keepsStates_of_resolve sound run⟩

end Files

def noteDisk (stored : Text) : Disk :=
  (Disk.blank []).put "f.graphql".toList (.file (stored.map Char.toUInt8))

def noteFiles : List (Text × Path) := [("F".toList, "f.graphql".toList)]

def noteSession : Session := (∅ : Session).load "\x7b user \x7b ...F \x7d \x7d".toList

theorem addFragmentFiles_noteFiles {stored : Text}
    (read : (noteDisk stored).read "f.graphql".toList = .ok stored) :
    noteSession.addFragmentFiles (noteDisk stored) noteFiles =
      .ok (noteSession.addFragment "F".toList stored.trim) := by
  simp only [addFragmentFiles, noteFiles, List.foldlM_cons, addFragmentFile, read]
  rfl

theorem build_keepsStates_note :
    ∃ session composed, Trace.Sound noteSession.fragments.entries ∧
      (∀ file ∈ noteFiles, file.1.IsName) ∧
      (∀ file ∈ noteFiles, ∀ stored,
        (noteDisk "# note\nid\n".toList).read file.2 = .ok stored →
          endState stored.trim = .code) ∧
      noteSession.addFragmentFiles (noteDisk "# note\nid\n".toList) noteFiles =
        .ok session ∧
      session.build = .ok composed ∧
      ∃ document resolved, session.baseDocument = .ok document ∧
        Fragment.resolve document session.fragments = .ok resolved ∧
        KeepsStates session.fragments document resolved := by
  have read : (noteDisk "# note\nid\n".toList).read "f.graphql".toList =
      .ok "# note\nid\n".toList := by
    decide +kernel
  have registered := addFragmentFiles_noteFiles read
  have built : (noteSession.addFragment "F".toList
      (Text.trim "# note\nid\n".toList)).build =
      .ok ⟨"\x7b user \x7b # note\nid \x7d \x7d".toList, ∅⟩ := by
    rfl
  have names : ∀ file ∈ noteFiles, file.1.IsName := by decide
  have closed : ∀ file ∈ noteFiles, ∀ stored,
      (noteDisk "# note\nid\n".toList).read file.2 = .ok stored →
        endState stored.trim = .code := by
    intro file member stored found
    rw [List.mem_singleton.mp member, read] at found
    cases found
    decide
  have inherited : Trace.Sound noteSession.fragments.entries :=
    List.forall_mem_nil _
  exact ⟨_, _, inherited, names, closed, registered, built,
    build_keepsStates inherited names closed registered built⟩

/-- A comment that only the last line break of a file closes runs on into the
document. -/
theorem not_forall_build_keepsStates :
    ¬ ∀ (text : Text) (disk : Disk) (files : List (Text × Path))
        (session : Session) (composed : ComposedQuery),
      (∀ file ∈ files, file.1.IsName) →
      (∀ file ∈ files, ∀ stored, disk.read file.2 = .ok stored →
        endState stored = .code) →
      ((∅ : Session).load text).addFragmentFiles disk files = .ok session →
      session.build = .ok composed →
      ∃ document resolved, session.baseDocument = .ok document ∧
        Fragment.resolve document session.fragments = .ok resolved ∧
        KeepsStates session.fragments document resolved := by
  intro all
  have read : (noteDisk "id # note\n".toList).read "f.graphql".toList =
      .ok "id # note\n".toList := by
    decide +kernel
  have registered := addFragmentFiles_noteFiles read
  have built : (noteSession.addFragment "F".toList
      (Text.trim "id # note\n".toList)).build =
      .ok ⟨"\x7b user \x7b id # note \x7d \x7d".toList, ∅⟩ := by
    rfl
  have closed : ∀ file ∈ noteFiles, ∀ stored,
      (noteDisk "id # note\n".toList).read file.2 = .ok stored →
        endState stored = .code := by
    intro file member stored found
    rw [List.mem_singleton.mp member, read] at found
    cases found
    decide
  rcases all _ _ noteFiles _ _ (by decide) closed registered built with
    ⟨document, resolved, base, _, _, faithful⟩
  cases base
  have unfaithful : ¬(Trace.afterPasses
      (noteSession.addFragment "F".toList
        (Text.trim "id # note\n".toList)).fragments
      noteSession.document 1).Faithful := by
    decide +kernel
  exact unfaithful (faithful 1)

end Session

end QueryAssembly
