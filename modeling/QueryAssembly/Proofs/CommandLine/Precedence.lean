import QueryAssembly.CommandLine.Compose
import QueryAssembly.Proofs.CommandLine.Options
import QueryAssembly.Proofs.Files.Walk
import QueryAssembly.Proofs.Registry.Given

namespace QueryAssembly

/-! Which fragments a command line registers. Of the fragments of one name the last
one counts, where those from directories come before those from files, and these
before those given as texts; within a directory the order is that of the paths. -/

namespace CommandLine

def extensionsOf (options : List (ValueOption × Text)) : List Text :=
  let listed := (valuesOf .extensions options).flatMap (Text.fields ',')
  (if valuesOf .extensions options = [] then defaultExtensions else listed).map
    fun extension => extension.dropWhile (· == '.')

def Stores (disk : Disk) (location : List Text) (text : Text) : Prop :=
  ∃ content, disk.root.at? location = some (.file content) ∧
    Utf8.decode content = .ok text

/-- A location holds a file that is called like a fragment, with one of some
extensions. -/
structure IsFragmentFile (disk : Disk) (extensions location : List Text)
    (name : Text) : Prop where
  isFile : ∃ content, disk.root.at? location = some (.file content)
  nonempty : name ≠ []
  called : ∃ extension ∈ extensions, '.' ∉ extension ∧
    location.getLast? = some (name ++ '.' :: extension)

/-- The fragments below a directory, in the order of the ways to their files.
What an excluded path leads to is none of them, whatever the path. -/
def FromDirectory (disk : Disk) (extensions : List Text) (excluded : List Path)
    (directory : Path) (fragments : List (Text × Text)) : Prop :=
  ∃ base locations, disk.resolve directory = .ok base ∧
    locations.Pairwise (· < ·) ∧
    (∀ location, location ∈ locations ↔ base <+: location ∧
      (∃ name, IsFragmentFile disk extensions location name) ∧
      ∀ path ∈ excluded, disk.resolve path ≠ .ok location) ∧
    List.Forall₂ (fun location fragment =>
      IsFragmentFile disk extensions location fragment.1 ∧
        ∃ text, Stores disk location text ∧ fragment.2 = text.trim)
      locations fragments

def FromFile (disk : Disk) (given : Text) (fragment : Text × Text) : Prop :=
  ∃ path location text, Names given fragment.1 path ∧
    disk.resolve path = .ok location ∧ Stores disk location text ∧
    fragment.2 = text.trim

/-! Fragments from files that are named one by one. -/

section Files

variable {disk : Disk} {session next : Session} {path : Path}
  {location extensions : List Text} {name : Text}

theorem forall₂_comp {α β γ : Type} {first : α → β → Prop}
    {second : β → γ → Prop} {left : List α} {middle : List β} {right : List γ}
    (firsts : List.Forall₂ first left middle)
    (seconds : List.Forall₂ second middle right) :
    List.Forall₂ (fun one three => ∃ two, first one two ∧ second two three)
      left right := by
  induction firsts generalizing right with
  | nil =>
      cases seconds
      exact .nil
  | cons here _ induction =>
      cases seconds with
      | cons there rest => exact .cons ⟨_, here, there⟩ (induction rest)

theorem forall₂_filterMap {α β : Type} (chosen? : α → Option β) (items : List α) :
    List.Forall₂ (fun item chosen => item ∈ items ∧ chosen? item = some chosen)
      (items.filter fun item => (chosen? item).isSome)
      (items.filterMap chosen?) := by
  induction items with
  | nil => exact .nil
  | cons item items induction =>
      have later : List.Forall₂
          (fun other chosen => other ∈ item :: items ∧ chosen? other = some chosen)
          _ _ :=
        induction.imp fun _ _ both => ⟨List.mem_cons_of_mem item both.1, both.2⟩
      cases chosen : chosen? item with
      | none => simpa [chosen] using later
      | some found =>
          rw [List.filterMap_cons_some chosen,
            List.filter_cons_of_pos (by simp [chosen])]
          exact .cons ⟨List.mem_cons_self, chosen⟩ later

theorem find_eq_ok {entry : DiskEntry} (found : disk.find path = .ok entry) :
    ∃ location, disk.resolve path = .ok location ∧
      disk.root.at? location = some entry := by
  rcases bind_eq_ok_iff.mp found with ⟨location, located, onward⟩
  refine ⟨location, ?_, ?_⟩
  · rw [Disk.locate] at located
    split at located
    · cases located
    · split at located
      · cases located
      · exact located
  · split at onward
    · next stands => rw [stands, Except.ok.inj onward]
    · cases onward

theorem stores_of_read {text : Text} (read : disk.read path = .ok text) :
    ∃ location, disk.resolve path = .ok location ∧ Stores disk location text := by
  unfold Disk.read at read
  split at read
  · cases read
  · cases read
  · next content found =>
    rcases find_eq_ok found with ⟨location, resolved, isFile⟩
    refine ⟨location, resolved, content, isFile, ?_⟩
    split at read
    · next decoded => rw [decoded, Except.ok.inj read]
    · cases read

theorem fragments_loadFragmentFiles {files : List (Text × Path)}
    (loaded : ComposeRequest.loadFragmentFiles disk session files = .ok next) :
    ∃ fragments, List.Forall₂ (fun file fragment => fragment.1 = file.1 ∧
        ∃ text, disk.read file.2 = .ok text ∧ fragment.2 = text.trim)
      files fragments ∧
      next.fragments = Registry.insertAll session.fragments fragments := by
  induction files generalizing session with
  | nil =>
      obtain rfl := Except.ok.inj loaded
      exact ⟨[], .nil, rfl⟩
  | cons file files induction =>
      rcases file with ⟨name, path⟩
      rw [ComposeRequest.loadFragmentFiles, List.foldlM_cons] at loaded
      rcases bind_eq_ok_iff.mp loaded with ⟨reached, added, onward⟩
      rcases induction onward with ⟨fragments, texts, registered⟩
      simp only [Session.addFragmentFile] at added
      split at added
      · next text read =>
        obtain rfl := Except.ok.inj added
        exact ⟨(name, text.trim) :: fragments,
          .cons ⟨rfl, text, read, rfl⟩ texts, registered⟩
      · cases added

theorem fragmentName?_eq_some_iff {content : List UInt8}
    (resolved : disk.resolve path = .ok location)
    (isFile : disk.root.at? location = some (.file content)) :
    ComposeRequest.fragmentName? extensions path = some name ↔
      IsFragmentFile disk extensions location name := by
  have named_iff : ComposeRequest.fragmentName? extensions path = some name ↔
      ∃ full, location.getLast? = some full ∧ ∃ extension ∈ extensions,
        Path.splitExtension full = (name, some extension) := by
    rw [ComposeRequest.fragmentName?, Disk.fileName_of_file resolved isFile]
    cases location.getLast? with
    | none => simp
    | some full =>
        rcases split_eq : Path.splitExtension full with ⟨stem, extension⟩
        cases extension <;> simp [split_eq, and_comm]
  rw [named_iff]
  constructor
  · rintro ⟨full, last, extension, counted, split_eq⟩
    rcases Path.splitExtension_eq_iff.mp split_eq with ⟨rfl, nonempty, undotted⟩
    exact ⟨⟨content, isFile⟩, nonempty, extension, counted, undotted, last⟩
  · rintro ⟨_, nonempty, extension, counted, undotted, last⟩
    exact ⟨_, last, extension, counted,
      Path.splitExtension_eq_iff.mpr ⟨rfl, nonempty, undotted⟩⟩

end Files

/-! Fragments from directories. -/

section Directories

variable {request : ComposeRequest} {disk : Disk} {session next : Session}
  {directory path : Path} {location : List Text} {file : Text × Path}

def chosen? (request : ComposeRequest) (disk : Disk) (path : Path) :
    Option (Text × Path) :=
  ((ComposeRequest.fragmentName? request.fragmentExtensions path).map
    fun name => (name, path)).filter fun file => !request.isQueryFile disk file.2

theorem isQueryFile_eq_false_iff (resolved : disk.resolve path = .ok location) :
    request.isQueryFile disk path = false ↔
      ∀ other ∈ request.queryFile.toList, disk.resolve other ≠ .ok location := by
  rw [ComposeRequest.isQueryFile]
  cases request.queryFile with
  | none => simp
  | some other =>
      have here : disk.canonical? path = some location := by
        rw [Disk.canonical?, resolved]
        rfl
      have there : disk.canonical? other = some location ↔
          disk.resolve other = .ok location := by
        rw [Disk.canonical?]
        cases disk.resolve other <;> simp [Except.toOption]
      simp [here, there]

theorem chosen?_eq_some_iff {content : List UInt8}
    (resolved : disk.resolve path = .ok location)
    (isFile : disk.root.at? location = some (.file content)) :
    chosen? request disk path = some file ↔
      IsFragmentFile disk request.fragmentExtensions location file.1 ∧
        file.2 = path ∧
        ∀ other ∈ request.queryFile.toList, disk.resolve other ≠ .ok location := by
  rw [← isQueryFile_eq_false_iff resolved,
    ← fragmentName?_eq_some_iff resolved isFile]
  rcases file with ⟨name, other⟩
  rw [chosen?, Option.filter_eq_some_iff, Option.map_eq_some_iff]
  constructor
  · rintro ⟨⟨_, named, same⟩, kept⟩
    obtain ⟨rfl, rfl⟩ := Prod.mk.inj same
    exact ⟨named, rfl, by simpa using kept⟩
  · rintro ⟨named, rfl, kept⟩
    exact ⟨⟨name, named, rfl⟩, by simpa using kept⟩

theorem exists_paths_of_fragmentFilesBelow {extensions : List Text}
    {files : List (Text × Path)}
    (below : ComposeRequest.fragmentFilesBelow extensions disk directory =
      .ok files) :
    ∃ base entry paths, disk.resolve directory = .ok base ∧
      disk.root.at? base = some entry ∧ entry.filesBelow directory = .ok paths ∧
      files = paths.filterMap fun path =>
        (ComposeRequest.fragmentName? extensions path).map
          fun name => (name, path) := by
  rw [ComposeRequest.fragmentFilesBelow] at below
  split at below
  · cases below
  · next paths listed =>
    rw [Disk.filesBelow] at listed
    split at listed
    · cases listed
    · next entry found =>
      rcases find_eq_ok found with ⟨base, resolved, isEntry⟩
      exact ⟨base, entry, paths, resolved, isEntry, listed,
        (Except.ok.inj below).symm⟩

theorem fragments_loadDirectory (isTree : disk.root.IsTree)
    (loaded : request.loadDirectory disk session directory = .ok next) :
    ∃ fragments, FromDirectory disk request.fragmentExtensions
        request.queryFile.toList directory fragments ∧
      next.fragments = Registry.insertAll session.fragments fragments := by
  rcases bind_eq_ok_iff.mp loaded with ⟨files, below, onward⟩
  rcases fragments_loadFragmentFiles (eq_ok_of_mapError onward) with
    ⟨fragments, texts, registered⟩
  refine ⟨fragments, ?_, registered⟩
  rcases exists_paths_of_fragmentFilesBelow below with
    ⟨base, entry, paths, resolved, isEntry, walked, rfl⟩
  rcases (isTree.at? isEntry).exists_ways walked with ⟨ways, listed, rfl⟩
  have chosen_iff : ∀ way ∈ ways, ∀ file,
      chosen? request disk (directory.along way) = some file ↔
        IsFragmentFile disk request.fragmentExtensions (base ++ way) file.1 ∧
          file.2 = directory.along way ∧
          ∀ other ∈ request.queryFile.toList,
            disk.resolve other ≠ .ok (base ++ way) := by
    intro way member file
    rcases Disk.resolve_listed isTree resolved isEntry listed member with
      ⟨content, isFile, reached⟩
    exact chosen?_eq_some_iff reached isFile
  let chosen := fun way => chosen? request disk (directory.along way)
  rw [List.filter_filterMap, List.filterMap_map] at texts
  have pairs := forall₂_comp (forall₂_filterMap chosen ways) texts
  refine ⟨base, (ways.filter fun way => (chosen way).isSome).map (base ++ ·),
    resolved, ?_, fun location => ?_, ?_⟩
  · rw [List.pairwise_map]
    exact (listed.ascending.filter _).imp List.append_left_lt
  · simp only [List.mem_map, List.mem_filter, Option.isSome_iff_exists]
    constructor
    · rintro ⟨way, ⟨member, file, found⟩, rfl⟩
      rcases (chosen_iff way member file).mp found with ⟨isFragment, _, kept⟩
      exact ⟨List.prefix_append base way, ⟨file.1, isFragment⟩, kept⟩
    · rintro ⟨⟨way, rfl⟩, ⟨name, isFragment⟩, kept⟩
      rcases isFragment.isFile with ⟨content, isFile⟩
      have inside := isFile
      rw [DiskEntry.at?_append, isEntry] at inside
      have member := (listed.mem_iff way).mpr ⟨content, inside⟩
      exact ⟨way, ⟨member, (name, directory.along way),
        (chosen_iff way member _).mpr ⟨isFragment, rfl, kept⟩⟩, rfl⟩
  · rw [List.forall₂_map_left_iff]
    refine pairs.imp fun way fragment => ?_
    rintro ⟨file, ⟨member, found⟩, named, text, read, trimmed⟩
    rcases (chosen_iff way member file).mp found with ⟨isFragment, path_eq, _⟩
    rcases stores_of_read read with ⟨location, reached, stored⟩
    rcases Disk.resolve_listed isTree resolved isEntry listed member with
      ⟨_, _, own⟩
    rw [path_eq, own] at reached
    exact ⟨named ▸ isFragment, text, Except.ok.inj reached ▸ stored, trimmed⟩

theorem fragments_loadDirectories {directories : List Path}
    (isTree : disk.root.IsTree)
    (loaded : directories.foldlM (request.loadDirectory disk) session =
      .ok next) :
    ∃ parts, List.Forall₂ (FromDirectory disk request.fragmentExtensions
        request.queryFile.toList) directories parts ∧
      next.fragments = Registry.insertAll session.fragments parts.flatten := by
  induction directories generalizing session with
  | nil =>
      obtain rfl := Except.ok.inj loaded
      exact ⟨[], .nil, rfl⟩
  | cons directory directories induction =>
      rw [List.foldlM_cons] at loaded
      rcases bind_eq_ok_iff.mp loaded with ⟨reached, first, onward⟩
      rcases fragments_loadDirectory isTree first with
        ⟨fragments, here, registered⟩
      rcases induction onward with ⟨parts, later, registeredLater⟩
      refine ⟨fragments :: parts, .cons here later, ?_⟩
      rw [registeredLater, registered, List.flatten_cons, Registry.insertAll_append]

end Directories

/-! All sources in their order. Of the fragments of one name the last one registered is
kept. -/

section Precedence

variable {request : ComposeRequest} {disk : Disk} {session : Session}

theorem fragments_foldl {α : Type} (step : Session → α → Session)
    (keeps : ∀ session item, (step session item).fragments = session.fragments)
    (items : List α) (session : Session) :
    (items.foldl step session).fragments = session.fragments := by
  induction items generalizing session with
  | nil => rfl
  | cons item items induction => rw [List.foldl_cons, induction, keeps]

theorem fragments_addInline (request : ComposeRequest) (session : Session) :
    (request.addInline session).fragments =
      Registry.insertAll session.fragments request.fragments := by
  have registered : (request.fragments.foldl
      (fun session fragment => session.addFragment fragment.1 fragment.2)
      session).fragments =
      Registry.insertAll session.fragments request.fragments := by
    induction request.fragments generalizing session with
    | nil => rfl
    | cons fragment fragments induction => exact induction _
  refine Eq.trans ?_ registered
  refine (fragments_foldl _ ?_ request.definitions _).trans ?_
  · exact fun _ _ => rfl
  refine (fragments_foldl _ ?_ request.directives _).trans ?_
  · exact fun _ _ => rfl
  refine (fragments_foldl _ ?_ request.aliases _).trans rfl
  exact fun _ _ => rfl

theorem fragments_loadDocument
    (loaded : request.loadDocument disk ∅ = .ok session) :
    session.fragments = Registry.empty := by
  rw [ComposeRequest.loadDocument] at loaded
  split at loaded
  · rw [Session.loadFile] at loaded
    split at loaded
    · obtain rfl := Except.ok.inj loaded
      rfl
    · cases loaded
  · obtain rfl := Except.ok.inj loaded
    rfl
  · obtain rfl := Except.ok.inj loaded
    rfl

theorem fragments_session (isTree : disk.root.IsTree)
    (reached : request.session disk = .ok session) :
    ∃ parts fromFiles,
      List.Forall₂ (FromDirectory disk request.fragmentExtensions
        request.queryFile.toList) request.fragmentDirectories parts ∧
      List.Forall₂ (fun file fragment => fragment.1 = file.1 ∧
        ∃ text, disk.read file.2 = .ok text ∧ fragment.2 = text.trim)
        request.fragmentFiles fromFiles ∧
      session.fragments = Registry.ofList
        (parts.flatten ++ (fromFiles ++ request.fragments)) := by
  rcases bind_eq_ok_iff.mp reached with ⟨loaded, document, onward⟩
  rcases bind_eq_ok_iff.mp onward with ⟨withDirectories, directories, onward⟩
  rcases bind_eq_ok_iff.mp onward with ⟨withFiles, files, returned⟩
  obtain rfl := Except.ok.inj returned
  rcases fragments_loadDirectories isTree directories with
    ⟨parts, fromDirectories, registeredParts⟩
  rcases fragments_loadFragmentFiles (eq_ok_of_mapError files) with
    ⟨fromFiles, texts, registeredFiles⟩
  refine ⟨parts, fromFiles, fromDirectories, texts, ?_⟩
  rw [fragments_addInline, registeredFiles, registeredParts,
    fragments_loadDocument (eq_ok_of_mapError document), Registry.ofList,
    Registry.insertAll_append, Registry.insertAll_append]

def lastCalled (fragments : List (Text × Text)) (name : Text) : Option Text :=
  fragments.reverse.lookup name

/-- A registry holds the fragments that options name: of each name the last one
given as a text, or else the last one from a file, or else the last one from a
directory. A name stands where it comes first. -/
def ByPrecedence (disk : Disk) (options : List (ValueOption × Text))
    (registry : FragmentRegistry) : Prop :=
  ∃ parts fromFiles fromTexts,
    List.Forall₂ (FromDirectory disk (extensionsOf options)
      (valuesOf .queryFile options)) (valuesOf .fragmentDirectory options) parts ∧
    List.Forall₂ (FromFile disk) (valuesOf .fragmentFile options) fromFiles ∧
    List.Forall₂ (fun given fragment => Names given fragment.1 fragment.2)
      (valuesOf .fragment options) fromTexts ∧
    registry.keys =
      ((parts.flatten ++ (fromFiles ++ fromTexts)).map Prod.fst).eraseDups ∧
    ∀ name, registry.get? name = (lastCalled fromTexts name).or
      ((lastCalled fromFiles name).or (lastCalled parts.flatten name))

/-- An accepted command line that comes to build a query has registered the
fragments that its options name. -/
theorem fragments_by_precedence {arguments : List Text}
    (isTree : disk.root.IsTree)
    (accepted : read arguments = .ok (.compose request))
    (reached : request.session disk = .ok session) :
    ByPrecedence disk (givenOptions arguments) session.fragments := by
  have carries := ComposeRequest.carries_readFrom accepted
  have extensions : request.fragmentExtensions =
      extensionsOf (givenOptions arguments) := by
    rw [ComposeRequest.fragmentExtensions, carries.extensions, extensionsOf]
    split <;> rfl
  rcases fragments_session isTree reached with
    ⟨parts, fromFiles, directories, files, fragments_eq⟩
  refine ⟨parts, fromFiles, request.fragments, ?_, ?_, ?_, ?_, fun name => ?_⟩
  · rwa [← extensions, ← carries.queryFile, ← carries.directories]
  · refine (forall₂_comp carries.files files).imp fun given fragment => ?_
    rintro ⟨file, named, called, text, read, trimmed⟩
    rcases stores_of_read read with ⟨location, resolved, stored⟩
    exact ⟨file.2, location, text, called ▸ names_of_readNamed named, resolved,
      stored, trimmed⟩
  · exact carries.fragments.imp fun _ _ named => names_of_readNamed named
  · rw [fragments_eq, Registry.keys_ofList]
  · rw [fragments_eq, Registry.get?_ofList, List.reverse_append,
      List.reverse_append, List.lookup_append, List.lookup_append, Option.or_assoc]
    rfl

def asciiFile (text : String) : DiskEntry :=
  .file (text.toList.map Char.toUInt8)

def shelf : Disk :=
  ⟨.directory [("q".toList, .directory
    [("query.graphql".toList, asciiFile "\x7b user \x7b ...A ...B \x7d \x7d"),
      ("more".toList, .directory [("A.gql".toList, asciiFile " email\n")]),
      ("notes.txt".toList, asciiFile "none"),
      ("B.graphql".toList, asciiFile "id"),
      ("A.graphql".toList, asciiFile "name")])], []⟩

def shelfArguments : List Text :=
  ["compose", "--query-file=q/query.graphql", "--fragment-dir", "./q/",
    "--fragment", "B=id name"].map String.toList

def registered? (disk : Disk) (arguments : List Text) :
    Option (List (Text × Text)) :=
  match read arguments with
  | .ok (.compose request) =>
      (request.session disk).toOption.map fun session => session.fragments.entries
  | _ => none

theorem fragments_by_precedence_shelf :
    shelf.root.IsTree ∧ ∃ request session,
      read shelfArguments = .ok (.compose request) ∧
        request.session shelf = .ok session ∧
        session.fragments.entries =
          [("A".toList, "email".toList), ("B".toList, "id name".toList)] ∧
        ByPrecedence shelf (givenOptions shelfArguments) session.fragments := by
  have leaf : ∀ text, (asciiFile text).IsTree := fun _ => .file _
  have isTree : shelf.root.IsTree := by
    refine .directory (by decide +kernel) (by decide +kernel) ?_
    refine List.forall_mem_singleton.mpr ?_
    refine .directory (by decide +kernel) (by decide +kernel) ?_
    refine List.forall_mem_cons.mpr ⟨leaf _, List.forall_mem_cons.mpr ⟨?_, ?_⟩⟩
    · refine .directory (by decide +kernel) (by decide +kernel) ?_
      exact List.forall_mem_singleton.mpr (leaf _)
    · simp [leaf]
  have found : registered? shelf shelfArguments =
      some [("A".toList, "email".toList), ("B".toList, "id name".toList)] := by
    decide +kernel
  refine ⟨isTree, ?_⟩
  rw [registered?] at found
  split at found
  · next request accepted =>
    rcases Option.map_eq_some_iff.mp found with ⟨session, kept, entries⟩
    cases reached : request.session shelf with
    | error =>
        rw [reached] at kept
        cases kept
    | ok other =>
        rw [reached] at kept
        obtain rfl := Option.some.inj kept
        exact ⟨request, other, accepted, reached, entries,
          fragments_by_precedence isTree accepted reached⟩
  · cases found

end Precedence

end CommandLine

end QueryAssembly
