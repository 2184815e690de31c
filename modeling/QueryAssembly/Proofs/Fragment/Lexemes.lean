import QueryAssembly.Proofs.Fragment.Cycle
import QueryAssembly.Proofs.Lexical.Lexeme

namespace QueryAssembly

/-! Splicing merges no lexemes as long as no body runs on into what stands next to
it. The lexemes of a document with those of the bodies in place of the spreads are
then the same after every single splice, and at the end they are the lexemes of
the resolved text. -/

namespace Fragment

/-- The lexemes of pieces when each spread stands for lexemes of its own. The
labels since the last spread are held back. -/
def lexemesFrom (meaning : Text → List Text) : List Label → List Piece → List Text
  | held, [] => lexemes held
  | held, .kept char state :: rest =>
      lexemesFrom meaning (held ++ [(char, state)]) rest
  | held, .spread name :: rest =>
      lexemes held ++ (meaning name ++ lexemesFrom meaning [] rest)

def lexemesWith (bodies : Text → Option Text) (meaning : Text → List Text)
    (text : Text) : List Text :=
  lexemesFrom meaning [] (knownPieces bodies text)

def spreadLexemes (name : Text) : List Text := [spread [], name]

def bodyLexemes (bodies : Text → Option Text) (name : Text) : List Text :=
  lexemesOf ((bodies name).getD [])

/-! Lexemes on both sides of a spread. -/

section Texts

variable {left right name rest : Text}

theorem head?_word_append (word : name.IsWord) (rest : Text) :
    (name ++ rest).head? ≠ some '.' := by
  rcases List.exists_cons_of_ne_nil word.1 with ⟨first, later, rfl⟩
  intro dot
  exact Text.ne_of_isNameContinue (word.2 first List.mem_cons_self) rfl
    (Option.some.inj dot)

theorem leadingDots_spread (word : name.IsWord) (rest : Text) :
    leadingDots (labelsOf (spread name ++ rest)) = 3 := by
  have labels : labelsOf (spread name ++ rest) =
      ('.', .code) :: ('.', .code) :: ('.', .code) ::
        labelsFrom (Position.start.past (spread [])) (name ++ rest) := rfl
  rw [labels, leadingDots_cons, leadingDots_cons, leadingDots_cons,
    leadingDots_labelsFrom _ (head?_word_append word rest)]
  rfl

theorem lexemesOf_append_spread (closed : endState left = .code)
    (word : name.IsWord) (rest : Text) :
    lexemesOf (left ++ (spread name ++ rest)) =
      lexemesOf left ++ lexemesOf (spread name ++ rest) :=
  lexemesOf_append closed (fun _ => rfl)
    fun _ => congrArg (· % 3) (leadingDots_spread word rest)

theorem lexemesOf_spread_append (word : name.IsWord)
    (stops : rest.continuesName = false) :
    lexemesOf (spread name ++ rest) = spreadLexemes name ++ lexemesOf rest := by
  have closed : endState name = .code := endState_of_plain fun char member =>
    Position.isPlain_of_isNameContinue (word.2 char member)
  have dots : lexemesOf (spread [] ++ (name ++ rest)) =
      lexemesOf (spread []) ++ lexemesOf (name ++ rest) :=
    lexemesOf_append rfl nofun fun _ => congrArg (· % 3)
      (leadingDots_labelsFrom .start (head?_word_append word rest))
  have names : lexemesOf (name ++ rest) = lexemesOf name ++ lexemesOf rest :=
    lexemesOf_append closed (fun _ => stops) fun dot =>
      absurd (word.2 '.' (List.mem_of_getLast? dot)) (by decide)
  rw [lexemesOf_word word] at names
  exact dots.trans (congrArg _ names)

theorem lexemesOf_append_of_clear (closed : endState left = .code)
    (clear : Clear left right) :
    lexemesOf (left ++ right) = lexemesOf left ++ lexemesOf right := by
  refine lexemesOf_append closed clear.stops fun dot => ?_
  have starts : right.head? ≠ some '.' := by
    intro first
    have apart := clear '.' dot '.' first
    cases apart
  exact congrArg (· % 3) (leadingDots_labelsFrom .start starts)

end Texts

/-! Lexemes of a text with others in place of its spreads. -/

section Replaced

variable {bodies : Text → Option Text} {meaning : Text → List Text}
  {left right run name rest text : Text}

theorem lexemesFrom_append {front : List Piece}
    (absent : ∀ name, .spread name ∉ front) (held : List Label)
    (pieces : List Piece) :
    lexemesFrom meaning held (front ++ pieces) =
      lexemesFrom meaning (held ++ front.flatMap (Piece.labels spread)) pieces := by
  induction front generalizing held with
  | nil => rw [List.flatMap_nil, List.append_nil, List.nil_append]
  | cons piece front induction =>
      have later := induction fun name member =>
        absent name (List.mem_cons_of_mem _ member)
      cases piece with
      | kept char state =>
          rw [List.cons_append, lexemesFrom, later, List.append_assoc]
          rfl
      | spread name => exact absurd List.mem_cons_self (absent name)

theorem lexemesWith_of_free (free : Free (isKnown bodies) text) :
    lexemesWith bodies meaning text = lexemesOf text := by
  have whole : lexemesFrom meaning [] (knownPieces bodies text ++ []) = _ :=
    lexemesFrom_append free [] []
  rw [List.append_nil, List.nil_append, lexemesFrom, ← labelsOf_eq_flatMap]
    at whole
  exact whole

theorem FirstSpread.lexemesWith_eq
    (first : FirstSpread (isKnown bodies) run name rest) :
    lexemesWith bodies meaning (run ++ (spread name ++ rest)) =
      lexemesOf run ++ (meaning name ++ lexemesWith bodies meaning rest) := by
  rw [lexemesWith, knownPieces, first.piecesOf_eq, lexemesFrom_append first.free,
    List.nil_append, ← labelsOf_eq_flatMap]
  rfl

theorem lexemesWith_append (free : Free (isKnown bodies) left)
    (closed : endState left = .code) (clear : Clear left right) :
    lexemesWith bodies meaning (left ++ right) =
      lexemesOf left ++ lexemesWith bodies meaning right := by
  rcases free_or_firstSpread (isKnown bodies) right with
    rightFree | ⟨run, name, rest, rfl, first⟩
  · rw [lexemesWith_of_free (free.append closed (.inl clear) rightFree),
      lexemesWith_of_free rightFree, lexemesOf_append_of_clear closed clear]
  · have clear' := clear.of_append_right
    have whole : FirstSpread (isKnown bodies) (left ++ run) name rest :=
      { first with
        free := free.append closed (.inl clear') first.free
        closed := (endState_append closed run).trans first.closed }
    rw [← List.append_assoc, whole.lexemesWith_eq, first.lexemesWith_eq,
      lexemesOf_append_of_clear closed clear', List.append_assoc]

theorem lexemesOf_eq_lexemesWith (bodies : Text → Option Text) (text : Text) :
    lexemesOf text = lexemesWith bodies spreadLexemes text := by
  induction text using spread_induction (isKnown bodies) with
  | free text free => rw [lexemesWith_of_free free]
  | spread run name rest first induction =>
      rw [first.lexemesWith_eq, ← induction,
        lexemesOf_append_spread first.closed first.word rest,
        lexemesOf_spread_append first.word first.stops]

end Replaced

section Splices

variable {bodies : Text → Option Text} {entry : Text × Text}
  {run name rest text before after : Text}

/-! One fragment put in place of its spreads. -/

def spliced (bodies : Text → Option Text) (entry : Text × Text) (text : Text) :
    Text :=
  (knownPieces bodies text).flatMap (Piece.fill (replacing entry.1 entry.2))

/-- Whether a body, put in place of the spreads of its fragment, runs on at
neither end. -/
def Fits (bodies : Text → Option Text) (entry : Text × Text) (text : Text) : Prop :=
  ∀ before after, SpreadAt bodies text before entry.1 after →
    Clear (spliced bodies entry before) (entry.2 ++ spliced bodies entry after) ∧
      Clear entry.2 (spliced bodies entry after)

def FitIn (bodies : Text → Option Text) : List (Text × Text) → Text → Prop
  | [], _ => True
  | entry :: later, text =>
      Fits bodies entry text ∧ FitIn bodies later (spliced bodies entry text)

theorem SpreadAt.closed (spreadAt : SpreadAt bodies text before name after) :
    endState before = .code := by
  have code := spreadAt.code
  rwa [spreadAt.text_eq, stateAt_append, ← endState_eq] at code

theorem SpreadAt.behind {front : Text} (closed : endState front = .code)
    (spreadAt : SpreadAt bodies text before name after) :
    SpreadAt bodies (front ++ text) (front ++ before) name after := by
  have text_eq : front ++ text = front ++ before ++ (spread name ++ after) := by
    rw [spreadAt.text_eq, List.append_assoc]
  refine ⟨text_eq, ?_, spreadAt.known, spreadAt.stops⟩
  rw [text_eq, stateAt_append, ← endState_eq, endState_append closed,
    spreadAt.closed]

theorem SpreadAt.before_stops (spreadAt : SpreadAt bodies text before name after)
    (stops : text.continuesName = false) : before.continuesName = false := by
  rw [spreadAt.text_eq] at stops
  cases before with
  | nil => rfl
  | cons char rest => exact stops

theorem spliced_of_free (free : Free (isKnown bodies) text) :
    spliced bodies entry text = text :=
  flatMap_fill_replacing_of_not_mem (free entry.1) entry.2

namespace FirstSpread

variable (first : FirstSpread (isKnown bodies) run name rest)

include first

theorem spliced_eq (entry : Text × Text) :
    spliced bodies entry (run ++ (spread name ++ rest)) =
      run ++ (replacing entry.1 entry.2 name ++ spliced bodies entry rest) := by
  have kept : spliced bodies entry run = run := spliced_of_free first.free
  rw [spliced] at kept
  rw [spliced, knownPieces, first.piecesOf_eq, List.flatMap_append, kept]
  rfl

theorem spreadAt : SpreadAt bodies (run ++ (spread name ++ rest)) run name rest := by
  refine ⟨rfl, ?_, first.isChosen, first.stops⟩
  rw [stateAt_append, ← endState_eq, first.closed]

theorem closed_spread : endState (run ++ spread name) = .code := by
  rw [endState_append first.closed, endState_spread first.word]

theorem fits (fits : Fits bodies entry (run ++ (spread name ++ rest))) :
    Fits bodies entry rest := by
  intro before after spreadAt
  have whole := spreadAt.behind first.closed_spread
  rw [List.append_assoc, List.append_assoc] at whole
  have clear := fits _ _ whole
  have upTo : FirstSpread (isKnown bodies) run name before :=
    { first with stops := spreadAt.before_stops first.stops }
  rw [upTo.spliced_eq, ← List.append_assoc] at clear
  exact ⟨clear.1.of_append_left, clear.2⟩

theorem spliced_stops (fits : Fits bodies entry (run ++ (spread name ++ rest)))
    (different : name ≠ entry.1) :
    (spliced bodies entry rest).continuesName = false := by
  rcases free_or_firstSpread (isKnown bodies) rest with
    free | ⟨inner, other, later, rfl, second⟩
  · rw [spliced_of_free free, first.stops]
  · rw [second.spliced_eq]
    cases inner with
    | cons char inner => exact first.stops
    | nil =>
        by_cases same : other = entry.1
        · subst same
          have here := second.spreadAt.behind first.closed_spread
          have alone : FirstSpread (isKnown bodies) run name [] :=
            { first with stops := rfl }
          have clear := (fits (run ++ (spread name ++ [])) later
            (by simpa using here)).1
          rw [alone.spliced_eq, replacing, if_neg different,
            spliced_of_free fun _ => List.not_mem_nil, List.append_nil] at clear
          rw [replacing, if_pos rfl]
          exact clear.stops (getLast?_spread first.word run)
        · rw [replacing, if_neg same]
          rfl

end FirstSpread

theorem FirstSpread.mem_iff (first : FirstSpread (isKnown bodies) run name rest)
    {other : Text} :
    .spread other ∈ knownPieces bodies (run ++ (spread name ++ rest)) ↔
      other = name ∨ .spread other ∈ knownPieces bodies rest := by
  rw [knownPieces, first.piecesOf_eq, List.mem_append, List.mem_cons,
    Piece.spread.injEq]
  exact or_iff_right (first.free other)

theorem mem_append_iff {left right other : Text} (closed : endState left = .code)
    (free : Free (isKnown bodies) left) (clear : Clear left right) :
    .spread other ∈ knownPieces bodies (left ++ right) ↔
      .spread other ∈ knownPieces bodies right := by
  rw [knownPieces, piecesOf_append_of_parted closed (.inl clear), List.mem_append]
  exact or_iff_right (free other)

theorem lexemesWith_spliced {meaning : Text → List Text}
    (closed : endState entry.2 = .code)
    (flat : .spread entry.1 ∈ knownPieces bodies text →
      Free (isKnown bodies) entry.2)
    (fits : Fits bodies entry text)
    (stands : meaning entry.1 = lexemesOf entry.2) :
    lexemesWith bodies meaning (spliced bodies entry text) =
        lexemesWith bodies meaning text ∧
      ∀ name, .spread name ∈ knownPieces bodies (spliced bodies entry text) →
        .spread name ∈ knownPieces bodies text ∧ name ≠ entry.1 := by
  induction text using spread_induction (isKnown bodies) with
  | free text free =>
      rw [spliced_of_free free]
      exact ⟨rfl, fun name member => absurd member (free name)⟩
  | spread run name rest first induction =>
      rcases induction (fun member => flat (first.mem_iff.mpr (.inr member)))
        (first.fits fits) with ⟨later, spreads⟩
      rw [first.spliced_eq, first.lexemesWith_eq, ← later]
      -- The body is lexed by itself where it stands for the spread; any other
      -- spread stays the first one, whatever is spliced in behind it.
      by_cases same : name = entry.1
      · subst same
        have free := flat (first.mem_iff.mpr (.inl rfl))
        have clear := fits run rest first.spreadAt
        rw [spliced_of_free first.free] at clear
        rw [replacing, if_pos rfl]
        constructor
        · rw [lexemesWith_append first.free first.closed clear.1,
            lexemesWith_append free closed clear.2, stands]
        · intro other member
          rw [mem_append_iff first.closed first.free clear.1,
            mem_append_iff closed free clear.2] at member
          exact (spreads other member).imp_left (first.mem_iff.mpr ∘ .inr)
      · have stays : FirstSpread (isKnown bodies) run name
            (spliced bodies entry rest) :=
          { first with stops := first.spliced_stops fits same }
        rw [replacing, if_neg same]
        constructor
        · rw [stays.lexemesWith_eq]
        · intro other member
          rcases stays.mem_iff.mp member with rfl | member
          · exact ⟨first.mem_iff.mpr (.inl rfl), same⟩
          · exact (spreads other member).imp_left (first.mem_iff.mpr ∘ .inr)

end Splices

/-! All fragments put in place, one after another. -/

section Passes

variable {bodies : Text → Option Text} {document : Text}

structure Usable (bodies : Text → Option Text) (entry : Text × Text) : Prop where
  found : bodies entry.1 = some entry.2
  word : entry.1.IsWord
  closed : endState entry.2 = .code

/-- A text whose spreads are all of fragments without further spreads. -/
def Flat (bodies : Text → Option Text) (text : Text) : Prop :=
  ∀ name, .spread name ∈ knownPieces bodies text → ∀ body,
    bodies name = some body → Free (isKnown bodies) body

theorem replaceFragment_spliced {entry : Text × Text}
    (usable : Usable bodies entry) (document : Text) (count : Nat) :
    replaceFragment (document, count) entry =
      .ok (spliced bodies entry document,
        count + (knownPieces bodies document).count (.spread entry.1)) :=
  replaceFragment_text (Option.isSome_iff_exists.mpr ⟨entry.2, usable.found⟩)
    usable.word document count entry.2

theorem foldlM_spliced {entries : List (Text × Text)}
    (usable : ∀ entry ∈ entries, Usable bodies entry)
    (flat : Flat bodies document) (fitIn : FitIn bodies entries document)
    (count : Nat) :
    ∃ next total, entries.foldlM replaceFragment (document, count) =
        .ok (next, total) ∧
      lexemesWith bodies (bodyLexemes bodies) next =
        lexemesWith bodies (bodyLexemes bodies) document ∧
      ∀ name, .spread name ∈ knownPieces bodies next →
        .spread name ∈ knownPieces bodies document ∧
          name ∉ entries.map Prod.fst := by
  induction entries generalizing document count with
  | nil =>
      exact ⟨document, count, rfl, rfl, fun _ member =>
        ⟨member, List.not_mem_nil⟩⟩
  | cons entry entries induction =>
      rw [List.forall_mem_cons] at usable
      rcases usable with ⟨here, usable⟩
      rcases fitIn with ⟨fits, fitIn⟩
      have stands : bodyLexemes bodies entry.1 = lexemesOf entry.2 := by
        rw [bodyLexemes, here.found]
        rfl
      rcases lexemesWith_spliced here.closed
          (fun member => flat entry.1 member entry.2 here.found) fits stands with
        ⟨lexemes_eq, spreads⟩
      have flat' : Flat bodies (spliced bodies entry document) :=
        fun name member => flat name (spreads name member).1
      rcases induction usable flat' fitIn _ with ⟨next, total, run, same, absent⟩
      refine ⟨next, total, ?_, same.trans lexemes_eq, fun name member => ?_⟩
      · rw [List.foldlM_cons, replaceFragment_spliced here, ok_bind, run]
      · rcases absent name member with ⟨inSpliced, unlisted⟩
        rcases spreads name inSpliced with ⟨inDocument, different⟩
        exact ⟨inDocument, by simpa [different] using unlisted⟩

theorem foldlM_of_free {entries : List (Text × Text)}
    (usable : ∀ entry ∈ entries, Usable bodies entry)
    (free : Free (isKnown bodies) document) (count : Nat) :
    entries.foldlM replaceFragment (document, count) = .ok (document, count) := by
  induction entries with
  | nil => rfl
  | cons entry entries induction =>
      rw [List.forall_mem_cons] at usable
      rw [List.foldlM_cons, replaceFragment_spliced usable.1,
        spliced_of_free free, List.count_eq_zero.mpr (free entry.1), ok_bind]
      exact induction usable.2

end Passes

section Resolution

variable {fragments : FragmentRegistry} {document : Text}

theorem resolve_spliced
    (usable : ∀ entry ∈ fragments.entries, Usable fragments.get? entry)
    (flat : Flat fragments.get? document)
    (fitIn : FitIn fragments.get? fragments.entries document) :
    ∃ resolved, resolve document fragments = .ok resolved ∧
      Free (isKnown fragments.get?) resolved ∧
      lexemesWith fragments.get? (bodyLexemes fragments.get?) resolved =
        lexemesWith fragments.get? (bodyLexemes fragments.get?) document := by
  rcases foldlM_spliced usable flat fitIn 0 with
    ⟨next, total, run, lexemes_eq, absent⟩
  have free : Free (isKnown fragments.get?) next := by
    intro name member
    rcases Option.isSome_iff_exists.mp (of_mem_cut member).1 with ⟨body, found⟩
    exact (absent name member).2
      (List.mem_map_of_mem (Registry.get?_eq_some_iff.mp found))
  have first : pass fragments document = .ok (next, total) := run
  have second : pass fragments next = .ok (next, 0) := foldlM_of_free usable free 0
  refine ⟨next, ?_, free, lexemes_eq⟩
  have settled : ∀ remaining, repeatPasses fragments (remaining + 2) document =
      .ok (.settled next) := by
    intro remaining
    simp only [repeatPasses, first, second, ok_bind]
    split <;> rfl
  rw [resolve]
  split
  · next isEmpty =>
    rw [pass, List.isEmpty_iff.mp isEmpty] at first
    cases first
    rfl
  · rw [passLimit, settled]

/-- Splicing merges no two lexemes: a document all of whose spreads are of
fragments without further spreads resolves to the lexemes of the document with
those of the bodies in place of the spreads, when the bodies fit in. -/
theorem resolve_lexemes (document : Text) (fragments : FragmentRegistry)
    (sound : ∀ entry ∈ fragments.entries,
      entry.1.IsName ∧ endState entry.2 = .code)
    (flat : ∀ name, Spreads fragments.get? document name →
      ∀ other, ¬ Leads fragments.get? name other)
    (fitIn : FitIn fragments.get? fragments.entries document) :
    ∃ resolved, resolve document fragments = .ok resolved ∧
      lexemesOf document = lexemesWith fragments.get? spreadLexemes document ∧
      lexemesOf resolved =
        lexemesWith fragments.get? (bodyLexemes fragments.get?) document := by
  have usable : ∀ entry ∈ fragments.entries, Usable fragments.get? entry :=
    fun entry member => ⟨Registry.get?_eq_some_iff.mpr member,
      (sound entry member).1.isWord, (sound entry member).2⟩
  have flat' : Flat fragments.get? document :=
    fun name member body found other inBody =>
      flat name (spreads_of_mem member) other ⟨body, found, spreads_of_mem inBody⟩
  rcases resolve_spliced usable flat' fitIn with
    ⟨resolved, run, free, lexemes_eq⟩
  rw [lexemesWith_of_free free] at lexemes_eq
  exact ⟨resolved, run, lexemesOf_eq_lexemesWith _ document, lexemes_eq⟩

/-! Whether bodies fit in can be decided for concrete fragments, and so can whether
they have further spreads. -/

instance (bodies : Text → Option Text) (entry : Text × Text) (text : Text) :
    Decidable (Fits bodies entry text) :=
  decidable_of_iff
    (∀ parts ∈ spreadsIn bodies text, parts.2.1 = entry.1 →
      Clear (spliced bodies entry parts.1)
          (entry.2 ++ spliced bodies entry parts.2.2) ∧
        Clear entry.2 (spliced bodies entry parts.2.2))
    ⟨fun holds before after spreadAt =>
      holds (before, entry.1, after) (mem_spreadsIn.mpr spreadAt) rfl,
    fun fits (before, _, after) member same =>
      fits before after (same ▸ mem_spreadsIn.mp member)⟩

instance decidableFitIn (bodies : Text → Option Text) :
    (entries : List (Text × Text)) → (text : Text) →
      Decidable (FitIn bodies entries text)
  | [], _ => .isTrue trivial
  | entry :: later, text =>
      @instDecidableAnd _ _ inferInstance
        (decidableFitIn bodies later (spliced bodies entry text))

theorem flat_of_spreadsIn {bodies : Text → Option Text} {text : Text}
    (listed : ∀ parts ∈ spreadsIn bodies text,
      (bodies parts.2.1).all fun body => (spreadsIn bodies body).isEmpty) :
    ∀ name, Spreads bodies text name → ∀ other, ¬ Leads bodies name other := by
  rintro name ⟨before, after, spreadAt⟩ other ⟨body, found, _, _, inBody⟩
  have empty := listed _ (mem_spreadsIn.mpr spreadAt)
  have member := mem_spreadsIn.mpr inBody
  simp only [found, Option.all_some, List.isEmpty_iff] at empty
  rw [empty] at member
  cases member

/-! The spreads of `F` and `G` touch each other and the braces around them. -/

def touchingDocument : Text := "\x7ba\x7b...F...G\x7d\x7d".toList

def touchingFragments : FragmentRegistry :=
  Registry.ofList
    [("F".toList, "x(s:\"...G\")".toList), ("G".toList, "z#...F\n".toList)]

theorem resolve_lexemes_touching :
    (∀ entry ∈ touchingFragments.entries,
        entry.1.IsName ∧ endState entry.2 = .code) ∧
      (∀ name, Spreads touchingFragments.get? touchingDocument name →
        ∀ other, ¬ Leads touchingFragments.get? name other) ∧
      FitIn touchingFragments.get? touchingFragments.entries touchingDocument ∧
      ∃ resolved, resolve touchingDocument touchingFragments = .ok resolved ∧
        lexemesOf touchingDocument =
          lexemesWith touchingFragments.get? spreadLexemes touchingDocument ∧
        lexemesOf resolved =
          lexemesWith touchingFragments.get?
            (bodyLexemes touchingFragments.get?) touchingDocument := by
  have sound : ∀ entry ∈ touchingFragments.entries,
      entry.1.IsName ∧ endState entry.2 = .code := by
    decide +kernel
  have flat : ∀ name, Spreads touchingFragments.get? touchingDocument name →
      ∀ other, ¬ Leads touchingFragments.get? name other :=
    flat_of_spreadsIn (by decide +kernel)
  have fitIn : FitIn touchingFragments.get? touchingFragments.entries
      touchingDocument := by
    decide +kernel
  exact ⟨sound, flat, fitIn,
    resolve_lexemes touchingDocument touchingFragments sound flat fitIn⟩

/-- A body that does not fit in is pasted as it is, and may run on. -/
theorem not_forall_lexemesOf_resolved :
    ¬ ∀ (document resolved : Text) (fragments : FragmentRegistry),
      (∀ entry ∈ fragments.entries, entry.1.IsName ∧ endState entry.2 = .code) →
      (∀ name, Spreads fragments.get? document name →
        ∀ other, ¬ Leads fragments.get? name other) →
      resolve document fragments = .ok resolved →
      lexemesOf resolved =
        lexemesWith fragments.get? (bodyLexemes fragments.get?) document := by
  intro all
  let fragments : FragmentRegistry := Registry.ofList [("F".toList, "b".toList)]
  have sound : ∀ entry ∈ fragments.entries,
      entry.1.IsName ∧ endState entry.2 = .code := by
    decide +kernel
  have flat : ∀ name, Spreads fragments.get? "\x7b a...F \x7d".toList name →
      ∀ other, ¬ Leads fragments.get? name other :=
    flat_of_spreadsIn (by decide +kernel)
  have run : resolve "\x7b a...F \x7d".toList fragments =
      .ok "\x7b ab \x7d".toList := by
    decide +kernel
  have different : lexemesOf "\x7b ab \x7d".toList ≠
      lexemesWith fragments.get? (bodyLexemes fragments.get?)
        "\x7b a...F \x7d".toList := by
    decide +kernel
  exact different (all _ _ fragments sound flat run)

end Resolution

end Fragment

end QueryAssembly
