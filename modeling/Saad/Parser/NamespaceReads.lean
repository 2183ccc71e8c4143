import Saad.Parser.NamespaceAgrees

/-! # What both readers find is a plain declaration

The name that both find has no blank and no comment in it, so the text at its place is the text of the tokens.
-/

namespace Saad

variable {afterDot : Bool} {c : BitVec 8} {rest text : Text}

/-! ## Where the name ends -/

section Ends

/-- Behind a `:` the parse does not go on with a `;`. -/
theorem not_semicolon_at_colon (target : IfTarget) (afterDot : Bool) (rest : Text) :
    (target.compileTimeIfs (lexFile afterDot (byteOf ':' :: rest))).head? ≠ some (.is ';') := by
  have operator : byteOf ':' ∈ [byteOf '.', byteOf '/', byteOf ':'] := by decide
  have noComment : ¬(byteOf ':' = byteOf '/' ∧ rest.head? = some (byteOf '/')) := fun both => absurd both.1 (by decide)
  have step : lexStep afterDot (byteOf ':') rest = _ := lexStep_operator operator noComment
  split_ifs at step
  · rw [lexFile_token step, target.compileTimeIfs_cons (by simp [LexToken.is])]
    simp [LexToken.is]
  · rw [lexFile_token step, target.compileTimeIfs_cons (by simp [LexToken.is])]
    simp [LexToken.is]
  · rw [lexFile_token step, target.compileTimeIfs_cons (by decide)]
    simp only [List.head?_cons, ne_eq]
    decide

/-- At `/*` the lexer has an operator. -/
theorem lexFile_block (rest : Text) :
    ∃ behind, lexFile false (byteOf '/' :: byteOf '*' :: rest) = .is '/' :: behind := by
  have step : lexStep false (byteOf '/') (byteOf '*' :: rest) = (some (.single (byteOf '/')), 0) := by
    rw [lexStep_operator (by decide) (by simp [byteOf])]
    have noTriple : isTripleCharacterToken (byteOf '/') (byteOf '*') (rest.headD 0) = false := by
      rw [isTripleCharacterToken]
      rfl
    rw [List.headD_cons, List.tail_cons, noTriple, if_neg (by decide), if_neg (by decide)]
  exact ⟨_, lexFile_token step⟩

theorem parsedNamespace_block {target : IfTarget} {header : Text} (plain : PlainHeader header)
    (noEnd : ∀ c ∈ header, c ≠ 0) (rest : Text) :
    parsedNamespace target (header ++ byteOf '/' :: byteOf '*' :: rest) = none := by
  have text : fileText (byteOf '/' :: byteOf '*' :: rest) = byteOf '/' :: byteOf '*' :: fileText rest := rfl
  obtain ⟨behind, tokens⟩ := lexFile_block (fileText rest)
  rw [parsedNamespace, fileText_append noEnd, plain.lexFile, text, tokens, target.compileTimeIfs_cons (by decide)]
  rfl

/-- The first name that is parsed has all the characters of a name that are there. -/
theorem first_of_tokens {target : IfTarget} {first : Text} {tokens : List LexToken} (nameByte : isNameByte c = true)
    (same : target.compileTimeIfs (lexFile false (c :: rest)) = .identifier first :: tokens) :
    startsIdentifier c = true ∧ keywordAt false c rest = none ∧ first = c :: rest.takeWhile proceedsIdentifier := by
  obtain ⟨token, more, step, notHash, -⟩ := lexStep_nameByte false rest nameByte
  rw [lexFile_token step, target.compileTimeIfs_cons notHash] at same
  have isName : token = .identifier first := (List.cons.inj same).1
  rw [isName] at step
  exact lexStep_identifier_eq step

theorem dottedTokens_append (names others : List Text) :
    dottedTokens (names ++ others) = dottedTokens names ++ dottedTokens others := List.flatMap_append

theorem dottedText_append (names others : List Text) :
    dottedText (names ++ others) = dottedText names ++ dottedText others := List.flatMap_append

theorem head_stops_of_takeWhile_nil {p : BitVec 8 → Bool} (none : text.takeWhile p = []) :
    text.head?.any p = false := by
  cases text with
  | nil => rfl
  | cons c text =>
    cases inside : p c with
    | false => exact inside
    | true =>
      rw [List.takeWhile_cons, if_pos inside] at none
      cases none

/-- The last name that is parsed has all the characters of a name that are there too. -/
theorem dotted_ends {target : IfTarget} {names : List Text} {tokens : List LexToken}
    (identifiers : ∀ name ∈ names, IsIdentifier name) (some_ : names ≠ [])
    (same : target.compileTimeIfs (lexFile false (dottedText names ++ text)) = dottedTokens names ++ tokens) :
    text.head?.any proceedsIdentifier = false := by
  obtain ⟨before, last, rfl⟩ := List.eq_nil_or_concat' names |>.resolve_left some_
  -- the last name with what the lexer takes to it
  have more : (∀ name ∈ before ++ [last ++ text.takeWhile proceedsIdentifier], IsIdentifier name) := by
    intro name member
    rcases List.mem_append.mp member with member | member
    · exact identifiers name (List.mem_append_left _ member)
    · rw [List.mem_singleton.mp member]
      obtain ⟨starts, all⟩ := identifiers last (List.mem_append_right _ (List.mem_singleton_self _))
      constructor
      · cases last with
        | nil => cases starts
        | cons c last => exact starts
      · intro c inside
        rcases List.mem_append.mp inside with inside | inside
        · exact all c inside
        · exact List.mem_takeWhile_imp inside
  have stops : (text.dropWhile proceedsIdentifier).head?.any proceedsIdentifier = false := by
    cases left : text.dropWhile proceedsIdentifier with
    | nil => rfl
    | cons c rest =>
      have some_ : text.dropWhile proceedsIdentifier ≠ [] := by
        rw [left]
        exact List.cons_ne_nil _ _
      have notMore := List.head_dropWhile_not proceedsIdentifier some_
      simpa [left] using notMore
  have split : dottedText (before ++ [last]) ++ text =
      dottedText (before ++ [last ++ text.takeWhile proceedsIdentifier]) ++ text.dropWhile proceedsIdentifier := by
    rw [dottedText_append, dottedText_append]
    simp [dottedText]
  rw [split, lexFile_dotted more stops, target.compileTimeIfs_append (not_hash_of_mem_dottedTokens _),
    dottedTokens_append, dottedTokens_append, List.append_assoc, List.append_assoc] at same
  have names := List.append_cancel_left same
  have ended : last ++ text.takeWhile proceedsIdentifier = last := by
    simp only [dottedTokens, List.flatMap_cons, List.flatMap_nil, List.append_nil, List.cons_append] at names
    exact LexToken.identifier.inj (List.cons.inj (List.cons.inj names).2).1
  exact head_stops_of_takeWhile_nil (List.append_right_eq_self.mp ended)

end Ends

/-! ## The agreement -/

section Agree

variable {target : IfTarget} {raw name : Text}

/-- The tokens that are parsed at the name are the ones of a plain declaration. -/
theorem name_of_tokens {first : Text} {names : List Text} {tokens : List LexToken}
    (bytes : ∀ c ∈ first ++ dottedText names, isNameByte c = true)
    (same : target.compileTimeIfs (lexFile false (first ++ dottedText names ++ text)) =
      .identifier first :: (dottedTokens names ++ .is ';' :: tokens)) :
    IsIdentifier first ∧ first ∉ keywords ∧ (∀ name ∈ names, IsIdentifier name) ∧
      (target.compileTimeIfs (lexFile false text)).head? = some (.is ';') := by
  have members : ∀ token ∈ LexToken.identifier first :: (dottedTokens names ++ .is ';' :: tokens),
      token ∈ lexFile false (first ++ dottedText names ++ text) := by
    intro token member
    rw [← same] at member
    exact target.mem_of_mem_compileTimeIfs member
  have firstIdentifier : IsIdentifier first := isIdentifier_of_mem_lexFile (members _ (List.mem_cons_self ..))
  have identifiers : ∀ name ∈ names, IsIdentifier name := by
    intro name member
    have inTokens : LexToken.identifier name ∈ dottedTokens names :=
      List.mem_flatMap.mpr ⟨name, member, List.mem_cons_of_mem _ (List.mem_singleton_self _)⟩
    exact isIdentifier_of_mem_lexFile (members _ (List.mem_cons_of_mem _ (List.mem_append_left _ inTokens)))
  obtain ⟨c, tail, rfl⟩ : ∃ c tail, first = c :: tail := by
    cases first with
    | nil => cases firstIdentifier.1
    | cons c tail => exact ⟨c, tail, rfl⟩
  have nameByte : isNameByte c = true := bytes c (List.mem_cons_self ..)
  have split : c :: tail ++ dottedText names ++ text = c :: (tail ++ (dottedText names ++ text)) := by simp
  rw [split] at same
  obtain ⟨starts, noKeyword, whole⟩ := first_of_tokens nameByte same
  have proceeds : ∀ c ∈ tail, proceedsIdentifier c = true := fun other member =>
    firstIdentifier.2 other (List.mem_cons_of_mem _ member)
  have ended : (dottedText names ++ text).takeWhile proceedsIdentifier = [] := by
    rw [List.takeWhile_append_of_pos proceeds] at whole
    exact List.append_right_eq_self.mp (List.cons.inj whole).2.symm
  obtain ⟨taken, dropped⟩ := takeWhile_stops proceeds (head_stops_of_takeWhile_nil ended)
  rw [lexFile_name starts noKeyword, taken, dropped, target.compileTimeIfs_cons (by simp [LexToken.is])] at same
  have behind := (List.cons.inj same).2
  have stops : text.head?.any proceedsIdentifier = false := by
    by_cases none : names = []
    · subst none
      exact head_stops_of_takeWhile_nil ended
    · exact dotted_ends identifiers none behind
  rw [lexFile_dotted identifiers stops, target.compileTimeIfs_append (not_hash_of_mem_dottedTokens names)] at behind
  have semicolon : (target.compileTimeIfs (lexFile false text)).head? = some (.is ';') := by
    rw [List.append_cancel_left behind]
    rfl
  refine ⟨firstIdentifier, fun keyword => ?_, identifiers, semicolon⟩
  -- a keyword is only read as a name in front of a `:`
  have word : wordAt c (tail ++ (dottedText names ++ text)) = c :: tail := by
    rw [wordAt_eq, ← List.cons_append]
    exact (takeWhile_stops firstIdentifier.2 (head_stops_of_takeWhile_nil ended)).1
  have drop : (c :: (tail ++ (dottedText names ++ text))).drop (c :: tail).length = dottedText names ++ text := by
    rw [← List.cons_append]
    exact List.drop_left
  have colon : ((dottedText names ++ text).dropWhile isSpace).head? = some (byteOf ':') := by
    by_contra notColon
    rw [keywordAt] at noKeyword
    simp only [word, drop] at noKeyword
    rw [if_pos ⟨keyword, by decide, fun both => notColon both.1⟩] at noKeyword
    cases noKeyword
  cases names with
  | cons name names =>
    have dot : ((dottedText (name :: names) ++ text).dropWhile isSpace).head? = some (byteOf '.') := rfl
    rw [dot] at colon
    exact absurd colon (by decide)
  | nil =>
    have parts := List.takeWhile_append_dropWhile (p := isSpace) (l := text)
    cases left : text.dropWhile isSpace with
    | nil =>
      rw [show dottedText [] ++ text = text from rfl, left] at colon
      cases colon
    | cons first rest =>
      rw [show dottedText [] ++ text = text from rfl, left] at colon
      have isColon : first = byteOf ':' := Option.some.inj colon
      rw [← parts, lexFile_spaces fun c member => List.mem_takeWhile_imp member, left, isColon] at semicolon
      exact not_semicolon_at_colon target false rest semicolon

/-- A name that both readers find is one of a plain declaration. -/
theorem plain_of_reads (read : readNamespaceDeclaration raw = some name)
    (parsed : parsedNamespace target raw = some name) :
    ∃ header blanks first names rest, PlainDeclaration target raw header blanks first names rest := by
  obtain ⟨header, blanks, c, tail, ⟨window, skipped, some_, spaces, nameByte⟩, same⟩ :=
    starts_of_readNamespaceDeclaration read
  obtain ⟨cut, whole⟩ : ∃ cut, scanWindow raw ++ cut = raw :=
    ((List.takeWhile_prefix _).trans (List.take_prefix _ _) : scanWindow raw <+: raw)
  have noEnd : ∀ b ∈ scanWindow raw, b ≠ 0 := fun b member => by simpa using List.mem_takeWhile_imp member
  have fits : (scanWindow raw).length ≤ 4095 := by
    calc
      (scanWindow raw).length ≤ (raw.take 4095).length := (List.takeWhile_prefix _).length_le
      _ ≤ 4095 := List.length_take_le _ _
  -- the name, and what is left of the window behind it
  obtain ⟨left, parts⟩ : ∃ left, name ++ left = c :: tail := by
    rw [same]
    exact (List.take_prefix _ _).trans (List.takeWhile_prefix _)
  have bytes : ∀ b ∈ name, isNameByte b = true := by
    rw [same]
    exact fun b member => List.mem_takeWhile_imp (List.mem_of_mem_take member)
  have short : name.length ≤ 255 := by
    rw [same]
    exact List.length_take_le _ _
  rw [← parts] at window
  rw [window] at whole noEnd fits
  have headerNoEnd : ∀ b ∈ header, b ≠ 0 := fun b member => noEnd b (List.mem_append_left _ member)
  have isRaw : raw = header ++ (namespaceWord ++ (blanks ++ (name ++ (left ++ cut)))) := by
    rw [← whole]
    simp only [List.append_assoc]
  rcases skipped.plain_or_block with plain | ⟨before, block, plain, rfl⟩
  · have starts : ∃ tail, name ++ fileText (left ++ cut) = c :: tail := by
      rw [same, List.takeWhile_cons, if_pos nameByte, List.take_succ_cons]
      exact ⟨_, rfl⟩
    obtain ⟨behind, atName⟩ := starts
    obtain ⟨notSpace, notColon, -, -⟩ := not_space_of_nameByte c nameByte
    rw [parsedNamespace, isRaw, fileText_declaration headerNoEnd spaces bytes, plain.lexFile, atName,
      lexFile_namespace some_ spaces notSpace notColon, target.compileTimeIfs_cons (by simp [LexToken.is]), ← atName,
      parseNamespace_eq_some_iff] at parsed
    obtain ⟨first, names, tokens, atFirst, rfl⟩ := parsed
    obtain ⟨firstIdentifier, noKeyword, identifiers, semicolon⟩ := name_of_tokens bytes (List.cons.inj atFirst).2
    refine ⟨header, blanks, first, names, left ++ cut, isRaw, plain, headerNoEnd, some_, spaces, firstIdentifier, noKeyword,
      identifiers, short, ?_, semicolon⟩
    simp only [List.length_append] at fits ⊢
    have nine : namespaceWord.length = 9 := by decide
    omega
  · -- the lexer has no comments in `/*` and `*/`
    have atBlock : raw = before ++ byteOf '/' :: byteOf '*' ::
        (block ++ (namespaceWord ++ (blanks ++ (name ++ (left ++ cut))))) := by
      rw [isRaw]
      simp only [List.append_assoc, List.cons_append]
    rw [atBlock, parsedNamespace_block plain fun b member => headerNoEnd b (List.mem_append_left _ member)] at parsed
    cases parsed

/-- The reader of the start of a file and the parser agree on a file in two ways: the file has a plain
declaration, or neither its start nor its tokens begin with a declaration. -/
theorem namespaces_agree_iff (target : IfTarget) (raw : Text) :
    (∀ name, readNamespaceDeclaration raw = some name ↔ parsedNamespace target raw = some name) ↔
      (∃ header blanks first names rest, PlainDeclaration target raw header blanks first names rest) ∨
        (¬∃ header blanks c rest, StartsDeclaration raw header blanks c rest) ∧
          ∀ name, ¬DeclarationTokens (target.compileTimeIfs (lexFile false (fileText raw))) name := by
  constructor
  · intro agree
    cases read : readNamespaceDeclaration raw with
    | some name =>
      have parsed := (agree name).mp read
      exact .inl (plain_of_reads read parsed)
    | none =>
      refine .inr ⟨read_none_iff.mp read, fun name declared => ?_⟩
      have parsed : parsedNamespace target raw = some name := parseNamespace_eq_some_iff.mpr declared
      rw [(agree name).mpr parsed] at read
      cases read
  · rintro (⟨header, blanks, first, names, rest, plain⟩ | ⟨notStarts, notDeclared⟩) name
    · rw [plain.read, plain.parsed]
    · have read : readNamespaceDeclaration raw = none := read_none_iff.mpr notStarts
      constructor
      · intro found
        rw [read] at found
        cases found
      · intro parsed
        exact absurd (parseNamespace_eq_some_iff.mp parsed) (notDeclared name)

/-- A blank in front of a dot ends the name for the reader of the start, and not for the parser. -/
theorem spacedName_not_agrees :
    ¬∀ (target : IfTarget) (raw name : Text),
      readNamespaceDeclaration raw = some name ↔ parsedNamespace target raw = some name := by
  intro agree
  let target : IfTarget := ⟨asciiBytes "linux", asciiBytes "x64"⟩
  have read : readNamespaceDeclaration (asciiBytes "namespace game .physics;") = some (asciiBytes "game") := by decide
  have semicolon : lexFile false [byteOf ';'] = [.is ';'] := by
    have step : lexStep false (byteOf ';') [] = (some (.single (byteOf ';')), 0) := by decide
    rw [lexFile_token step, List.drop_zero, lexFile]
    rfl
  have physics : lexFile true (asciiBytes "physics;") = [.identifier (asciiBytes "physics"), .is ';'] := by
    have name : lexFile true (asciiBytes "physics" ++ [byteOf ';']) = _ :=
      lexFile_identifier (by decide) (by decide) (.inl rfl)
    rw [semicolon] at name
    exact name
  have dotted : lexFile false (asciiBytes " .physics;") = .is '.' :: lexFile true (asciiBytes "physics;") := by
    have blank : lexFile false (byteOf ' ' :: asciiBytes ".physics;") = _ := lexFile_blank (.inl rfl)
    have dot : lexFile false (byteOf '.' :: byteOf 'p' :: asciiBytes "hysics;") = _ := lexFile_dot (by decide)
    exact blank.trans dot
  have game : lexFile false (asciiBytes "game" ++ asciiBytes " .physics;") = _ :=
    lexFile_identifier (by decide) (by decide) (.inr (by decide))
  have declared : lexFile false (namespaceWord ++ ([byteOf ' '] ++ byteOf 'g' :: asciiBytes "ame .physics;")) = _ :=
    lexFile_namespace (by decide) (by decide) (by decide) (by decide)
  have tokens : lexFile false (asciiBytes "namespace game .physics;") =
      [.keyword namespaceWord, .identifier (asciiBytes "game"), .is '.', .identifier (asciiBytes "physics"), .is ';'] := by
    rw [dotted, physics] at game
    exact declared.trans (congrArg (List.cons _) game)
  have parsed : parsedNamespace target (asciiBytes "namespace game .physics;") = some (asciiBytes "game.physics") := by
    have text : fileText (asciiBytes "namespace game .physics;") = asciiBytes "namespace game .physics;" := by decide
    have plain : ∀ token ∈ lexFile false (asciiBytes "namespace game .physics;"), token ≠ .is '#' := by
      rw [tokens]
      decide
    have same := target.compileTimeIfs_append plain []
    have none : target.compileTimeIfs [] = [] := by rw [IfTarget.compileTimeIfs, IfTarget.ifTokens]
    rw [List.append_nil, none, List.append_nil] at same
    rw [parsedNamespace, text, same, tokens]
    decide
  rw [(agree target _ _).mp read] at parsed
  exact absurd parsed (by decide)

end Agree

end Saad
