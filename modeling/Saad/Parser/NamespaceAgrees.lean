import Mathlib.Data.List.TakeWhile
import Saad.Parser.CompileTimeIf

/-! # The namespace of a file

A file says which namespace it is in with its first statement. The compiler reads the start of every file
with a reader of its own to know which files a namespace has, and the parser reads the declaration from the
tokens.
-/

namespace Saad

section Scan

def namespaceWord : Text := asciiBytes "namespace"

/-- Where the reader is: between comments, or in one. -/
inductive ScanMode where
  | between
  | line
  | block
deriving DecidableEq, Repr

def isScanBlank (c : BitVec 8) : Bool :=
  c == byteOf ' ' || c == byteOf '\t' || c == byteOf '\r' || c == byteOf '\n'

/-- The text behind the blanks and comments at its start. -/
def scanHeader : ScanMode → Text → Text
  | _, [] => []
  | .between, [c] => if isScanBlank c then [] else [c]
  | .between, c :: next :: rest =>
    if isScanBlank c then scanHeader .between (next :: rest)
    else if c = byteOf '/' ∧ next = byteOf '/' then scanHeader .line rest
    else if c = byteOf '/' ∧ next = byteOf '*' then scanHeader .block rest
    else c :: next :: rest
  | .line, c :: rest => if c = byteOf '\n' then scanHeader .between rest else scanHeader .line rest
  | .block, [_] => []
  | .block, c :: next :: rest =>
    if c = byteOf '*' ∧ next = byteOf '/' then scanHeader .between rest else scanHeader .block (next :: rest)

def isSpace (c : BitVec 8) : Bool := c == byteOf ' ' || c == byteOf '\t'

def isNameByte (c : BitVec 8) : Bool := startsIdentifier c || isDigit c || c == byteOf '.'

/-- The part of a file that is read. -/
def scanWindow (raw : Text) : Text := (raw.take 4095).takeWhile fun c => c != 0

/-- The name of the namespace that the file is in, from the start of its bytes. -/
def readNamespaceDeclaration (raw : Text) : Option Text :=
  let text := scanHeader .between (scanWindow raw)
  if namespaceWord.isPrefixOf text ∧ (text.drop 9).head?.any isSpace then
    let name := ((text.drop 9).dropWhile isSpace).takeWhile isNameByte |>.take 255
    if name = [] then none else some name
  else none

end Scan

section Parse

/-- The names behind dots, and the tokens behind them. -/
def parseDottedRest : List LexToken → Text × List LexToken
  | dot :: .identifier name :: rest =>
    if dot = .is '.' then
      let more := parseDottedRest rest
      (byteOf '.' :: name ++ more.1, more.2)
    else ([], dot :: .identifier name :: rest)
  | tokens => ([], tokens)

def parseDottedName : List LexToken → Option (Text × List LexToken)
  | .identifier name :: rest => some (name ++ (parseDottedRest rest).1, (parseDottedRest rest).2)
  | _ => none

/-- The namespace that `parse_file` adds the file to, from the tokens that are left of it. -/
def parseNamespace : List LexToken → Option Text
  | .keyword word :: rest =>
    if word = namespaceWord then
      match parseDottedName rest with
      | some (name, semicolon :: _) => if semicolon = .is ';' then some name else none
      | _ => none
    else none
  | _ => none

/-- The namespace of a file by its parse. -/
def parsedNamespace (target : IfTarget) (raw : Text) : Option Text :=
  parseNamespace (target.compileTimeIfs (lexFile false (fileText raw)))

end Parse

end Saad

/-! # When both readers find the same namespace

The two readers agree on a plain declaration: blanks and comments of lines, the word, blanks, and a dotted name
in one piece, in the part of the file that is read.
-/

namespace Saad

/-! ## Headers -/

section Headers

/-- Blanks and comments of lines. -/
inductive PlainHeader : Text → Prop
  | nil : PlainHeader []
  | blank {c : BitVec 8} {header : Text} : isScanBlank c = true → PlainHeader header → PlainHeader (c :: header)
  | comment {comment header : Text} : (∀ c ∈ comment, c ≠ byteOf '\n') → PlainHeader header →
      PlainHeader (byteOf '/' :: byteOf '/' :: (comment ++ byteOf '\n' :: header))

/-- The body of a comment in `/*` and `*/` does not have its end in it. -/
def NoBlockEnd (body : Text) : Prop := ∀ before after, body ≠ before ++ byteOf '*' :: byteOf '/' :: after

/-- What the reader of the start of a file skips: comments in `/*` and `*/` too. -/
inductive SkippedHeader : Text → Prop
  | nil : SkippedHeader []
  | blank {c : BitVec 8} {header : Text} : isScanBlank c = true → SkippedHeader header → SkippedHeader (c :: header)
  | comment {comment header : Text} : (∀ c ∈ comment, c ≠ byteOf '\n') → SkippedHeader header →
      SkippedHeader (byteOf '/' :: byteOf '/' :: (comment ++ byteOf '\n' :: header))
  | block {body header : Text} : NoBlockEnd body → SkippedHeader header →
      SkippedHeader (byteOf '/' :: byteOf '*' :: (body ++ byteOf '*' :: byteOf '/' :: header))

variable {header rest text : Text} {c : BitVec 8}

theorem PlainHeader.skipped (plain : PlainHeader header) : SkippedHeader header := by
  induction plain with
  | nil => exact .nil
  | blank isBlank _ ih => exact .blank isBlank ih
  | comment oneLine _ ih => exact .comment oneLine ih

/-- A skipped header is plain, or plain up to its first `/*`. -/
theorem SkippedHeader.plain_or_block (skipped : SkippedHeader header) :
    PlainHeader header ∨ ∃ plain tail, PlainHeader plain ∧ header = plain ++ byteOf '/' :: byteOf '*' :: tail := by
  induction skipped with
  | nil => exact .inl .nil
  | @blank c header isBlank _ ih =>
    rcases ih with plain | ⟨plain, tail, isPlain, rfl⟩
    · exact .inl (.blank isBlank plain)
    · exact .inr ⟨c :: plain, tail, .blank isBlank isPlain, rfl⟩
  | @comment comment header oneLine _ ih =>
    rcases ih with plain | ⟨plain, tail, isPlain, rfl⟩
    · exact .inl (.comment oneLine plain)
    · exact .inr ⟨byteOf '/' :: byteOf '/' :: (comment ++ byteOf '\n' :: plain), tail, .comment oneLine isPlain,
        by simp⟩
  | block _ _ _ => exact .inr ⟨[], _, .nil, rfl⟩

-- The equations of the scan are made here, before the proofs below ask for them all at once.
attribute [local simp] scanHeader in
theorem scanHeader_blank (blank : isScanBlank c = true) :
    scanHeader .between (c :: rest) = scanHeader .between rest := by
  cases rest with
  | nil => simp [scanHeader, blank]
  | cons next rest => rw [scanHeader, if_pos blank]

theorem scanHeader_line {comment : Text} (oneLine : ∀ c ∈ comment, c ≠ byteOf '\n') :
    scanHeader .line (comment ++ byteOf '\n' :: rest) = scanHeader .between rest := by
  induction comment with
  | nil => rw [List.nil_append, scanHeader, if_pos rfl]
  | cons c comment ih =>
    rw [List.cons_append, scanHeader, if_neg (oneLine c (List.mem_cons_self ..))]
    exact ih fun other member => oneLine other (List.mem_cons_of_mem _ member)

theorem scanHeader_block {body : Text} (open_ : NoBlockEnd body) :
    scanHeader .block (body ++ byteOf '*' :: byteOf '/' :: rest) = scanHeader .between rest := by
  induction body with
  | nil => rw [List.nil_append, scanHeader, if_pos ⟨rfl, rfl⟩]
  | cons c body ih =>
    have tail : NoBlockEnd body := fun before after same => open_ (c :: before) after (by rw [same]; rfl)
    rw [List.cons_append]
    cases body with
    | nil =>
      rw [List.nil_append, scanHeader, if_neg (by rintro ⟨-, slash⟩; exact absurd slash (by decide))]
      exact ih tail
    | cons next body =>
      rw [List.cons_append, scanHeader, if_neg]
      · exact ih tail
      · rintro ⟨rfl, rfl⟩
        exact open_ [] body rfl

/-- What comes behind a skipped header is read as if it were the start. -/
theorem SkippedHeader.scan (skipped : SkippedHeader header) (rest : Text) :
    scanHeader .between (header ++ rest) = scanHeader .between rest := by
  induction skipped with
  | nil => rfl
  | blank isBlank _ ih => rw [List.cons_append, scanHeader_blank isBlank, ih]
  | comment oneLine _ ih =>
    rw [List.cons_append, List.cons_append, List.append_assoc, List.cons_append, scanHeader,
      if_neg (by decide), if_pos ⟨rfl, rfl⟩, scanHeader_line oneLine, ih]
  | block open_ _ ih =>
    rw [List.cons_append, List.cons_append, List.append_assoc, List.cons_append, List.cons_append, scanHeader,
      if_neg (by decide), if_neg (by decide), if_pos ⟨rfl, rfl⟩, scanHeader_block open_, ih]

/-- A comment of a line that something is read behind has an end. -/
theorem line_split (found : scanHeader .line text ≠ []) :
    ∃ comment after, text = comment ++ byteOf '\n' :: after ∧ (∀ c ∈ comment, c ≠ byteOf '\n') := by
  induction text with
  | nil => exact absurd rfl found
  | cons c text ih =>
    rw [scanHeader] at found
    split_ifs at found with ends
    · exact ⟨[], text, by rw [ends]; rfl, by simp⟩
    · obtain ⟨comment, after, rfl, oneLine⟩ := ih found
      refine ⟨c :: comment, after, rfl, ?_⟩
      intro other member
      rcases List.mem_cons.mp member with rfl | member
      · exact ends
      · exact oneLine other member

theorem block_split (found : scanHeader .block text ≠ []) :
    ∃ body after, text = body ++ byteOf '*' :: byteOf '/' :: after ∧ NoBlockEnd body := by
  induction text with
  | nil => exact absurd rfl found
  | cons c text ih =>
    cases text with
    | nil => exact absurd rfl found
    | cons next text =>
      rw [scanHeader] at found
      split_ifs at found with ends
      · refine ⟨[], text, by rw [ends.1, ends.2]; rfl, fun before after same => ?_⟩
        simp at same
      · obtain ⟨body, after, same, open_⟩ := ih found
        refine ⟨c :: body, after, by rw [same]; rfl, fun before behind inside => ?_⟩
        cases before with
        | nil =>
          obtain ⟨rfl, rfl⟩ := List.cons.inj inside
          rw [List.cons_append] at same
          exact ends ⟨rfl, (List.cons.inj same).1⟩
        | cons first before => exact open_ before behind (List.cons.inj inside).2

/-- What is read behind a header is behind a skipped one. -/
theorem scanHeader_split (found : scanHeader .between text ≠ []) :
    ∃ header, text = header ++ scanHeader .between text ∧ SkippedHeader header := by
  induction length : text.length using Nat.strongRecOn generalizing text with
  | ind n ih =>
    cases text with
    | nil => exact absurd rfl found
    | cons c text =>
      by_cases blank : isScanBlank c = true
      · rw [scanHeader_blank blank] at found ⊢
        obtain ⟨header, same, skipped⟩ := ih text.length (by rw [← length]; exact Nat.lt_succ_self _) found rfl
        exact ⟨c :: header, by rw [List.cons_append, ← same], .blank blank skipped⟩
      · cases text with
        | nil =>
          rw [scanHeader, if_neg blank]
          exact ⟨[], rfl, .nil⟩
        | cons next text =>
          rw [scanHeader, if_neg blank] at found ⊢
          split_ifs at found ⊢ with line block
          · obtain ⟨rfl, rfl⟩ := line
            obtain ⟨comment, after, rfl, oneLine⟩ := line_split found
            rw [scanHeader_line oneLine] at found ⊢
            obtain ⟨header, same, skipped⟩ := ih after.length (by rw [← length]; simp; omega) found rfl
            exact ⟨_, by rw [List.cons_append, List.cons_append, List.append_assoc, List.cons_append, ← same],
              .comment oneLine skipped⟩
          · obtain ⟨rfl, rfl⟩ := block
            obtain ⟨body, after, rfl, open_⟩ := block_split found
            rw [scanHeader_block open_] at found ⊢
            obtain ⟨header, same, skipped⟩ := ih after.length (by rw [← length]; simp; omega) found rfl
            exact ⟨_, by rw [List.cons_append, List.cons_append, List.append_assoc, List.cons_append, List.cons_append,
              ← same], .block open_ skipped⟩
          · exact ⟨[], rfl, .nil⟩

end Headers

/-! ## The tokens of a declaration -/

section Tokens

variable {afterDot : Bool} {c : BitVec 8} {rest text : Text}

/-- A name of letters, digits and `_`, which no digit starts. -/
def IsIdentifier (name : Text) : Prop :=
  name.head?.any startsIdentifier = true ∧ ∀ c ∈ name, proceedsIdentifier c = true

instance (name : Text) : Decidable (IsIdentifier name) := inferInstanceAs (Decidable (_ ∧ _))

def withoutReturns (raw : Text) : Text := raw.filter fun c => c != byteOf '\r'

theorem fileText_append {before : Text} (noEnd : ∀ c ∈ before, c ≠ 0) (rest : Text) :
    fileText (before ++ rest) = withoutReturns before ++ fileText rest := by
  rw [fileText, List.filter_append, List.takeWhile_append_of_pos]
  · rfl
  · intro c member
    simpa using noEnd c (List.mem_filter.mp member).1

/-- A plain header has no tokens. -/
theorem PlainHeader.lexFile {header : Text} (plain : PlainHeader header) (rest : Text) :
    lexFile afterDot (withoutReturns header ++ rest) = Saad.lexFile afterDot rest := by
  induction plain with
  | nil => rfl
  | @blank c header isBlank _ ih =>
    rw [withoutReturns, List.filter_cons]
    split_ifs with kept
    · rw [List.cons_append, lexFile_blank]
      · exact ih
      · simp only [isScanBlank, Bool.or_eq_true, beq_iff_eq] at isBlank
        rcases isBlank with ((space | tab) | carriage) | newline
        · exact .inl space
        · exact .inr (.inl tab)
        · rw [carriage] at kept
          exact absurd kept (by decide)
        · exact .inr (.inr newline)
    · exact ih
  | @comment comment header oneLine _ ih =>
    have split : withoutReturns (byteOf '/' :: byteOf '/' :: (comment ++ byteOf '\n' :: header)) =
        byteOf '/' :: byteOf '/' :: (withoutReturns comment ++ byteOf '\n' :: withoutReturns header) := by
      rw [withoutReturns, List.filter_cons_of_pos (by decide), List.filter_cons_of_pos (by decide), List.filter_append,
        List.filter_cons_of_pos (by decide)]
      rfl
    rw [split, List.cons_append, List.cons_append, List.append_assoc, List.cons_append, lexFile_comment, ih]
    exact fun c member => oneLine c (List.mem_filter.mp member).1

theorem lexFile_spaces {blanks : Text} (all : ∀ c ∈ blanks, isSpace c = true) (rest : Text) :
    lexFile afterDot (blanks ++ rest) = lexFile afterDot rest := by
  induction blanks with
  | nil => rfl
  | cons c blanks ih =>
    have space := all c (List.mem_cons_self ..)
    simp only [isSpace, Bool.or_eq_true, beq_iff_eq] at space
    rw [List.cons_append, lexFile_blank (space.elim .inl fun tab => .inr (.inl tab))]
    exact ih fun other member => all other (List.mem_cons_of_mem _ member)

/-- The branches of `lex_file` in front of the words are for other characters. -/
theorem not_special_of_startsIdentifier : ∀ c : BitVec 8, startsIdentifier c = true →
    ¬(c = byteOf ' ' ∨ c = byteOf '\t' ∨ c = byteOf '\n') ∧ c ≠ byteOf '/' ∧ c ≠ byteOf '0' ∧ isDigit c = false ∧
      c ≠ byteOf '\'' ∧ c ≠ byteOf '"' ∧ proceedsIdentifier c = true := by decide

theorem proceedsIdentifier_eq : ∀ c : BitVec 8, proceedsIdentifier c = (startsIdentifier c || isDigit c) := by
  decide

theorem wordAt_eq (c : BitVec 8) (rest : Text) : wordAt c rest = (c :: rest).takeWhile proceedsIdentifier := by
  rw [wordAt]
  congr 1
  funext c
  exact (proceedsIdentifier_eq c).symm

/-- At a letter, the step is a keyword or a name. -/
theorem lexStep_word (starts : startsIdentifier c = true) :
    lexStep afterDot c rest = match keywordAt afterDot c rest with
      | some word => (some (keywordToken word), word.length - 1)
      | none => (some (.identifier (c :: rest.takeWhile proceedsIdentifier)),
        (c :: rest.takeWhile proceedsIdentifier).length - 1) := by
  obtain ⟨notBlank, notSlash, notZero, notDigit, notQuote, notString, -⟩ := not_special_of_startsIdentifier c starts
  rw [lexStep, if_neg notBlank, if_neg fun both => notSlash both.1, if_neg fun both => notZero both.1,
    if_neg (by rw [notDigit]; decide), if_neg notQuote, if_neg notString]
  cases keywordAt afterDot c rest with
  | some word => rfl
  | none => rw [if_pos starts]

theorem drop_length_takeWhile (p : BitVec 8 → Bool) (text : Text) :
    text.drop (text.takeWhile p).length = text.dropWhile p := by
  have split := List.takeWhile_append_dropWhile (p := p) (l := text)
  exact (congrArg (List.drop (text.takeWhile p).length) split.symm).trans List.drop_left

/-- A name is one token, when no keyword is read there. -/
theorem lexFile_name (starts : startsIdentifier c = true) (noKeyword : keywordAt afterDot c rest = none) :
    lexFile afterDot (c :: rest) = .identifier (c :: rest.takeWhile proceedsIdentifier) ::
      lexFile false (rest.dropWhile proceedsIdentifier) := by
  have step : lexStep afterDot c rest = (some (.identifier (c :: rest.takeWhile proceedsIdentifier)),
      (c :: rest.takeWhile proceedsIdentifier).length - 1) := by
    rw [lexStep_word starts, noKeyword]
  rw [lexFile_token step, List.length_cons, Nat.add_sub_cancel, drop_length_takeWhile]
  rfl

theorem keywordAt_afterDot : keywordAt true c rest = none := by simp [keywordAt]

theorem keywordAt_none {name : Text} (word : wordAt c rest = name) (noKeyword : name ∉ keywords) :
    keywordAt afterDot c rest = none := by
  rw [keywordAt]
  simp only [word]
  rw [if_neg fun all => noKeyword all.1]

theorem takeWhile_stops {p : BitVec 8 → Bool} {first rest : Text} (all : ∀ c ∈ first, p c = true)
    (stops : rest.head?.any p = false) :
    (first ++ rest).takeWhile p = first ∧ (first ++ rest).dropWhile p = rest := by
  rw [List.takeWhile_append_of_pos all, List.dropWhile_append_of_pos all]
  cases rest with
  | nil => simp
  | cons c rest =>
    have stop : p c = false := stops
    simp [stop]

theorem lexFile_namespace {blanks : Text} (some_ : blanks ≠ []) (all : ∀ c ∈ blanks, isSpace c = true)
    (notSpace : isSpace c = false) (notColon : c ≠ byteOf ':') :
    lexFile false (namespaceWord ++ (blanks ++ c :: rest)) = .keyword namespaceWord :: lexFile false (c :: rest) := by
  obtain ⟨blank, blanks, rfl⟩ := List.exists_cons_of_ne_nil some_
  have stops : ((blank :: blanks) ++ c :: rest).head?.any proceedsIdentifier = false := by
    show proceedsIdentifier blank = false
    have space := all blank (List.mem_cons_self ..)
    simp only [isSpace, Bool.or_eq_true, beq_iff_eq] at space
    rcases space with rfl | rfl <;> decide
  have word : wordAt (byteOf 'n') (asciiBytes "amespace" ++ (blank :: blanks ++ c :: rest)) = namespaceWord := by
    have taken : (namespaceWord ++ (blank :: blanks ++ c :: rest)).takeWhile proceedsIdentifier = namespaceWord :=
      (takeWhile_stops (by decide) stops).1
    rw [wordAt_eq]
    exact taken
  have behind : ((byteOf 'n' :: (asciiBytes "amespace" ++ (blank :: blanks ++ c :: rest))).drop namespaceWord.length
      |>.dropWhile fun c => c == byteOf ' ' || c == byteOf '\t') = c :: rest := by
    have drop : (namespaceWord ++ (blank :: blanks ++ c :: rest)).drop namespaceWord.length =
        blank :: blanks ++ c :: rest := List.drop_left
    have ends : (c :: rest).head?.any isSpace = false := notSpace
    have left : ((blank :: blanks) ++ c :: rest).dropWhile isSpace = c :: rest := (takeWhile_stops all ends).2
    exact (congrArg (List.dropWhile isSpace) drop).trans left
  have keyword : keywordAt false (byteOf 'n') (asciiBytes "amespace" ++ (blank :: blanks ++ c :: rest)) =
      some namespaceWord := by
    rw [keywordAt]
    simp only [word, behind, List.head?_cons]
    rw [if_pos]
    refine ⟨by decide, by decide, fun both => notColon ?_⟩
    exact Option.some.inj both.1
  have starts : startsIdentifier (byteOf 'n') = true := by decide
  have step : lexStep false (byteOf 'n') (asciiBytes "amespace" ++ (blank :: blanks ++ c :: rest)) =
      (some (keywordToken namespaceWord), namespaceWord.length - 1) := by
    rw [lexStep_word starts, keyword]
  have token : keywordToken namespaceWord = .keyword namespaceWord := by decide
  have eight : (asciiBytes "amespace" ++ (blank :: blanks ++ c :: rest)).drop (namespaceWord.length - 1) =
      blank :: blanks ++ c :: rest := by
    have drop : (asciiBytes "amespace" ++ (blank :: blanks ++ c :: rest)).drop (asciiBytes "amespace").length =
        blank :: blanks ++ c :: rest := List.drop_left
    exact drop
  have whole : namespaceWord ++ (blank :: blanks ++ c :: rest) =
      byteOf 'n' :: (asciiBytes "amespace" ++ (blank :: blanks ++ c :: rest)) := rfl
  rw [whole, lexFile_token step, eight, token, lexFile_spaces all]
  rfl

/-- A name with more behind it that is no part of it. -/
theorem lexFile_identifier {name : Text} (identifier : IsIdentifier name)
    (stops : rest.head?.any proceedsIdentifier = false) (plain : afterDot = true ∨ name ∉ keywords) :
    lexFile afterDot (name ++ rest) = .identifier name :: lexFile false rest := by
  obtain ⟨starts, all⟩ := identifier
  cases name with
  | nil => cases starts
  | cons c name =>
    obtain ⟨taken, dropped⟩ := takeWhile_stops (fun c member => all c (List.mem_cons_of_mem _ member)) stops
    have word : wordAt c (name ++ rest) = c :: name := by
      rw [wordAt_eq, ← List.cons_append]
      exact (takeWhile_stops all stops).1
    have noKeyword : keywordAt afterDot c (name ++ rest) = none := by
      rcases plain with rfl | notKeyword
      · exact keywordAt_afterDot
      · exact keywordAt_none word notKeyword
    rw [List.cons_append, lexFile_name starts noKeyword, taken, dropped]

theorem no_operator_of_startsIdentifier : ∀ c : BitVec 8, startsIdentifier c = true →
    isDoubleCharacterToken (byteOf '.') c = false ∧ c ≠ byteOf '.' := by decide

/-- At a character of an operator that starts no comment, the step is the operator. -/
theorem lexStep_operator (operator : c ∈ [byteOf '.', byteOf '/', byteOf ':'])
    (noComment : ¬(c = byteOf '/' ∧ rest.head? = some (byteOf '/'))) :
    lexStep afterDot c rest =
      if isTripleCharacterToken c (rest.headD 0) (rest.tail.headD 0) then
        (some (.triple c (rest.headD 0) (rest.tail.headD 0)), 2)
      else if isDoubleCharacterToken c (rest.headD 0) then (some (.double c (rest.headD 0)), 1)
      else (some (.single c), 0) := by
  obtain ⟨notBlank, notZero, notDigit, notQuote, notString, notName, single⟩ :
      ¬(c = byteOf ' ' ∨ c = byteOf '\t' ∨ c = byteOf '\n') ∧ c ≠ byteOf '0' ∧ isDigit c = false ∧ c ≠ byteOf '\'' ∧
        c ≠ byteOf '"' ∧ startsIdentifier c = false ∧ isSingleCharacterToken c = true := by
    clear noComment
    revert c
    decide
  have stops : proceedsIdentifier c = false := by rw [proceedsIdentifier_eq, notName, notDigit]; rfl
  have word : keywordAt afterDot c rest = none :=
    keywordAt_none (show wordAt c rest = [] by rw [wordAt_eq, List.takeWhile_cons, stops]; rfl) (by decide)
  rw [lexStep, if_neg notBlank, if_neg noComment, if_neg fun both => notZero both.1, if_neg (by rw [notDigit]; decide),
    if_neg notQuote, if_neg notString, word]
  simp only [notName, single, if_true]
  rfl

theorem lexStep_dot : lexStep afterDot (byteOf '.') rest =
    if isTripleCharacterToken (byteOf '.') (rest.headD 0) (rest.tail.headD 0) then
      (some (.triple (byteOf '.') (rest.headD 0) (rest.tail.headD 0)), 2)
    else if isDoubleCharacterToken (byteOf '.') (rest.headD 0) then (some (.double (byteOf '.') (rest.headD 0)), 1)
    else (some (.single (byteOf '.')), 0) :=
  lexStep_operator (by decide) fun both => absurd both.1 (by decide)

theorem lexFile_dot (starts : startsIdentifier c = true) :
    lexFile afterDot (byteOf '.' :: c :: rest) = .single (byteOf '.') :: lexFile true (c :: rest) := by
  obtain ⟨noDouble, notDot⟩ := no_operator_of_startsIdentifier c starts
  have noTriple : isTripleCharacterToken (byteOf '.') c (rest.headD 0) = false := by
    have first : (c == byteOf '.') = false := beq_eq_false_iff_ne.mpr notDot
    rw [isTripleCharacterToken, first, Bool.and_false, Bool.false_and]
    rfl
  have step : lexStep afterDot (byteOf '.') (c :: rest) = (some (.single (byteOf '.')), 0) := by
    rw [lexStep_dot, List.headD_cons, List.tail_cons, noTriple, noDouble]
    rfl
  rw [lexFile_token step, List.drop_zero]
  rfl

/-- The names behind the first one, each with its dot. -/
def dottedText (names : List Text) : Text := names.flatMap fun name => byteOf '.' :: name

def dottedTokens (names : List Text) : List LexToken := names.flatMap fun name => [.is '.', .identifier name]

theorem head_dottedText_stops (names : List Text) (stops : rest.head?.any proceedsIdentifier = false) :
    (dottedText names ++ rest).head?.any proceedsIdentifier = false := by
  cases names with
  | nil => exact stops
  | cons name names =>
    show proceedsIdentifier (byteOf '.') = false
    decide

theorem lexFile_dotted {names : List Text} (all : ∀ name ∈ names, IsIdentifier name)
    (stops : rest.head?.any proceedsIdentifier = false) :
    lexFile false (dottedText names ++ rest) = dottedTokens names ++ lexFile false rest := by
  induction names with
  | nil => rfl
  | cons name names ih =>
    have identifier := all name (List.mem_cons_self ..)
    have split : dottedText (name :: names) ++ rest = byteOf '.' :: (name ++ (dottedText names ++ rest)) := by
      simp [dottedText]
    obtain ⟨c, tail, rfl⟩ : ∃ c tail, name = c :: tail := by
      cases name with
      | nil => cases identifier.1
      | cons c tail => exact ⟨c, tail, rfl⟩
    rw [split, List.cons_append, lexFile_dot identifier.1, ← List.cons_append,
      lexFile_identifier identifier (head_dottedText_stops names stops) (.inl rfl),
      ih fun other member => all other (List.mem_cons_of_mem _ member)]
    rfl

theorem not_hash_of_mem_dottedTokens (names : List Text) : ∀ token ∈ dottedTokens names, token ≠ .is '#' := by
  intro token member
  obtain ⟨name, -, inside⟩ := List.mem_flatMap.mp member
  rcases List.mem_cons.mp inside with rfl | inside
  · decide
  · rw [List.mem_singleton.mp inside]
    simp [LexToken.is]

end Tokens

/-! ## Names of identifiers -/

section Identifiers

variable {afterDot : Bool} {c : BitVec 8} {rest : Text}

/-- A name is read at a letter where no keyword is. -/
theorem lexStep_identifier_eq {name : Text} {more : ℕ}
    (step : lexStep afterDot c rest = (some (.identifier name), more)) :
    startsIdentifier c = true ∧ keywordAt afterDot c rest = none ∧ name = c :: rest.takeWhile proceedsIdentifier := by
  cases keyword : keywordAt afterDot c rest <;> simp only [lexStep, keyword, numberLength, keywordToken] at step <;>
    split_ifs at step <;> simp at step
  next starts => exact ⟨starts, rfl, step.1.symm⟩

theorem lexStep_identifier {name : Text} {more : ℕ} (step : lexStep afterDot c rest = (some (.identifier name), more)) :
    IsIdentifier name := by
  obtain ⟨starts, -, rfl⟩ := lexStep_identifier_eq step
  refine ⟨starts, fun other member => ?_⟩
  rcases List.mem_cons.mp member with rfl | member
  · exact (not_special_of_startsIdentifier other starts).2.2.2.2.2.2
  · exact List.mem_takeWhile_imp member

/-- The lexer makes no other names than identifiers. -/
theorem isIdentifier_of_mem_lexFile {text name : Text} (member : LexToken.identifier name ∈ lexFile afterDot text) :
    IsIdentifier name := by
  induction afterDot, text using lexFile.induct with
  | case1 afterDot =>
    rw [lexFile] at member
    cases member
  | case2 afterDot c rest token more step ih =>
    rw [lexFile_token step] at member
    rcases List.mem_cons.mp member with rfl | member
    · exact lexStep_identifier step
    · exact ih member
  | case3 afterDot c rest more step ih =>
    rw [lexFile_skip step] at member
    exact ih member

/-- A byte of a name starts a token, which is no `#` and no `;`. -/
theorem lexStep_nameByte (afterDot : Bool) (rest : Text) (nameByte : isNameByte c = true) :
    ∃ token more, lexStep afterDot c rest = (some token, more) ∧ token ≠ .is '#' ∧ token ≠ .is ';' := by
  cases starts : startsIdentifier c with
  | true =>
    rw [lexStep_word starts]
    cases keywordAt afterDot c rest with
    | none => exact ⟨_, _, rfl, by simp [LexToken.is], by simp [LexToken.is]⟩
    | some word =>
      refine ⟨_, _, rfl, ?_, ?_⟩ <;> simp only [keywordToken] <;> split_ifs <;> simp [LexToken.is]
  | false =>
    cases digit : isDigit c with
    | true =>
      have notOther : ¬(c = byteOf ' ' ∨ c = byteOf '\t' ∨ c = byteOf '\n') ∧ c ≠ byteOf '/' := by
        revert digit
        revert c
        decide
      rw [lexStep, if_neg notOther.1, if_neg fun both => notOther.2 both.1]
      split_ifs
      · exact ⟨_, _, rfl, by simp [LexToken.is], by simp [LexToken.is]⟩
      · refine ⟨_, _, rfl, ?_, ?_⟩ <;> simp only [numberLength] <;> split_ifs <;> simp [LexToken.is]
    | false =>
      rw [isNameByte, starts, digit, Bool.false_or, Bool.false_or, beq_iff_eq] at nameByte
      subst nameByte
      rw [lexStep_dot]
      split_ifs
      · exact ⟨_, _, rfl, by simp [LexToken.is], by simp [LexToken.is]⟩
      · exact ⟨_, _, rfl, by simp [LexToken.is], by simp [LexToken.is]⟩
      · exact ⟨_, _, rfl, by decide, by decide⟩

namespace IfTarget

variable (target : IfTarget)

/-- `#if` makes no tokens. -/
theorem ifTokens_mem (n : ℕ) : (∀ keep tokens, 2 * tokens.length ≤ n → ∀ token ∈ target.ifTokens keep tokens, token ∈ tokens) ∧
    ∀ keep tokens, 2 * tokens.length + 1 ≤ n → ∀ token ∈ (target.ifDirective keep tokens).1, token ∈ tokens := by
  induction n with
  | zero =>
    refine ⟨fun keep tokens small token member => ?_, fun keep tokens small => by omega⟩
    obtain rfl : tokens = [] := List.length_eq_zero_iff.mp (by omega)
    rw [ifTokens] at member
    exact member
  | succ n ih =>
    obtain ⟨ofTokens, ofDirective⟩ := ih
    constructor
    · intro keep tokens small token member
      cases tokens with
      | nil =>
        rw [ifTokens] at member
        exact member
      | cons first rest =>
        rw [List.length_cons] at small
        rw [ifTokens] at member
        by_cases directive : first = .is '#' ∧ rest.head? = some ifWord
        · rw [if_pos directive] at member
          rcases List.mem_append.mp member with inside | behind
          · have found := ofDirective keep rest.tail (by rw [List.length_tail]; omega) token inside
            exact List.mem_cons_of_mem _ (List.mem_of_mem_tail found)
          · have found := ofTokens keep _ (by rw [List.length_drop]; omega) token behind
            exact List.mem_cons_of_mem _ (List.mem_of_mem_drop found)
        · rw [if_neg directive] at member
          rcases List.mem_append.mp member with inside | behind
          · split_ifs at inside
            · rw [List.mem_singleton.mp inside]
              exact List.mem_cons_self ..
            · cases inside
          · exact List.mem_cons_of_mem _ (ofTokens keep rest (by omega) token behind)
    · intro keep tokens small token member
      have le := target.length_behindCondition_le tokens
      have inTokens : ∀ other ∈ target.behindCondition tokens, other ∈ tokens := fun other found => List.mem_of_mem_drop found
      rw [ifDirective] at member
      split at member
      · cases member
      · next brace body branch =>
        rw [branch, List.length_cons] at le
        have inBody : ∀ other ∈ body, other ∈ tokens := fun other found =>
          inTokens other (branch ▸ List.mem_cons_of_mem _ found)
        split_ifs at member
        · cases member
        · split at member
          · cases member
          · next close found =>
            simp only at member
            have ofKept : ∀ other ∈ target.ifTokens (keep && (target.ifCondition tokens).1) (body.take close),
                other ∈ tokens := fun other inside =>
              inBody other (List.mem_of_mem_take (ofTokens _ _ (by rw [List.length_take]; omega) other inside))
            have inAfter : ∀ other ∈ body.drop (close + 1), other ∈ tokens := fun other inside =>
              inBody other (List.mem_of_mem_drop inside)
            split_ifs at member
            · exact ofKept token member
            · rcases List.mem_append.mp member with inside | behind
              · exact ofKept token inside
              · have inside := ofDirective _ _ (by simp only [List.length_tail, List.length_drop]; omega) token behind
                exact inAfter token (List.mem_of_mem_tail (List.mem_of_mem_tail (List.mem_of_mem_tail inside)))
            · exact ofKept token member
            · split at member
              · exact ofKept token member
              · rcases List.mem_append.mp member with inside | behind
                · exact ofKept token inside
                · have inside := ofTokens _ _ (by simp only [List.length_take, List.length_tail, List.length_drop]; omega)
                    token behind
                  exact inAfter token (List.mem_of_mem_tail (List.mem_of_mem_tail (List.mem_of_mem_take inside)))

theorem mem_of_mem_compileTimeIfs {tokens : List LexToken} {token : LexToken} (member : token ∈ target.compileTimeIfs tokens) :
    token ∈ tokens := (target.ifTokens_mem _).1 true tokens le_rfl token member

end IfTarget

/-- What a `;` is read from does not start with a byte of a name. -/
theorem not_nameByte_of_semicolon (target : IfTarget) {text : Text}
    (semicolon : (target.compileTimeIfs (lexFile afterDot text)).head? = some (.is ';')) :
    text.head?.any isNameByte = false := by
  cases text with
  | nil => rfl
  | cons c rest =>
    cases nameByte : isNameByte c with
    | false => exact nameByte
    | true =>
      obtain ⟨token, more, step, notHash, notSemicolon⟩ := lexStep_nameByte afterDot rest nameByte
      rw [lexFile_token step, target.compileTimeIfs_cons notHash] at semicolon
      exact absurd (Option.some.inj semicolon) notSemicolon

end Identifiers

/-! ## The parse -/

section Parse

variable {tokens : List LexToken} {name : Text}

theorem parseDottedRest_append (names : List Text) (tokens : List LexToken) :
    parseDottedRest (dottedTokens names ++ tokens) =
      (dottedText names ++ (parseDottedRest tokens).1, (parseDottedRest tokens).2) := by
  induction names with
  | nil => rfl
  | cons name names ih =>
    have split : dottedTokens (name :: names) ++ tokens = .is '.' :: .identifier name :: (dottedTokens names ++ tokens) := by
      simp [dottedTokens]
    rw [split, parseDottedRest, if_pos rfl, ih]
    simp [dottedText]

theorem parseDottedRest_split (tokens : List LexToken) :
    ∃ names rest, tokens = dottedTokens names ++ rest ∧ parseDottedRest tokens = (dottedText names, rest) := by
  induction tokens using parseDottedRest.induct with
  | case1 name rest ih =>
    obtain ⟨names, left, same, result⟩ := ih
    refine ⟨name :: names, left, by rw [same]; simp [dottedTokens], ?_⟩
    rw [parseDottedRest, if_pos rfl, result]
    simp [dottedText]
  | case2 dot name rest notDot =>
    exact ⟨[], _, rfl, by rw [parseDottedRest, if_neg notDot]; rfl⟩
  | case3 tokens other =>
    refine ⟨[], tokens, rfl, ?_⟩
    rw [parseDottedRest]
    · rfl
    · exact other

/-- The tokens begin with a declaration of the namespace. -/
def DeclarationTokens (tokens : List LexToken) (name : Text) : Prop :=
  ∃ first names rest, tokens = .keyword namespaceWord :: .identifier first :: (dottedTokens names ++ .is ';' :: rest) ∧
    name = first ++ dottedText names

theorem parseNamespace_eq_some_iff : parseNamespace tokens = some name ↔ DeclarationTokens tokens name := by
  constructor
  · intro parsed
    cases tokens with
    | nil => cases parsed
    | cons token tokens =>
      cases token with
      | keyword word =>
        rw [parseNamespace] at parsed
        split_ifs at parsed with same
        subst same
        cases tokens with
        | nil => cases parsed
        | cons token tokens =>
          cases token with
          | identifier first =>
            obtain ⟨names, rest, split, result⟩ := parseDottedRest_split tokens
            simp only [parseDottedName, result] at parsed
            cases rest with
            | nil => cases parsed
            | cons semicolon rest =>
              simp only at parsed
              split_ifs at parsed with isSemicolon
              subst isSemicolon
              exact ⟨first, names, rest, by rw [split], (Option.some.inj parsed).symm⟩
          | _ => cases parsed
      | _ => cases parsed
  · rintro ⟨first, names, rest, rfl, rfl⟩
    have behind : parseDottedRest (.is ';' :: rest) = ([], .is ';' :: rest) := by
      cases rest with
      | nil => rfl
      | cons token rest =>
        cases token with
        | identifier name => rw [parseDottedRest, if_neg (by decide)]
        | _ => rfl
    rw [parseNamespace, if_pos rfl, parseDottedName, parseDottedRest_append, behind]
    simp

end Parse

/-! ## The start of a file -/

section Scan

variable {raw name : Text} {target : IfTarget}

/-- The part of the file that is read has blanks and comments, the word, blanks and the first byte of a name. -/
def StartsDeclaration (raw header blanks : Text) (c : BitVec 8) (rest : Text) : Prop :=
  scanWindow raw = header ++ (namespaceWord ++ (blanks ++ c :: rest)) ∧ SkippedHeader header ∧ blanks ≠ [] ∧
    (∀ b ∈ blanks, isSpace b = true) ∧ isNameByte c = true

theorem not_space_of_nameByte : ∀ c : BitVec 8, isNameByte c = true →
    isSpace c = false ∧ c ≠ byteOf ':' ∧ c ≠ 0 ∧ c ≠ byteOf '\r' := by decide

theorem drop_namespaceWord (rest : Text) : (namespaceWord ++ rest).drop 9 = rest := by
  have left : (namespaceWord ++ rest).drop namespaceWord.length = rest := List.drop_left
  exact left

theorem scanHeader_namespace (rest : Text) : scanHeader .between (namespaceWord ++ rest) = namespaceWord ++ rest := by
  have split : namespaceWord ++ rest = byteOf 'n' :: byteOf 'a' :: (asciiBytes "mespace" ++ rest) := rfl
  rw [split, scanHeader, if_neg (by decide), if_neg (by decide), if_neg (by decide)]

theorem readNamespaceDeclaration_starts {header blanks rest : Text} {c : BitVec 8}
    (starts : StartsDeclaration raw header blanks c rest) :
    readNamespaceDeclaration raw = some (((c :: rest).takeWhile isNameByte).take 255) := by
  obtain ⟨window, skipped, some_, spaces, nameByte⟩ := starts
  have nine : (namespaceWord ++ (blanks ++ c :: rest)).drop 9 = blanks ++ c :: rest := drop_namespaceWord _
  have ends : (c :: rest).head?.any isSpace = false := (not_space_of_nameByte c nameByte).1
  have behind : (blanks ++ c :: rest).dropWhile isSpace = c :: rest := (takeWhile_stops spaces ends).2
  have first : (blanks ++ c :: rest).head?.any isSpace = true := by
    obtain ⟨blank, blanks, rfl⟩ := List.exists_cons_of_ne_nil some_
    exact spaces blank (List.mem_cons_self ..)
  have isPrefix : namespaceWord.isPrefixOf (namespaceWord ++ (blanks ++ c :: rest)) = true :=
    List.isPrefixOf_iff_prefix.mpr (List.prefix_append _ _)
  rw [readNamespaceDeclaration, window, skipped.scan, scanHeader_namespace]
  simp only [nine, isPrefix, first, and_self, if_true, behind]
  rw [if_neg]
  rw [List.takeWhile_cons, if_pos nameByte, List.take_succ_cons]
  exact List.cons_ne_nil _ _

theorem starts_of_readNamespaceDeclaration (read : readNamespaceDeclaration raw = some name) :
    ∃ header blanks c rest, StartsDeclaration raw header blanks c rest ∧
      name = ((c :: rest).takeWhile isNameByte).take 255 := by
  rw [readNamespaceDeclaration] at read
  simp only at read
  split_ifs at read with word none
  obtain ⟨isPrefix, blank⟩ := word
  obtain ⟨behind, split⟩ := List.isPrefixOf_iff_prefix.mp isPrefix
  have nine : (scanHeader .between (scanWindow raw)).drop 9 = behind := by
    rw [← split]
    exact drop_namespaceWord _
  rw [nine] at read none blank
  have found : scanHeader .between (scanWindow raw) ≠ [] := by
    rw [← split]
    exact List.cons_ne_nil _ _
  obtain ⟨header, window, skipped⟩ := scanHeader_split found
  have parts := List.takeWhile_append_dropWhile (p := isSpace) (l := behind)
  cases rest : behind.dropWhile isSpace with
  | nil =>
    rw [rest] at none
    exact absurd rfl none
  | cons c rest' =>
    rw [rest] at read none parts
    have nameByte : isNameByte c = true := by
      by_contra notName
      rw [List.takeWhile_cons, if_neg notName] at none
      exact none rfl
    refine ⟨header, behind.takeWhile isSpace, c, rest', ⟨?_, skipped, ?_, fun b member => ?_, nameByte⟩,
      (Option.some.inj read).symm⟩
    · rw [parts, split, ← window]
    · intro empty
      cases behind with
      | nil => cases blank
      | cons first behind =>
        have space : isSpace first = true := blank
        rw [List.takeWhile_cons, if_pos space] at empty
        cases empty
    · exact List.mem_takeWhile_imp member

theorem read_none_iff : readNamespaceDeclaration raw = none ↔ ¬∃ header blanks c rest, StartsDeclaration raw header blanks c rest := by
  constructor
  · rintro none ⟨header, blanks, c, rest, starts⟩
    rw [readNamespaceDeclaration_starts starts] at none
    cases none
  · intro notStarts
    cases read : readNamespaceDeclaration raw with
    | none => rfl
    | some name =>
      obtain ⟨header, blanks, c, rest, starts, -⟩ := starts_of_readNamespaceDeclaration read
      exact absurd ⟨header, blanks, c, rest, starts⟩ notStarts

end Scan

/-! ## Plain declarations -/

/-- A declaration in one piece: the name has no blanks in it, fits the buffer of the name, and ends in the part
of the file that is read; what is parsed behind it begins with the semicolon. -/
structure PlainDeclaration (target : IfTarget) (raw header blanks first : Text) (names : List Text) (rest : Text) :
    Prop where
  raw_eq : raw = header ++ (namespaceWord ++ (blanks ++ (first ++ dottedText names ++ rest)))
  plain : PlainHeader header
  noEnd : ∀ c ∈ header, c ≠ 0
  some_blank : blanks ≠ []
  spaces : ∀ c ∈ blanks, isSpace c = true
  first_identifier : IsIdentifier first
  no_keyword : first ∉ keywords
  names_identifier : ∀ name ∈ names, IsIdentifier name
  name_short : (first ++ dottedText names).length ≤ 255
  in_window : header.length + 9 + blanks.length + (first ++ dottedText names).length ≤ 4095
  semicolon : (target.compileTimeIfs (lexFile false (fileText rest))).head? = some (.is ';')

section Plain

variable {target : IfTarget} {raw header blanks first rest : Text} {names : List Text}

theorem nameByte_of_proceeds : ∀ c : BitVec 8, proceedsIdentifier c = true → isNameByte c = true := by decide

theorem nameByte_of_mem_dotted (identifiers : ∀ name ∈ names, IsIdentifier name) :
    ∀ c ∈ dottedText names, isNameByte c = true := by
  intro c member
  obtain ⟨name, found, inside⟩ := List.mem_flatMap.mp member
  rcases List.mem_cons.mp inside with rfl | inside
  · decide
  · exact nameByte_of_proceeds c ((identifiers name found).2 c inside)

/-- The text of a file that has a declaration at its start. -/
theorem fileText_declaration {name : Text} (noEnd : ∀ c ∈ header, c ≠ 0) (spaces : ∀ c ∈ blanks, isSpace c = true)
    (bytes : ∀ c ∈ name, isNameByte c = true) :
    fileText (header ++ (namespaceWord ++ (blanks ++ (name ++ rest)))) =
      withoutReturns header ++ (namespaceWord ++ (blanks ++ (name ++ fileText rest))) := by
  have noReturn : ∀ c ∈ namespaceWord ++ (blanks ++ name), c ≠ 0 ∧ (c != byteOf '\r') = true := by
    intro c member
    rcases List.mem_append.mp member with member | member
    · have all : ∀ c ∈ namespaceWord, c ≠ 0 ∧ (c != byteOf '\r') = true := by decide
      exact all c member
    · rcases List.mem_append.mp member with member | member
      · have space := spaces c member
        refine ⟨?_, ?_⟩
        · rintro rfl
          exact absurd space (by decide)
        · simp only [bne_iff_ne, ne_eq]
          rintro rfl
          exact absurd space (by decide)
      · obtain ⟨-, -, notEnd, notReturn⟩ := not_space_of_nameByte c (bytes c member)
        exact ⟨notEnd, by simpa using notReturn⟩
  have kept : withoutReturns (namespaceWord ++ (blanks ++ name)) = namespaceWord ++ (blanks ++ name) :=
    List.filter_eq_self.mpr fun c member => (noReturn c member).2
  have grouped : header ++ (namespaceWord ++ (blanks ++ (name ++ rest))) =
      header ++ ((namespaceWord ++ (blanks ++ name)) ++ rest) := by
    simp only [List.append_assoc]
  rw [grouped, fileText_append noEnd, fileText_append fun c member => (noReturn c member).1, kept]
  simp only [List.append_assoc]

namespace PlainDeclaration

theorem nameBytes (plain : PlainDeclaration target raw header blanks first names rest) :
    ∀ c ∈ first ++ dottedText names, isNameByte c = true := by
  intro c member
  rcases List.mem_append.mp member with inside | inside
  · exact nameByte_of_proceeds c (plain.first_identifier.2 c inside)
  · exact nameByte_of_mem_dotted plain.names_identifier c inside

theorem name_cons (plain : PlainDeclaration target raw header blanks first names rest) :
    ∃ c tail, first ++ dottedText names = c :: tail ∧ isNameByte c = true := by
  have bytes := plain.nameBytes
  have starts := plain.first_identifier.1
  cases first with
  | nil => cases starts
  | cons c tail => exact ⟨c, tail ++ dottedText names, rfl, bytes c (List.mem_cons_self ..)⟩

/-- The name ends where the rest begins, for both readers. -/
theorem stops (plain : PlainDeclaration target raw header blanks first names rest) :
    rest.head?.any isNameByte = false ∧ (fileText rest).head?.any proceedsIdentifier = false := by
  have ends := not_nameByte_of_semicolon target plain.semicolon
  constructor
  · cases rest with
    | nil => rfl
    | cons c rest =>
      cases nameByte : isNameByte c with
      | false => exact nameByte
      | true =>
        obtain ⟨-, -, notEnd, notReturn⟩ := not_space_of_nameByte c nameByte
        rw [fileText, List.filter_cons_of_pos (by simpa using notReturn), List.takeWhile_cons,
          if_pos (by simpa using notEnd)] at ends
        exact absurd nameByte (by simpa using ends)
  · cases text : fileText rest with
    | nil => rfl
    | cons c text =>
      rw [text] at ends
      have notName : isNameByte c = false := ends
      cases proceeds : proceedsIdentifier c with
      | false => exact proceeds
      | true =>
        rw [nameByte_of_proceeds c proceeds] at notName
        cases notName

theorem window (plain : PlainDeclaration target raw header blanks first names rest) :
    ∃ rest', scanWindow raw = header ++ (namespaceWord ++ (blanks ++ (first ++ dottedText names ++ rest'))) ∧
      rest'.head?.any isNameByte = false := by
  obtain ⟨ends, -⟩ := plain.stops
  have bytes := plain.nameBytes
  refine ⟨(rest.take (4095 - (header.length + 9 + blanks.length + (first ++ dottedText names).length))).takeWhile
    fun c => c != 0, ?_, ?_⟩
  · have before : raw = (header ++ namespaceWord ++ blanks ++ (first ++ dottedText names)) ++ rest := by
      rw [plain.raw_eq]
      simp only [List.append_assoc]
    have length : (header ++ namespaceWord ++ blanks ++ (first ++ dottedText names)).length =
        header.length + 9 + blanks.length + (first ++ dottedText names).length := by
      simp only [List.length_append]
      rfl
    have noEnd : ∀ c ∈ header ++ namespaceWord ++ blanks ++ (first ++ dottedText names), (c != 0) = true := by
      intro c member
      simp only [bne_iff_ne, ne_eq]
      rcases List.mem_append.mp member with member | member
      · rcases List.mem_append.mp member with member | member
        · rcases List.mem_append.mp member with member | member
          · exact plain.noEnd c member
          · have all : ∀ c ∈ namespaceWord, c ≠ 0 := by decide
            exact all c member
        · have space := plain.spaces c member
          rintro rfl
          exact absurd space (by decide)
      · exact (not_space_of_nameByte c (bytes c member)).2.2.1
    have fits := plain.in_window
    rw [scanWindow, before, List.take_append, List.take_of_length_le (by rw [length]; exact fits), length,
      List.takeWhile_append_of_pos noEnd]
    simp only [List.append_assoc]
  · cases rest with
    | nil => simp
    | cons c rest =>
      have stop : isNameByte c = false := ends
      cases 4095 - (header.length + 9 + blanks.length + (first ++ dottedText names).length) with
      | zero => rfl
      | succ n =>
        rw [List.take_succ_cons, List.takeWhile_cons]
        split_ifs
        · exact stop
        · rfl

/-- The reader of the start of the file finds the name. -/
theorem read (plain : PlainDeclaration target raw header blanks first names rest) :
    readNamespaceDeclaration raw = some (first ++ dottedText names) := by
  obtain ⟨rest', window, ends⟩ := plain.window
  obtain ⟨c, tail, name, nameByte⟩ := plain.name_cons
  have bytes := plain.nameBytes
  have short := plain.name_short
  have starts : StartsDeclaration raw header blanks c (tail ++ rest') := by
    refine ⟨?_, plain.plain.skipped, plain.some_blank, plain.spaces, nameByte⟩
    rw [window, name, List.cons_append]
  have taken := (takeWhile_stops bytes ends).1
  rw [readNamespaceDeclaration_starts starts, ← List.cons_append, ← name, taken, List.take_of_length_le short]

/-- The parser finds the name. -/
theorem parsed (plain : PlainDeclaration target raw header blanks first names rest) :
    parsedNamespace target raw = some (first ++ dottedText names) := by
  obtain ⟨c, tail, name, nameByte⟩ := plain.name_cons
  obtain ⟨-, ends⟩ := plain.stops
  have bytes := plain.nameBytes
  obtain ⟨notSpace, notColon, -, -⟩ := not_space_of_nameByte c nameByte
  have text : fileText raw = withoutReturns header ++ (namespaceWord ++ (blanks ++ (first ++ dottedText names ++ fileText rest))) := by
    rw [plain.raw_eq, fileText_declaration plain.noEnd plain.spaces bytes]
  have tokens : lexFile false (fileText raw) =
      .keyword namespaceWord :: .identifier first :: (dottedTokens names ++ lexFile false (fileText rest)) := by
    rw [text, plain.plain.lexFile, name, List.cons_append,
      lexFile_namespace plain.some_blank plain.spaces notSpace notColon, ← List.cons_append, ← name, List.append_assoc,
      lexFile_identifier plain.first_identifier (head_dottedText_stops names ends) (.inr plain.no_keyword),
      lexFile_dotted plain.names_identifier ends]
  obtain ⟨behind, semicolon⟩ : ∃ behind, target.compileTimeIfs (lexFile false (fileText rest)) = .is ';' :: behind := by
    have head := plain.semicolon
    cases same : target.compileTimeIfs (lexFile false (fileText rest)) with
    | nil =>
      rw [same] at head
      cases head
    | cons token behind =>
      rw [same] at head
      exact ⟨behind, by rw [Option.some.inj head]⟩
  rw [parsedNamespace, tokens, target.compileTimeIfs_cons (by simp [LexToken.is]),
    target.compileTimeIfs_cons (by simp [LexToken.is]), target.compileTimeIfs_append (not_hash_of_mem_dottedTokens names), semicolon]
  exact parseNamespace_eq_some_iff.mpr ⟨first, names, behind, rfl, rfl⟩

end PlainDeclaration

end Plain

end Saad
