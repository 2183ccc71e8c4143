import Saad.Lexer.LexFile

/-! # Going on after syntax errors

The loops of `parse_file` and `parse_block`, and how they skip a statement with a syntax error. What the
descent into a statement does is any sequence of its steps: it eats a token that it has looked at, sets
its flags, opens and leaves scopes, declares names, reads blocks, and stops at an error anywhere.
-/

namespace Saad.Recovery

open Lexer

section Tokens

def is (c : Char) : TokenType := .single (byteOf c)

def keyword (word : String) : TokenType := .keyword (asciiBytes word)

def doubleColon : TokenType := .double (byteOf ':') (byteOf ':')

def colonEqual : TokenType := .double (byteOf ':') (byteOf '=')

variable (tokens : List Token)

/-- The type of the token at an index. Behind the last token it is that of the end. -/
def typeAt (index : ℕ) : TokenType := (tokens[index]?.map Token.type).getD .tokenEnd

def lineAt (index : ℕ) : Option ℕ := tokens[index]?.map fun token => token.start.line

def colAt (index : ℕ) : Option ℕ := tokens[index]?.map fun token => token.start.col

def isAssignmentOperator (type : TokenType) : Bool :=
  type = is '=' ∨
    (['+', '-', '*', '/', '%', '^', '|', '&'].any fun c => type = .double (byteOf c) (byteOf '=')) ∨
    ['<', '>'].any fun c => type = .triple (byteOf c) (byteOf c) (byteOf '=')

/-- A declaration at the start of a line. -/
def startsTopLevelDeclaration (index : ℕ) : Bool :=
  let type := typeAt tokens index
  let after := typeAt tokens (index + 1)
  colAt tokens index = some 1 ∧
    (type ∈ [keyword "import", keyword "use", keyword "extern", is '@'] ∨
      type = .identifier ∧ after ∈ [doubleColon, is ':', colonEqual])

end Tokens

/-! ## The parser -/

structure Flags where
  insideStatementHeader : Bool := false
  insideParameterList : Bool := false
  insideArgumentList : Bool := false
  insideExternBlock : Bool := false
deriving DecidableEq, Repr

/-- What the descent reads and changes of the parser. A scope, a function and a struct are numbers, and
`scopes` is the first number that is not a scope yet. -/
structure Parser where
  currentTokenIndex : ℕ
  currentScope : ℕ
  enclosingFunction : Option ℕ := none
  flags : Flags := {}
  reparseSelfStruct : Option ℕ := none
  splitShiftRightToken : ℕ := 0
  scopes : ℕ
  /-- The identifiers of each scope. -/
  identifiers : ℕ → List Text
  poisonedNames : List Text := []
  skippedStatements : ℕ := 0

structure ParserState where
  tokenIndex : ℕ
  scope : ℕ
  scopeIdentifiers : ℕ
  enclosingFunction : Option ℕ
  flags : Flags
  reparseSelfStruct : Option ℕ

def saveParserState (parser : Parser) : ParserState where
  tokenIndex := parser.currentTokenIndex
  scope := parser.currentScope
  scopeIdentifiers := (parser.identifiers parser.currentScope).length
  enclosingFunction := parser.enclosingFunction
  flags := parser.flags
  reparseSelfStruct := parser.reparseSelfStruct

/-! ## Skipping a statement -/

section Skipping

variable (tokens : List Token)

/-- The names that a statement starts with. -/
def startingNames : List Token → List Text
  | name :: after :: rest =>
    match name.type, name.value with
    | .identifier, .identifier text =>
      if after.type = is ',' then text :: startingNames rest
      else if after.type ∈ [is ':', doubleColon, colonEqual] then [text] else []
    | _, _ => []
  | _ => []

/-- The first token on the line, but not before the start of the statement. -/
def firstOnLine (start : ℕ) (line : Option ℕ) : ℕ → ℕ
  | 0 => 0
  | first + 1 => if start < first + 1 ∧ lineAt tokens first = line then firstOnLine start line first else first + 1

/-- The braces that are open between two tokens. -/
def openBraces (start stop : ℕ) : ℤ :=
  (((tokens.take stop).drop start).map fun token =>
    if token.type = is '\x7b' then 1 else if token.type = is '\x7d' then -1 else 0).sum

def startsStatement (head after : TokenType) : Bool :=
  head ∈ ["if", "for", "while", "return", "defer", "try", "throw", "switch", "break", "continue"].map keyword ∨
    head = .identifier ∧ (after ∈ [colonEqual, is ':', doubleColon, is '('] ∨ isAssignmentOperator after)

/-- Where the line of the error begins, if it starts like a statement of its own. -/
def ownLine (start failedAt : ℕ) : Option ℕ :=
  match lineAt tokens failedAt, lineAt tokens start with
  | some line, some startLine =>
    let first := firstOnLine tokens start (some line) failedAt
    if startLine < line ∧ start < first ∧ openBraces tokens start first = 0 ∧
        startsStatement (typeAt tokens first) (typeAt tokens (first + 1)) then some first
    else none
  | _, _ => none

/-- Goes on from a token to the end of the statement. The list is what follows the index. -/
def skipToEnd (start failedAt : ℕ) (topLevel : Bool) : List Token → ℕ → ℕ → ℕ
  | [], index, _ => index
  | token :: rest, index, depth =>
    let pastError := failedAt < index
    if token.type = .tokenEnd then index
    else if index = failedAt ∧ start < failedAt ∧ depth = 0 ∧
        typeAt tokens (index - 1) ∈ [is ';', is '\x7d'] then index
    else if topLevel ∧ pastError ∧ 0 < depth ∧ startsTopLevelDeclaration tokens index then index
    else if token.type = is '\x7b' then skipToEnd start failedAt topLevel rest (index + 1) (depth + 1)
    else if token.type = is '\x7d' then
      if depth = 0 then if topLevel then index + 1 else index
      else if depth = 1 ∧ pastError then
        if typeAt tokens (index + 1) = is ';' then index + 2 else index + 1
      else skipToEnd start failedAt topLevel rest (index + 1) (depth - 1)
    else if token.type = is ';' ∧ depth = 0 ∧ failedAt ≤ index then index + 1
    else skipToEnd start failedAt topLevel rest (index + 1) depth

/-- Where parsing goes on after a statement with an error. -/
def skipIndex (start failedAt : ℕ) (topLevel : Bool) : ℕ :=
  match if topLevel then none else ownLine tokens start failedAt with
  | some first => first
  | none =>
    let index := skipToEnd tokens start failedAt topLevel (tokens.drop start) start 0
    if index ≤ start ∧ typeAt tokens index ≠ .tokenEnd ∧ (topLevel ∨ typeAt tokens index ≠ is '\x7d') then
      start + 1
    else index

/-- Goes back to the state before the statement, and skips the rest of it. -/
def skipFailedStatement (state : ParserState) (topLevel : Bool) (parser : Parser) : Parser :=
  let names := parser.identifiers state.scope
  { parser with
    currentTokenIndex := skipIndex tokens state.tokenIndex parser.currentTokenIndex topLevel
    currentScope := state.scope
    enclosingFunction := state.enclosingFunction
    flags := state.flags
    reparseSelfStruct := state.reparseSelfStruct
    splitShiftRightToken := 0
    identifiers := Function.update parser.identifiers state.scope (names.take state.scopeIdentifiers)
    poisonedNames := parser.poisonedNames ++ names.drop state.scopeIdentifiers ++
      startingNames (tokens.drop state.tokenIndex)
    skippedStatements := parser.skippedStatements + 1 }

end Skipping

/-! ## Runs -/

section Runs

variable (tokens : List Token)

/-- One step of the descent. -/
inductive Act : Parser → Parser → Prop
  | eatToken (parser : Parser) : typeAt tokens parser.currentTokenIndex ≠ .tokenEnd →
      Act parser { parser with currentTokenIndex := parser.currentTokenIndex + 1 }
  | setFlags (parser : Parser) (flags : Flags) : Act parser { parser with flags }
  | setFunction (parser : Parser) (enclosingFunction : Option ℕ) :
      Act parser { parser with enclosingFunction }
  | setSelf (parser : Parser) (reparseSelfStruct : Option ℕ) : Act parser { parser with reparseSelfStruct }
  | split (parser : Parser) (splitShiftRightToken : ℕ) : Act parser { parser with splitShiftRightToken }
  | newBlock (parser : Parser) : Act parser
      { parser with
        currentScope := parser.scopes
        scopes := parser.scopes + 1
        identifiers := Function.update parser.identifiers parser.scopes [] }
  | enter (parser : Parser) (scope : ℕ) : scope < parser.scopes →
      Act parser { parser with currentScope := scope }
  | addIdentifier (parser : Parser) (scope : ℕ) (name : Text) : scope < parser.scopes → Act parser
      { parser with
        identifiers := Function.update parser.identifiers scope (parser.identifiers scope ++ [name]) }

inductive Outcome
  | parsed | failed
deriving DecidableEq, Repr

/-- One round of a loop over statements: the parser before it, where the statement ended or failed,
and after it. -/
structure Round where
  before : Parser
  reached : Parser
  after : Parser
  outcome : Outcome

/-- The part of a run: a statement that began at a token, one round of a loop, or the rounds of a
loop. -/
inductive Part
  | statement (start : ℕ)
  | round (topLevel : Bool)
  | rounds (topLevel : Bool)

/-- The loop ends before the token. -/
def LoopEnds (topLevel : Bool) (parser : Parser) : Prop :=
  typeAt tokens parser.currentTokenIndex = .tokenEnd ∨
    topLevel = false ∧ (typeAt tokens parser.currentTokenIndex = is '\x7d' ∨
      parser.flags.insideExternBlock = false ∧
        startsTopLevelDeclaration tokens parser.currentTokenIndex = true)

/-- The `\x7d` of a block, unless it is missing. -/
def closeBlock (parser : Parser) : Parser :=
  if typeAt tokens parser.currentTokenIndex = is '\x7d' then
    { parser with currentTokenIndex := parser.currentTokenIndex + 1 }
  else parser

/-- What a run can do, and the rounds of all loops in it. A statement that is parsed has a token. -/
inductive Runs : Part → Parser → Outcome → Parser → List Round → Prop
  | parsed (start : ℕ) (parser : Parser) : start < parser.currentTokenIndex →
      Runs (.statement start) parser .parsed parser []
  | failed (start : ℕ) (parser : Parser) : Runs (.statement start) parser .failed parser []
  | act {start : ℕ} {parser next last : Parser} {outcome : Outcome} {rounds : List Round} :
      Act tokens parser next → Runs (.statement start) next outcome last rounds →
      Runs (.statement start) parser outcome last rounds
  | parseBlock {start : ℕ} {parser next last : Parser} {outcome : Outcome} {inner rounds : List Round} :
      typeAt tokens parser.currentTokenIndex = is '\x7b' →
      Runs (.rounds false) { parser with currentTokenIndex := parser.currentTokenIndex + 1 } .parsed next inner →
      Runs (.statement start) (closeBlock tokens next) outcome last rounds →
      Runs (.statement start) parser outcome last (inner ++ rounds)
  | taken {topLevel : Bool} {parser next : Parser} {inner : List Round} : ¬ LoopEnds tokens topLevel parser →
      Runs (.statement parser.currentTokenIndex) parser .parsed next inner →
      Runs (.round topLevel) parser .parsed next (inner ++ [⟨parser, next, next, .parsed⟩])
  | skipped {topLevel : Bool} {parser next : Parser} {inner : List Round} : ¬ LoopEnds tokens topLevel parser →
      Runs (.statement parser.currentTokenIndex) parser .failed next inner →
      Runs (.round topLevel) parser .parsed (skipFailedStatement tokens (saveParserState parser) topLevel next)
        (inner ++ [⟨parser, next, skipFailedStatement tokens (saveParserState parser) topLevel next, .failed⟩])
  | ended {topLevel : Bool} {parser : Parser} : LoopEnds tokens topLevel parser →
      Runs (.rounds topLevel) parser .parsed parser []
  | more {topLevel : Bool} {parser next last : Parser} {first rest : List Round} :
      Runs (.round topLevel) parser .parsed next first → Runs (.rounds topLevel) next .parsed last rest →
      Runs (.rounds topLevel) parser .parsed last (first ++ rest)

end Runs

end Saad.Recovery
