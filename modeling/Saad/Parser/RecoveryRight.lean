import Saad.Parser.Recovery

/-! # When the recovery is right

A step of the descent only moves on and only adds names, and so does what a failed statement is skipped to:
each round moves on, does not pass the end and gives the flags and the scope back. The names are those
from before exactly if the statement added none to another scope.
-/

namespace Saad.Recovery

open Lexer

variable {tokens : List Token}

/-- The token is there, and the end of the file is not before it. -/
def Inside (tokens : List Token) (index : ℕ) : Prop :=
  index < tokens.length ∧ ∀ i < index, typeAt tokens i ≠ .tokenEnd

def EndsWithEnd (tokens : List Token) : Prop := tokens.getLast?.map Token.type = some .tokenEnd

/-- A parser that a run begins with. -/
structure Ready (tokens : List Token) (parser : Parser) : Prop where
  inside : Inside tokens parser.currentTokenIndex
  scope : parser.currentScope < parser.scopes

/-- The second parser is further on, and has all the names of the first one. -/
structure Later (first second : Parser) : Prop where
  index : first.currentTokenIndex ≤ second.currentTokenIndex
  scopes : first.scopes ≤ second.scopes
  names : ∀ scope < first.scopes, first.identifiers scope <+: second.identifiers scope

structure RoundRight (tokens : List Token) (round : Round) : Prop where
  forward : round.before.currentTokenIndex < round.after.currentTokenIndex
  reached : Inside tokens round.reached.currentTokenIndex
  after : Inside tokens round.after.currentTokenIndex
  flags : round.outcome = .failed → round.after.flags = round.before.flags
  scope : round.outcome = .failed → round.after.currentScope = round.before.currentScope
  functions : round.outcome = .failed → round.after.enclosingFunction = round.before.enclosingFunction ∧
    round.after.reparseSelfStruct = round.before.reparseSelfStruct
  kept : ∀ scope < round.before.scopes, round.before.identifiers scope <+: round.after.identifiers scope
  gone : round.outcome = .failed → ∀ scope < round.before.scopes,
    round.after.identifiers scope = round.before.identifiers scope

/-- A statement that failed added no name to a scope that was there, but the one it stands in. -/
def KeepsOtherScopes (round : Round) : Prop :=
  round.outcome = .failed → ∀ scope < round.before.scopes, scope ≠ round.before.currentScope →
    round.reached.identifiers scope = round.before.identifiers scope

/-! ## Tokens -/

section Tokens

variable {index i : ℕ}

theorem typeAt_eq_of_lt (here : index < tokens.length) : typeAt tokens index = tokens[index].type := by
  simp [typeAt, here]

theorem Inside.of_le (inside : Inside tokens index) (before : i ≤ index) : Inside tokens i :=
  ⟨before.trans_lt inside.1, fun j lower => inside.2 j (lower.trans_le before)⟩

/-- Only the end is the last token, so that there is one behind every other. -/
theorem Inside.succ (ends : EndsWithEnd tokens) (inside : Inside tokens index)
    (notEnd : typeAt tokens index ≠ .tokenEnd) : Inside tokens (index + 1) := by
  refine ⟨?_, fun j lower => ?_⟩
  · by_contra short
    have last : index = tokens.length - 1 := by have := inside.1; omega
    apply notEnd
    obtain ⟨token, is, isEnd⟩ := Option.map_eq_some_iff.mp ends
    rw [List.getLast?_eq_getElem?] at is
    rw [typeAt, last, is, Option.map_some, Option.getD_some, isEnd]
  · rcases Nat.lt_succ_iff_lt_or_eq.mp lower with earlier | rfl
    · exact inside.2 j earlier
    · exact notEnd

end Tokens

/-! ## Skipping -/

section Skipping

variable {start failedAt index depth : ℕ} {topLevel : Bool}

theorem is_ne_tokenEnd (c : Char) : is c ≠ .tokenEnd := by simp [is]

theorem skipToEnd_inside (ends : EndsWithEnd tokens) {rest : List Token} (follows : rest = tokens.drop index)
    (inside : Inside tokens index) :
    index ≤ skipToEnd tokens start failedAt topLevel rest index depth ∧
      Inside tokens (skipToEnd tokens start failedAt topLevel rest index depth) := by
  induction rest generalizing index depth with
  | nil => exact ⟨le_rfl, inside⟩
  | cons token rest ih =>
    have here : typeAt tokens index = token.type := by
      have same : tokens[index]? = some token := by
        rw [← List.head?_drop, ← follows, List.head?_cons]
      rw [typeAt, same]
      rfl
    have next : rest = tokens.drop (index + 1) := by
      rw [← List.tail_drop, ← follows, List.tail_cons]
    by_cases isEnd : token.type = .tokenEnd
    · rw [skipToEnd]
      simp only [isEnd, if_true]
      exact ⟨le_rfl, inside⟩
    · have further := inside.succ ends (here ▸ isEnd)
      have on (depth : ℕ) : index ≤ skipToEnd tokens start failedAt topLevel rest (index + 1) depth ∧
          Inside tokens (skipToEnd tokens start failedAt topLevel rest (index + 1) depth) := by
        obtain ⟨later, stays⟩ := ih next further
        exact ⟨(Nat.le_succ index).trans later, stays⟩
      have one : index ≤ index + 1 ∧ Inside tokens (index + 1) := ⟨Nat.le_succ index, further⟩
      rw [skipToEnd]
      simp only [isEnd, if_false]
      split_ifs with _ _ _ _ _ _ _ semicolon
      · exact ⟨le_rfl, inside⟩
      · exact ⟨le_rfl, inside⟩
      · exact on _
      · exact one
      · exact ⟨le_rfl, inside⟩
      · exact ⟨by omega, further.succ ends (semicolon ▸ is_ne_tokenEnd ';')⟩
      · exact one
      · exact on _
      · exact one
      · exact on _

/-- At the first token of the statement the walk goes on. -/
theorem lt_skipToEnd (ends : EndsWithEnd tokens) (inside : Inside tokens start)
    (notEnd : typeAt tokens start ≠ .tokenEnd) (notClosed : topLevel = true ∨ typeAt tokens start ≠ is '\x7d') :
    start < skipToEnd tokens start failedAt topLevel (tokens.drop start) start 0 := by
  have further := inside.succ ends notEnd
  have here := typeAt_eq_of_lt inside.1
  have goOn (depth : ℕ) : start < skipToEnd tokens start failedAt topLevel (tokens.drop (start + 1)) (start + 1) depth :=
    (skipToEnd_inside ends rfl further).1
  rw [here] at notEnd notClosed
  rw [List.drop_eq_getElem_cons inside.1, skipToEnd]
  simp only [notEnd, lt_irrefl, if_false, false_and, and_false]
  rw [if_neg fun failed => by omega]
  split_ifs with opened closed top
  · exact goOn _
  · exact Nat.lt_succ_self start
  · exact absurd closed (notClosed.resolve_left top)
  · exact Nat.lt_succ_self start
  · exact goOn _

theorem firstOnLine_le (line : Option ℕ) (first : ℕ) : firstOnLine tokens start line first ≤ first := by
  induction first with
  | zero => exact le_rfl
  | succ first ih =>
    rw [firstOnLine]
    split
    · exact ih.trans (Nat.le_succ first)
    · exact le_rfl

theorem ownLine_range {first : ℕ} (own : ownLine tokens start failedAt = some first) :
    start < first ∧ first ≤ failedAt := by
  unfold ownLine at own
  split at own
  · simp only at own
    split at own
    · next conditions =>
      cases own
      exact ⟨conditions.2.1, firstOnLine_le _ _⟩
    · cases own
  · cases own

/-- Skipping moves on, and stays inside of the file. -/
theorem skipIndex_inside (ends : EndsWithEnd tokens) (inside : Inside tokens start)
    (failed : Inside tokens failedAt) (notEnd : typeAt tokens start ≠ .tokenEnd)
    (notClosed : topLevel = true ∨ typeAt tokens start ≠ is '\x7d') :
    start < skipIndex tokens start failedAt topLevel ∧ Inside tokens (skipIndex tokens start failedAt topLevel) := by
  have walked : start < skipToEnd tokens start failedAt topLevel (tokens.drop start) start 0 :=
    lt_skipToEnd ends inside notEnd notClosed
  have stays : Inside tokens (skipToEnd tokens start failedAt topLevel (tokens.drop start) start 0) :=
    (skipToEnd_inside ends rfl inside).2
  unfold skipIndex
  split
  · next first own =>
    cases topLevel with
    | true => cases own
    | false =>
      have range := ownLine_range own
      exact ⟨range.1, failed.of_le range.2⟩
  · rw [if_neg fun back => absurd back.1 (not_le.mpr walked)]
    exact ⟨walked, stays⟩

end Skipping

/-! ## Steps -/

section Steps

variable {first second third parser next : Parser}

theorem Later.refl (parser : Parser) : Later parser parser :=
  ⟨le_rfl, le_rfl, fun _ _ => List.prefix_rfl⟩

theorem Later.trans (before : Later first second) (after : Later second third) : Later first third :=
  ⟨before.index.trans after.index, before.scopes.trans after.scopes, fun scope known =>
    (before.names scope known).trans (after.names scope (known.trans_le before.scopes))⟩

theorem Act.ready (ends : EndsWithEnd tokens) (act : Act tokens parser next) (ready : Ready tokens parser) :
    Ready tokens next := by
  cases act with
  | eatToken notEnd => exact ⟨ready.inside.succ ends notEnd, ready.scope⟩
  | newBlock => exact ⟨ready.inside, Nat.lt_succ_self _⟩
  | enter scope known => exact ⟨ready.inside, known⟩
  | _ => exact ⟨ready.inside, ready.scope⟩

theorem later_eat (parser : Parser) :
    Later parser { parser with currentTokenIndex := parser.currentTokenIndex + 1 } :=
  ⟨Nat.le_succ _, le_rfl, fun _ _ => List.prefix_rfl⟩

theorem Act.later (act : Act tokens parser next) : Later parser next := by
  cases act with
  | eatToken notEnd => exact later_eat parser
  | newBlock =>
    refine ⟨le_rfl, Nat.le_succ _, fun scope known => ?_⟩
    simp [Function.update_of_ne known.ne]
  | addIdentifier scope name _ =>
    refine ⟨le_rfl, le_rfl, fun other known => ?_⟩
    by_cases same : other = scope
    · subst same
      simp
    · simp [Function.update_of_ne same]
  | _ => exact ⟨le_rfl, le_rfl, fun _ _ => List.prefix_rfl⟩

theorem closeBlock_ready (ends : EndsWithEnd tokens) (ready : Ready tokens parser) :
    Ready tokens (closeBlock tokens parser) ∧ Later parser (closeBlock tokens parser) := by
  unfold closeBlock
  split
  · next closed =>
    exact ⟨⟨ready.inside.succ ends (closed ▸ is_ne_tokenEnd _), ready.scope⟩, later_eat parser⟩
  · exact ⟨ready, Later.refl parser⟩

end Steps

/-! ## Rounds -/

section Rounds

variable {parser next : Parser} {topLevel : Bool}

/-- The names of the scope that the statement stands in are those from before, and those of the other scopes as it
left them. -/
theorem identifiers_skipFailedStatement (ready : Ready tokens parser) (later : Later parser next) (scope : ℕ) :
    (skipFailedStatement tokens (saveParserState parser) topLevel next).identifiers scope =
      if scope = parser.currentScope then parser.identifiers scope else next.identifiers scope := by
  obtain ⟨added, names⟩ := later.names parser.currentScope ready.scope
  by_cases same : scope = parser.currentScope
  · subst same
    simp [skipFailedStatement, saveParserState, ← names]
  · simp [skipFailedStatement, saveParserState, same]

theorem skipFailedStatement_later (ends : EndsWithEnd tokens) (ready : Ready tokens parser)
    (failed : Inside tokens next.currentTokenIndex) (later : Later parser next)
    (goesOn : ¬ LoopEnds tokens topLevel parser) :
    let skipped := skipFailedStatement tokens (saveParserState parser) topLevel next
    parser.currentTokenIndex < skipped.currentTokenIndex ∧ Ready tokens skipped ∧ Later parser skipped := by
  have notEnd : typeAt tokens parser.currentTokenIndex ≠ .tokenEnd := fun isEnd => goesOn (.inl isEnd)
  have notClosed : topLevel = true ∨ typeAt tokens parser.currentTokenIndex ≠ is '\x7d' := by
    cases topLevel with
    | true => exact .inl rfl
    | false => exact .inr fun closed => goesOn (.inr ⟨rfl, .inl closed⟩)
  obtain ⟨further, inside⟩ := skipIndex_inside ends ready.inside failed notEnd notClosed
  refine ⟨further, ⟨inside, ready.scope.trans_le later.scopes⟩, further.le, later.scopes, fun scope known => ?_⟩
  rw [identifiers_skipFailedStatement ready later]
  split
  · exact List.prefix_rfl
  · exact later.names scope known

end Rounds

/-! ## Runs -/

section Runs

variable {part : Part} {parser last : Parser} {outcome : Outcome} {rounds : List Round}

/-- A round is right exactly if its statement, when it failed, kept the names of other scopes. -/
def RoundSettled (tokens : List Token) (round : Round) : Prop := RoundRight tokens round ↔ KeepsOtherScopes round

theorem settled_of_parsed {next : Parser} (ready : Ready tokens next) (later : Later parser next)
    (forward : parser.currentTokenIndex < next.currentTokenIndex) :
    RoundSettled tokens ⟨parser, next, next, .parsed⟩ := by
  refine iff_of_true ?_ fun failed => by cases failed
  exact {
    forward, reached := ready.inside, after := ready.inside, kept := later.names
    flags := fun failed => by cases failed
    scope := fun failed => by cases failed
    functions := fun failed => by cases failed
    gone := fun failed => by cases failed }

theorem settled_of_failed (ends : EndsWithEnd tokens) {next : Parser} {topLevel : Bool} (ready : Ready tokens parser)
    (readyNext : Ready tokens next) (later : Later parser next) (goesOn : ¬ LoopEnds tokens topLevel parser) :
    RoundSettled tokens
      ⟨parser, next, skipFailedStatement tokens (saveParserState parser) topLevel next, .failed⟩ := by
  obtain ⟨forward, readyAfter, laterAfter⟩ :=
    skipFailedStatement_later ends ready readyNext.inside later goesOn
  have names : ∀ scope, (skipFailedStatement tokens (saveParserState parser) topLevel next).identifiers scope =
      if scope = parser.currentScope then parser.identifiers scope else next.identifiers scope :=
    identifiers_skipFailedStatement ready later
  constructor
  · intro right _ scope known other
    have gone := right.gone rfl scope known
    rw [names, if_neg other] at gone
    exact gone
  · intro keeps
    refine {
      forward, reached := readyNext.inside, after := readyAfter.inside, kept := laterAfter.names
      flags := fun _ => rfl
      scope := fun _ => rfl
      functions := fun _ => ⟨rfl, rfl⟩
      gone := fun _ scope known => ?_ }
    rw [names]
    split
    · next same => rw [same]
    · next other => exact keeps rfl scope known other

/-- What a run leaves: the induction is on the run, with the steps and the rounds of loops as its cases. -/
theorem Runs.sound (ends : EndsWithEnd tokens) (run : Runs tokens part parser outcome last rounds)
    (ready : Ready tokens parser) :
    Ready tokens last ∧ Later parser last ∧ (∀ round ∈ rounds, RoundSettled tokens round) ∧
      (∀ start, part = .statement start → outcome = .parsed → start < last.currentTokenIndex) ∧
      ∀ topLevel, part = .round topLevel → parser.currentTokenIndex < last.currentTokenIndex := by
  induction run with
  | parsed start parser read =>
    exact ⟨ready, Later.refl parser, by simp, fun _ same _ => by cases same; exact read, fun _ same => by cases same⟩
  | failed start parser =>
    exact ⟨ready, Later.refl parser, by simp, fun _ _ parsed => (by cases parsed), fun _ same => by cases same⟩
  | act step _ ih =>
    obtain ⟨readyLast, later, settled, read, _⟩ := ih (step.ready ends ready)
    exact ⟨readyLast, step.later.trans later, settled, read, fun _ same => by cases same⟩
  | @parseBlock start parser next last outcome inner rounds opened _ _ ihBlock ih =>
    obtain ⟨readyNext, laterNext, settledInner, _, _⟩ :=
      ihBlock ⟨ready.inside.succ ends (opened ▸ is_ne_tokenEnd _), ready.scope⟩
    obtain ⟨readyClosed, laterClosed⟩ := closeBlock_ready ends readyNext
    obtain ⟨readyLast, later, settled, read, _⟩ := ih readyClosed
    have opening := (later_eat parser).trans laterNext
    refine ⟨readyLast, (opening.trans laterClosed).trans later, ?_, read, fun _ same => by cases same⟩
    intro round mem
    exact (List.mem_append.mp mem).elim (settledInner round) (settled round)
  | taken goesOn _ ih =>
    obtain ⟨readyNext, later, settled, read, _⟩ := ih ready
    have forward := read _ rfl rfl
    refine ⟨readyNext, later, fun round mem => ?_, fun _ same => (by cases same), fun _ _ => forward⟩
    rcases List.mem_append.mp mem with inner | own
    · exact settled round inner
    · rw [List.mem_singleton.mp own]
      exact settled_of_parsed readyNext later forward
  | skipped goesOn _ ih =>
    obtain ⟨readyNext, later, settled, _, _⟩ := ih ready
    obtain ⟨forward, readyAfter, laterAfter⟩ :=
      skipFailedStatement_later ends ready readyNext.inside later goesOn
    refine ⟨readyAfter, laterAfter, fun round mem => ?_, fun _ same => (by cases same), fun _ _ => forward⟩
    rcases List.mem_append.mp mem with inner | own
    · exact settled round inner
    · rw [List.mem_singleton.mp own]
      exact settled_of_failed ends ready readyNext later goesOn
  | ended _ =>
    exact ⟨ready, Later.refl _, by simp, fun _ same => (by cases same), fun _ same => by cases same⟩
  | more _ _ ihFirst ihRest =>
    obtain ⟨readyNext, laterNext, settledFirst, _, _⟩ := ihFirst ready
    obtain ⟨readyLast, later, settled, _, _⟩ := ihRest readyNext
    refine ⟨readyLast, laterNext.trans later, fun round mem => ?_, fun _ same => (by cases same),
      fun _ same => by cases same⟩
    exact (List.mem_append.mp mem).elim (settledFirst round) (settled round)

/-- The rounds of a loop come to an end. -/
theorem rounds_end (ends : EndsWithEnd tokens) (topLevel : Bool) :
    ¬ ∃ parsers : ℕ → Parser, Ready tokens (parsers 0) ∧
      ∀ i, ∃ rounds, Runs tokens (.round topLevel) (parsers i) .parsed (parsers (i + 1)) rounds := by
  rintro ⟨parsers, ready, steps⟩
  have all (i : ℕ) : Ready tokens (parsers i) ∧ i ≤ (parsers i).currentTokenIndex := by
    induction i with
    | zero => exact ⟨ready, Nat.zero_le _⟩
    | succ i ih =>
      obtain ⟨_, run⟩ := steps i
      obtain ⟨readyNext, _, _, _, forward⟩ := run.sound ends ih.1
      exact ⟨readyNext, ih.2.trans_lt (forward topLevel rfl)⟩
  obtain ⟨readyLast, far⟩ := all tokens.length
  exact absurd readyLast.inside.1 (not_lt.mpr far)

end Runs

section Constant

def tokenOf (type : TokenType) (col : ℕ) (value : Value := .none) : Token where
  type
  start := ⟨col - 1, 1, col⟩
  stop := ⟨col, 1, col + 1⟩
  value

/-- `S :: struct \x7b Max :: 5 \x7d`, with no `;` behind the constant. -/
def constantTokens : List Token :=
  [tokenOf .identifier 1 (.identifier (asciiBytes "S")), tokenOf doubleColon 3, tokenOf (keyword "struct") 6,
    tokenOf (is '\x7b') 13, tokenOf .identifier 15 (.identifier (asciiBytes "Max")), tokenOf doubleColon 19,
    tokenOf .integer 22 (.integer 5 false), tokenOf (is '\x7d') 24, tokenOf .tokenEnd 25]

def constantStart : Parser where
  currentTokenIndex := 0
  currentScope := 0
  scopes := 1
  identifiers _ := []

theorem constantStart_ready : Ready constantTokens constantStart := ⟨⟨by decide, by simp [constantStart]⟩, by decide⟩

/-- The constants of a struct stand in another scope than its members, where the name of one without a `;`
stays. -/
theorem constant_stays : ∃ last rounds, Runs constantTokens (.rounds true) constantStart .parsed last rounds ∧
    ∃ round ∈ rounds, ¬ RoundRight constantTokens round := by
  refine ⟨_, _, .more (.taken (by unfold LoopEnds; decide)
    (.act (.eatToken _ (by decide)) <| .act (.addIdentifier _ 0 (asciiBytes "S") (by decide)) <|
      .act (.eatToken _ (by decide)) <| .act (.eatToken _ (by decide)) <| .act (.newBlock _) <|
      .act (.enter _ 0 (by decide)) <| .act (.newBlock _) <|
      .parseBlock (by decide)
        (.more (.skipped (by unfold LoopEnds; decide)
          (.act (.eatToken _ (by decide)) <| .act (.eatToken _ (by decide)) <| .act (.eatToken _ (by decide)) <|
            .act (.addIdentifier _ 1 (asciiBytes "Max") (by decide)) <| .failed _ _))
          (.ended (by unfold LoopEnds; decide))) <|
      .act (.enter _ 0 (by decide)) <| .parsed _ _ (by decide)))
    (.ended (by unfold LoopEnds; decide)), ?_⟩
  refine ⟨_, List.mem_append_left _ (List.mem_append_left _ (List.mem_append_left _ List.mem_cons_self)), fun right => ?_⟩
  exact absurd (right.gone rfl 1 (by decide)) (by decide)

end Constant

end Saad.Recovery
