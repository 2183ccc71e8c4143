import Saad.Std.Int32
import Saad.Std.Text

/-! # Templates and their values

A template is what the parser makes of a file. A text that is tagged as html is kept with what it was made
of, in the order in which it was written; its bytes are those of the pieces one after another. `F` are the
numbers of 64 bits.
-/

namespace Saad.Html

section Templates

inductive BinaryOperator where
  | and | or | concat | equal | notEqual | plus | minus | times | divide | modulo
  | less | greater | lessEqual | greaterEqual
deriving DecidableEq, Repr

inductive UnaryOperator where
  | not | minus
deriving DecidableEq, Repr

/-- The values that a template can write. -/
inductive Literal (F : Type) where
  | none
  | boolean (value : Bool)
  | integer (value : ℤ)
  | number (value : F)
  | text (value : Text)

mutual

/-- `TemplateExpr`. The line is that of the errors. -/
inductive Expr (F : Type) where
  | literal (value : Literal F)
  | name (name : Text)
  | member (left : Expr F) (name : Text)
  | index (left right : Expr F)
  | call (line : ℤ) (left : Expr F) (args : Args F)
  | filter (line : ℤ) (name : Text) (left : Expr F) (args : Args F)
  | unary (operator : UnaryOperator) (left : Expr F)
  | binary (operator : BinaryOperator) (left right : Expr F)
  | list (items : Args F)

/-- `args` with `argNames`: the name is empty when the argument isn't named. -/
inductive Args (F : Type) where
  | nil
  | cons (name : Text) (value : Expr F) (rest : Args F)

end

/-- `TemplateParam`. -/
structure Param (F : Type) where
  name : Text
  value : Option (Expr F)

mutual

/-- `TemplateNode`. The node of a macro has nothing, as the template has the macro; of the names of a
`for` only the first is used. -/
inductive Node (F : Type) where
  | text (text : Text)
  | output (expr : Expr F)
  | if_ (branches : Branches F) (orElse : Nodes F)
  | for_ (name : Text) (expr : Expr F) (body orElse : Nodes F)
  | set (name : Text) (expr : Expr F)
  | include_ (line : ℤ) (expr : Expr F)
  | block (name : Text) (body : Nodes F)
  | macro_

inductive Nodes (F : Type) where
  | nil
  | cons (first : Node F) (rest : Nodes F)

/-- `TemplateBranch`. -/
inductive Branches (F : Type) where
  | nil
  | cons (condition : Expr F) (body : Nodes F) (rest : Branches F)

end

structure Macro (F : Type) where
  name : Text
  params : List (Param F)
  body : Nodes F

/-- The blocks are a map: the body of a name is that of the last block with it. -/
structure Template (F : Type) where
  name : Text
  nodes : Nodes F
  extends_ : Option (Expr F)
  blocks : List (Text × Nodes F)
  macros : List (Macro F)

end Templates

section Values

/-- The text escaped for HTML. -/
def escapeChar (c : BitVec 8) : Text :=
  if c = byteOf '&' then asciiBytes "&amp;"
  else if c = byteOf '<' then asciiBytes "&lt;"
  else if c = byteOf '>' then asciiBytes "&gt;"
  else if c = byteOf '"' then asciiBytes "&quot;"
  else if c = byteOf '\'' then asciiBytes "&#39;"
  else [c]

def escape (text : Text) : Text := text.flatMap escapeChar

/-- Where a part of an html text is from: the text of a template, a value that was escaped, or a text that
the program or the filter safe calls html. -/
inductive Piece where
  | template (text : Text)
  | escaped (text : Text)
  | raw (text : Text)
deriving DecidableEq, Repr

def Piece.bytes : Piece → Text
  | .template text | .raw text => text
  | .escaped text => escape text

def piecesBytes (pieces : List Piece) : Text := pieces.flatMap Piece.bytes

mutual

/-- A value of the program, `any`: what its type and its memory say. -/
inductive Any (F : Type) where
  | null
  | bool (value : Bool)
  | int (value : ℤ)
  | float (value : F)
  | string (text : Text)
  /-- With the name of the value, if the enum has one for it. -/
  | enum (name : Option Text) (value : ℤ)
  | nullPointer
  | pointer (pointed : Any F)
  | any (inner : Any F)
  | absent
  | present (item : Any F)
  /-- A value of a template, `html.Value`. -/
  | value (value : Value F)
  | struct (members : List (Text × Any F))
  /-- A list, a slice or an array. -/
  | elements (items : List (Any F))
  | other

inductive Value (F : Type) where
  | none
  | boolean (value : Bool)
  | integer (value : ℤ)
  | number (value : F)
  | text (text : Text)
  | html (pieces : List Piece)
  | data (data : Any F)
  | list (items : List (Value F))
  | macro_ (called : Macro F)

end

variable {F : Type}

def Literal.toValue : Literal F → Value F
  | .none => .none
  | .boolean value => .boolean value
  | .integer value => .integer value
  | .number value => .number value
  | .text written => .text written

def valueOf : Any F → Value F
  | .null | .nullPointer | .absent => .none
  | .bool value => .boolean value
  | .int value => .integer value
  | .float value => .number value
  | .string text => .text text
  | .enum (some name) _ => .text name
  | .enum none value => .integer value
  | .pointer pointed => valueOf pointed
  | .any inner => valueOf inner
  | .present item => valueOf item
  | .value value => value
  | .struct members => .data (.struct members)
  | .elements items => .data (.elements items)
  | .other => .data .other

/-- The operations on numbers of 64 bits, and `fmt.sprint` of numbers and values of the program. -/
structure Library (F : Type) where
  ofInt : ℤ → F
  toInt : F → ℤ
  neg : F → F
  add : F → F → F
  sub : F → F → F
  mul : F → F → F
  div : F → F → F
  equal : F → F → Bool
  less : F → F → Bool
  lessEqual : F → F → Bool
  sprintNumber : F → Text
  sprint : Any F → Text

variable (lib : Library F)

def boolText (value : Bool) : Text := if value then asciiBytes "true" else asciiBytes "false"

/-- A text without the zeros at its end, and then without a point. -/
def trimZeros (text : Text) : Text :=
  let kept := text.reverse.dropWhile (· = byteOf '0')
  (match kept with
    | c :: rest => if c = byteOf '.' then rest else kept
    | [] => []).reverse

def numberText (value : F) : Text :=
  let bound := 1000000000000000
  if lib.equal value (lib.ofInt (lib.toInt value)) && lib.less value (lib.ofInt bound) &&
      lib.less (lib.ofInt (-bound)) value then
    intText (lib.toInt value)
  else if byteOf '.' ∈ lib.sprintNumber value then trimZeros (lib.sprintNumber value)
  else lib.sprintNumber value

mutual

/-- The text of a value as it is written, without escaping. -/
def textOf : Value F → Text
  | .none => []
  | .boolean value => boolText value
  | .integer value => intText value
  | .number value => numberText lib value
  | .text text => text
  | .html pieces => piecesBytes pieces
  | .data data => lib.sprint data
  | .list items => listText items
  | .macro_ called => called.name

/-- The texts of a list, with a comma between them. -/
def listText : List (Value F) → Text
  | [] => []
  | [item] => textOf item
  | item :: rest => textOf item ++ byteOf ',' :: listText rest

end

def dataIsTrue : Any F → Bool
  | .elements items => !items.isEmpty
  | _ => true

def isTrue : Value F → Bool
  | .none => false
  | .boolean value => value
  | .integer value => value ≠ 0
  | .number value => !lib.equal value (lib.ofInt 0)
  | .text text => !text.isEmpty
  | .html pieces => !(piecesBytes pieces).isEmpty
  | .data data => dataIsTrue data
  | .list items => !items.isEmpty
  | .macro_ _ => true

/-- The member of a value, and the length or count of a list or text. -/
def memberValue (value : Value F) (name : Text) : Value F :=
  let isLength := name = asciiBytes "length"
  let isCount := isLength ∨ name = asciiBytes "count"
  match value with
  | .data (.elements items) => if isCount then .integer items.length else .none
  | .data (.struct members) =>
    match members.find? (·.1 = name) with
    | some member => valueOf member.2
    | none => .none
  | .text text => if isLength then .integer text.length else .none
  | .html pieces => if isLength then .integer (piecesBytes pieces).length else .none
  | .list items => if isCount then .integer items.length else .none
  | _ => .none

/-- The element at an index, `none` before the first and after the last. -/
def elementAt {α : Type} (items : List α) (index : ℤ) : Option α :=
  if index < 0 then none else items[index.toNat]?

/-- The element of a list at an index, or the member of a struct by a text. -/
def indexValue (value index : Value F) : Value F :=
  match index with
  | .text name => memberValue value name
  | .integer i =>
    match value with
    | .data (.elements items) => ((elementAt items i).map valueOf).getD .none
    | .list items => (elementAt items i).getD .none
    | .text text => ((elementAt text i).map fun c => .text [c]).getD .none
    | _ => .none
  | _ => .none

/-- The elements of a list of the program or of a template. Empty when it isn't a list. -/
def itemsOf : Value F → List (Value F)
  | .data (.elements items) => items.map valueOf
  | .list items => items
  | _ => []

/-- The digits before the first other character. -/
def parseDigits : Text → ℤ → ℤ
  | [], n => n
  | c :: rest, n => if isDigit c then parseDigits rest (int64 (n * 10 + digitValue c)) else n

def parseInteger (text : Text) : ℤ :=
  match text with
  | [] => 0
  | c :: rest => if c = byteOf '-' then int64 (-parseDigits rest 0) else parseDigits text 0

/-- The value as an integer. 0 when it isn't a number. -/
def integerOf : Value F → ℤ
  | .integer value => value
  | .number value => lib.toInt value
  | .boolean value => if value then 1 else 0
  | .text text => parseInteger text
  | _ => 0

def numberOf : Value F → Option F
  | .integer value => some (lib.ofInt value)
  | .number value => some value
  | _ => none

def Value.isNone : Value F → Bool
  | .none => true
  | _ => false

def Value.isMacro : Value F → Bool
  | .macro_ _ => true
  | _ => false

def equalValues (a b : Value F) : Bool :=
  if a.isNone || b.isNone then a.isNone == b.isNone
  else
    match numberOf lib a, numberOf lib b with
    | some x, some y => lib.equal x y
    | some _, none | none, some _ => false
    | none, none =>
      match a, b with
      | .boolean x, .boolean y => x == y
      | _, _ => textOf lib a == textOf lib b

/-- `runtime_compare_strings(a, b) < 0`: the bytes are compared as signed. -/
def textLess : Text → Text → Bool
  | [], [] | _ :: _, [] => false
  | [], _ :: _ => true
  | a :: as, b :: bs => if a = b then textLess as bs else a.toInt < b.toInt

/-- `-`: of another value there is none. -/
def negate : Value F → Value F
  | .integer value => .integer (int64 (-value))
  | .number value => .number (lib.neg value)
  | _ => .none

/-- An operator on two numbers. -/
def evalNumbers (operator : BinaryOperator) (a b : Value F) (x y : F) : Value F :=
  match operator, a, b with
  | .less, _, _ => .boolean (lib.less x y)
  | .greater, _, _ => .boolean (lib.less y x)
  | .lessEqual, _, _ => .boolean (lib.lessEqual x y)
  | .greaterEqual, _, _ => .boolean (lib.lessEqual y x)
  | .plus, .integer m, .integer n => .integer (int64 (m + n))
  | .minus, .integer m, .integer n => .integer (int64 (m - n))
  | .times, .integer m, .integer n => .integer (int64 (m * n))
  | .modulo, .integer m, .integer n => if n = 0 then .none else .integer (int64 (m.tmod n))
  | .plus, _, _ => .number (lib.add x y)
  | .minus, _, _ => .number (lib.sub x y)
  | .times, _, _ => .number (lib.mul x y)
  | .divide, _, _ => if lib.equal y (lib.ofInt 0) then .none else .number (lib.div x y)
  | _, _, _ => .none

/-- `evalBinary` after its operands, for the operators that take both. -/
def evalOperator (operator : BinaryOperator) (a b : Value F) : Value F :=
  match operator with
  | .concat => .text (textOf lib a ++ textOf lib b)
  | .equal => .boolean (equalValues lib a b)
  | .notEqual => .boolean (!equalValues lib a b)
  | _ =>
    match numberOf lib a, numberOf lib b with
    | some x, some y => evalNumbers lib operator a b x y
    | _, _ =>
      match operator with
      | .plus => .text (textOf lib a ++ textOf lib b)
      | .less => .boolean (textLess (textOf lib a) (textOf lib b))
      | .greater => .boolean (textLess (textOf lib b) (textOf lib a))
      | .lessEqual => .boolean (!textLess (textOf lib b) (textOf lib a))
      | .greaterEqual => .boolean (!textLess (textOf lib a) (textOf lib b))
      | _ => .none

end Values

section Filters

/-- The errors of a render. All of them are a `TemplateError`; one of the program becomes one. -/
inductive TemplateError where
  | cannotRead (name message : Text)
  | noFilter (line : ℤ) (name : Text)
  | noFunction (line : ℤ) (name : Text)
  | notCallable (line : ℤ)
  | noParameter (line : ℤ) (called name : Text)
  | tooManyArguments (line : ℤ) (called : Text) (params : ℕ)
  | tooDeep (line : ℤ)
  | zeroStep
  | thrown (message : Text)
deriving DecidableEq, Repr

/-- What a filter or a function gives: nothing when it does not return. -/
abbrev Returned (F : Type) := Option (Except TemplateError (Value F))

/-- With the arguments of the call, and the value in front of the filter. -/
abbrev Filter (F : Type) := List (Value F) → Value F → Returned F

abbrev TemplateFunction (F : Type) := List (Value F) → Returned F

variable {F : Type} (lib : Library F)

def returns (value : Value F) : Returned F := some (.ok value)

def isBlank (c : BitVec 8) : Bool :=
  c = byteOf ' ' || c = byteOf '\t' || c = byteOf '\n' || c = byteOf '\r'

def toUpper (c : BitVec 8) : BitVec 8 := if isLower c then c - 32 else c

def filterSafe : Filter F := fun _ value => returns (.html [.raw (textOf lib value)])

def filterUpper : Filter F := fun _ value => returns (.text ((textOf lib value).map toUpper))

def filterLower : Filter F := fun _ value => returns (.text ((textOf lib value).map toLower))

def filterEscape : Filter F := fun _ value =>
  match value with
  | .html pieces => returns (.html pieces)
  | value => returns (.html [.escaped (textOf lib value)])

def filterLength : Filter F := fun _ value => returns (memberValue value (asciiBytes "length"))

def filterDefault : Filter F := fun args value =>
  match value, args with
  | .none, arg :: _ => returns arg
  | value, _ => returns value

def trim (text : Text) : Text := ((text.dropWhile isBlank).reverse.dropWhile isBlank).reverse

def filterTrim : Filter F := fun _ value => returns (.text (trim (textOf lib value)))

def filterJoin : Filter F := fun args value =>
  let separator := (args.head?.map (textOf lib)).getD []
  returns (.text (List.intercalate separator ((itemsOf value).map (textOf lib))))

/-- The number is on the way from the start to `stop`. -/
def Before (stop step i : ℤ) : Prop := (0 < step ∧ i < stop) ∨ (step < 0 ∧ stop < i)

instance (stop step i : ℤ) : Decidable (Before stop step i) := inferInstanceAs (Decidable (_ ∨ _))

/-- The loop of `functionRange`; nothing when it goes round more often than `fuel` says. -/
def rangeItems (stop step : ℤ) : ℕ → ℤ → Option (List ℤ)
  | 0, _ => none
  | fuel + 1, i =>
    if Before stop step i then
      (rangeItems stop step fuel (int64 (i + step))).map (i :: ·)
    else some []

/-- `i` has a value again after `2 ^ 64` rounds, so a loop that goes round as often never ends. -/
def rangeRounds : ℕ := 2 ^ 64

def functionRange : TemplateFunction F := fun args =>
  let (start, stop, step) :=
    match args with
    | [] => (0, 0, 1)
    | [stop] => (0, integerOf lib stop, 1)
    | [start, stop] => (integerOf lib start, integerOf lib stop, 1)
    | start :: stop :: step :: _ => (integerOf lib start, integerOf lib stop, integerOf lib step)
  if step = 0 then some (.error .zeroStep)
  else (rangeItems stop step (rangeRounds + 1) start).map fun items => .ok (.list (items.map .integer))

/-- The filters of `newTemplates`. -/
def builtInFilters : List (Text × Filter F) :=
  [(asciiBytes "safe", filterSafe lib), (asciiBytes "escape", filterEscape lib),
    (asciiBytes "e", filterEscape lib), (asciiBytes "length", filterLength),
    (asciiBytes "default", filterDefault), (asciiBytes "upper", filterUpper lib),
    (asciiBytes "lower", filterLower lib), (asciiBytes "trim", filterTrim lib),
    (asciiBytes "join", filterJoin lib)]

end Filters

end Saad.Html
