import Saad.Dbms.Tables
import Saad.Sql.Expression

/-! # Expression trees

The lambda of a query as the tree of what it does.
-/

namespace Saad.Dbms

section Trees

/-- A value with its type. None has no type, which is null. -/
abbrev Any : Type := Option ((t : Ty) × t.Val)

inductive UnaryOp where
  | not | minus
deriving DecidableEq, Repr

inductive BinaryOp where
  | or | and | equal | notEqual | less | greater | lessEqual | greaterEqual
  | plus | minus | times | divide | modulo | orElse
deriving DecidableEq, Repr

mutual

/-- A part of the tree of a lambda. `function` is a call of no member, whose left is null. -/
inductive ExprNode where
  | parameter (name : Text)
  | member (left : ExprNode) (name : Text)
  | value (value : Any)
  | unary (op : UnaryOp) (left : ExprNode)
  | binary (op : BinaryOp) (left right : ExprNode)
  | call (left : ExprNode) (name : Text) (args : ExprArgs)
  | function (name : Text) (args : ExprArgs)
  | object (members : ExprArgs)
  | lambda (parameter : Text) (body : ExprNode)

/-- The arguments of a call, whose names are empty, or the members of a struct literal. -/
inductive ExprArgs where
  | nil
  | cons (name : Text) (value : ExprNode) (rest : ExprArgs)

end

def ExprArgs.count : ExprArgs → ℕ
  | .nil => 0
  | .cons _ _ rest => rest.count + 1

/-- `isNull` of a value: null, a pointer that is null, or an empty optional. -/
def Any.isNull : Any → Bool
  | none => true
  | some ⟨.pointer _, data⟩ => Option.isNone data
  | some ⟨.optional _, data⟩ => Option.isNone data
  | some _ => false

def isNull : ExprNode → Bool
  | .value value => value.isNull
  | _ => false

/-- The steps of a query of the rows of a relation. -/
def isQueryStep (name : Text) : Bool :=
  name = asciiBytes "where" || name = asciiBytes "orderBy" || name = asciiBytes "orderByDescending"

inductive Aggregate where
  | count | exists_ | sum | min | max | average
deriving DecidableEq, Repr

/-- What a query of the rows of a relation gives in a lambda. -/
def aggregateNamed (name : Text) : Option Aggregate :=
  if name = asciiBytes "count" then some .count
  else if name = asciiBytes "exists" then some .exists_
  else if name = asciiBytes "sum" then some .sum
  else if name = asciiBytes "min" then some .min
  else if name = asciiBytes "max" then some .max
  else if name = asciiBytes "average" then some .average
  else none

end Trees

end Saad.Dbms

/-! # Writing expression trees as SQL

A query and the subqueries in it have a writer each. The writers share the arguments and the number of aliases,
and the lambda of a subquery can use the rows of the queries around it.
-/

namespace Saad.Dbms

open Sql

section Writers

/-- A table joined to the rows of a query for a relation. -/
structure Join where
  /-- The alias of the row that the relations are from, and their names. -/
  path : ℕ × List Text
  alias_ : ℕ
  table : TableInfo
  on : List Token
deriving DecidableEq, Repr

/-- What a `SqlWriter` has of its own. -/
structure Level where
  table : TableInfo
  joins : List Join := []
  /-- Of the rows of this query. -/
  alias_ : ℕ := 0
  /-- The parameter of the lambda that is written, in a subquery. -/
  parameter : Text := []
  qualified : Bool
deriving DecidableEq, Repr

/-- The writer of a query, or of a subquery with the writer around it. -/
inductive Levels where
  | query (level : Level)
  | inner (level : Level) (outer : Levels)
deriving DecidableEq, Repr

/-- A row of a query or a subquery, and the depth of the writer of that query. -/
structure Row where
  path : ℕ × List Text
  alias_ : ℕ
  table : TableInfo
  level : ℕ
deriving DecidableEq, Repr

namespace Levels

def level : Levels → Level
  | .query level => level
  | .inner level _ => level

def depth : Levels → ℕ
  | .query _ => 0
  | .inner _ outer => outer.depth + 1

/-- The writer at a depth. -/
def at_ : Levels → ℕ → Level
  | .query level, _ => level
  | .inner level outer, k => if k = outer.depth + 1 then level else outer.at_ k

def modifyAt (f : Level → Level) : Levels → ℕ → Levels
  | .query level, _ => .query (f level)
  | .inner level outer, k =>
    if k = outer.depth + 1 then .inner (f level) outer else .inner level (outer.modifyAt f k)

/-- The row of a parameter: of the lambda of a subquery, or of a query around it, or the rows of the query. -/
def rowOf (parameter : Text) : Levels → Row
  | .query level => ⟨(level.alias_, []), level.alias_, level.table, 0⟩
  | .inner level outer =>
    if parameter ≠ level.parameter then outer.rowOf parameter
    else ⟨(level.alias_, []), level.alias_, level.table, outer.depth + 1⟩

end Levels

structure SqlWriter where
  sb : List Token := []
  args : List Any := []
  aliases : ℕ := 0
  levels : Levels

/-- What is written stops at the first error. -/
abbrev Writing (α : Type) : Type := StateT SqlWriter (Except Text) α

end Writers

section Parts

def fail {α : Type} (message : Text) : Writing α := throw message

def emit (tokens : List Token) : Writing Unit := modify fun w => { w with sb := w.sb ++ tokens }

/-- What is written, on its own. -/
def apart (writing : Writing Unit) : Writing (List Token) := do
  let w ← get
  set { w with sb := [] }
  writing
  let after ← get
  set { after with sb := w.sb }
  return after.sb

def newAlias : Writing ℕ := do
  modify fun w => { w with aliases := w.aliases + 1 }
  return (← get).aliases

def writeValue (value : Any) : Writing Unit :=
  if value.isNull then emit [.keyword .null_]
  else do
    modify fun w => { w with args := w.args ++ [value] }
    emit [.param (← get).args.length]

def writeColumn (qualified : Bool) (row : Row) (member : Text) : Writing Unit := do
  if qualified then emit [.alias_ row.alias_, .dot]
  emit [.name (columnIn row.table member)]

/-- The operator of SQL, of those that are written between their sides. -/
def BinaryOp.token : BinaryOp → Token
  | .or => .keyword .or_
  | .and => .keyword .and_
  | .equal => .op .equal
  | .notEqual => .op .notEqual
  | .less => .op .less
  | .greater => .op .greater
  | .lessEqual => .op .lessEqual
  | .greaterEqual => .op .greaterEqual
  | .plus => .op .plus
  | .minus => .op .minus
  | .times => .op .times
  | .divide => .op .divide
  | .modulo => .op .modulo
  | .orElse => .comma

/-- `== null` and `!= null` are IS NULL and IS NOT NULL. When both sides are null, the left one is left out. -/
def writeBinary (op : BinaryOp) (leftIsNull rightIsNull : Bool) (left right : Writing Unit) : Writing Unit :=
  if (op = .equal ∨ op = .notEqual) ∧ (leftIsNull ∨ rightIsNull) then do
    emit [.lparen]
    (if leftIsNull then right else left : Writing Unit)
    emit (if op = .equal then [.space, .keyword .is_, .space, .keyword .null_, .rparen]
      else [.space, .keyword .is_, .space, .keyword .not_, .space, .keyword .null_, .rparen])
  else if op = .orElse then do
    emit [.function .coalesce, .lparen]
    left
    emit [.comma, .space]
    right
    emit [.rparen]
  else do
    emit [.lparen]
    left
    emit [.space, op.token, .space]
    right
    emit [.rparen]

def failCall (name : Text) : Writing Unit :=
  fail (asciiBytes "The method " ++ name ++ asciiBytes
    " can't be made into SQL. These can: startsWith(s), endsWith(s), indexOf(s), toLower(), toUpper(), and after(t), before(t) and equal(t) of times")

/-- `(left(x, length(s)) = s)`, so that % and _ in s are no wildcards. -/
def writeEnd (function : Function) (left arg : Writing Unit) : Writing Unit := do
  emit [.lparen, .function function, .lparen]
  left
  emit [.comma, .space, .function .length, .lparen]
  arg
  emit [.rparen, .rparen, .space, .op .equal, .space]
  arg
  emit [.rparen]

def writeCompared (op : Operator) (left arg : Writing Unit) : Writing Unit := do
  emit [.lparen]
  left
  emit [.space, .op op, .space]
  arg
  emit [.rparen]

def writeLetters (function : Function) (name : Text) (arguments : ℕ) (left : Writing Unit) : Writing Unit :=
  if arguments ≠ 0 then failCall name
  else do
    emit [.function function, .lparen]
    left
    emit [.rparen]

/-- `writeCall` of a method of a value. -/
def writeMethod (name : Text) (arguments : ℕ) (left arg : Writing Unit) : Writing Unit :=
  if name = asciiBytes "toLower" then writeLetters .lower name arguments left
  else if name = asciiBytes "toUpper" then writeLetters .upper name arguments left
  else if arguments ≠ 1 then failCall name
  else if name = asciiBytes "after" then writeCompared .greater left arg
  else if name = asciiBytes "before" then writeCompared .less left arg
  else if name = asciiBytes "equal" then writeCompared .equal left arg
  else if name = asciiBytes "startsWith" then writeEnd .left left arg
  else if name = asciiBytes "endsWith" then writeEnd .right left arg
  else if name = asciiBytes "indexOf" then do
    emit [.lparen, .function .strpos, .lparen]
    left
    emit [.comma, .space]
    arg
    emit [.rparen, .space, .op .minus, .space, .number 1, .rparen]
  else failCall name

end Parts

section Runs

variable {α β : Type} {a : α} {b : β} {s s' : SqlWriter} {x : Writing α} {f : α → Writing β}

theorem bind_eq_ok :
    (x >>= f) s = .ok (b, s') ↔ ∃ a between, x s = .ok (a, between) ∧ f a between = .ok (b, s') := by
  have unfolded : (x >>= f) s = (x s).bind fun (a, between) => f a between := rfl
  rw [unfolded]
  cases x s with
  | error message => simp [Except.bind]
  | ok result => simp [Except.bind, Prod.ext_iff]

theorem emit_eq_ok {tokens : List Token} {u : Unit} :
    emit tokens s = .ok (u, s') ↔ s' = { s with sb := s.sb ++ tokens } := by
  have unfolded : emit tokens s = .ok ((), { s with sb := s.sb ++ tokens }) := rfl
  rw [unfolded, Except.ok.injEq, Prod.mk.injEq, eq_comm (b := s')]
  exact and_iff_right (Subsingleton.elim _ _)

theorem fail_ne_ok {message : Text} : (fail message : Writing α) s ≠ .ok (a, s') := by
  intro done
  cases done

end Runs

section Relations

variable (tables : List TableInfo)

def tableOf (relation : Relation) (name : Text) : Writing TableInfo :=
  match tableNamed tables relation.table with
  | some other => return other
  | none =>
    fail (asciiBytes "The table " ++ relation.table ++ asciiBytes " of the relation " ++ name ++
      asciiBytes " isn't known. database.open registers the tables")

/-- The row of a relation to one row. Its join is added the first time. -/
def joinRow (from_ : Row) (name : Text) : Writing Row :=
  match relationNamed from_.table name with
  | none =>
    fail (name ++ asciiBytes " isn't a relation of " ++ from_.table.name ++ asciiBytes
      ". A query can use the relations from the foreign keys, e.g p.author().name or a.posts().count()")
  | some relation =>
    if relation.many then
      fail (name ++ asciiBytes " gives the rows of " ++ relation.table ++ asciiBytes
        " that refer to a row, so it is a query: count(), exists(), sum(f), min(f), max(f), average(f), or first() and a member, e.g a." ++
        name ++ asciiBytes "().count()")
    else do
      let path := (from_.path.1, from_.path.2 ++ [name])
      match ((← get).levels.at_ from_.level).joins.find? (·.path = path) with
      | some join => return ⟨path, join.alias_, join.table, from_.level⟩
      | none =>
        let other ← tableOf tables relation name
        let alias_ ← newAlias
        let on := [.alias_ alias_, .dot, .name relation.references, .space, .op .equal, .space,
          .alias_ from_.alias_, .dot, .name relation.column]
        modify fun w =>
          let add := fun level : Level => { level with joins := level.joins ++ [⟨path, alias_, other, on⟩] }
          { w with levels := w.levels.modifyAt add from_.level }
        return ⟨path, alias_, other, from_.level⟩

/-- The row of a chain of relations to one row. A call of no member is never without arguments, as it would be a
value of the tree then. -/
def rowOfCall : ExprNode → Writing Row
  | .call left name args =>
    if args.count ≠ 0 then
      fail (name ++ asciiBytes " of a query is a relation, which has no arguments")
    else
      match left with
      | .parameter parameter => do joinRow tables ((← get).levels.rowOf parameter) name
      | .call .. | .function .. => do joinRow tables (← rowOfCall left) name
      | _ =>
        fail (asciiBytes "The relation " ++ name ++ asciiBytes " is called on the row of the query, e.g p." ++ name ++
          asciiBytes "().name")
  | .function name _ => fail (name ++ asciiBytes " of a query is a relation, which has no arguments")
  | _ => fail []

variable (levels : Levels)

/-- The table of the row of a chain of relations to one row, without joining it. -/
def oneRelationTable : ExprNode → Option TableInfo
  | .call left name _ => do
    let table ←
      match left with
      | .parameter parameter => some (levels.rowOf parameter).table
      | .call .. => oneRelationTable left
      | _ => none
    let relation ← relationNamed table name
    if relation.many then none else tableNamed tables relation.table
  | _ => none

def hasManyRelation (table : TableInfo) (name : Text) : Bool :=
  match relationNamed table name with
  | some relation => relation.many
  | none => false

/-- If the call is of a relation to the rows that refer to a row, maybe narrowed. -/
def isManyRelation : ExprNode → Bool
  | .call left name args =>
    if isQueryStep name then isManyRelation left
    else if args.count ≠ 0 then false
    else
      match left with
      | .parameter parameter => hasManyRelation (levels.rowOf parameter).table name
      | .call .. =>
        if isManyRelation left then false
        else
          match oneRelationTable tables levels left with
          | some table => hasManyRelation table name
          | none => false
      | _ => false
  | _ => false

/-- What the relation of a query of its rows is called on, and its name. -/
def relationCall : ExprNode → ExprNode × Text
  | .call left name _ => if isQueryStep name then relationCall left else (left, name)
  | other => (other, [])

def rowOfOwner : ExprNode → Writing Row
  | .parameter parameter => do return (← get).levels.rowOf parameter
  | call => rowOfCall tables call

/-- The writer of a subquery is made, and what it did after it is kept but for its own level. -/
def inSubquery {α : Type} (table : TableInfo) (alias_ : ℕ) (writing : Writing α) : Writing (α × List Join) := do
  modify fun w => { w with levels := .inner { table, alias_, qualified := true } w.levels }
  let value ← writing
  let w ← get
  match w.levels with
  | .inner level outer =>
    set { w with levels := outer }
    return (value, level.joins)
  | .query level => return (value, level.joins)

def setParameter (parameter : Text) : Writing Unit :=
  modify fun w =>
    { w with levels := w.levels.modifyAt (fun level => { level with parameter }) w.levels.depth }

def joinTokens (join : Join) : List Token :=
  [.space, .keyword .left, .space, .keyword .join, .space] ++ qualifiedName join.table.schema join.table.name ++
    [.space, .keyword .as_, .space, .alias_ join.alias_, .space, .keyword .on, .space] ++ join.on

/-- What the call gives of the rows: an aggregate, or a member of the first one. -/
inductive Gives where
  | aggregate (of : Aggregate)
  | first (member : Text)
deriving DecidableEq, Repr

def writeGiven (gives : Gives) (name : Text) (relation : Text) (table : TableInfo) (alias_ : ℕ)
    (body : Option (Text × Writing Unit)) : Writing Unit :=
  let ofLambda (before after : List Token) : Writing Unit :=
    match body with
    | none =>
      fail (name ++ asciiBytes " of the rows of a relation takes a lambda of a column, e.g a." ++ relation ++
        asciiBytes "()." ++ name ++ asciiBytes "(p => p.views)")
    | some (parameter, body) => do
      emit before
      setParameter parameter
      body
      emit after
  match gives with
  | .aggregate .exists_ => emit [.number 1]
  | .aggregate .count => emit [.function .count, .lparen, .star, .rparen]
  | .first member => emit [.alias_ alias_, .dot, .name (columnIn table member)]
  | .aggregate .sum =>
    ofLambda [.function .coalesce, .lparen, .function .sum, .lparen]
      [.rparen, .comma, .space, .number 0, .rparen]
  | .aggregate .min => ofLambda [.function .min, .lparen] [.rparen]
  | .aggregate .max => ofLambda [.function .max, .lparen] [.rparen]
  | .aggregate .average => ofLambda [.function .avg, .lparen] [.rparen]

/-- A subquery of the rows of a relation, for what a call with the name gives of them. -/
def writeSubquery (rows : ExprNode) (gives : Gives) (name : Text) (body : Option (Text × Writing Unit))
    (wheres : Writing Unit) (orderings : Writing ℕ) : Writing Unit := do
  let (owner, relationName) := relationCall rows
  let from_ ← rowOfOwner tables owner
  let relation := (relationNamed from_.table relationName).getD {}
  let other ← tableOf tables relation relationName
  let alias_ ← newAlias
  let ((value, rest), joins) ← inSubquery other alias_ do
    let value ← apart (writeGiven gives name relationName other alias_ body)
    let rest ← apart do
      emit [.space, .keyword .where_, .space, .alias_ alias_, .dot, .name relation.column, .space, .op .equal,
        .space, .alias_ from_.alias_, .dot, .name relation.references]
      wheres
      let _ ← orderings
      match gives with
      | .first _ => emit [.space, .keyword .limit, .space, .number 1]
      | .aggregate _ => pure ()
    return (value, rest)
  if gives = .aggregate .exists_ then emit [.keyword .exists_, .space]
  emit ([.lparen, .keyword .select, .space] ++ value ++ [.space, .keyword .from_, .space] ++
    qualifiedName other.schema other.name ++ [.space, .keyword .as_, .space, .alias_ alias_] ++
    joins.flatMap joinTokens ++ rest ++ [.rparen])

def failStep (name : Text) : Writing Unit :=
  fail (name ++ asciiBytes " of the rows of a relation takes a lambda, e.g where(p => p.views > 10)")

/-- `where` of a subquery. The other steps only have to have a lambda. -/
def writeWhere (name parameter : Text) (body : Writing Unit) : Writing Unit := do
  setParameter parameter
  if name = asciiBytes "where" then
    emit [.space, .keyword .and_, .space, .lparen]
    body
    emit [.rparen]

/-- A step that sorts, after a number of others. -/
def writeOrdering (name parameter : Text) (body : Writing Unit) (before : ℕ) : Writing ℕ :=
  if name = asciiBytes "where" then return before
  else do
    setParameter parameter
    emit (if before = 0 then [.space, .keyword .order, .space, .keyword .by_, .space] else [.comma, .space])
    body
    if name = asciiBytes "orderByDescending" then emit [.space, .keyword .desc]
    return before + 1

end Relations

section Write

variable (tables : List TableInfo)

mutual

def write : ExprNode → Writing Unit
  | .parameter _ => fail (asciiBytes "A row can't be a value in SQL, only its members, e.g u.age")
  | .member left name => writeMember left name
  | .value value => writeValue value
  | .unary op left => do
    emit (if op = .not then [.keyword .not_, .space, .lparen] else [.op .minus, .lparen])
    write left
    emit [.rparen]
  | .binary op left right => writeBinary op (isNull left) (isNull right) (write left) (write right)
  | .call left name args => do
    match aggregateNamed name, isManyRelation tables (← get).levels left with
    | some aggregate, true =>
      writeSubquery tables left (.aggregate aggregate) name (writeLambda args) (writeWheres left)
        (writeOrderings left)
    | _, _ => writeMethod name args.count (write left) (writeFirst args)
  | .function name _ =>
    fail (asciiBytes "The function " ++ name ++ asciiBytes
      " can't be made into SQL. Call it outside the lambda, and use its value")
  | .object _ => fail (asciiBytes "A struct literal is only for select, e.g select(u => \x7bname: u.name\x7d)")
  | .lambda .. =>
    fail (asciiBytes
      "A lambda in a lambda is only for the rows of a relation, e.g a.posts().where(p => p.views > 10).count()")

/-- The member `name` of `left`. -/
def writeMember : ExprNode → Text → Writing Unit
  | .member left inner, name =>
    if name = asciiBytes "len" then do
      emit [.function .length, .lparen]
      writeMember left inner
      emit [.rparen]
    else
      fail (asciiBytes "Only the members of the row are columns, so ." ++ name ++
        asciiBytes " of something else isn't supported")
  | .call left called args, name => do
    if called = asciiBytes "first" ∧ isManyRelation tables (← get).levels left then
      writeSubquery tables left (.first name) called none (writeWheres left) (writeOrderings left)
    else
      writeColumn true (← rowOfCall tables (.call left called args)) name
  | .function called args, name => do writeColumn true (← rowOfCall tables (.function called args)) name
  | .parameter parameter, name => do
    let levels := (← get).levels
    let row := levels.rowOf parameter
    writeColumn (levels.at_ row.level).qualified row name
  | _, name =>
    fail (asciiBytes "Only the members of the row are columns, so ." ++ name ++
      asciiBytes " of something else isn't supported")

/-- The lambda that is the argument of a call, if it is one. -/
def writeLambda : ExprArgs → Option (Text × Writing Unit)
  | .cons _ (.lambda parameter body) .nil => some (parameter, write body)
  | _ => none

def writeFirst : ExprArgs → Writing Unit
  | .nil => pure ()
  | .cons _ value _ => write value

/-- The steps of a query of the rows of a relation, in the order they are written. -/
def writeWheres : ExprNode → Writing Unit
  | .call left name args =>
    if isQueryStep name then do
      writeWheres left
      match writeLambda args with
      | none => failStep name
      | some (parameter, body) => writeWhere name parameter body
    else pure ()
  | _ => pure ()

def writeOrderings : ExprNode → Writing ℕ
  | .call left name args =>
    if isQueryStep name then do
      let before ← writeOrderings left
      match writeLambda args with
      | none => return before
      | some (parameter, body) => writeOrdering name parameter body before
    else return 0
  | _ => return 0

end

end Write

end Saad.Dbms
