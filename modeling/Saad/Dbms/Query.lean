import Saad.Dbms.SqlWriter

/-! # Queries

A query keeps one slot for each clause of its SELECT. Its methods give a new query, and `toSql` writes it.
-/

namespace Saad.Dbms

open Sql

section Queries

structure Ordering where
  by_ : ExprNode
  descending : Bool

/-- What `select` made of the rows. `single` is a value that isn't a struct. -/
structure Query where
  table : TableInfo
  conditions : List ExprNode := []
  orderings : List Ordering := []
  selection : Option ExprNode := none
  single : Bool := false
  take : ℤ := -1
  skip : ℤ := 0
  failure : Text := []

namespace Query

def where_ (q : Query) (condition : ExprNode) : Query :=
  { q with
    conditions := q.conditions ++ [condition]
    failure :=
      if q.selection.isSome ∧ q.failure = [] then
        asciiBytes "where after select isn't supported. Put the where before the select"
      else q.failure }

def orderBy (q : Query) (by_ : ExprNode) : Query := { q with orderings := q.orderings ++ [⟨by_, false⟩] }

def orderByDescending (q : Query) (by_ : ExprNode) : Query :=
  { q with orderings := q.orderings ++ [⟨by_, true⟩] }

def limit (q : Query) (n : ℤ) : Query := { q with take := n }

def offset (q : Query) (n : ℤ) : Query := { q with skip := n }

end Query

def ExprNode.isObject : ExprNode → Bool
  | .object _ => true
  | _ => false

/-- `isStruct` says that the values of the lambda are of a struct type. -/
def Query.select (q : Query) (f : ExprNode) (isStruct : Bool) : Query :=
  { q with
    selection := some f
    single := !isStruct
    failure :=
      if isStruct ∧ !f.isObject ∧ q.failure = [] then
        asciiBytes
          "select gives a struct literal, e.g u => \x7bu.name\x7d or u => Summary\x7bname: u.name\x7d, or one value, e.g u => u.name"
      else q.failure }

/-- The query of every row of a table. -/
def queryOf (table : TableInfo) : Query := { table }

end Queries

section Sql

variable (tables : List TableInfo)

/-- The values of a struct literal or a call, with their names. -/
def ExprNode.arguments : ExprNode → ExprArgs
  | .call _ _ args | .function _ args | .object args => args
  | _ => .nil

def writeSelected : ExprArgs → Bool → Writing Unit
  | .nil, _ => pure ()
  | .cons name value rest, first => do
    if !first then emit [.comma, .space]
    write tables value
    emit [.space, .keyword .as_, .space, .name name]
    writeSelected rest false

/-- The column of a select of one value. -/
def valueColumn : Text := asciiBytes "value"

def writeColumns (q : Query) (qualified : Bool) : Writing Unit :=
  match q.selection with
  | none => emit (if qualified then [.alias_ 0, .dot, .star] else [.star])
  | some selection =>
    if q.single then do
      write tables selection
      emit [.space, .keyword .as_, .space, .name valueColumn]
    else writeSelected tables selection.arguments true

def writeConditions : List ExprNode → Bool → Writing Unit
  | [], _ => pure ()
  | condition :: rest, first => do
    emit [.space, .keyword (if first then .where_ else .and_), .space, .lparen]
    write tables condition
    emit [.rparen]
    writeConditions rest false

def writeSorted : List Ordering → Bool → Writing Unit
  | [], _ => pure ()
  | ordering :: rest, first => do
    emit (if first then [.space, .keyword .order, .space, .keyword .by_, .space] else [.comma, .space])
    write tables ordering.by_
    if ordering.descending then emit [.space, .keyword .desc]
    writeSorted rest false

def writePart (q : Query) : Writing Unit := do
  if 0 ≤ q.take then emit [.space, .keyword .limit, .space, .number q.take]
  if 0 < q.skip then emit [.space, .keyword .offset, .space, .number q.skip]

/-- The columns, and what stands after FROM and the joins. -/
def writeClauses (q : Query) (qualified : Bool) : Writing (List Token × List Token) := do
  let columns ← apart (writeColumns tables q qualified)
  let rest ← apart do
    writeConditions tables q.conditions true
    writeSorted tables q.orderings true
    writePart q
  return (columns, rest)

structure WrittenSql where
  tokens : List Token
  args : List Any

/-- The SQL with its arguments, and the number of aliases. -/
def sqlWith (q : Query) (qualified : Bool) : Except Text (WrittenSql × ℕ) :=
  if q.failure ≠ [] then .error q.failure
  else do
    let ((columns, rest), w) ←
      (writeClauses tables q qualified).run { levels := .query { table := q.table, qualified } }
    let tokens := [.keyword .select, .space] ++ columns ++ [.space, .keyword .from_, .space] ++
      qualifiedName q.table.schema q.table.name ++
      (if qualified then [.space, .keyword .as_, .space, .alias_ 0] else []) ++
      w.levels.level.joins.flatMap joinTokens ++ rest
    return (⟨tokens, w.args⟩, w.aliases)

/-- The columns are written with their table when there is a relation in the query. -/
def toSql (q : Query) : Except Text WrittenSql := do
  let (sql, aliases) ← sqlWith tables q false
  if 0 < aliases then
    let (sql, _) ← sqlWith tables q true
    return sql
  else return sql

end Sql

end Saad.Dbms
