import Mathlib.Data.List.TakeWhile
import Saad.Dbms.RowColumns

/-! # The names of generated files

The structs, enums and methods that `EntityGenerator` declares for a schema, and the files they are in. The types of the
members, their comments and the layout of the code are left out. Names of Postgres are short, so the texts are written
without their builders.
-/

namespace Saad.Postgres

open Dbms

section Schema

/-- `typeNames` and `relationNames` are the names that the program gives itself. -/
structure EntityGenerator where
  typeNames : List (Text × Text) := []
  relationNames : List (Text × Text) := []
  /-- Tables that are left out. -/
  skip : List Text := []

structure SchemaColumn where
  tableName : Text
  columnName : Text
deriving DecidableEq, Repr

structure SchemaEnumLabel where
  typeName : Text
  label : Text
deriving DecidableEq, Repr

structure SchemaForeignKey where
  constraintName : Text
  tableName : Text
  columnName : Text
  foreignTable : Text
  foreignColumn : Text
deriving DecidableEq, Repr

/-- A method of a row for a foreign key: the row it refers to, or the rows that refer to it. -/
structure Relation where
  name : Text
  constraint : Text
  toMany : Bool
  otherTable : Text
  column : Text
  otherColumn : Text
deriving DecidableEq, Repr

structure SchemaEnum where
  name : Text
  labels : List Text
deriving DecidableEq, Repr

structure SchemaTable where
  name : Text
  columns : List SchemaColumn
  relations : List Relation := []
deriving DecidableEq, Repr

/-- The labels of an enum stand one after the other. -/
def addLabel (enums : List SchemaEnum) (label : SchemaEnumLabel) : List SchemaEnum :=
  match enums.getLast? with
  | some last =>
    if last.name = label.typeName then enums.dropLast ++ [{ last with labels := last.labels ++ [label.label] }]
    else enums ++ [⟨label.typeName, [label.label]⟩]
  | none => [⟨label.typeName, [label.label]⟩]

def enumsOf (labels : List SchemaEnumLabel) : List SchemaEnum := labels.foldl addLabel []

def addColumn (g : EntityGenerator) (tables : List SchemaTable) (column : SchemaColumn) : List SchemaTable :=
  if g.skip.contains column.tableName then tables
  else
    match tables.getLast? with
    | some last =>
      if last.name = column.tableName then tables.dropLast ++ [{ last with columns := last.columns ++ [column] }]
      else tables ++ [{ name := column.tableName, columns := [column] }]
    | none => [{ name := column.tableName, columns := [column] }]

def tablesOf (g : EntityGenerator) (columns : List SchemaColumn) : List SchemaTable := columns.foldl (addColumn g) []

end Schema

section Names

def isLetterOrDigit (c : BitVec 8) : Bool := isLetter c || isDigit c

/-- The singular of an English word, for most words. -/
def singular (word : Text) : Text :=
  if endsWith word (asciiBytes "series") ∨ endsWith word (asciiBytes "species") then word
  else if endsWith word (asciiBytes "ies") ∧ 3 < word.length then word.take (word.length - 3) ++ [byteOf 'y']
  else if endsWith word (asciiBytes "sses") ∨ endsWith word (asciiBytes "xes") ∨ endsWith word (asciiBytes "ches") ∨
      endsWith word (asciiBytes "shes") then word.take (word.length - 2)
  else if endsWith word (asciiBytes "s") ∧ ¬endsWith word (asciiBytes "ss") ∧ 1 < word.length then
    word.take (word.length - 1)
  else word

/-- The loop of `pascalCase`. -/
def pascalFrom : Bool → Text → Text
  | _, [] => []
  | upper, c :: name =>
    if !(isLetterOrDigit c || c == byteOf '_') || c == byteOf '_' then pascalFrom true name
    else (if upper && isLower c then c - 32 else c) :: pascalFrom false name

/-- `order_items` is `OrderItems`. -/
def pascalCase (name : Text) : Text :=
  let text := pascalFrom true name
  if text.head?.all isDigit then byteOf 'T' :: text else text

/-- `created_at` is `createdAt`. -/
def camelCase (name : Text) : Text :=
  match pascalCase name with
  | [] => []
  | c :: rest => if isUpper c then (c + 32) :: rest else c :: rest

def keywords : List Text :=
  ["if", "else", "for", "while", "return", "defer", "try", "catch", "throw", "break", "continue", "in", "as", "xx",
    "new", "assert", "typeof", "sizeof", "struct", "enum", "union", "method", "switch", "case", "import", "use",
    "namespace", "extern", "any", "string", "true", "false", "null", "int", "uint", "float", "char", "bool", "void",
    "u8", "u16", "u32", "u64", "i8", "i16", "i32", "i64", "f32", "f64"].map asciiBytes

def isKeyword (name : Text) : Bool := keywords.contains name

/-- The member of a column. -/
def memberName (column : Text) : Text :=
  let name := camelCase column
  if isKeyword name then name ++ [byteOf '_'] else name

/-- The value of an enum label. -/
def enumValueName (label : Text) : Text :=
  let name := label.map fun c => if isLetterOrDigit c || c == byteOf '_' then c else byteOf '_'
  if name.head?.all isDigit || isKeyword name then byteOf '_' :: name else name

def rowTypeName (table : Text) : Text := pascalCase (singular table)

/-- The struct of a row of a table. -/
def rowType (g : EntityGenerator) (table : Text) : Text := (g.typeNames.lookup table).getD (rowTypeName table)

def enumType (g : EntityGenerator) (name : Text) : Text := (g.typeNames.lookup name).getD (pascalCase name)

/-- What the file of a name is called. -/
def fileStem (name : Text) : Text := columnName (camelCase name)

/-- A row with the name of an enum gets `_table`. -/
def fileNameOf (enums : List SchemaEnum) (name : Text) (isEnum : Bool) : Text :=
  let file := fileStem name
  if !isEnum ∧ ∃ e ∈ enums, fileStem e.name = file then asciiBytes "entity/" ++ file ++ asciiBytes "_table.sd"
  else asciiBytes "entity/" ++ file ++ asciiBytes ".sd"

end Names

section Relations

def tableIndex (tables : List SchemaTable) (name : Text) : Option ℕ := tables.findIdx? fun table => table.name == name

/-- Only foreign keys of one column. -/
def keysOfOneColumn (foreignKeys : List SchemaForeignKey) : List SchemaForeignKey :=
  foreignKeys.filter fun fk => (foreignKeys.countP fun other => other.constraintName == fk.constraintName) == 1

/-- `author_id` is `author`. -/
def stemOf (column : Text) : Text :=
  if 3 < column.length ∧ endsWith column (asciiBytes "_id") then column.take (column.length - 3) else column

def forward (fk : SchemaForeignKey) : Relation where
  name := if stemOf fk.columnName = fk.columnName then memberName (stemOf fk.columnName) ++ asciiBytes "Row"
    else memberName (stemOf fk.columnName)
  constraint := fk.constraintName
  toMany := false
  otherTable := fk.foreignTable
  column := fk.columnName
  otherColumn := fk.foreignColumn

/-- If the table has more foreign keys to the same table, then the name has the column. -/
def back (keys : List SchemaForeignKey) (fk : SchemaForeignKey) : Relation where
  name :=
    let sameTarget := keys.countP fun other =>
      other.tableName == fk.tableName && other.foreignTable == fk.foreignTable
    if 1 < sameTarget ∨ fk.tableName = fk.foreignTable then
      camelCase fk.tableName ++ asciiBytes "By" ++ pascalCase (stemOf fk.columnName)
    else camelCase fk.tableName
  constraint := fk.constraintName
  toMany := true
  otherTable := fk.tableName
  column := fk.columnName
  otherColumn := fk.foreignColumn

def addRelation (tables : List SchemaTable) (index : ℕ) (relation : Relation) : List SchemaTable :=
  tables.modify index fun table => { table with relations := table.relations ++ [relation] }

/-- One turn of the loop over the foreign keys. -/
def addRelations (keys : List SchemaForeignKey) (tables : List SchemaTable) (fk : SchemaForeignKey) :
    List SchemaTable :=
  match tableIndex tables fk.tableName, tableIndex tables fk.foreignTable with
  | some table, some foreignTable => addRelation (addRelation tables table (forward fk)) foreignTable (back keys fk)
  | _, _ => tables

/-- The name gets a suffix for each column whose member has it then. -/
def repaired (columns : List SchemaColumn) (relation : Relation) : Text :=
  columns.foldl (fun name column =>
    if memberName column.columnName = name then name ++ asciiBytes (if relation.toMany then "Rows" else "Row") else name)
    relation.name

def renamed (g : EntityGenerator) (table : SchemaTable) (relation : Relation) : Relation :=
  let name := repaired table.columns relation
  { relation with name := (g.relationNames.lookup (table.name ++ [byteOf '.'] ++ name)).getD name }

/-- The relations of the tables from the foreign keys of one column. -/
def relationsOf (g : EntityGenerator) (tables : List SchemaTable) (foreignKeys : List SchemaForeignKey) :
    List SchemaTable :=
  let keys := keysOfOneColumn foreignKeys
  (keys.foldl (addRelations keys) tables).map fun table =>
    { table with relations := table.relations.map (renamed g table) }

/-- The member of a row that links it to its database. -/
def linkName (table : SchemaTable) : Text :=
  if ∃ column ∈ table.columns, memberName column.columnName = asciiBytes "dbLink" then asciiBytes "dbLink_"
  else asciiBytes "dbLink"

end Relations

section Files

/-- What the file of an enum declares. -/
structure EnumDecl where
  name : Text
  enumerators : List Text
deriving DecidableEq, Repr

/-- What the file of a row declares: the members, the link that the relations need, and the relations, the ones to
one row first. -/
structure RowDecl where
  name : Text
  members : List Text
  link : Option Text
  relations : List Text
deriving DecidableEq, Repr

inductive Code where
  | enum (decl : EnumDecl)
  | row (decl : RowDecl)
  | database
deriving DecidableEq, Repr

structure GeneratedFile where
  name : Text
  code : Code
deriving DecidableEq, Repr

def enumFile (g : EntityGenerator) (e : SchemaEnum) : EnumDecl := ⟨enumType g e.name, e.labels.map enumValueName⟩

def rowFile (g : EntityGenerator) (table : SchemaTable) : RowDecl where
  name := rowType g table.name
  members := table.columns.map fun column => memberName column.columnName
  link := if 0 < table.relations.length then some (linkName table) else none
  relations := (table.relations.filter (!·.toMany) ++ table.relations.filter (·.toMany)).map Relation.name

/-- The files for the columns, the labels and the foreign keys of a schema. -/
def EntityGenerator.generate (g : EntityGenerator) (columns : List SchemaColumn) (enumLabels : List SchemaEnumLabel)
    (foreignKeys : List SchemaForeignKey) : List GeneratedFile :=
  let enums := enumsOf enumLabels
  let tables := relationsOf g (tablesOf g columns) foreignKeys
  enums.map (fun e => ⟨fileNameOf enums e.name true, .enum (enumFile g e)⟩) ++
    tables.map (fun table => ⟨fileNameOf enums (singular table.name) false, .row (rowFile g table)⟩) ++
    [⟨asciiBytes "database.sd", .database⟩]

end Files

end Saad.Postgres

/-! # When two names become the same

A name of the database is spelled with its words run together. Lowering the first letter and the `_` behind a keyword
never make two names the same.
-/

namespace Saad.Postgres

open Dbms

section Words

variable {a b name : Text} {c : BitVec 8}

/-- The parts of letters and digits. -/
def words (name : Text) : List Text := (name.splitOnP fun c => !isLetterOrDigit c).filter (· ≠ [])

def raised : Text → Text
  | [] => []
  | c :: word => toUpper c :: word

/-- The words run together, each with a capital, and a T in front of what is no name without it. -/
def spelled (name : Text) : Text :=
  let text := (words name).flatMap raised
  if text.head?.all isDigit then byteOf 'T' :: text else text

theorem pascalFrom_separator {upper : Bool} (separator : isLetterOrDigit c = false) :
    pascalFrom upper (c :: name) = pascalFrom true name := by
  rw [pascalFrom, separator, if_pos]
  cases c == byteOf '_' <;> rfl

theorem pascalFrom_letter {upper : Bool} (letter : isLetterOrDigit c = true) :
    pascalFrom upper (c :: name) = (if upper && isLower c then c - 32 else c) :: pascalFrom false name := by
  have other : (c == byteOf '_') = false := by
    revert c
    decide
  rw [pascalFrom, letter, other, if_neg (by decide)]

theorem words_separator (separator : isLetterOrDigit c = false) : words (c :: name) = words name := by
  rw [words, List.splitOnP_cons_eq_if_modifyHead, if_pos (by rw [separator]; rfl), List.filter_cons_of_neg (by simp), words]

/-- The first word, if the name begins with one, and the others. -/
theorem flatMap_words (name : Text) : (words name).flatMap raised =
    raised (name.takeWhile isLetterOrDigit) ++ (words (name.dropWhile isLetterOrDigit)).flatMap raised := by
  have front : ∀ c ∈ name.takeWhile isLetterOrDigit, (!isLetterOrDigit c) = false := by
    intro c member
    rw [List.mem_takeWhile_imp member]
    rfl
  have first : ∀ word : Text, ([word].filter (· ≠ [])).flatMap raised = raised word := by
    intro word
    cases word <;> simp [raised]
  have whole := List.takeWhile_append_dropWhile (p := isLetterOrDigit) (l := name)
  cases rest : name.dropWhile isLetterOrDigit with
  | nil =>
    rw [rest, List.append_nil] at whole
    have single := List.splitOnP_eq_singleton front
    rw [whole] at single ⊢
    rw [words, single, first]
    simp [words, List.splitOnP_nil]
  | cons separator behind =>
    have ends : (!isLetterOrDigit separator) = true := by
      have other := List.head?_dropWhile_not isLetterOrDigit name
      rw [rest] at other
      simpa using other
    rw [rest] at whole
    have splits := List.splitOnP_append_cons_of_forall_mem front separator ends behind
    rw [whole] at splits
    rw [words_separator (by simpa using ends), words, splits, ← List.singleton_append, List.filter_append,
      List.flatMap_append, first, words]

/-- The first word is as it stands in the text, and the others begin with a capital. -/
theorem pascalFrom_eq (upper : Bool) : pascalFrom upper name =
    (if upper then raised else id) (name.takeWhile isLetterOrDigit) ++
      (words (name.dropWhile isLetterOrDigit)).flatMap raised := by
  induction name generalizing upper with
  | nil => cases upper <;> rfl
  | cons c name ih =>
    cases letter : isLetterOrDigit c with
    | true =>
      rw [pascalFrom_letter letter, ih, List.takeWhile_cons_of_pos letter, List.dropWhile_cons_of_pos letter]
      cases upper <;> rfl
    | false =>
      rw [pascalFrom_separator letter, ih, List.takeWhile_cons_of_neg (by simp [letter]),
        List.dropWhile_cons_of_neg (by simp [letter]), words_separator letter, flatMap_words name]
      cases upper <;> rfl

theorem pascalCase_eq (name : Text) : pascalCase name = spelled name := by
  rw [pascalCase, spelled, pascalFrom_eq, flatMap_words name]
  rfl

end Words

section Injective

variable {a b name : Text} {c : BitVec 8}

/-- What a name is made of. -/
theorem letters_of_pascalFrom {upper : Bool} (member : c ∈ pascalFrom upper name) : isLetterOrDigit c = true := by
  induction name generalizing upper with
  | nil => cases member
  | cons d name ih =>
    cases letter : isLetterOrDigit d with
    | true =>
      rw [pascalFrom_letter letter] at member
      obtain rfl | behind := List.mem_cons.mp member
      · have lowered : ∀ d, isLetterOrDigit d = true → isLetterOrDigit (if upper && isLower d then d - 32 else d) := by
          cases upper <;> decide
        exact lowered d letter
      · exact ih behind
    | false =>
      rw [pascalFrom_separator letter] at member
      exact ih member

theorem letters_of_pascalCase (member : c ∈ pascalCase name) : isLetterOrDigit c = true := by
  rw [pascalCase] at member
  split at member
  · obtain rfl | behind := List.mem_cons.mp member
    · decide
    · exact letters_of_pascalFrom behind
  · exact letters_of_pascalFrom member

theorem first_of_pascalFrom {rest : Text} (is : pascalFrom true name = c :: rest) :
    isUpper c = true ∨ isDigit c = true := by
  induction name with
  | nil => cases is
  | cons d name ih =>
    cases letter : isLetterOrDigit d with
    | true =>
      have capital : ∀ d, isLetterOrDigit d = true → isUpper (if true && isLower d then d - 32 else d) = true ∨
          isDigit (if true && isLower d then d - 32 else d) = true := by decide
      rw [pascalFrom_letter letter] at is
      rw [← (List.cons_eq_cons.mp is).1]
      exact capital d letter
    | false =>
      rw [pascalFrom_separator letter] at is
      exact ih is

/-- The first letter is a capital. -/
theorem exists_pascalCase (name : Text) : ∃ c rest, pascalCase name = c :: rest ∧ isUpper c = true := by
  rw [pascalCase]
  split
  · exact ⟨_, _, rfl, by decide⟩
  · next start =>
    cases is : pascalFrom true name with
    | nil => simp [is] at start
    | cons c rest =>
      refine ⟨c, rest, rfl, ?_⟩
      rw [is] at start
      exact (first_of_pascalFrom is).resolve_right start

theorem camelCase_injective (same : camelCase a = camelCase b) : pascalCase a = pascalCase b := by
  obtain ⟨c, first, is, upper⟩ := exists_pascalCase a
  obtain ⟨d, second, is', upper'⟩ := exists_pascalCase b
  rw [camelCase, camelCase, is, is'] at same
  dsimp only at same
  rw [if_pos upper, if_pos upper'] at same
  obtain ⟨lowered, rest⟩ := List.cons_eq_cons.mp same
  have letter : c = d := by
    have back := congrArg (· - 32) lowered
    simpa using back
  rw [is, is', letter, rest]

theorem letters_of_camelCase (member : c ∈ camelCase name) : isLetterOrDigit c = true := by
  obtain ⟨d, rest, is, upper⟩ := exists_pascalCase name
  rw [camelCase, is] at member
  dsimp only at member
  rw [if_pos upper] at member
  obtain rfl | behind := List.mem_cons.mp member
  · have lowered : ∀ d, isUpper d = true → isLetterOrDigit (d + 32) = true := by decide
    exact lowered d upper
  · exact letters_of_pascalCase (is ▸ List.mem_cons_of_mem _ behind)

theorem underscore_notMem_camelCase (name : Text) : byteOf '_' ∉ camelCase name := by
  intro member
  exact absurd (letters_of_camelCase member) (by decide)

theorem memberName_cases (name : Text) : memberName name = camelCase name ∨
    memberName name = camelCase name ++ [byteOf '_'] ∧ isKeyword (camelCase name) = true := by
  unfold memberName
  dsimp only
  split
  · next keyword => exact .inr ⟨rfl, keyword⟩
  · exact .inl rfl

theorem memberName_injective (same : memberName a = memberName b) : pascalCase a = pascalCase b := by
  apply camelCase_injective
  obtain plain | ⟨marked, keyword⟩ := memberName_cases a
  · obtain plain' | ⟨marked', -⟩ := memberName_cases b
    · rw [← plain, ← plain', same]
    · exfalso
      apply underscore_notMem_camelCase a
      rw [← plain, same, marked']
      simp
  · obtain plain' | ⟨marked', -⟩ := memberName_cases b
    · exfalso
      apply underscore_notMem_camelCase b
      rw [← plain', ← same, marked]
      simp
    · rw [marked, marked'] at same
      exact List.append_cancel_right same

theorem memberName_inj : memberName a = memberName b ↔ spelled a = spelled b := by
  rw [← pascalCase_eq, ← pascalCase_eq]
  constructor
  · exact memberName_injective
  · intro same
    rw [memberName, memberName, camelCase, camelCase, same]

end Injective

end Saad.Postgres
