import Saad.Dbms.Generate
import Saad.General.Suffixed

/-! # Generated names are apart

When the names that the generator gives are different: a condition on the names of the schema.
-/

namespace Saad.Postgres

open Dbms General

section Relations

variable {keys more : List SchemaForeignKey} {tables start : List SchemaTable} {fk : SchemaForeignKey} {i : ℕ}
  {relation : Relation}

/-- The relations that a foreign key gives the table at an index. -/
def relationsAt (keys : List SchemaForeignKey) (tables : List SchemaTable) (i : ℕ) (fk : SchemaForeignKey) :
    List Relation :=
  if (tableIndex tables fk.tableName).isSome ∧ (tableIndex tables fk.foreignTable).isSome then
    (if tableIndex tables fk.tableName = some i then [forward fk] else []) ++
      (if tableIndex tables fk.foreignTable = some i then [back keys fk] else [])
  else []

/-- The relations of the table at an index, before their names are repaired. -/
def wanted (foreignKeys : List SchemaForeignKey) (tables : List SchemaTable) (i : ℕ) : List Relation :=
  (keysOfOneColumn foreignKeys).flatMap (relationsAt (keysOfOneColumn foreignKeys) tables i)

def SchemaTable.withRelations (table : SchemaTable) (relations : List Relation) : SchemaTable :=
  { table with relations := table.relations ++ relations }

theorem tableIndex_congr (same : tables.map SchemaTable.name = start.map SchemaTable.name) (name : Text) :
    tableIndex tables name = tableIndex start name := by
  have byName : ∀ tables : List SchemaTable,
      tableIndex tables name = (tables.map SchemaTable.name).findIdx? (· == name) := by
    intro tables
    rw [List.findIdx?_map]
    rfl
  rw [byName, byName, same]

theorem getElem?_addRelation (index : ℕ) : (addRelation tables index relation)[i]? =
    tables[i]?.map fun table => table.withRelations (if index = i then [relation] else []) := by
  rw [addRelation, List.getElem?_modify]
  cases tables[i]? with
  | none => rfl
  | some table =>
    by_cases here : index = i
    · simp [here, SchemaTable.withRelations]
    · simp [here, SchemaTable.withRelations]

theorem withRelations_withRelations (table : SchemaTable) (first second : List Relation) :
    (table.withRelations first).withRelations second = table.withRelations (first ++ second) := by
  rw [SchemaTable.withRelations, SchemaTable.withRelations, SchemaTable.withRelations, List.append_assoc]

/-- One foreign key. -/
theorem getElem?_addRelations : (addRelations keys tables fk)[i]? =
    tables[i]?.map fun table => table.withRelations (relationsAt keys tables i fk) := by
  have unchanged (table : SchemaTable) : table.withRelations [] = table := by
    rw [SchemaTable.withRelations, List.append_nil]
  unfold addRelations relationsAt
  cases tableIndex tables fk.tableName with
  | none => simp [unchanged]
  | some t =>
    cases tableIndex tables fk.foreignTable with
    | none => simp [unchanged]
    | some f =>
      dsimp only
      rw [getElem?_addRelation, getElem?_addRelation, Option.map_map]
      congr 1
      funext table
      rw [Function.comp_apply, withRelations_withRelations]
      simp only [Option.isSome_some, and_self, if_true, Option.some_inj]

theorem map_name_addRelations : (addRelations keys tables fk).map SchemaTable.name = tables.map SchemaTable.name := by
  apply List.ext_getElem?
  intro i
  rw [List.getElem?_map, List.getElem?_map, getElem?_addRelations, Option.map_map]
  rfl

/-- All foreign keys. -/
theorem getElem?_foldl_addRelations (same : tables.map SchemaTable.name = start.map SchemaTable.name) :
    (more.foldl (addRelations keys) tables)[i]? =
      tables[i]?.map fun table => table.withRelations (more.flatMap (relationsAt keys start i)) := by
  induction more generalizing tables with
  | nil =>
    rw [List.foldl_nil, List.flatMap_nil]
    simp [SchemaTable.withRelations]
  | cons fk more ih =>
    have here : relationsAt keys tables i fk = relationsAt keys start i fk := by
      rw [relationsAt, relationsAt, tableIndex_congr same, tableIndex_congr same]
    rw [List.foldl_cons, ih (map_name_addRelations.trans same), getElem?_addRelations, Option.map_map, here,
      List.flatMap_cons]
    congr 1
    funext table
    exact withRelations_withRelations table _ _

end Relations

section Repairs

variable {columns : List SchemaColumn} {relation : Relation}

def suffixOf (relation : Relation) : Text := asciiBytes (if relation.toMany then "Rows" else "Row")

def membersOf (columns : List SchemaColumn) : List Text := columns.map fun column => memberName column.columnName

theorem repaired_eq : repaired columns relation = settle (suffixOf relation) (membersOf columns) relation.name := by
  rw [repaired, settle, membersOf, List.foldl_map]
  rfl

/-- The one generator without names of its own. -/
theorem relationsOf_getElem? {tables : List SchemaTable} (bare : ∀ table ∈ tables, table.relations = [])
    (foreignKeys : List SchemaForeignKey) (i : ℕ) : (relationsOf {} tables foreignKeys)[i]? =
      tables[i]?.map fun table => { table with relations := (wanted foreignKeys tables i).map fun relation =>
        { relation with name := settle (suffixOf relation) (membersOf table.columns) relation.name } } := by
  rw [relationsOf, List.getElem?_map, getElem?_foldl_addRelations rfl, Option.map_map]
  cases is : tables[i]? with
  | none => rfl
  | some table =>
    have none_yet := bare table (List.mem_of_getElem? is)
    rw [Option.map_some, Option.map_some, Function.comp_apply, SchemaTable.withRelations, none_yet, List.nil_append]
    congr 2
    apply List.map_congr_left
    intro relation _
    rw [renamed, repaired_eq]
    rfl

end Repairs

section Rows

variable {table : SchemaTable} {relations : List Relation} {relation : Relation} {name : Text}

/-- The names that a row struct declares. -/
def RowDecl.names (decl : RowDecl) : List Text := decl.members ++ (decl.link.toList ++ decl.relations)

/-- A relation of a foreign key, with the name that it is to get. -/
def IsRelation (relation : Relation) : Prop := ∃ keys fk, relation = forward fk ∨ relation = back keys fk

theorem isRelation_of_mem_wanted {foreignKeys : List SchemaForeignKey} {tables : List SchemaTable} {i : ℕ}
    (member : relation ∈ wanted foreignKeys tables i) : IsRelation relation := by
  obtain ⟨fk, -, member⟩ := List.mem_flatMap.mp member
  refine ⟨keysOfOneColumn foreignKeys, fk, ?_⟩
  rw [relationsAt] at member
  split at member
  · obtain member | member := List.mem_append.mp member
    · split at member
      · exact .inl (List.mem_singleton.mp member)
      · cases member
    · split at member
      · exact .inr (List.mem_singleton.mp member)
      · cases member
  · cases member

theorem memberName_ne_dbLink_ (column : Text) : memberName column ≠ asciiBytes "dbLink_" := by
  intro same
  obtain plain | ⟨marked, keyword⟩ := memberName_cases column
  · apply underscore_notMem_camelCase column
    rw [← plain, same]
    decide
  · rw [marked, show asciiBytes "dbLink_" = asciiBytes "dbLink" ++ [byteOf '_'] by rfl] at same
    rw [List.append_cancel_right same] at keyword
    revert keyword
    decide

/-- What ends with a letter isn't the other name of the link. -/
theorem ne_dbLink_of_getLast? {c : BitVec 8} (last : name.getLast? = some c) (letter : isLetterOrDigit c = true) :
    name ≠ asciiBytes "dbLink_" := by
  rintro rfl
  have underscore : (asciiBytes "dbLink_").getLast? = some (byteOf '_') := by decide
  rw [underscore] at last
  cases last
  exact absurd letter (by decide)

theorem IsRelation.name_ne_dbLink_ (isRelation : IsRelation relation) : relation.name ≠ asciiBytes "dbLink_" := by
  obtain ⟨keys, fk, rfl | rfl⟩ := isRelation
  · rw [forward]
    dsimp only
    split
    · apply ne_dbLink_of_getLast? (List.getLast?_append_of_ne_nil _ (by decide))
      decide
    · exact memberName_ne_dbLink_ _
  · have camel : ∀ text : Text, (∀ c ∈ text, isLetterOrDigit c = true) → text ≠ asciiBytes "dbLink_" := by
      rintro _ letters rfl
      exact absurd (letters (byteOf '_') (by decide)) (by decide)
    rw [back]
    dsimp only
    split
    · apply camel
      intro c member
      obtain member | member := List.mem_append.mp member
      · obtain member | member := List.mem_append.mp member
        · exact letters_of_camelCase member
        · have letters : ∀ c ∈ asciiBytes "By", isLetterOrDigit c = true := by decide
          exact letters c member
      · exact letters_of_pascalCase member
    · exact camel _ fun c => letters_of_camelCase

theorem IsRelation.settled_ne_dbLink_ (isRelation : IsRelation relation) (k : ℕ) :
    suffixed (suffixOf relation) relation.name k ≠ asciiBytes "dbLink_" := by
  cases k with
  | zero =>
    rw [suffixed_zero]
    exact isRelation.name_ne_dbLink_
  | succ k =>
    have last : ∃ c, (suffixOf relation).getLast? = some c ∧ isLetterOrDigit c = true := by
      rw [suffixOf]
      split
      · exact ⟨byteOf 's', by decide⟩
      · exact ⟨byteOf 'w', by decide⟩
    obtain ⟨c, is, letter⟩ := last
    have nonempty : suffixOf relation ≠ [] := by
      intro empty
      rw [empty] at is
      cases is
    apply ne_dbLink_of_getLast? _ letter
    rw [suffixed, List.replicate_succ', List.flatten_append, List.flatten_singleton, ← List.append_assoc,
      List.getLast?_append_of_ne_nil _ nonempty, is]

/-- The columns of a table and its relations give different names: no two columns are spelled the same, the members
with the name of a relation and with its suffixes stand in their order up to the first that is free, and these are
different and not the name of the link. -/
def RowApart (table : SchemaTable) (relations : List Relation) : Prop :=
  (table.columns.map fun column => spelled column.columnName).Nodup ∧
    ∃ free : List Text, List.Forall₂ (fun relation name =>
      SettlesAt (suffixOf relation) (membersOf table.columns) relation.name name) relations free ∧
      free.Nodup ∧ asciiBytes "dbLink" ∉ free

/-- The table with its relations, and the names that they have in the end. -/
def SchemaTable.settled (table : SchemaTable) (relations : List Relation) : SchemaTable :=
  { table with relations := relations.map fun relation =>
    { relation with name := settle (suffixOf relation) (membersOf table.columns) relation.name } }

def settledNames (table : SchemaTable) (relations : List Relation) : List Text :=
  relations.map fun relation => settle (suffixOf relation) (membersOf table.columns) relation.name

theorem perm_relations (table : SchemaTable) (relations : List Relation) :
    (rowFile {} (table.settled relations)).relations.Perm (settledNames table relations) := by
  have apart := List.filter_append_perm (fun relation : Relation => relation.toMany) (table.settled relations).relations
  have names := (List.perm_append_comm.trans apart).map Relation.name
  rw [rowFile]
  apply names.trans
  rw [SchemaTable.settled, settledNames, List.map_map]
  exact List.Perm.refl _

theorem nodup_membersOf_iff (columns : List SchemaColumn) :
    (membersOf columns).Nodup ↔ (columns.map fun column => spelled column.columnName).Nodup := by
  unfold List.Nodup
  rw [membersOf, List.pairwise_map, List.pairwise_map]
  apply List.Pairwise.iff
  intro a b
  exact not_congr memberName_inj

theorem linkName_cases (table : SchemaTable) :
    linkName table = asciiBytes "dbLink_" ∧ asciiBytes "dbLink" ∈ membersOf table.columns ∨
      linkName table = asciiBytes "dbLink" ∧ asciiBytes "dbLink" ∉ membersOf table.columns := by
  rw [linkName, membersOf, List.mem_map]
  split
  · next taken => exact .inl ⟨rfl, taken⟩
  · next free => exact .inr ⟨rfl, free⟩

theorem linkName_notMem (table : SchemaTable) : linkName table ∉ membersOf table.columns := by
  obtain ⟨is, -⟩ | ⟨is, free⟩ := linkName_cases table
  · rw [is, membersOf]
    intro member
    obtain ⟨column, -, same⟩ := List.mem_map.mp member
    exact memberName_ne_dbLink_ _ same
  · rw [is]
    exact free

theorem settles_of_forall₂ {taken free : List Text} (settles : List.Forall₂ (fun relation name =>
    SettlesAt (suffixOf relation) taken relation.name name) relations free) (member : relation ∈ relations) :
    ∃ name, SettlesAt (suffixOf relation) taken relation.name name := by
  induction settles with
  | nil => cases member
  | cons here others ih =>
    obtain rfl | behind := List.mem_cons.mp member
    · exact ⟨_, here⟩
    · exact ih behind

/-- The names of a row are different exactly when the schema keeps them apart. -/
theorem rowNames_nodup_iff (areRelations : ∀ relation ∈ relations, IsRelation relation) :
    (rowFile {} (table.settled relations)).names.Nodup ↔ RowApart table relations := by
  have perm := perm_relations table relations
  have count : (rowFile {} (table.settled relations)).link =
      if 0 < relations.length then some (linkName table) else none := by
    rw [rowFile, SchemaTable.settled]
    dsimp only
    rw [List.length_map]
    rfl
  have names : (rowFile {} (table.settled relations)).names.Perm
      (membersOf table.columns ++ ((if 0 < relations.length then some (linkName table) else none).toList ++
        settledNames table relations)) := by
    rw [RowDecl.names, count]
    exact (perm.append_left _).append_left _
  rw [names.nodup_iff, RowApart, ← nodup_membersOf_iff]
  constructor
  · intro apart
    obtain ⟨members, others, disjoint⟩ := List.nodup_append'.mp apart
    obtain ⟨-, free, link⟩ := List.nodup_append'.mp others
    refine ⟨members, settledNames table relations, ?_, free, ?_⟩
    · rw [settledNames, List.forall₂_map_right_iff, List.forall₂_same]
      intro relation member
      apply settlesAt_settle
      intro taken
      exact disjoint taken (List.mem_append_right _ (List.mem_map_of_mem member))
    · intro isLink
      have some_relation : 0 < relations.length := by
        obtain ⟨relation, member, -⟩ := List.mem_map.mp isLink
        exact List.length_pos_of_mem member
      obtain ⟨-, taken⟩ | ⟨is, -⟩ := linkName_cases table
      · exact disjoint taken (List.mem_append_right _ isLink)
      · rw [if_pos some_relation, is] at link
        exact link (by simp) isLink
  · rintro ⟨members, free, settles, apart, noLink⟩
    have same : settledNames table relations = free := by
      clear apart noLink areRelations perm count names
      induction settles with
      | nil => rfl
      | cons here others ih =>
        rw [settledNames, List.map_cons, here.settle_eq]
        congr 1
    have absent : ∀ name ∈ free, name ∉ membersOf table.columns ∧ name ≠ asciiBytes "dbLink_" := by
      intro name member
      rw [← same] at member
      obtain ⟨relation, isRelation, rfl⟩ := List.mem_map.mp member
      obtain ⟨name, settlesAt⟩ := settles_of_forall₂ settles isRelation
      rw [settlesAt.settle_eq]
      obtain ⟨k, rfl, -, free⟩ := settlesAt
      exact ⟨free, (areRelations relation isRelation).settled_ne_dbLink_ k⟩
    rw [same]
    refine List.nodup_append'.mpr ⟨members, List.nodup_append'.mpr ⟨?_, apart, ?_⟩, ?_⟩
    · split <;> simp
    · intro link member isFree
      split at member
      · obtain rfl := List.mem_singleton.mp member
        obtain ⟨is, -⟩ | ⟨is, -⟩ := linkName_cases table
        · exact (absent _ isFree).2 is
        · rw [is] at isFree
          exact noLink isFree
      · cases member
    · intro name isMember other
      obtain link | isFree := List.mem_append.mp other
      · split at link
        · obtain rfl := List.mem_singleton.mp link
          exact linkName_notMem table isMember
        · cases link
      · exact (absent name isFree).1 isMember

end Rows

section Labels

variable {labels : List Text} {label : Text} {decl : EnumDecl} {i : ℕ}

/-- The enum that the file of an enum declares, whose values count from 0. -/
def EnumDecl.type (decl : EnumDecl) : EnumType where
  name := decl.name
  backingType := .int
  values := decl.enumerators.zipIdx.map fun pair => (pair.1, (pair.2 : ℤ))

/-- Each label is what the value at its place is written as, and what is read as that value. -/
def LabelsRight (labels : List Text) (type : EnumType) : Prop :=
  ∀ (i : ℕ) (label : Text), labels[i]? = some label →
    type.nameOf i = some label ∧
      ∃ name, type.values.find? (fun option => sameName option.1 label) = some (name, (i : ℤ))

/-- A label that is a name. -/
structure IsName (label : Text) : Prop where
  nonempty : label ≠ []
  letters : ∀ c ∈ label, isLetterOrDigit c = true ∨ c = byteOf '_'
  start : ∀ c ∈ label.head?, isDigit c = false
  free : isKeyword label = false

theorem map_valueChar (label : Text) :
    (label.map fun c => if isLetterOrDigit c || c == byteOf '_' then c else byteOf '_') = label ↔
      ∀ c ∈ label, isLetterOrDigit c = true ∨ c = byteOf '_' := by
  induction label with
  | nil => simp
  | cons c label ih =>
    rw [List.map_cons, List.forall_mem_cons, ← ih, List.cons_eq_cons]
    apply and_congr_left'
    by_cases underscore : c = byteOf '_'
    · simp [underscore]
    · simp [underscore, Ne.symm underscore]

theorem enumValueName_eq_self_iff : enumValueName label = label ↔ IsName label := by
  have longer {text : Text} (length : text.length = label.length) : byteOf '_' :: text ≠ label := by
    intro same
    have lengths := congrArg List.length same
    rw [List.length_cons] at lengths
    omega
  unfold enumValueName
  dsimp only
  constructor
  · intro same
    split at same
    · exact absurd same (longer (List.length_map _))
    · next plain =>
      have letters := (map_valueChar label).mp same
      rw [same, Bool.or_eq_true, not_or] at plain
      refine ⟨?_, letters, ?_, Bool.eq_false_iff.mpr plain.2⟩
      · rintro rfl
        exact plain.1 rfl
      · intro c first
        have notDigit := plain.1
        rw [Option.mem_def.mp first] at notDigit
        exact Bool.eq_false_iff.mpr notDigit
  · intro isName
    have same := (map_valueChar label).mpr isName.letters
    rw [same, if_neg]
    rw [isName.free, Bool.or_false]
    cases first : label.head? with
    | none => exact absurd (List.head?_eq_none_iff.mp first) isName.nonempty
    | some c =>
      have notDigit := isName.start c first
      simp [notDigit]

theorem getElem?_values : decl.type.values[i]? = decl.enumerators[i]?.map fun name => (name, (i : ℤ)) := by
  rw [EnumDecl.type, List.getElem?_map, List.getElem?_zipIdx, Option.map_map]
  simp [Function.comp_def]

theorem find?_values_iff {p : Text × ℤ → Bool} {name : Text} :
    decl.type.values.find? p = some (name, (i : ℤ)) ↔ decl.enumerators[i]? = some name ∧ p (name, (i : ℤ)) = true ∧
      ∀ j < i, ∀ other, decl.enumerators[j]? = some other → p (other, (j : ℤ)) = false := by
  have value (j : ℕ) (other : Text) :
      decl.type.values[j]? = some (other, (j : ℤ)) ↔ decl.enumerators[j]? = some other := by
    rw [getElem?_values]
    cases decl.enumerators[j]? <;> simp
  rw [List.find?_eq_some_iff_getElem]
  constructor
  · rintro ⟨holds, j, inside, here, before⟩
    have at_j := List.getElem?_eq_getElem inside
    rw [here, getElem?_values, Option.map_eq_some_iff] at at_j
    obtain ⟨found, is, pair⟩ := at_j
    obtain ⟨rfl, index⟩ := Prod.mk.inj pair
    obtain rfl : j = i := by exact_mod_cast index
    refine ⟨is, holds, fun k less other is' => ?_⟩
    have earlier := before k less
    rw [Bool.not_eq_true', (List.getElem?_eq_some_iff.mp ((value k other).mpr is')).2] at earlier
    exact earlier
  · rintro ⟨here, holds, before⟩
    obtain ⟨inside, is⟩ := List.getElem?_eq_some_iff.mp ((value i name).mpr here)
    refine ⟨holds, i, inside, is, fun j less => ?_⟩
    have shorter : j < decl.type.values.length := by omega
    have at_j := List.getElem?_eq_getElem shorter
    rw [getElem?_values, Option.map_eq_some_iff] at at_j
    obtain ⟨other, is', pair⟩ := at_j
    rw [← pair, before j less other is']
    rfl

theorem nameOf_iff : decl.type.nameOf i = some label ↔ decl.enumerators[i]? = some label := by
  rw [EnumType.nameOf, Option.map_eq_some_iff]
  constructor
  · rintro ⟨⟨name, value⟩, found, rfl⟩
    have same : value = i := by simpa using List.find?_some found
    rw [same] at found
    exact (find?_values_iff.mp found).1
  · intro here
    refine ⟨(label, i), find?_values_iff.mpr ⟨here, by simp, fun j less other _ => ?_⟩, rfl⟩
    simpa using less.ne

/-- The labels are written and read right exactly when they are names, and no two are the same without case and `_`. -/
theorem labelsRight_iff (enumerators : decl.enumerators = labels.map enumValueName) :
    LabelsRight labels decl.type ↔
      (∀ label ∈ labels, IsName label) ∧ labels.Pairwise fun a b => sameName a b = false := by
  constructor
  · intro right
    have names : ∀ label ∈ labels, enumValueName label = label := by
      intro label member
      obtain ⟨i, here⟩ := List.mem_iff_getElem?.mp member
      have written := nameOf_iff.mp (right i label here).1
      rw [enumerators, List.getElem?_map, here] at written
      exact Option.some.inj written
    have same : decl.enumerators = labels := by
      rw [enumerators, List.map_congr_left names, List.map_id']
    refine ⟨fun label member => enumValueName_eq_self_iff.mp (names label member), ?_⟩
    rw [List.pairwise_iff_getElem]
    intro i j inside inside' less
    obtain ⟨-, name, found⟩ := right j _ (List.getElem?_eq_getElem inside')
    exact (find?_values_iff.mp found).2.2 i less _ (by rw [same]; exact List.getElem?_eq_getElem inside)
  · rintro ⟨names, apart⟩ i label here
    have same : decl.enumerators = labels := by
      rw [enumerators, List.map_congr_left fun label member => enumValueName_eq_self_iff.mpr (names label member),
        List.map_id']
    refine ⟨nameOf_iff.mpr (by rw [same]; exact here), label, find?_values_iff.mpr ⟨by rw [same]; exact here,
      sameName_self label, fun j less other there => ?_⟩⟩
    rw [same] at there
    obtain ⟨inside, rfl⟩ := List.getElem?_eq_some_iff.mp here
    obtain ⟨inside', rfl⟩ := List.getElem?_eq_some_iff.mp there
    exact List.pairwise_iff_getElem.mp apart j i inside' inside less

theorem enumerators_nodup (enumerators : decl.enumerators = labels.map enumValueName)
    (right : LabelsRight labels decl.type) : decl.enumerators.Nodup := by
  obtain ⟨names, apart⟩ := (labelsRight_iff enumerators).mp right
  rw [enumerators, List.map_congr_left fun label member => enumValueName_eq_self_iff.mpr (names label member),
    List.map_id']
  apply apart.imp
  rintro a b different rfl
  rw [sameName_self] at different
  cases different

end Labels

section Right

variable {columns : List SchemaColumn} {enumLabels : List SchemaEnumLabel} {foreignKeys : List SchemaForeignKey}

def Code.typeName : Code → Option Text
  | .enum decl => some decl.name
  | .row decl => some decl.name
  | .database => none

/-- What the generated files are to declare. -/
structure NamesRight (g : EntityGenerator) (columns : List SchemaColumn) (enumLabels : List SchemaEnumLabel)
    (foreignKeys : List SchemaForeignKey) : Prop where
  rows : ∀ file ∈ g.generate columns enumLabels foreignKeys, ∀ decl, file.code = .row decl → decl.names.Nodup
  enumerators : ∀ file ∈ g.generate columns enumLabels foreignKeys, ∀ decl, file.code = .enum decl →
    decl.enumerators.Nodup
  types : ((g.generate columns enumLabels foreignKeys).filterMap fun file => file.code.typeName).Nodup
  files : ((g.generate columns enumLabels foreignKeys).map GeneratedFile.name).Nodup
  labels : ∀ e ∈ enumsOf enumLabels, LabelsRight e.labels (enumFile g e).type

def enumStems (enumLabels : List SchemaEnumLabel) : List Text := (enumsOf enumLabels).map fun e => fileStem e.name

def tableStems (columns : List SchemaColumn) : List Text :=
  (tablesOf {} columns).map fun table => fileStem (singular table.name)

/-- How a schema keeps the names apart. -/
structure NamesApart (columns : List SchemaColumn) (enumLabels : List SchemaEnumLabel)
    (foreignKeys : List SchemaForeignKey) : Prop where
  rows : ∀ (i : ℕ) (table : SchemaTable), (tablesOf {} columns)[i]? = some table →
    RowApart table (wanted foreignKeys (tablesOf {} columns) i)
  types : ((enumsOf enumLabels).map (fun e => spelled e.name) ++
    (tablesOf {} columns).map fun table => spelled (singular table.name)).Nodup
  files : (enumStems enumLabels).Nodup ∧ (tableStems columns).Nodup ∧
    ∀ stem ∈ tableStems columns, stem ∈ enumStems enumLabels →
      stem ++ asciiBytes "_table" ∉ enumStems enumLabels ∧ stem ++ asciiBytes "_table" ∉ tableStems columns
  labels : ∀ e ∈ enumsOf enumLabels,
    (∀ label ∈ e.labels, IsName label) ∧ e.labels.Pairwise fun a b => sameName a b = false

theorem relations_addColumn {tables : List SchemaTable} (bare : ∀ table ∈ tables, table.relations = [])
    (column : SchemaColumn) : ∀ table ∈ addColumn {} tables column, table.relations = [] := by
  have withNew (new : SchemaTable) (isBare : new.relations = []) (before : List SchemaTable)
      (others : ∀ table ∈ before, table.relations = []) : ∀ table ∈ before ++ [new], table.relations = [] := by
    intro table member
    obtain member | member := List.mem_append.mp member
    · exact others table member
    · rw [List.mem_singleton.mp member]
      exact isBare
  rw [addColumn, if_neg (by simp)]
  split
  · next last is =>
    split
    · apply withNew
      · exact bare last (List.mem_of_getLast? is)
      · exact fun table member => bare table (List.dropLast_subset _ member)
    · exact withNew _ rfl _ bare
  · exact withNew _ rfl [] (by simp)

theorem relations_tablesOf (columns : List SchemaColumn) :
    ∀ table ∈ tablesOf {} columns, table.relations = [] := by
  have run (columns : List SchemaColumn) (tables : List SchemaTable)
      (bare : ∀ table ∈ tables, table.relations = []) :
      ∀ table ∈ columns.foldl (addColumn {}) tables, table.relations = [] := by
    induction columns generalizing tables with
    | nil => exact bare
    | cons column columns ih => exact ih _ (relations_addColumn bare column)
  exact run columns [] (by simp)

variable (columns foreignKeys) in
/-- The tables with their relations. -/
theorem getElem?_relationsOf (i : ℕ) : (relationsOf {} (tablesOf {} columns) foreignKeys)[i]? =
    (tablesOf {} columns)[i]?.map fun table => table.settled (wanted foreignKeys (tablesOf {} columns) i) :=
  relationsOf_getElem? (relations_tablesOf columns) foreignKeys i

theorem map_name_relationsOf : (relationsOf {} (tablesOf {} columns) foreignKeys).map SchemaTable.name =
    (tablesOf {} columns).map SchemaTable.name := by
  apply List.ext_getElem?
  intro i
  rw [List.getElem?_map, List.getElem?_map, getElem?_relationsOf, Option.map_map]
  rfl

theorem rows_iff : (∀ file ∈ EntityGenerator.generate {} columns enumLabels foreignKeys, ∀ decl,
      file.code = .row decl → decl.names.Nodup) ↔
    ∀ (i : ℕ) (table : SchemaTable), (tablesOf {} columns)[i]? = some table →
      RowApart table (wanted foreignKeys (tablesOf {} columns) i) := by
  constructor
  · intro apart i table here
    have isTable : (relationsOf {} (tablesOf {} columns) foreignKeys)[i]? =
        some (table.settled (wanted foreignKeys (tablesOf {} columns) i)) := by
      rw [getElem?_relationsOf, here]
      rfl
    apply (rowNames_nodup_iff fun relation => isRelation_of_mem_wanted).mp
    refine apart ⟨fileNameOf (enumsOf enumLabels) (singular table.name) false, .row _⟩ ?_ _ rfl
    apply List.mem_append_left
    apply List.mem_append_right
    exact List.mem_map.mpr ⟨_, List.mem_of_getElem? isTable, rfl⟩
  · intro apart file member decl isRow
    obtain member | database := List.mem_append.mp member
    · obtain isEnum | isTable := List.mem_append.mp member
      · obtain ⟨e, -, rfl⟩ := List.mem_map.mp isEnum
        cases isRow
      · obtain ⟨table, inside, rfl⟩ := List.mem_map.mp isTable
        cases isRow
        obtain ⟨i, here⟩ := List.mem_iff_getElem?.mp inside
        rw [getElem?_relationsOf] at here
        obtain ⟨table, before, rfl⟩ := Option.map_eq_some_iff.mp here
        exact (rowNames_nodup_iff fun relation => isRelation_of_mem_wanted).mpr (apart i table before)
    · rw [List.mem_singleton.mp database] at isRow
      cases isRow

theorem types_iff : ((EntityGenerator.generate {} columns enumLabels foreignKeys).filterMap fun file =>
      file.code.typeName).Nodup ↔
    ((enumsOf enumLabels).map (fun e => spelled e.name) ++
      (tablesOf {} columns).map fun table => spelled (singular table.name)).Nodup := by
  have enums : (enumsOf enumLabels).map (fun e => spelled e.name) =
      (enumsOf enumLabels).map fun e => (enumFile {} e).name := by
    apply List.map_congr_left
    intro e _
    exact (pascalCase_eq e.name).symm
  have tables : (tablesOf {} columns).map (fun table => spelled (singular table.name)) =
      (relationsOf {} (tablesOf {} columns) foreignKeys).map fun table => (rowFile {} table).name := by
    have byName := congrArg (List.map fun name => spelled (singular name)) (@map_name_relationsOf columns foreignKeys)
    rw [List.map_map, List.map_map] at byName
    refine byName.symm.trans ?_
    apply List.map_congr_left
    intro table _
    exact (pascalCase_eq (singular table.name)).symm
  rw [EntityGenerator.generate, List.filterMap_append, List.filterMap_append, List.filterMap_map, List.filterMap_map,
    enums, tables]
  have others : [(⟨asciiBytes "database.sd", .database⟩ : GeneratedFile)].filterMap (fun file => file.code.typeName) =
      [] := rfl
  rw [others, List.append_nil, ← List.filterMap_eq_map, ← List.filterMap_eq_map]
  rfl

def entityFile (stem : Text) : Text := asciiBytes "entity/" ++ stem ++ asciiBytes ".sd"

theorem entityFile_injective : Function.Injective entityFile := by
  intro a b same
  exact List.append_cancel_left (List.append_cancel_right same)

theorem fileNameOf_enum (enums : List SchemaEnum) (name : Text) :
    fileNameOf enums name true = entityFile (fileStem name) := by
  rw [fileNameOf, if_neg (by simp)]
  rfl

theorem fileNameOf_row (enums : List SchemaEnum) (name : Text) : fileNameOf enums name false =
    entityFile (marked (enums.map fun e => fileStem e.name) (asciiBytes "_table") (fileStem name)) := by
  by_cases taken : fileStem name ∈ enums.map fun e => fileStem e.name
  · have exists_enum := List.mem_map.mp taken
    rw [fileNameOf, if_pos ⟨rfl, exists_enum⟩, marked, if_pos taken, entityFile,
      show asciiBytes "_table.sd" = asciiBytes "_table" ++ asciiBytes ".sd" by rfl, List.append_assoc,
      List.append_assoc, List.append_assoc]
  · rw [fileNameOf, if_neg fun both => taken (List.mem_map.mpr both.2), marked, if_neg taken, entityFile]

theorem names_generate : (EntityGenerator.generate {} columns enumLabels foreignKeys).map GeneratedFile.name =
    (enumStems enumLabels ++ (tableStems columns).map (marked (enumStems enumLabels) (asciiBytes "_table"))).map
      entityFile ++ [asciiBytes "database.sd"] := by
  have tables : (relationsOf {} (tablesOf {} columns) foreignKeys).map
        (fun table => fileNameOf (enumsOf enumLabels) (singular table.name) false) =
      (tablesOf {} columns).map fun table => fileNameOf (enumsOf enumLabels) (singular table.name) false := by
    have byName := congrArg (List.map fun name => fileNameOf (enumsOf enumLabels) (singular name) false)
      (@map_name_relationsOf columns foreignKeys)
    rwa [List.map_map, List.map_map] at byName
  have enums : (enumsOf enumLabels).map (fun e => fileNameOf (enumsOf enumLabels) e.name true) =
      (enumStems enumLabels).map entityFile := by
    rw [enumStems, List.map_map]
    apply List.map_congr_left
    intro e _
    exact fileNameOf_enum _ _
  have rows : (tablesOf {} columns).map (fun table => fileNameOf (enumsOf enumLabels) (singular table.name) false) =
      ((tableStems columns).map (marked (enumStems enumLabels) (asciiBytes "_table"))).map entityFile := by
    rw [tableStems, List.map_map, List.map_map]
    apply List.map_congr_left
    intro table _
    exact fileNameOf_row _ _
  rw [List.map_append, ← enums, ← rows, ← tables, EntityGenerator.generate, List.map_append, List.map_append,
    List.map_map, List.map_map]
  rfl

theorem files_iff : ((EntityGenerator.generate {} columns enumLabels foreignKeys).map GeneratedFile.name).Nodup ↔
    (enumStems enumLabels).Nodup ∧ (tableStems columns).Nodup ∧
      ∀ stem ∈ tableStems columns, stem ∈ enumStems enumLabels →
        stem ++ asciiBytes "_table" ∉ enumStems enumLabels ∧ stem ++ asciiBytes "_table" ∉ tableStems columns := by
  have apart : ∀ stems : List Text, asciiBytes "database.sd" ∉ stems.map entityFile := by
    intro stems member
    obtain ⟨stem, -, same⟩ := List.mem_map.mp member
    rw [entityFile, List.append_assoc] at same
    cases same
  rw [names_generate, ← nodup_marked_iff (by decide), List.nodup_append', List.nodup_map_iff entityFile_injective]
  constructor
  · exact fun all => all.1
  · intro stems
    exact ⟨stems, List.nodup_singleton _, fun name member database => apart _ (List.mem_singleton.mp database ▸ member)⟩

/-- The generated names are right exactly when the schema keeps them apart. -/
theorem names_right_iff (columns : List SchemaColumn) (enumLabels : List SchemaEnumLabel)
    (foreignKeys : List SchemaForeignKey) :
    NamesRight {} columns enumLabels foreignKeys ↔ NamesApart columns enumLabels foreignKeys := by
  constructor
  · intro right
    exact ⟨rows_iff.mp right.rows, types_iff.mp right.types, files_iff.mp right.files,
      fun e member => (labelsRight_iff rfl).mp (right.labels e member)⟩
  · intro apart
    have labels : ∀ e ∈ enumsOf enumLabels, LabelsRight e.labels (enumFile {} e).type :=
      fun e member => (labelsRight_iff rfl).mpr (apart.labels e member)
    refine ⟨rows_iff.mpr apart.rows, fun file member decl isEnum => ?_, types_iff.mpr apart.types,
      files_iff.mpr apart.files, labels⟩
    obtain member | database := List.mem_append.mp member
    · obtain inEnums | isTable := List.mem_append.mp member
      · obtain ⟨e, inside, rfl⟩ := List.mem_map.mp inEnums
        cases isEnum
        exact enumerators_nodup rfl (labels e inside)
      · obtain ⟨table, -, rfl⟩ := List.mem_map.mp isTable
        cases isEnum
    · rw [List.mem_singleton.mp database] at isEnum
      cases isEnum

/-- The label `in progress` has the enumerator `in_progress`, and is written as that. -/
theorem not_names_right : ¬∀ (columns : List SchemaColumn) (enumLabels : List SchemaEnumLabel)
    (foreignKeys : List SchemaForeignKey), NamesRight {} columns enumLabels foreignKeys := by
  intro all
  have right := (all [] [⟨asciiBytes "state", asciiBytes "in progress"⟩] []).labels
    ⟨asciiBytes "state", [asciiBytes "in progress"]⟩ (List.mem_singleton_self _)
  have isName := ((labelsRight_iff rfl).mp right).1 (asciiBytes "in progress") List.mem_cons_self
  exact absurd (isName.letters (byteOf ' ') (by decide)) (by decide)

end Right

end Saad.Postgres
