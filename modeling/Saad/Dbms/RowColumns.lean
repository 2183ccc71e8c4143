import Saad.Dbms.ReadsBack

/-! # The columns of a row that is read

A member is written to the column with its name in snake case, and read from the first column with the same name, where
case and `_` don't matter.
-/

namespace Saad.Dbms

section Reading

namespace Connection

/-- The name of the column of a member, if it was given with `dbms.Column`, and if the member is skipped. -/
def columnOf (member : StructMember) : Text × Bool × Bool :=
  match member.column with
  | some column =>
    if column.skip then ([], false, true)
    else if column.name ≠ [] then (column.name, true, false)
    else (member.name, false, false)
  | none => (member.name, false, false)

/-- If a member is read from the column. -/
def matchesColumn (name : Text) (named : Bool) (column : Text) : Bool :=
  (named && column == name) || (!named && sameName column name)

def columnIndex (names : List Text) (member : StructMember) : Option ℕ :=
  let (name, named, skip) := columnOf member
  if skip then none else names.findIdx? (matchesColumn name named)

/-- The column of each member of the struct. None is -1. -/
def columnsOf (names : List Text) (type : List StructMember) : List (Option ℕ) := type.map (columnIndex names)

/-- A member of a row with its value in memory. -/
abbrev Stored : Type := (member : StructMember) × member.type.Val

/-- `readRow` into the members of a row from the texts of the columns, and an error that is empty when there is none. -/
def readRow (names : List Text) (values : List (Option Text)) : List Stored → List (Option ℕ) → List Stored × Text
  | stored :: row, none :: columns =>
    let (row, err) := readRow names values row columns
    (stored :: row, err)
  | ⟨member, data⟩ :: row, some column :: columns =>
    let (data, err) := readValue (names.getD column []) member.type (values.getD column none) data
    if err ≠ [] then (⟨member, data⟩ :: row, err)
    else
      let (row, err) := readRow names values row columns
      (⟨member, data⟩ :: row, err)
  | row, _ => (row, [])

end Connection

end Reading

section Names

variable {a b text : Text} {before : Option (BitVec 8)}

/-- What counts of a name. -/
def folded (name : Text) : Text := (name.filter (· ≠ byteOf '_')).map lower

theorem folded_dropWhile (b : Text) : folded (b.dropWhile (· = byteOf '_')) = folded b := by
  induction b with
  | nil => rfl
  | cons c b ih =>
    by_cases underscore : c = byteOf '_'
    · rw [List.dropWhile_cons_of_pos (by simpa using underscore), ih, folded, folded,
        List.filter_cons_of_neg (by simpa using underscore)]
    · rw [List.dropWhile_cons_of_neg (by simpa using underscore)]

theorem folded_cons {c : BitVec 8} (other : c ≠ byteOf '_') : folded (c :: text) = lower c :: folded text := by
  rw [folded, List.filter_cons_of_pos (by simpa using other), List.map_cons, folded]

theorem folded_underscore : folded (byteOf '_' :: text) = folded text := by
  rw [folded, List.filter_cons_of_neg (by simp), folded]

/-- The first character that is left isn't an underscore. -/
theorem ne_underscore_of_dropWhile {c : BitVec 8} {rest : Text} (is : b.dropWhile (· = byteOf '_') = c :: rest) :
    c ≠ byteOf '_' := by
  have first := List.head?_dropWhile_not (fun c => decide (c = byteOf '_')) b
  rw [is] at first
  simpa using first

theorem sameName_iff : sameName a b = true ↔ folded a = folded b := by
  induction a generalizing b with
  | nil =>
    rw [sameName, decide_eq_true_eq, ← folded_dropWhile b]
    constructor
    · intro empty
      rw [empty]
    · intro same
      cases is : b.dropWhile (· = byteOf '_') with
      | nil => rfl
      | cons c rest =>
        rw [is, folded_cons (ne_underscore_of_dropWhile is)] at same
        cases same
  | cons c a ih =>
    rw [sameName]
    by_cases underscore : c = byteOf '_'
    · rw [if_pos underscore, underscore, folded_underscore, ih]
    · rw [if_neg underscore, folded_cons underscore, ← folded_dropWhile b]
      cases is : b.dropWhile (· = byteOf '_') with
      | nil => simp [folded]
      | cons d rest =>
        rw [folded_cons (ne_underscore_of_dropWhile is)]
        dsimp only
        by_cases same : lower c = lower d
        · rw [if_neg (not_not.mpr same), ih, same, List.cons_inj_right]
        · rw [if_pos same]
          simp [same]

theorem folded_append (a b : Text) : folded (a ++ b) = folded a ++ folded b := by
  rw [folded, List.filter_append, List.map_append, folded, folded]

theorem lower_upper {c : BitVec 8} (upper : isUpper c = true) :
    lower (c + 32) = lower c ∧ c ≠ byteOf '_' ∧ c + 32 ≠ byteOf '_' := by
  revert c
  decide

theorem folded_snakeCase : folded (snakeCase before text) = folded text := by
  induction text generalizing before with
  | nil => rfl
  | cons c rest ih =>
    rw [snakeCase, folded_append, ih]
    by_cases upper : isUpper c = true
    · obtain ⟨same, other, raised⟩ := lower_upper upper
      rw [if_pos upper, folded_cons other]
      split
      · rw [folded_underscore, folded_cons raised, same]
        rfl
      · rw [folded_cons raised, same]
        rfl
    · rw [if_neg upper, ← folded_append, List.singleton_append]

theorem folded_reverse (text : Text) : folded text.reverse = (folded text).reverse := by
  rw [folded, List.filter_reverse, List.map_reverse, folded]

theorem folded_withoutTrailing (text : Text) : folded (withoutTrailing text) = folded text := by
  fun_induction withoutTrailing text with
  | case1 d rest ih => rw [ih, folded_underscore]
  | case2 => rfl
  | case3 => rfl

/-- A column has the name of its member, where case and `_` don't matter. -/
theorem sameName_columnName (member : Text) : sameName (columnName member) member = true := by
  rw [sameName_iff, columnName, folded_snakeCase, folded_reverse, folded_withoutTrailing, folded_reverse,
    List.reverse_reverse]

end Names

section Indexes

variable {own : Text} {p : Text → Bool}

/-- The first column that matches is the own one exactly when none in front of it does. -/
theorem findIdx?_eq_idxOf?_iff {names : List Text} (member : own ∈ names) (matchesOwn : p own = true) :
    names.findIdx? p = names.idxOf? own ↔ ∀ other ∈ names.takeWhile (· ≠ own), p other = false := by
  induction names with
  | nil => cases member
  | cons name names ih =>
    rw [List.findIdx?_cons, List.idxOf?_cons]
    by_cases same : name = own
    · rw [same, if_pos matchesOwn, if_pos (by simp), List.takeWhile_cons_of_neg (by simp)]
      simp
    · have behind := ih ((List.mem_cons.mp member).resolve_left (Ne.symm same))
      have other : ¬(name == own) = true := by simpa using same
      rw [if_neg other, List.takeWhile_cons_of_pos (by simpa using same), List.forall_mem_cons, ← behind]
      cases here : p name with
      | true =>
        rw [if_pos rfl]
        constructor
        · intro equal
          cases is : names.idxOf? own with
          | none =>
            rw [is] at equal
            cases equal
          | some n =>
            rw [is] at equal
            cases equal
        · rintro ⟨no, -⟩
          cases no
      | false =>
        rw [if_neg (by simp), (Option.map_injective fun a b => Nat.succ.inj).eq_iff]
        simp

end Indexes

section Right

variable {names : List Text} {type : List StructMember} {member : StructMember} {generated defaulted : List Text}
  {key : Text}

/-- The index of the column that a member is written to. None is a member that isn't written. -/
def writtenTo (names generated defaulted : List Text) (key : Text) (member : StructMember) : Option ℕ :=
  ((columnOf generated defaulted key member).map TableColumn.name).bind names.idxOf?

/-- What is said about the column of a member. -/
def StructMember.said (member : StructMember) : Column := member.column.getD {}

/-- No column in front of the own one of a member has the same name, where case and `_` don't matter. A member with a
name of its own is read from just that, and a hidden member has no column. -/
def Undisturbed (names : List Text) (member : StructMember) : Prop :=
  member.said.skip = true ∨
    if member.isHidden then
      if member.said.name ≠ [] then member.said.name ∉ names else ∀ other ∈ names, sameName other member.name = false
    else
      member.said.name ≠ [] ∨
        ∀ other ∈ names.takeWhile (· ≠ columnName member.name), sameName other member.name = false

instance : Decidable (Undisturbed names member) := by
  unfold Undisturbed
  infer_instance

theorem matchesColumn_named (name : Text) : Connection.matchesColumn name true = (· == name) := by
  funext column
  simp [Connection.matchesColumn]

theorem matchesColumn_unnamed (name : Text) : Connection.matchesColumn name false = (sameName · name) := by
  funext column
  simp [Connection.matchesColumn]

theorem columnIndex_skipped (skip : member.said.skip = true) : Connection.columnIndex names member = none := by
  rw [StructMember.said] at skip
  unfold Connection.columnIndex Connection.columnOf
  cases column : member.column with
  | none =>
    rw [column] at skip
    cases skip
  | some column' =>
    rw [column] at skip
    have skips : column'.skip = true := skip
    simp [skips]

theorem columnIndex_named (skip : member.said.skip = false) (named : member.said.name ≠ []) :
    Connection.columnIndex names member = names.idxOf? member.said.name := by
  rw [StructMember.said] at skip named ⊢
  unfold Connection.columnIndex Connection.columnOf
  cases column : member.column with
  | none =>
    rw [column] at named
    exact absurd rfl named
  | some column' =>
    rw [column] at skip named
    have skips : column'.skip = false := skip
    have names' : column'.name ≠ [] := named
    simp [skips, names', matchesColumn_named, List.idxOf?]

theorem columnIndex_unnamed (skip : member.said.skip = false) (unnamed : member.said.name = []) :
    Connection.columnIndex names member = names.findIdx? fun column => sameName column member.name := by
  rw [StructMember.said] at skip unnamed
  unfold Connection.columnIndex Connection.columnOf
  cases column : member.column with
  | none => simp [matchesColumn_unnamed]
  | some column' =>
    rw [column] at skip unnamed
    have skips : column'.skip = false := skip
    have names' : column'.name = [] := unnamed
    simp [skips, names', matchesColumn_unnamed]

theorem columnOf_eq : (columnOf generated defaulted key member).map TableColumn.name =
    if member.said.skip = true ∨ member.isHidden = true then none
    else some (if member.said.name = [] then columnName member.name else member.said.name) := by
  unfold columnOf
  dsimp only
  rw [StructMember.said]
  split_ifs <;> rfl

theorem writtenTo_eq : writtenTo names generated defaulted key member =
    if member.said.skip = true ∨ member.isHidden = true then none
    else names.idxOf? (if member.said.name = [] then columnName member.name else member.said.name) := by
  rw [writtenTo, columnOf_eq]
  split_ifs <;> rfl

/-- A member is read from the column that it is written to exactly when it is undisturbed. -/
theorem columnIndex_iff
    (present : ∀ column, columnOf generated defaulted key member = some column → column.name ∈ names) :
    Connection.columnIndex names member = writtenTo names generated defaulted key member ↔
      Undisturbed names member := by
  have named := @columnOf_eq member generated defaulted key
  rw [writtenTo_eq, Undisturbed]
  cases skip : member.said.skip with
  | true =>
    rw [if_pos (.inl rfl), columnIndex_skipped skip]
    simp
  | false =>
    rw [skip] at named
    cases hidden : member.isHidden with
    | true =>
      rw [if_pos (.inr rfl), if_pos rfl, or_iff_right (by simp)]
      by_cases unnamed : member.said.name = []
      · rw [columnIndex_unnamed skip unnamed, if_neg (not_not.mpr unnamed), List.findIdx?_eq_none_iff]
      · rw [columnIndex_named skip unnamed, if_pos unnamed, List.idxOf?_eq_none_iff]
    | false =>
      rw [hidden] at named
      simp only [Bool.false_eq_true, or_self, if_false, false_or] at named ⊢
      by_cases unnamed : member.said.name = []
      · rw [if_pos unnamed, columnIndex_unnamed skip unnamed, or_iff_right (not_not.mpr unnamed)]
        refine @findIdx?_eq_idxOf?_iff _ (sameName · member.name) names ?_ (sameName_columnName member.name)
        rw [if_pos unnamed] at named
        obtain ⟨column, is, same⟩ := Option.map_eq_some_iff.mp named
        rw [← same]
        exact present column is
      · rw [if_neg unnamed, columnIndex_named skip unnamed]
        simp [unnamed]

/-- A member with the value of a column, or as it was without one. -/
def given (names : List Text) (values : List (Option Text)) (column : Option ℕ) (stored : Connection.Stored) :
    Connection.Stored :=
  match column with
  | none => stored
  | some c => ⟨stored.1, (readValue (names.getD c []) stored.1.type (values.getD c none) stored.2).1⟩

/-- A row that is read has each member with the value of its column. -/
theorem readRow_eq {names : List Text} {values : List (Option Text)} {row result : List Connection.Stored}
    {columns : StructMember → Option ℕ}
    (reads : Connection.readRow names values row (row.map fun stored => columns stored.1) = (result, [])) :
    result = row.map fun stored => given names values (columns stored.1) stored := by
  induction row generalizing result with
  | nil =>
    cases reads
    rfl
  | cons stored row ih =>
    rw [List.map_cons] at reads ⊢
    cases behind : Connection.readRow names values row (row.map fun stored => columns stored.1) with
    | mk others err =>
      cases column : columns stored.1 with
      | none =>
        rw [column, Connection.readRow, behind] at reads
        obtain ⟨rfl, rfl⟩ := Prod.mk.inj reads
        rw [ih behind]
        rfl
      | some c =>
        rw [column, Connection.readRow, behind] at reads
        dsimp only at reads
        split at reads
        · next failed => exact absurd (congrArg Prod.snd reads) failed
        · obtain ⟨rfl, rfl⟩ := Prod.mk.inj reads
          rw [ih behind]
          rfl

/-- The members of a row, and a table with their columns. -/
def versionMembers : List StructMember :=
  [{ name := asciiBytes "maxAge", type := .string }, { name := asciiBytes "maxage", type := .string }]

end Right

end Saad.Dbms
