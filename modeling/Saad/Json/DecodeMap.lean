import Saad.Collections.MapRuns
import Saad.Json.Grammar
import Saad.Std.Int32

/-! # Reading an object into a map

`assignMap` makes the entries and the table of slots of a `Map<string, V>` itself, through the layout of
the types. The memory that it takes is counted in an `int`, so that the entries must fit into one; a write
behind the memory, like a loop that never ends, is `none`. How a value is read is any function, which gets
the path for its errors. Only the keys of the map are known to be strings.
-/

namespace Saad.Json

open General

/-- FNV-1a -/
def hashString (s : Text) : UInt64 :=
  s.foldl (fun h c => (h ^^^ UInt64.ofNat c.toNat) * 1099511628211) 1469598103934665603

/-- A string as a key, with the hash that the prelude gives it. -/
structure StringKey where
  text : Text
deriving DecidableEq

instance : Hashable StringKey := ⟨fun key => hashString key.text⟩

section Errors

variable {F : Type}

def kindName : Value F → Text
  | .null => asciiBytes "null"
  | .bool _ => asciiBytes "a bool"
  | .number _ _ => asciiBytes "a number"
  | .string _ => asciiBytes "a string"
  | .array _ => asciiBytes "an array"
  | .object _ => asciiBytes "an object"

def mismatch (path wanted : Text) (v : Value F) : Text :=
  if path.length = 0 then asciiBytes "Expected " ++ wanted ++ asciiBytes ", but got " ++ kindName v
  else path ++ asciiBytes ": Expected " ++ wanted ++ asciiBytes ", but got " ++ kindName v

def memberPath (path name : Text) : Text :=
  if path.length = 0 then name else path ++ byteOf '.' :: name

end Errors

/-- The entries of a map: a string of 16 bytes, a value and a hash of 8 bytes, in an `int` of bytes. -/
structure EntryType where
  size : ℕ
  holds : 24 ≤ size
  fits : size < 2 ^ 31

section Assign

variable {F V : Type} (assign : Value F → Text → Except Text V) (path : Text) (type : EntryType)

/-- The bytes that are taken for an amount of memory. -/
def allocated (size : ℤ) : ℤ := if size ≤ 0 then 1 else size

/-- The loop over the members, which writes the entries one behind the other into the memory. -/
def assignEntries (room : ℤ) :
    List (Entry StringKey V) → List (Text × Value F) → Option (Except Text (List (Entry StringKey V)))
  | entries, [] => some (.ok entries)
  | entries, (key, value) :: fields =>
    if room < ((entries.length + 1) * type.size : ℕ) then none
    else
      match assign value (memberPath path key) with
      | .error err => some (.error err)
      | .ok value => assignEntries room (entries ++ [⟨⟨key⟩, value, hashString key⟩]) fields

/-- A power of two number of slots, at most 70% full. There are less than 2^31 members here. -/
def slotCapacity (count : ℕ) : Option ℕ :=
  loopUntil (fun capacity => if count * 10 > capacity * 7 then none else some capacity) (· * 2) 64 8

/-- A turn of the loop that writes the slots. -/
def assignSlot (entries : List (Entry StringKey V)) (capacity : ℕ) (slots : List ℕ) (index : ℕ) :
    Option (List ℕ) := do
  let mask := capacity - 1
  let entry ← entries[index]?
  let slot ← loopUntil (fun slot => if slots.getD slot 0 ≠ 0 then none else some slot)
    (fun slot => (slot + 1) &&& mask) capacity (entry.hash.toNat &&& mask)
  return slots.set slot (index + 1)

/-- The slots for the entries: their memory, and all turns of the loop. -/
def assignSlots (entries : List (Entry StringKey V)) (count capacity : ℕ) : Option (List ℕ) :=
  if allocated (int32 (int32 capacity * 8)) < (capacity * 8 : ℕ) then none
  else (List.range count).foldlM (assignSlot entries capacity) (List.replicate capacity 0)

/-- A `Map<string, V>` from an object: the error, which is empty when it worked, and the map. -/
def assignMap (v : Value F) (map : Map StringKey V) : Option (Text × Map StringKey V) :=
  match v with
  | .object fields => do
    let count := fields.length
    let room := allocated (int32 (int32 (int32 count + 1) * type.size))
    match ← assignEntries assign path type room [] fields with
    | .error err => return (err, map)
    | .ok entries =>
      let slots ← (slotCapacity count).bind (assignSlots entries count)
      return ([], { map with entries := entries, slots := slots, count := count })
  | v => return (mismatch path (asciiBytes "an object") v, map)

end Assign

section Memory

variable {F V : Type} {assign : Value F → Text → Except Text V} {path : Text} {type : EntryType} {room : ℤ}
  {entries : List (Entry StringKey V)} {fields : List (Text × Value F)}

/-- The entry of a member. -/
def Reads (assign : Value F → Text → Except Text V) (path : Text) (field : Text × Value F)
    (entry : Entry StringKey V) : Prop :=
  entry.key = ⟨field.1⟩ ∧ entry.hash = hashString field.1 ∧
    assign field.2 (memberPath path field.1) = .ok entry.value

/-- All members have values of the type. -/
def Readable (assign : Value F → Text → Except Text V) (path : Text) (fields : List (Text × Value F)) : Prop :=
  ∀ field ∈ fields, ∃ value, assign field.2 (memberPath path field.1) = .ok value

theorem assignEntries_of_room (readable : Readable assign path fields)
    (fits : ((entries.length + fields.length) * type.size : ℕ) ≤ room) :
    ∃ more, assignEntries assign path type room entries fields = some (.ok (entries ++ more)) ∧
      List.Forall₂ (Reads assign path) fields more := by
  induction fields generalizing entries with
  | nil => exact ⟨[], by rw [assignEntries, List.append_nil], .nil⟩
  | cons field fields ih =>
    obtain ⟨key, v⟩ := field
    obtain ⟨value, reads⟩ := readable _ List.mem_cons_self
    have inside : ((entries.length + 1) * type.size : ℕ) ≤ room := by
      apply le_trans _ fits
      exact Int.ofNat_le.mpr (Nat.mul_le_mul_right _ (by rw [List.length_cons]; omega))
    let entry : Entry StringKey V := ⟨⟨key⟩, value, hashString key⟩
    obtain ⟨more, rest, all⟩ := @ih (entries ++ [entry]) (fun field member => readable field (List.mem_cons_of_mem _ member))
      (by
        rw [List.length_append, List.length_singleton, Nat.add_assoc, Nat.add_comm 1]
        exact fits)
    refine ⟨entry :: more, ?_, .cons ⟨rfl, rfl, reads⟩ all⟩
    rw [assignEntries, if_neg (not_lt.mpr inside), reads]
    simp only []
    rw [rest, List.append_assoc, List.singleton_append]

/-- If the memory is too small an entry is written behind it. -/
theorem assignEntries_eq_none (readable : Readable assign path fields) (some_ : fields ≠ [])
    (small : room < ((entries.length + fields.length) * type.size : ℕ)) :
    assignEntries assign path type room entries fields = none := by
  induction fields generalizing entries with
  | nil => exact absurd rfl some_
  | cons field fields ih =>
    obtain ⟨key, v⟩ := field
    obtain ⟨value, reads⟩ := readable _ List.mem_cons_self
    rw [assignEntries]
    by_cases outside : room < ((entries.length + 1) * type.size : ℕ)
    · rw [if_pos outside]
    · rw [if_neg outside, reads]
      simp only []
      apply ih (fun field member => readable field (List.mem_cons_of_mem _ member))
      · rintro rfl
        exact outside small
      · rw [List.length_append, List.length_singleton, Nat.add_assoc, Nat.add_comm 1]
        exact small

/-- The memory for the entries of so many members. -/
def entriesRoom (type : EntryType) (count : ℕ) : ℤ := allocated (int32 (int32 (int32 count + 1) * type.size))

theorem entriesRoom_eq (type : EntryType) (count : ℕ) :
    entriesRoom type count = allocated (int32 ((count + 1) * type.size : ℕ)) := by
  rw [entriesRoom, int32_add_int32, int32_mul_int32]
  push_cast
  rfl

theorem entriesRoom_of_fits {count : ℕ} (fits : (count + 1) * type.size < 2 ^ 31) :
    (count * type.size : ℕ) ≤ entriesRoom type count := by
  have le : count * type.size ≤ (count + 1) * type.size := Nat.mul_le_mul_right _ (by omega)
  rw [entriesRoom_eq, int32_of_fits (by omega) (by omega), allocated]
  split <;> omega

theorem entriesRoom_of_big {count : ℕ} (big : 2 ^ 31 ≤ (count + 1) * type.size) :
    0 < count ∧ entriesRoom type count < (count * type.size : ℕ) := by
  have fits := type.fits
  have holds := type.holds
  have pos : 0 < count := by
    rcases Nat.eq_zero_or_pos count with rfl | pos
    · omega
    · exact pos
  have least : type.size ≤ count * type.size := Nat.le_mul_of_pos_left _ pos
  have sum : (count + 1) * type.size = count * type.size + type.size := Nat.succ_mul count _
  have le := @int32_le_of_big ((count + 1) * type.size : ℕ) (by omega)
  rw [entriesRoom_eq, allocated]
  exact ⟨pos, by split <;> omega⟩

end Memory

section Slots

theorem slotCapacity_iterate (turn : ℕ) : (fun capacity : ℕ => capacity * 2)^[turn] 8 = 2 ^ (turn + 3) := by
  induction turn with
  | zero => rfl
  | succ turn ih => rw [Function.iterate_succ_apply', ih, ← pow_succ]

theorem slotCapacity_eq_some {count : ℕ} (few : count < 2 ^ 31) :
    ∃ capacity exponent, slotCapacity count = some capacity ∧ capacity = 2 ^ exponent ∧
      count * 10 ≤ capacity * 7 ∧ (capacity = 8 ∨ capacity * 7 < count * 20) := by
  cases runs : slotCapacity count with
  | none =>
    have stays := loopUntil_eq_none_iff.mp runs 40 (by omega)
    rw [slotCapacity_iterate, if_neg (by omega)] at stays
    cases stays
  | some capacity =>
    obtain ⟨turn, lt, at_turn, before⟩ := exists_turn_of_loopUntil_eq_some runs
    rw [slotCapacity_iterate] at at_turn
    split at at_turn
    · cases at_turn
    · next enough =>
      obtain rfl := Option.some.inj at_turn
      refine ⟨_, turn + 3, rfl, rfl, by omega, ?_⟩
      cases turn with
      | zero => exact .inl rfl
      | succ turn =>
        have stays := before turn (by omega)
        rw [slotCapacity_iterate] at stays
        split at stays
        · next few => exact .inr (by rw [Nat.add_right_comm, pow_succ]; omega)
        · cases stays

theorem slotsRoom_of_fits {capacity : ℕ} (fits : capacity * 8 < 2 ^ 31) :
    ¬allocated (int32 (int32 capacity * 8)) < (capacity * 8 : ℕ) := by
  rw [int32_mul_int32, int32_of_fits (by omega) (by omega), allocated]
  split <;> omega

variable {V : Type}

/-- The slots are written like `placeEntry` writes them. -/
theorem assignSlot_eq (m : Map StringKey V) (index : ℕ) :
    assignSlot m.entries m.slots.length m.slots index = (m.placeEntry index).map (·.slots) := by
  have commute : ∀ found : Option ℕ, (found.bind fun slot => some (m.slots.set slot (index + 1))) =
      (found.bind fun slot => some { m with slots := m.slots.set slot (index + 1) }).map (·.slots) := by
    intro found
    cases found <;> rfl
  rw [assignSlot, Map.placeEntry]
  cases at_index : m.entries[index]? with
  | none => rfl
  | some entry => exact commute _

theorem foldlM_assignSlot (m : Map StringKey V) (indices : List ℕ) :
    indices.foldlM (assignSlot m.entries m.slots.length) m.slots =
      (indices.foldlM Map.placeEntry m).map (·.slots) := by
  induction indices generalizing m with
  | nil => rfl
  | cons index indices ih =>
    rw [List.foldlM_cons, List.foldlM_cons, assignSlot_eq]
    cases places : m.placeEntry index with
    | none => rfl
    | some next =>
      have same : next.entries = m.entries ∧ next.slots.length = m.slots.length := by
        rw [Map.placeEntry] at places
        obtain ⟨entry, -, places⟩ := Option.bind_eq_some_iff.mp places
        obtain ⟨slot, -, places⟩ := Option.bind_eq_some_iff.mp places
        obtain rfl := Option.some.inj places
        exact ⟨rfl, List.length_set⟩
      simp only [bind, Option.bind_some, Option.map_some]
      rw [← same.1, ← same.2]
      exact ih next

end Slots

section Filled

variable {V : Type} [Inhabited V] {m : Map StringKey V}

/-- Setting all entries of a map, one after the other. -/
def setsOf (entries : List (Entry StringKey V)) : List (MapOp StringKey V) :=
  entries.map fun entry => .set entry.key entry.value

/-- After the same operations both maps behave like the same list, or the operations end on neither. -/
def SameAfter (m other : Map StringKey V) (ops : List (MapOp StringKey V)) : Prop :=
  (∃ last last' list, m.runAll ops = some last ∧ other.runAll ops = some last' ∧ last.BehavesLike list ∧
    last'.BehavesLike list) ∨ m.runAll ops = none ∧ other.runAll ops = none

theorem onList_setsOf {entries : List (Entry StringKey V)} {list : AssocList StringKey V}
    (apart : ∀ entry ∈ entries, entry.key ∉ list.keys)
    (distinct : entries.Pairwise fun entry later => (entry.key == later.key) = false) :
    (setsOf entries).foldl MapOp.onList list = list ++ entries.map fun entry => (entry.key, entry.value) := by
  induction entries generalizing list with
  | nil => exact (List.append_nil list).symm
  | cons entry entries ih =>
    obtain ⟨first, rest⟩ := List.pairwise_cons.mp distinct
    have inserted : list.insert entry.key entry.value = list ++ [(entry.key, entry.value)] :=
      AssocList.insert_of_notMem _ (apart entry List.mem_cons_self)
    have later_apart : ∀ later ∈ entries,
        later.key ∉ AssocList.keys (list ++ [(entry.key, entry.value)]) := by
      intro later member inside
      rw [AssocList.keys, List.map_append, List.mem_append] at inside
      obtain inside | inside := inside
      · exact apart later (List.mem_cons_of_mem _ member) inside
      · have same : later.key = entry.key := List.mem_singleton.mp inside
        have differ := first later member
        rw [same, beq_self_eq_true] at differ
        cases differ
    rw [setsOf, List.map_cons, List.foldl_cons, MapOp.onList, inserted]
    have rest_eq := ih later_apart rest
    rw [setsOf] at rest_eq
    rw [rest_eq, List.append_assoc]
    rfl

/-- A map in order behaves like one that its entries were set in. -/
theorem sameAfter_filled (valid : m.WellFormed) :
    ∃ filled, Map.runAll {} (setsOf m.entries) = some filled ∧ ∀ ops, SameAfter m filled ops := by
  have set_ends : ∀ op ∈ setsOf m.entries, op.Ends := by
    intro op member
    obtain ⟨entry, -, rfl⟩ := List.mem_map.mp member
    trivial
  have empty : Map.WellFormed ({} : Map StringKey V) := .empty
  obtain ⟨filled, fills, filled_valid, filled_eq⟩ := empty.runAll (setsOf m.entries) set_ends
  have start : ({} : Map StringKey V).toAssoc = [] := rfl
  have same : filled.toAssoc = m.toAssoc := by
    rw [filled_eq, start, onList_setsOf (fun _ _ inside => List.not_mem_nil inside) valid.distinct]
    rfl
  refine ⟨filled, fills, fun ops => ?_⟩
  by_cases ends : ∀ op ∈ ops, op.Ends
  · obtain ⟨last, runs, last_valid, changed⟩ := valid.runAll ops ends
    obtain ⟨last', runs', last_valid', changed'⟩ := filled_valid.runAll ops ends
    have like := last_valid.behavesLike
    have like' := last_valid'.behavesLike
    rw [changed] at like
    rw [changed', same] at like'
    exact .inl ⟨last, last', _, runs, runs', like, like'⟩
  · have never : ∀ map : Map StringKey V, map.runAll ops = none := by
      intro map
      cases runs : map.runAll ops with
      | none => rfl
      | some last => exact absurd (Map.ends_of_runAll runs) ends
    exact .inr ⟨never m, never filled⟩

end Filled

section Right

variable {F V : Type} [Inhabited V]

/-- The map that an object is read into is in order, has an entry for each member, in their order, and
behaves from then on like a map that the members were set in. -/
def AssignsRight (assign : Value F → Text → Except Text V) (path : Text) (type : EntryType)
    (fields : List (Text × Value F)) (map : Map StringKey V) : Prop :=
  ∃ built, assignMap assign path type (.object fields) map = some ([], built) ∧ built.WellFormed ∧
    List.Forall₂ (Reads assign path) fields built.entries ∧
    ∃ filled, Map.runAll {} (setsOf built.entries) = some filled ∧ ∀ ops, SameAfter built filled ops

variable {assign : Value F → Text → Except Text V} {path : Text} {type : EntryType}
  {fields : List (Text × Value F)} {map : Map StringKey V} {entries : List (Entry StringKey V)}

omit [Inhabited V] in
/-- The entries that are read, with slots in order for them, are a map in order. -/
theorem wellFormed_of_reads (all : List.Forall₂ (Reads assign path) fields entries)
    (distinct : (AssocList.keys fields).Nodup) {slots : List ℕ}
    (room : entries.length * 10 ≤ slots.length * 7)
    (placed : (⟨entries, slots, fields.length⟩ : Map StringKey V).Placed entries.length) :
    (⟨entries, slots, fields.length⟩ : Map StringKey V).WellFormed := by
  have keys : entries.map (fun entry => entry.key.text) = AssocList.keys fields := by
    clear room placed distinct
    induction all with
    | nil => rfl
    | cons reads all ih =>
      rw [List.map_cons, ih, reads.1]
      rfl
  refine ⟨all.length_eq, ?_, ?_, room, .inr placed⟩
  · intro entry member
    obtain ⟨i, inside, rfl⟩ := List.getElem_of_mem member
    have reads := List.forall₂_iff_get.mp all
    have at_i := reads.2 i (by rw [reads.1]; exact inside) inside
    exact at_i.2.1.trans (congrArg hash at_i.1).symm
  · rw [← keys, List.Nodup, List.pairwise_map] at distinct
    exact distinct.imp fun apart => beq_eq_false_iff_ne.mpr fun same => apart (congrArg StringKey.text same)

theorem not_assignsRight_of_big (readable : Readable assign path fields)
    (big : 2 ^ 31 ≤ (fields.length + 1) * type.size) : ¬AssignsRight assign path type fields map := by
  rintro ⟨built, assigns, -⟩
  obtain ⟨pos, small⟩ := entriesRoom_of_big big
  have none_ : assignEntries assign path type (entriesRoom type fields.length) [] fields = none :=
    assignEntries_eq_none readable (List.length_pos_iff.mp pos) (by simpa using small)
  rw [assignMap] at assigns
  rw [entriesRoom] at none_
  simp only [none_, bind, Option.bind_none] at assigns
  cases assigns

/-- Numbers as values. -/
def assignNumber (v : Value ℕ) (path : Text) : Except Text ℕ :=
  match v with
  | .number n _ => .ok n
  | v => .error (mismatch path (asciiBytes "a number") v)

def ages : List (Text × Value ℕ) := [(asciiBytes "alice", newNumber 31), (asciiBytes "bob", newNumber 27)]

end Right

end Saad.Json
