import Mathlib.Tactic.Ring
import Saad.General.AssocList
import Saad.General.Probing

/-! # The prelude's hash table

`Map` of collections.sd: the entries in the order they were added, and an open addressing table of
their indices. Lists are Lean's lists, as their memory and capacity are only seen by the allocator,
which is taken to have the memory it is asked for. An operation is `none` when one of its loops
never ends. What the source writes as an index of -1 is `none` inside of that.
-/

namespace Saad

open General

structure Entry (K V : Type) where
  key : K
  value : V
  hash : UInt64
deriving DecidableEq, Repr

structure Map (K V : Type) where
  /-- In the order they were added. -/
  entries : List (Entry K V) := []
  /-- Open addressing table. 0 is an empty slot, otherwise the index of an entry + 1. -/
  slots : List ℕ := []
  count : ℕ := 0
deriving DecidableEq, Repr

/-- Mixes the bits of a number. -/
def hashU64 (value : UInt64) : UInt64 :=
  let x := value
  let x := x ^^^ (x >>> 33)
  let x := x * 1099511628211
  let x := x ^^^ (x >>> 29)
  let x := x * 6364136223846793005
  x ^^^ (x >>> 32)

namespace Map

variable {K V : Type}

/-- The slots are a power of two, so their number less 1 masks the hash. -/
def mask (m : Map K V) : ℕ := m.slots.length - 1

def slotAt (m : Map K V) (slot : ℕ) : ℕ := m.slots.getD slot 0

section Slots

/-- The loops over the slots come back to where they began after as many turns as there are slots,
so one that has not ended by then never does. -/
def probe {ρ : Type} (m : Map K V) (hash : UInt64) (exit : ℕ → Option ρ) : Option ρ :=
  loopUntil exit (fun slot => (slot + 1) &&& m.mask) m.slots.length (hash.toNat &&& m.mask)

def placeEntry (m : Map K V) (index : ℕ) : Option (Map K V) := do
  let entry ← m.entries[index]?
  let slot ← m.probe entry.hash fun slot => if m.slotAt slot ≠ 0 then none else some slot
  return { m with slots := m.slots.set slot (index + 1) }

/-- Puts every entry in a slot again, in a table of `capacity` slots. -/
def rebuildSlots (m : Map K V) (capacity : ℕ) : Option (Map K V) :=
  (List.range m.entries.length).foldlM placeEntry { m with slots := List.replicate capacity 0 }

/-- The first step of `addEntry`: a table that is too full for one more entry is doubled. -/
def makeRoom (m : Map K V) : Option (Map K V) :=
  if (m.count + 1) * 10 > m.slots.length * 7 then
    let capacity := m.slots.length * 2
    m.rebuildSlots (if capacity < 8 then 8 else capacity)
  else some m

/-- The map with the new entry, and the index of the entry. -/
def addEntry (m : Map K V) (key : K) (value : V) (hash : UInt64) : Option (Map K V × ℕ) := do
  let m ← m.makeRoom
  let m := { m with entries := m.entries ++ [Entry.mk key value hash], count := m.count + 1 }
  let m ← m.placeEntry (m.entries.length - 1)
  return (m, m.entries.length - 1)

/-- The slot of the key, or -1 if the key is not there. -/
def findSlot [BEq K] (m : Map K V) (key : K) (hash : UInt64) : Option (Option ℕ) :=
  if m.slots.length = 0 then some none
  else
    m.probe hash fun slot =>
      if m.slotAt slot ≠ 0 then
        if m.entries[m.slotAt slot - 1]?.any fun entry => entry.hash == hash && entry.key == key then
          some (some slot)
        else none
      else some none

end Slots

section Lookups

variable [BEq K] [Hashable K] (m : Map K V) (key : K)

/-- The index of the entry with the key, or -1. -/
def indexOfKey : Option (Option ℕ) := do
  let slot ← m.findSlot key (hash key)
  return slot.map fun slot => m.slotAt slot - 1

/-- The value of the key, or `fallback` if the key is not there. -/
def get (fallback : V) : Option V := do
  let index ← m.indexOfKey key
  match index with
  | none => return fallback
  | some index => m.entries[index]?.map (·.value)

/-- The value of the key, or empty if the key is not there. -/
def tryGet : Option (Option V) := do
  let index ← m.indexOfKey key
  match index with
  | none => return none
  | some index => m.entries[index]?.map fun entry => some entry.value

def has : Option Bool := do
  let index ← m.indexOfKey key
  return index.isSome

/-- The inner option is empty where the assertion stops the program. -/
def index : Option (Option V) := do
  let index ← m.indexOfKey key
  match index with
  | none => return none
  | some index => m.entries[index]?.map fun entry => some entry.value

end Lookups

def isEmpty (m : Map K V) : Bool := m.count == 0

def keys (m : Map K V) : List K :=
  m.entries.foldl (fun result entry => result ++ [entry.key]) []

def values (m : Map K V) : List V :=
  m.entries.foldl (fun result entry => result ++ [entry.value]) []

def elements (m : Map K V) : List (Entry K V) := m.entries

section Updates

variable [BEq K] [Hashable K] (m : Map K V)

/-- A write through a pointer to the value of an entry. -/
def writeValue (index : ℕ) (write : V → V) : Map K V :=
  { m with entries := m.entries.modify index fun entry => { entry with value := write entry.value } }

/-- Adds the key with the value, or changes the value if the key is already there. -/
def set (key : K) (value : V) : Option (Map K V) := do
  let slot ← m.findSlot key (hash key)
  match slot with
  | some slot => return m.writeValue (m.slotAt slot - 1) fun _ => value
  | none =>
    let (m, _) ← m.addEntry key value (hash key)
    return m

/-- `m[key] = value` adds the key if it is not there. The pointer is the index of the entry that it
points into, and `default` is the zero value of the type. -/
def indexRef [Inhabited V] (key : K) : Option (Map K V × ℕ) := do
  let index ← m.indexOfKey key
  match index with
  | none => m.addEntry key default (hash key)
  | some index => return (m, index)

/-- Removes the key, and says whether it was there. The other entries keep their order. -/
def remove (key : K) : Option (Map K V × Bool) := do
  let index ← m.indexOfKey key
  match index with
  | none => return (m, false)
  | some index =>
    let m := { m with entries := m.entries.eraseIdx index, count := m.count - 1 }
    let m ← m.rebuildSlots m.slots.length
    return (m, true)

omit [BEq K] [Hashable K] in
/-- Removes all the entries, but keeps the memory. -/
def clear : Map K V := { entries := [], slots := m.slots.map fun _ => 0, count := 0 }

/-- Gives back the memory of the map. The map is empty afterwards. -/
def free (_ : Map K V) : Map K V := { entries := [], slots := [], count := 0 }

end Updates

/-- A doubling that wraps to 0 stays there, so a loop that has not ended after 64 turns never does. -/
def reserveCapacity (count : Int64) : Option Int64 :=
  loopUntil (fun capacity => if capacity * 7 < count * 10 then none else some capacity) (· * 2) 64 8

/-- Makes room for `count` entries, so that adding them doesn't need to allocate. -/
def reserve (m : Map K V) (count : Int64) : Option (Map K V) := do
  let capacity ← reserveCapacity count
  if capacity.toInt > m.slots.length then m.rebuildSlots capacity.toInt.toNat else some m

end Map

/-- What a program does with a map. -/
inductive MapOp (K V : Type) where
  | set (key : K) (value : V)
  /-- Take the pointer to the value of the key and write what `write` makes of the value there. -/
  | indexRef (key : K) (write : V → V)
  | remove (key : K)
  | reserve (count : Int64)
  | clear
  | free

namespace Map

variable {K V : Type} [BEq K] [Hashable K] [Inhabited V]

def run (m : Map K V) : MapOp K V → Option (Map K V)
  | .set key value => m.set key value
  | .indexRef key write => do
    let (m, pointer) ← m.indexRef key
    return m.writeValue pointer write
  | .remove key => do
    let (m, _) ← m.remove key
    return m
  | .reserve count => m.reserve count
  | .clear => m.clear
  | .free => m.free

/-- Do all in order. -/
def runAll (m : Map K V) (ops : List (MapOp K V)) : Option (Map K V) := ops.foldlM run m

end Map

end Saad

/-! # What the operations of the hash table keep

The slots index the entries, at most seven tenths of them are full, and no two entries have equal
keys. Every operation puts this in order again, and a search finds the entry of the key.
-/

namespace Saad

open General

namespace Map

variable {K V : Type}

/-- Where the search for an entry begins. -/
def home (m : Map K V) (index : ℕ) : ℕ :=
  (m.entries[index]?.map fun entry => entry.hash.toNat &&& m.mask).getD 0

/-- The slots are in order for the first `placed` entries. -/
structure Placed (m : Map K V) (placed : ℕ) : Prop where
  power : ∃ exponent, m.slots.length = 2 ^ exponent
  indexes : Indexes m.slots m.home placed

section Probing

variable {m : Map K V} {placed : ℕ}

theorem masked_lt (power : ∃ exponent, m.slots.length = 2 ^ exponent) (hash : UInt64) :
    hash.toNat &&& m.mask < m.slots.length := by
  obtain ⟨exponent, length⟩ := power
  rw [mask, length, Nat.and_two_pow_sub_one_eq_mod]
  exact Nat.mod_lt _ (Nat.two_pow_pos exponent)

theorem probe_eq {ρ : Type} (power : ∃ exponent, m.slots.length = 2 ^ exponent) (hash : UInt64)
    (exit : ℕ → Option ρ) :
    m.probe hash exit =
      loopUntil exit (nextSlot m.slots.length) m.slots.length (hash.toNat &&& m.mask) := by
  have next : (fun slot => (slot + 1) &&& m.mask) = nextSlot m.slots.length := by
    funext slot
    obtain ⟨exponent, length⟩ := power
    rw [mask, nextSlot, length, Nat.and_two_pow_sub_one_eq_mod]
  rw [probe, next]

theorem home_eq {index : ℕ} {entry : Entry K V} (at_index : m.entries[index]? = some entry) :
    m.home index = entry.hash.toNat &&& m.mask := by
  rw [home, at_index, Option.map_some, Option.getD_some]

theorem home_congr {other : Map K V} (entries : other.entries = m.entries)
    (length : other.slots.length = m.slots.length) : other.home = m.home := by
  funext index
  rw [home, home, mask, mask, entries, length]

/-- Probing from anywhere comes to an empty slot, over full ones. -/
theorem Placed.exists_free (in_order : m.Placed placed) (room : placed < m.slots.length)
    (home : ℕ) : ∃ slot < m.slots.length, ¬ Full m.slots slot ∧
      Reaches m.slots.length (Full m.slots) home slot := by
  obtain ⟨slot, inside, free⟩ := in_order.indexes.exists_not_full room
  exact exists_reaches_not_full inside free home

/-- The next entry goes to an empty slot. -/
theorem Placed.placeEntry (in_order : m.Placed placed) (room : placed < m.slots.length)
    (inside : placed < m.entries.length) :
    ∃ slots, slots.length = m.slots.length ∧ m.placeEntry placed = some { m with slots := slots } ∧
      ({ m with slots := slots } : Map K V).Placed (placed + 1) := by
  have at_index : m.entries[placed]? = some m.entries[placed] := List.getElem?_eq_getElem inside
  obtain ⟨slot, slot_lt, free, reaches⟩ := in_order.exists_free room (m.home placed)
  have ends : m.probe m.entries[placed].hash (fun slot =>
      if m.slotAt slot ≠ 0 then none else some slot) = some slot := by
    rw [probe_eq in_order.power]
    rw [home_eq at_index] at reaches
    apply reaches.loopUntil_eq (masked_lt in_order.power _)
    · intro other _ full
      exact if_pos full
    · exact if_neg free
  refine ⟨m.slots.set slot (placed + 1), List.length_set, ?_, ?_, ?_⟩
  · rw [Map.placeEntry, at_index]
    change (m.probe _ _ >>= _) = _
    rw [ends]
    rfl
  · simpa using in_order.power
  · have same_home : ({ m with slots := m.slots.set slot (placed + 1) } : Map K V).home = m.home :=
      home_congr rfl List.length_set
    rw [same_home]
    exact in_order.indexes.set slot_lt free reaches

/-- Every entry is placed again, in a table that has room for them all. -/
theorem placed_rebuildSlots (m : Map K V) {capacity : ℕ}
    (power : ∃ exponent, capacity = 2 ^ exponent) (room : m.entries.length < capacity) :
    ∃ slots, slots.length = capacity ∧
      m.rebuildSlots capacity = some { m with slots := slots } ∧
      ({ m with slots := slots } : Map K V).Placed m.entries.length := by
  have runs : ∀ placed ≤ m.entries.length, ∃ slots, slots.length = capacity ∧
      (List.range placed).foldlM Map.placeEntry { m with slots := List.replicate capacity 0 } =
        some { m with slots := slots } ∧
      ({ m with slots := slots } : Map K V).Placed placed := by
    intro placed le
    induction placed with
    | zero =>
      refine ⟨List.replicate capacity 0, List.length_replicate, rfl, ?_, Indexes.replicate _ _⟩
      simpa using power
    | succ placed ih =>
      obtain ⟨slots, length, runs, in_order⟩ := ih (by omega)
      obtain ⟨next, next_length, places, next_in_order⟩ := in_order.placeEntry
        (show placed < slots.length by omega) (show placed < m.entries.length by omega)
      refine ⟨next, next_length.trans length, ?_, next_in_order⟩
      rw [List.range_succ, List.foldlM_append, runs]
      change Map.placeEntry { m with slots := slots } placed >>= some = _
      rw [places]
      rfl
  exact runs m.entries.length le_rfl

end Probing

variable [BEq K] [Hashable K]

structure WellFormed (m : Map K V) : Prop where
  counted : m.count = m.entries.length
  hashed : ∀ entry ∈ m.entries, entry.hash = hash entry.key
  distinct : m.entries.Pairwise fun entry later => (entry.key == later.key) = false
  /-- At most seven tenths of the slots are full. -/
  room : m.entries.length * 10 ≤ m.slots.length * 7
  placed : m.slots.length = 0 ∨ m.Placed m.entries.length

theorem WellFormed.empty : WellFormed ({} : Map K V) where
  counted := rfl
  hashed := by simp
  distinct := List.Pairwise.nil
  room := le_rfl
  placed := .inl rfl

variable {m : Map K V}

/-- A table with entries has slots, and one of them is empty. -/
theorem WellFormed.placed_of_pos (valid : m.WellFormed) (slots : m.slots.length ≠ 0) :
    m.Placed m.entries.length ∧ m.entries.length < m.slots.length := by
  have room := valid.room
  exact ⟨valid.placed.resolve_left slots, by omega⟩

section Search

variable {key : K} {hash : UInt64}

/-- What `findSlot` does at a slot. -/
def searchAt (m : Map K V) (key : K) (hash : UInt64) (slot : ℕ) : Option (Option ℕ) :=
  if m.slotAt slot ≠ 0 then
    if m.entries[m.slotAt slot - 1]?.any fun entry => entry.hash == hash && entry.key == key then
      some (some slot)
    else none
  else some none

omit [Hashable K] in
theorem findSlot_eq (slots : m.slots.length ≠ 0) :
    m.findSlot key hash = m.probe hash (m.searchAt key hash) := by
  rw [findSlot, if_neg slots]
  rfl

omit [Hashable K] in
theorem searchAt_of_not_full {slot : ℕ} (free : ¬ Full m.slots slot) :
    m.searchAt key hash slot = some none := if_neg free

omit [Hashable K] in
/-- The search goes on at a full slot when the entry there has another key. -/
theorem searchAt_eq_none {slot : ℕ} (full : Full m.slots slot)
    (different : ∀ entry, m.entries[m.slotAt slot - 1]? = some entry → (entry.key == key) = false) :
    m.searchAt key hash slot = none := by
  have holds : m.slotAt slot ≠ 0 := full
  rw [searchAt, if_pos holds, if_neg]
  intro found
  cases at_slot : m.entries[m.slotAt slot - 1]? with
  | none =>
    rw [at_slot] at found
    cases found
  | some entry =>
    rw [at_slot, Option.any_some, different entry at_slot, Bool.and_false] at found
    cases found

omit [Hashable K] in
theorem searchAt_eq_some {slot : ℕ} {entry : Entry K V} (full : Full m.slots slot)
    (at_slot : m.entries[m.slotAt slot - 1]? = some entry) (same_hash : entry.hash = hash)
    (same : (entry.key == key) = true) : m.searchAt key hash slot = some (some slot) := by
  have holds : m.slotAt slot ≠ 0 := full
  rw [searchAt, if_pos holds, if_pos]
  simp [at_slot, same_hash, same]

theorem WellFormed.findSlot_isSome (valid : m.WellFormed) : (m.findSlot key hash).isSome := by
  by_cases slots : m.slots.length = 0
  · rw [findSlot, if_pos slots]
    rfl
  · obtain ⟨in_order, room⟩ := valid.placed_of_pos slots
    obtain ⟨slot, -, free, reaches⟩ := in_order.exists_free room (hash.toNat &&& m.mask)
    rw [findSlot_eq slots, probe_eq in_order.power]
    apply reaches.loopUntil_isSome (masked_lt in_order.power _)
    rw [searchAt_of_not_full free]
    rfl

end Search

/-- The index of the first entry with the key. -/
def position (m : Map K V) (key : K) : Option ℕ := m.entries.findIdx? fun entry => entry.key == key

omit [Hashable K] in
theorem position_eq_some {key : K} {index : ℕ} (found : m.position key = some index) :
    ∃ inside : index < m.entries.length, (m.entries[index].key == key) = true :=
  let ⟨inside, same, _⟩ := List.findIdx?_eq_some_iff_getElem.mp found
  ⟨inside, same⟩

omit [Hashable K] in
theorem position_eq_none {key : K} (absent : m.position key = none) (entry : Entry K V)
    (member : entry ∈ m.entries) : (entry.key == key) = false :=
  List.findIdx?_eq_none_iff.mp absent entry member

theorem WellFormed.eq_of_same [EquivBEq K] (valid : m.WellFormed) {key : K} {index other : ℕ}
    (inside : index < m.entries.length) (other_inside : other < m.entries.length)
    (same : (m.entries[index].key == key) = true)
    (other_same : (m.entries[other].key == key) = true) : index = other := by
  have distinct := List.pairwise_iff_getElem.mp valid.distinct
  obtain before | equal | after := lt_trichotomy index other
  · have equal := BEq.trans same (BEq.symm other_same)
    rw [distinct index other inside other_inside before] at equal
    cases equal
  · exact equal
  · have equal := BEq.trans other_same (BEq.symm same)
    rw [distinct other index other_inside inside after] at equal
    cases equal

/-- The search ends at the slot of the entry with the key, or finds that there is none. -/
theorem WellFormed.findSlot_eq [EquivBEq K] [LawfulHashable K] (valid : m.WellFormed) (key : K) :
    ∃ slot, m.findSlot key (hash key) = some slot ∧
      slot.map (fun slot => m.slotAt slot - 1) = m.position key := by
  by_cases slots : m.slots.length = 0
  · have room := valid.room
    have no_entries : m.entries = [] := List.eq_nil_of_length_eq_zero (by omega)
    refine ⟨none, ?_, ?_⟩
    · rw [findSlot, if_pos slots]
    · rw [position, no_entries]
      rfl
  obtain ⟨in_order, room⟩ := valid.placed_of_pos slots
  rw [Map.findSlot_eq slots, probe_eq in_order.power]
  cases found : m.position key with
  | none =>
    obtain ⟨slot, -, free, reaches⟩ := in_order.exists_free room ((hash key).toNat &&& m.mask)
    refine ⟨none, ?_, rfl⟩
    apply reaches.loopUntil_eq (masked_lt in_order.power _)
    · intro other _ full
      apply searchAt_eq_none full
      intro entry at_slot
      exact position_eq_none found entry (List.mem_of_getElem? at_slot)
    · exact searchAt_of_not_full free
  | some index =>
    obtain ⟨inside, same⟩ := position_eq_some found
    obtain ⟨slot, -, holds, reaches⟩ := in_order.indexes.found index inside
    have at_index : m.entries[index]? = some m.entries[index] := List.getElem?_eq_getElem inside
    have same_hash : m.entries[index].hash = hash key := by
      rw [valid.hashed _ (List.getElem_mem inside)]
      exact LawfulHashable.hash_eq _ _ same
    have slot_full : Full m.slots slot := by
      rw [Full, holds]
      omega
    have at_slot : m.slotAt slot - 1 = index := by
      rw [slotAt, holds, Nat.add_sub_cancel]
    rw [home_eq at_index, same_hash] at reaches
    refine ⟨some slot, ?_, congrArg some at_slot⟩
    apply reaches.loopUntil_eq (masked_lt in_order.power _)
    · intro other other_ne full
      apply searchAt_eq_none full
      intro entry at_other
      obtain ⟨other_inside, rfl⟩ := List.getElem?_eq_some_iff.mp at_other
      cases other_same : m.entries[m.slotAt other - 1].key == key with
      | false => rfl
      | true =>
        have equal := valid.eq_of_same inside other_inside same other_same
        refine absurd (in_order.indexes.once other slot full ?_) other_ne
        have full : m.slotAt other ≠ 0 := full
        have : m.slotAt other = index + 1 := by omega
        rw [holds]
        exact this
    · exact searchAt_eq_some slot_full (at_slot.symm ▸ at_index) same_hash same

theorem WellFormed.indexOfKey_eq [EquivBEq K] [LawfulHashable K] (valid : m.WellFormed) (key : K) :
    m.indexOfKey key = some (m.position key) := by
  obtain ⟨slot, finds, at_slot⟩ := valid.findSlot_eq key
  rw [indexOfKey, finds, ← at_slot]
  rfl

end Map

end Saad
