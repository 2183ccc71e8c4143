import Saad.Collections.MapRefines

/-! # Runs of the hash table

What an operation does to an association list, and that a map which starts empty behaves like that
list after all operations in any order. The one thing that can go wrong is the loop of `reserve`,
whose capacity overflows when the count is too large.
-/

namespace Saad

open General

namespace MapOp

variable {K V : Type} [BEq K] [Inhabited V]

/-- What the operation does to an association list. -/
def onList (list : AssocList K V) : MapOp K V → AssocList K V
  | .set key value => list.insert key value
  | .indexRef key write => list.upsert key (write default) write
  | .remove key => list.erase key
  | .reserve _ => list
  | .clear => []
  | .free => []

def allOnList (ops : List (MapOp K V)) : AssocList K V := ops.foldl onList []

/-- All loops of the operation end. -/
def Ends : MapOp K V → Prop
  | .reserve count => Map.ReserveEnds count
  | _ => True

end MapOp

namespace Map

variable {K V : Type} [BEq K] [Hashable K] [Inhabited V]

/-- The map gives what the list gives, and its next operations keep the places that the list keeps. -/
structure BehavesLike (m : Map K V) (list : AssocList K V) : Prop where
  count : m.count = list.length
  isEmpty : m.isEmpty = list.isEmpty
  get : ∀ key fallback, m.get key fallback = some ((list.lookup key).getD fallback)
  tryGet : ∀ key, m.tryGet key = some (list.lookup key)
  has : ∀ key, m.has key = some (list.contains key)
  index : ∀ key, m.index key = some (list.lookup key)
  keys : m.keys = list.keys
  values : m.values = list.values
  elements : m.elements.map (fun entry => (entry.key, entry.value)) = list
  set_keeps : ∀ key value, list.contains key = true →
    ∃ next, m.set key value = some next ∧ next.keys = m.keys
  indexRef_keeps : ∀ key, list.contains key = true →
    ∃ pointer, m.indexRef key = some (m, pointer)
  remove_keeps : ∀ key, ∃ next, m.remove key = some (next, list.contains key) ∧
    next.keys = (list.erase key).keys ∧ next.keys.Sublist m.keys
  slots : m.slots.length = 0 ∨ (∃ exponent, m.slots.length = 2 ^ exponent) ∧ 0 ∈ m.slots
  findSlot_ends : ∀ key hash, (m.findSlot key hash).isSome
  placeEntry_ends : m.slots.length ≠ 0 → ∀ index < m.entries.length, (m.placeEntry index).isSome

variable {m : Map K V}

omit [BEq K] [Hashable K] [Inhabited V] in
theorem Placed.placeEntry_isSome {placed : ℕ} (in_order : m.Placed placed)
    (room : placed < m.slots.length) {index : ℕ} (inside : index < m.entries.length) :
    (m.placeEntry index).isSome := by
  obtain ⟨slot, -, free, reaches⟩ :=
    in_order.exists_free room (m.entries[index].hash.toNat &&& m.mask)
  have ends : (m.probe m.entries[index].hash fun slot =>
      if m.slotAt slot ≠ 0 then none else some slot).isSome := by
    rw [probe_eq in_order.power]
    apply reaches.loopUntil_isSome (masked_lt in_order.power _)
    have holds : ¬ m.slotAt slot ≠ 0 := free
    rw [if_neg holds]
    rfl
  obtain ⟨slot, ends⟩ := Option.isSome_iff_exists.mp ends
  rw [Map.placeEntry, List.getElem?_eq_getElem inside]
  change (m.probe _ _ >>= _).isSome
  rw [ends]
  rfl

variable [EquivBEq K] [LawfulHashable K]

theorem WellFormed.behavesLike (valid : m.WellFormed) : m.BehavesLike m.toAssoc := by
  have length : m.toAssoc.length = m.entries.length := List.length_map _
  constructor
  case count => rw [valid.counted, length]
  case isEmpty =>
    rw [isEmpty, valid.counted, ← length]
    cases m.toAssoc <;> rfl
  case get => exact valid.get_eq
  case tryGet => exact valid.tryGet_eq
  case has => exact valid.has_eq
  case index => exact valid.index_eq
  case keys => exact keys_eq
  case values => exact values_eq
  case elements => rfl
  case set_keeps =>
    intro key value present
    obtain ⟨next, sets, -, inserted⟩ := valid.set key value
    refine ⟨next, sets, ?_⟩
    rw [keys_eq, keys_eq, inserted, AssocList.insert, AssocList.keys_upsert _ _ _ _ present]
  case indexRef_keeps =>
    intro key present
    rw [Map.indexRef, valid.indexOfKey_eq]
    cases found : m.position key with
    | none =>
      rw [AssocList.contains, lookup_of_position_eq_none found] at present
      cases present
    | some pointer => exact ⟨pointer, rfl⟩
  case remove_keeps =>
    intro key
    obtain ⟨next, removes, -, erased⟩ := valid.remove key
    refine ⟨next, removes, ?_, ?_⟩
    · rw [keys_eq, erased]
    · rw [keys_eq, keys_eq, erased]
      exact (AssocList.erase_sublist key m.toAssoc).map Prod.fst
  case slots =>
    by_cases none : m.slots.length = 0
    · exact .inl none
    · obtain ⟨in_order, room⟩ := valid.placed_of_pos none
      obtain ⟨slot, inside, free⟩ := in_order.indexes.exists_not_full room
      refine .inr ⟨in_order.power, ?_⟩
      have empty : m.slots[slot]?.getD 0 = 0 := List.getD_eq_getElem?_getD ▸ not_not.mp free
      rw [List.getElem?_eq_getElem inside, Option.getD_some] at empty
      exact empty ▸ List.getElem_mem inside
  case findSlot_ends => exact fun _ _ => valid.findSlot_isSome
  case placeEntry_ends =>
    intro slots index inside
    obtain ⟨in_order, room⟩ := valid.placed_of_pos slots
    exact in_order.placeEntry_isSome room inside

/-- An operation keeps the table in order, and does what it does to the list. -/
theorem WellFormed.run (valid : m.WellFormed) (op : MapOp K V) (ends : op.Ends) :
    ∃ next, m.run op = some next ∧ next.WellFormed ∧ next.toAssoc = op.onList m.toAssoc := by
  cases op with
  | set key value => exact valid.set key value
  | indexRef key write =>
    obtain ⟨next, pointer, points, next_valid, changed⟩ := valid.indexRef key write
    refine ⟨next.writeValue pointer write, ?_, next_valid, changed⟩
    rw [Map.run, points]
    rfl
  | remove key =>
    obtain ⟨next, removes, next_valid, erased⟩ := valid.remove key
    refine ⟨next, ?_, next_valid, erased⟩
    rw [Map.run, removes]
    rfl
  | reserve count =>
    obtain ⟨next, reserves, next_valid, entries⟩ := valid.reserve ends
    refine ⟨next, reserves, next_valid, ?_⟩
    rw [toAssoc, entries]
    rfl
  | clear => exact ⟨m.clear, rfl, valid.clear, rfl⟩
  | free => exact ⟨{}, rfl, .empty, rfl⟩

theorem WellFormed.runAll (valid : m.WellFormed) (ops : List (MapOp K V))
    (ends : ∀ op ∈ ops, op.Ends) :
    ∃ last, m.runAll ops = some last ∧ last.WellFormed ∧
      last.toAssoc = ops.foldl MapOp.onList m.toAssoc := by
  induction ops generalizing m with
  | nil => exact ⟨m, rfl, valid, rfl⟩
  | cons op rest ih =>
    obtain ⟨next, runs, next_valid, changed⟩ := valid.run op (ends op List.mem_cons_self)
    obtain ⟨last, runs_rest, last_valid, all_changed⟩ :=
      ih next_valid fun later member => ends later (List.mem_cons_of_mem op member)
    refine ⟨last, ?_, last_valid, ?_⟩
    · rw [Map.runAll, List.foldlM_cons, runs]
      exact runs_rest
    · rw [all_changed, changed, List.foldl_cons]

omit [EquivBEq K] [LawfulHashable K] in
theorem run_of_not_ends {op : MapOp K V} (runs_on : ¬ op.Ends) : m.run op = none := by
  cases op with
  | reserve count =>
    have capacity : reserveCapacity count = none := reserveCapacity_of_not_ends runs_on 64
    rw [Map.run, reserve, capacity]
    rfl
  | set key value => exact absurd trivial runs_on
  | indexRef key write => exact absurd trivial runs_on
  | remove key => exact absurd trivial runs_on
  | clear => exact absurd trivial runs_on
  | free => exact absurd trivial runs_on

omit [EquivBEq K] [LawfulHashable K] in
theorem ends_of_runAll {ops : List (MapOp K V)} {last : Map K V} (runs : m.runAll ops = some last) :
    ∀ op ∈ ops, op.Ends := by
  induction ops generalizing m with
  | nil => simp
  | cons op rest ih =>
    rw [Map.runAll, List.foldlM_cons] at runs
    obtain ⟨next, runs_first, runs_rest⟩ := Option.bind_eq_some_iff.mp runs
    intro later member
    obtain rfl | member := List.mem_cons.mp member
    · by_contra runs_on
      rw [run_of_not_ends runs_on] at runs_first
      cases runs_first
    · exact ih runs_rest later member

end Map

section NumberKeys

/-- A number as a key, with the hash that the prelude gives it. -/
structure NumberKey where
  value : UInt64
deriving DecidableEq

instance : Hashable NumberKey := ⟨fun key => hashU64 key.value⟩

/-- Two keys are added, the second is counted up, the first is removed and added again. -/
def countUp : List (MapOp NumberKey Int) :=
  [.set ⟨1⟩ 10, .indexRef ⟨2⟩ (· + 1), .reserve 20, .remove ⟨1⟩, .set ⟨1⟩ 30, .indexRef ⟨2⟩ (· + 1)]

end NumberKeys

end Saad
