import Saad.Collections.MapInvariant

/-! # The hash table is an association list in insertion order

Every operation on a table in order leaves one that is in order, and does to the list of its keys and
values what it does to an association list. A search gives what the list gives.
-/

namespace Saad

open General

theorem map_modify {α β : Type} (f : α → β) (change : α → α) (after : β → β)
    (commute : ∀ value, f (change value) = after (f value)) (list : List α) (index : ℕ) :
    (list.modify index change).map f = (list.map f).modify index after := by
  induction list generalizing index with
  | nil => cases index <;> rfl
  | cons head rest ih =>
    cases index with
    | zero => simp only [List.modify_zero_cons, List.map_cons, commute]
    | succ index => simp only [List.modify_succ_cons, List.map_cons, ih]

namespace Map

variable {K V : Type}

/-- The keys and values in the order they were added. -/
def toAssoc (m : Map K V) : AssocList K V := m.entries.map fun entry => (entry.key, entry.value)

section Observations

variable {m : Map K V}

theorem foldl_add_eq_map {α β : Type} (f : α → β) (list : List α) (result : List β) :
    list.foldl (fun result value => result ++ [f value]) result = result ++ list.map f := by
  induction list generalizing result with
  | nil => simp
  | cons head rest ih =>
    rw [List.foldl_cons, ih, List.append_assoc, List.map_cons, List.singleton_append]

theorem keys_eq : m.keys = m.toAssoc.keys := by
  rw [keys, foldl_add_eq_map, List.nil_append, toAssoc, AssocList.keys, List.map_map]
  rfl

theorem values_eq : m.values = m.toAssoc.values := by
  rw [values, foldl_add_eq_map, List.nil_append, toAssoc, AssocList.values, List.map_map]
  rfl

variable [BEq K] {key : K}

theorem indexOf_toAssoc : m.toAssoc.indexOf key = m.position key := by
  rw [AssocList.indexOf, toAssoc, List.findIdx?_map]
  rfl

theorem lookup_toAssoc :
    m.toAssoc.lookup key = (m.position key).bind fun index => m.entries[index]?.map (·.value) := by
  rw [AssocList.lookup_eq, indexOf_toAssoc]
  congr 1
  funext index
  rw [toAssoc, List.getElem?_map, Option.map_map]
  rfl

/-- The entry that is found has the value that the list has for the key. -/
theorem lookup_of_position {index : ℕ} (found : m.position key = some index) :
    ∃ entry, m.entries[index]? = some entry ∧ m.toAssoc.lookup key = some entry.value := by
  obtain ⟨inside, -⟩ := position_eq_some found
  have at_index : m.entries[index]? = some m.entries[index] := List.getElem?_eq_getElem inside
  exact ⟨_, at_index, by rw [lookup_toAssoc, found, Option.bind_some, at_index, Option.map_some]⟩

theorem lookup_of_position_eq_none (absent : m.position key = none) :
    m.toAssoc.lookup key = none := by
  rw [lookup_toAssoc, absent, Option.bind_none]

variable [Hashable K] [EquivBEq K] [LawfulHashable K] (key)

theorem WellFormed.get_eq (valid : m.WellFormed) (fallback : V) :
    m.get key fallback = some ((m.toAssoc.lookup key).getD fallback) := by
  rw [get, valid.indexOfKey_eq]
  cases found : m.position key with
  | none =>
    rw [lookup_of_position_eq_none found]
    rfl
  | some index =>
    obtain ⟨entry, at_index, looks_up⟩ := lookup_of_position found
    rw [looks_up]
    exact congrArg (Option.map (·.value)) at_index

theorem WellFormed.tryGet_eq (valid : m.WellFormed) :
    m.tryGet key = some (m.toAssoc.lookup key) := by
  rw [tryGet, valid.indexOfKey_eq]
  cases found : m.position key with
  | none =>
    rw [lookup_of_position_eq_none found]
    rfl
  | some index =>
    obtain ⟨entry, at_index, looks_up⟩ := lookup_of_position found
    rw [looks_up]
    exact congrArg (Option.map fun entry => some entry.value) at_index

theorem WellFormed.index_eq (valid : m.WellFormed) :
    m.index key = some (m.toAssoc.lookup key) := valid.tryGet_eq key

theorem WellFormed.has_eq (valid : m.WellFormed) :
    m.has key = some (m.toAssoc.contains key) := by
  rw [has, valid.indexOfKey_eq, AssocList.contains]
  cases found : m.position key with
  | none =>
    rw [lookup_of_position_eq_none found]
    rfl
  | some index =>
    obtain ⟨entry, -, looks_up⟩ := lookup_of_position found
    rw [looks_up]
    rfl

end Observations

section Updates

variable {m : Map K V}

theorem toAssoc_writeValue (index : ℕ) (write : V → V) :
    (m.writeValue index write).toAssoc =
      m.toAssoc.modify index fun entry => (entry.1, write entry.2) :=
  map_modify (fun entry : Entry K V => (entry.key, entry.value)) _
    (fun entry => (entry.1, write entry.2)) (fun _ => rfl) m.entries index

variable [BEq K] [Hashable K]

/-- The invariant says nothing about the values. -/
theorem WellFormed.writeValue (valid : m.WellFormed) (index : ℕ) (write : V → V) :
    (m.writeValue index write).WellFormed := by
  let view : Entry K V → K × UInt64 := fun entry => (entry.key, entry.hash)
  have moved : (m.writeValue index write).entries.map view =
      (m.entries.map view).modify index id :=
    map_modify view (fun entry => { entry with value := write entry.value }) id (fun _ => rfl) _ _
  rw [List.modify_id] at moved
  have length : (m.writeValue index write).entries.length = m.entries.length :=
    List.length_modify _ _ _
  have same_home : (m.writeValue index write).home = m.home := by
    funext other
    have at_other := congrArg (fun pairs => (pairs[other]?.map fun pair =>
      pair.2.toNat &&& m.mask).getD 0) moved
    simp only [List.getElem?_map, Option.map_map] at at_other
    exact at_other
  constructor
  case counted => exact valid.counted.trans length.symm
  case hashed =>
    have hashed : ∀ pair ∈ m.entries.map view, pair.2 = hash pair.1 :=
      List.forall_mem_map.mpr valid.hashed
    rw [← moved] at hashed
    exact List.forall_mem_map.mp hashed
  case distinct =>
    have distinct : (m.entries.map view).Pairwise fun pair later => (pair.1 == later.1) = false :=
      List.pairwise_map.mpr valid.distinct
    rw [← moved] at distinct
    exact List.pairwise_map.mp distinct
  case room =>
    rw [length]
    exact valid.room
  case placed =>
    rw [length]
    apply valid.placed.imp_right
    intro in_order
    exact ⟨in_order.power, same_home ▸ in_order.indexes⟩

/-- The entries of a table in order, placed again among more slots. -/
theorem WellFormed.rebuildSlots (valid : m.WellFormed) {capacity : ℕ}
    (power : ∃ exponent, capacity = 2 ^ exponent)
    (room : m.entries.length * 10 ≤ capacity * 7) (positive : 0 < capacity) :
    ∃ next, m.rebuildSlots capacity = some next ∧ next.WellFormed ∧
      next.entries = m.entries ∧ next.slots.length = capacity := by
  obtain ⟨slots, length, rebuilds, in_order⟩ := placed_rebuildSlots m power (by omega)
  refine ⟨_, rebuilds, ?_, rfl, length⟩
  exact ⟨valid.counted, valid.hashed, valid.distinct, length.symm ▸ room, .inr in_order⟩

theorem WellFormed.makeRoom (valid : m.WellFormed) :
    ∃ next, m.makeRoom = some next ∧ next.WellFormed ∧ next.entries = m.entries ∧
      (m.entries.length + 1) * 10 ≤ next.slots.length * 7 := by
  have room := valid.room
  have counted := valid.counted
  rw [Map.makeRoom]
  split
  · have enough : m.entries.length * 10 ≤
        (if m.slots.length * 2 < 8 then 8 else m.slots.length * 2) * 7 := by
      split <;> omega
    have power : ∃ exponent,
        (if m.slots.length * 2 < 8 then 8 else m.slots.length * 2) = 2 ^ exponent := by
      split
      · exact ⟨3, rfl⟩
      · obtain none | in_order := valid.placed
        · omega
        · obtain ⟨exponent, length⟩ := in_order.power
          exact ⟨exponent + 1, by rw [length, Nat.pow_succ]⟩
    obtain ⟨next, rebuilds, next_valid, entries, length⟩ :=
      valid.rebuildSlots power enough (by split <;> omega)
    refine ⟨next, rebuilds, next_valid, entries, ?_⟩
    rw [length]
    split <;> omega
  · exact ⟨m, rfl, valid, rfl, by omega⟩

/-- A key that is not there comes last. -/
theorem WellFormed.addEntry (valid : m.WellFormed) {key : K} (value : V)
    (absent : m.position key = none) :
    ∃ next, m.addEntry key value (hash key) = some (next, m.entries.length) ∧ next.WellFormed ∧
      next.entries = m.entries ++ [Entry.mk key value (hash key)] := by
  obtain ⟨grown, grows, grown_valid, entries, room⟩ := valid.makeRoom
  let longer : Map K V :=
    { grown with entries := grown.entries ++ [Entry.mk key value (hash key)], count := grown.count + 1 }
  have grown_length : grown.entries.length = m.entries.length := congrArg List.length entries
  have length : longer.entries.length = m.entries.length + 1 := by
    rw [List.length_append, grown_length, List.length_singleton]
  obtain ⟨in_order, -⟩ := grown_valid.placed_of_pos (by omega)
  have same_home : ∀ index < m.entries.length, grown.home index = longer.home index := by
    intro index lt
    rw [home, home, List.getElem?_append_left (by omega)]
    rfl
  rw [grown_length] at in_order
  have longer_in_order : longer.Placed m.entries.length :=
    ⟨in_order.power, in_order.indexes.congr same_home⟩
  obtain ⟨slots, slots_length, places, placed⟩ := longer_in_order.placeEntry
    (show m.entries.length < grown.slots.length by omega) (by omega)
  refine ⟨{ longer with slots := slots }, ?_, ?_, ?_⟩
  · rw [Map.addEntry, grows]
    change (longer.placeEntry (longer.entries.length - 1) >>= fun m =>
      some (m, m.entries.length - 1)) = _
    rw [length, Nat.add_sub_cancel, places]
    change some (_, longer.entries.length - 1) = _
    rw [length, Nat.add_sub_cancel]
  · constructor
    case counted =>
      change grown.count + 1 = longer.entries.length
      rw [length, grown_valid.counted, grown_length]
    case hashed =>
      intro entry member
      obtain old | new := List.mem_append.mp member
      · exact grown_valid.hashed entry old
      · rw [List.mem_singleton.mp new]
    case distinct =>
      apply List.pairwise_append.mpr
      refine ⟨grown_valid.distinct, List.pairwise_singleton _ _, ?_⟩
      intro entry member last last_member
      rw [List.mem_singleton.mp last_member]
      exact position_eq_none absent entry (entries ▸ member)
    case room =>
      change longer.entries.length * 10 ≤ slots.length * 7
      rw [length, slots_length]
      exact room
    case placed =>
      apply Or.inr
      change Placed _ longer.entries.length
      rw [length]
      exact placed
  · exact congrArg (· ++ [Entry.mk key value (hash key)]) entries

theorem WellFormed.clear (valid : m.WellFormed) : m.clear.WellFormed where
  counted := rfl
  hashed := by simp [Map.clear]
  distinct := List.Pairwise.nil
  room := Nat.zero_le _
  placed := by
    have emptied : m.clear.slots = List.replicate m.slots.length 0 := List.map_const'
    apply valid.placed.imp
    · intro no_slots
      rw [emptied, List.length_replicate, no_slots]
    · intro in_order
      constructor
      · rw [emptied, List.length_replicate]
        exact in_order.power
      · rw [emptied]
        exact Indexes.replicate _ _

variable [EquivBEq K] [LawfulHashable K]

theorem WellFormed.set (valid : m.WellFormed) (key : K) (value : V) :
    ∃ next, m.set key value = some next ∧ next.WellFormed ∧
      next.toAssoc = m.toAssoc.insert key value := by
  obtain ⟨slot, finds, at_slot⟩ := valid.findSlot_eq key
  rw [Map.set, finds, AssocList.insert]
  cases slot with
  | none =>
    have absent : m.position key = none := at_slot.symm
    obtain ⟨next, adds, next_valid, entries⟩ := valid.addEntry value absent
    refine ⟨next, ?_, next_valid, ?_⟩
    · change (m.addEntry key value (hash key) >>= fun added => some added.1) = _
      rw [adds]
      rfl
    · rw [AssocList.upsert_of_indexOf_eq_none _ _ (indexOf_toAssoc.trans absent), toAssoc, entries,
        List.map_append]
      rfl
  | some slot =>
    have found : m.position key = some (m.slotAt slot - 1) := at_slot.symm
    refine ⟨_, rfl, valid.writeValue _ _, ?_⟩
    rw [AssocList.upsert_of_indexOf_eq_some _ _ (indexOf_toAssoc.trans found), toAssoc_writeValue]

theorem WellFormed.indexRef [Inhabited V] (valid : m.WellFormed) (key : K) (write : V → V) :
    ∃ next pointer, m.indexRef key = some (next, pointer) ∧
      (next.writeValue pointer write).WellFormed ∧
      (next.writeValue pointer write).toAssoc =
        m.toAssoc.upsert key (write default) write := by
  rw [Map.indexRef, valid.indexOfKey_eq]
  cases found : m.position key with
  | none =>
    obtain ⟨next, adds, next_valid, entries⟩ := valid.addEntry default found
    refine ⟨next, m.entries.length, adds, next_valid.writeValue _ _, ?_⟩
    have length : m.toAssoc.length = m.entries.length := List.length_map _
    rw [toAssoc_writeValue, toAssoc, entries, List.map_append, ← toAssoc, ← length,
      AssocList.upsert_of_indexOf_eq_none _ _ (indexOf_toAssoc.trans found)]
    rw [List.modify_eq_take_cons_drop (by simp)]
    simp
  | some index =>
    refine ⟨m, index, rfl, valid.writeValue _ _, ?_⟩
    rw [AssocList.upsert_of_indexOf_eq_some _ _ (indexOf_toAssoc.trans found), toAssoc_writeValue]

theorem WellFormed.remove (valid : m.WellFormed) (key : K) :
    ∃ next, m.remove key = some (next, m.toAssoc.contains key) ∧ next.WellFormed ∧
      next.toAssoc = m.toAssoc.erase key := by
  rw [Map.remove, valid.indexOfKey_eq, AssocList.contains]
  cases found : m.position key with
  | none =>
    refine ⟨m, ?_, valid, ?_⟩
    · rw [lookup_of_position_eq_none found]
      rfl
    · rw [AssocList.erase_of_indexOf_eq_none (indexOf_toAssoc.trans found)]
  | some index =>
    obtain ⟨inside, -⟩ := position_eq_some found
    obtain ⟨entry, -, looks_up⟩ := lookup_of_position found
    let shorter : Map K V :=
      { m with entries := m.entries.eraseIdx index, count := m.count - 1 }
    have length : shorter.entries.length = m.entries.length - 1 :=
      List.length_eraseIdx_of_lt inside
    have sublist : shorter.entries.Sublist m.entries := List.eraseIdx_sublist _ _
    have room := valid.room
    obtain ⟨in_order, -⟩ := valid.placed_of_pos (by omega)
    obtain ⟨slots, slots_length, rebuilds, placed⟩ :=
      placed_rebuildSlots shorter in_order.power (by omega)
    refine ⟨{ shorter with slots := slots }, ?_, ?_, ?_⟩
    · rw [looks_up]
      change (shorter.rebuildSlots m.slots.length >>= fun m => some (m, true)) = _
      rw [rebuilds]
      rfl
    · constructor
      case counted =>
        change m.count - 1 = shorter.entries.length
        rw [length, valid.counted]
      case hashed => exact fun entry member => valid.hashed entry (sublist.subset member)
      case distinct => exact valid.distinct.sublist sublist
      case room =>
        change shorter.entries.length * 10 ≤ slots.length * 7
        omega
      case placed => exact .inr placed
    · rw [AssocList.erase_of_indexOf_eq_some (indexOf_toAssoc.trans found), toAssoc, toAssoc,
        List.eraseIdx_map]

end Updates

section Reserve

/-- Ten times the count, as the machine computes it, is at most seven times the largest capacity
whose sevenfold does not overflow. -/
def ReserveEnds (count : Int64) : Prop := count * 10 ≤ 8070450532247928832

instance (count : Int64) : Decidable (ReserveEnds count) :=
  inferInstanceAs (Decidable (count * 10 ≤ 8070450532247928832))

theorem sevenfold_capacity_le :
    ∀ turn < 64, (fun capacity : Int64 => capacity * 2)^[turn] 8 * 7 ≤ 8070450532247928832 := by
  decide

theorem capacity_toInt :
    ∀ turn < 58, ((fun capacity : Int64 => capacity * 2)^[turn] 8).toInt = 2 ^ (turn + 3) := by
  decide

theorem largest_capacity :
    (fun capacity : Int64 => capacity * 2)^[57] 8 * 7 = 8070450532247928832 := by
  decide

/-- The loop ends with a power of two. -/
theorem reserveCapacity_of_ends {count : Int64} (ends : ReserveEnds count) :
    ∃ capacity exponent, reserveCapacity count = some capacity ∧ capacity.toInt = 2 ^ exponent := by
  have leaves : ¬ (fun capacity : Int64 => capacity * 2)^[57] 8 * 7 < count * 10 := by
    rw [largest_capacity]
    exact Int64.not_lt.mpr ends
  cases runs : reserveCapacity count with
  | none =>
    have stays := loopUntil_eq_none_iff.mp runs 57 (by omega)
    simp only [if_neg leaves] at stays
    cases stays
  | some capacity =>
    obtain ⟨turn, lt, at_turn, before⟩ := exists_turn_of_loopUntil_eq_some runs
    have turn_lt : turn < 58 := by
      by_contra later
      have stays := before 57 (by omega)
      simp only [if_neg leaves] at stays
      cases stays
    refine ⟨capacity, turn + 3, rfl, ?_⟩
    split at at_turn
    · cases at_turn
    · rw [← Option.some.inj at_turn]
      exact capacity_toInt turn turn_lt

/-- The capacity wraps to 0 and stays there. -/
theorem reserveCapacity_of_not_ends {count : Int64} (runs_on : ¬ ReserveEnds count) (turns : ℕ) :
    loopUntil (fun capacity => if capacity * 7 < count * 10 then none else some capacity) (· * 2)
      turns (8 : Int64) = none := by
  apply loopUntil_eq_none_of_repeat (show 61 < 62 by omega) (show 62 ≤ 64 by omega)
    (by decide +kernel)
  apply loopUntil_eq_none_iff.mpr
  intro turn lt
  exact if_pos (Int64.lt_of_le_of_lt (sevenfold_capacity_le turn lt) (Int64.not_le.mp runs_on))

variable {K V : Type} [BEq K] [Hashable K] {m : Map K V}

theorem WellFormed.reserve (valid : m.WellFormed) {count : Int64} (ends : ReserveEnds count) :
    ∃ next, m.reserve count = some next ∧ next.WellFormed ∧ next.entries = m.entries := by
  obtain ⟨capacity, exponent, computes, power⟩ := reserveCapacity_of_ends ends
  rw [Map.reserve, computes]
  change ∃ next, (if capacity.toInt > m.slots.length then m.rebuildSlots capacity.toInt.toNat
    else some m) = some next ∧ _
  have capacity_eq : capacity.toInt.toNat = 2 ^ exponent := by
    rw [power]
    exact Int.toNat_natCast (2 ^ exponent)
  split
  · next larger =>
    have room := valid.room
    obtain ⟨next, rebuilds, next_valid, entries, -⟩ :=
      valid.rebuildSlots ⟨exponent, capacity_eq⟩ (by omega) (by omega)
    exact ⟨next, rebuilds, next_valid, entries⟩
  · exact ⟨m, rfl, valid, rfl⟩

end Reserve

end Map

end Saad
