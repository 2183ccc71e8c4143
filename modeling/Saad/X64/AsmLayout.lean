import Mathlib.Algebra.BigOperators.Intervals
import Mathlib.Algebra.Order.BigOperators.Group.Finset
import Saad.General.Memory
import Saad.General.Saturate
import Saad.General.FreshNames
import Saad.Std.Int32
import Saad.Std.Text

/-! # The layout of the text section

The assembler keeps the text as items, because a jump gets its size at the end: it starts short, and
the jumps that don't reach become long until nothing changes.
-/

namespace Saad

open General

inductive AsmRelocKind where
  | rel32
  | abs64
deriving DecidableEq, Repr

/-- A field that a linker fills in. -/
structure AsmReloc where
  offset : ℤ
  kind : AsmRelocKind
  symbol : ℕ
  addend : ℤ
  trailing : ℤ
deriving DecidableEq, Repr

/-- An item of the text: the bytes of an instruction with its relocations, or a jump to a label. A
jump without a condition is `jmp`. -/
inductive AsmItem where
  | inst (bytes : List (BitVec 8)) (relocs : List AsmReloc)
  | jump (condition : Option ℕ) (target : ℕ) (line : ℕ)
deriving DecidableEq, Repr

/-- The text as it is before the jumps have sizes. A label is before an item, or at the end. -/
structure AsmText where
  items : List AsmItem
  labelItem : ℕ → Option ℕ
  labels_le : ∀ symbol item, labelItem symbol = some item → item ≤ items.length
  symbolName : ℕ → Text

def AsmItem.size (item : AsmItem) (isShort : Bool) : ℕ :=
  match item with
  | .inst bytes _ => bytes.length
  | .jump condition _ _ => if isShort then 2 else if condition.isNone then 5 else 6

def AsmItem.relocs : AsmItem → List AsmReloc
  | .inst _ relocs => relocs
  | .jump .. => []

/-- What `asm_layout` changes: which of the jumps are short, the sizes and the offsets. -/
structure AsmLayout where
  isShort : ℕ → Bool
  sizes : List ℕ
  offsets : List ℤ

/-- The displacement of a jump, from the address after it to an item. -/
def AsmLayout.displacement (layout : AsmLayout) (i item : ℕ) : ℤ :=
  int32 (layout.offsets.getD item 0 - int32 (layout.offsets.getD i 0 + layout.sizes.getD i 0))

def fitsI8 (value : ℤ) : Bool := decide (-128 ≤ value ∧ value ≤ 127)

/-- The offsets of the items and of the end, in an `int`. -/
def asmOffsets (offset : ℤ) : List ℕ → List ℤ
  | [] => [offset]
  | size :: sizes => offset :: asmOffsets (int32 (offset + size)) sizes

namespace AsmText

variable (text : AsmText)

/-- The sizes that the first loop of a round gives the items. -/
def roundSizes (isShort : ℕ → Bool) : List ℕ :=
  text.items.mapIdx fun i item => item.size (isShort i)

/-- Whether the second loop makes the item long. -/
def leavesShort (layout : AsmLayout) (i : ℕ) : Bool :=
  match text.items[i]? with
  | some (.jump _ target _) =>
    layout.isShort i && match text.labelItem target with
      | some item => !fitsI8 (int32 (layout.offsets.getD item 0 - int32 (layout.offsets.getD i 0 + 2)))
      | none => true
  | _ => false

/-- The first loop of a round. -/
def giveSizes (layout : AsmLayout) : AsmLayout :=
  { layout with
    sizes := text.roundSizes layout.isShort
    offsets := asmOffsets 0 (text.roundSizes layout.isShort) }

/-- A round of `asm_layout`, with whether it changed anything. -/
def layoutRound (layout : AsmLayout) : AsmLayout × Bool :=
  let sized := text.giveSizes layout
  ({ sized with isShort := fun i => layout.isShort i && !text.leavesShort sized i },
    (List.range text.items.length).any (text.leavesShort sized))

/-- All jumps start short. -/
def shortLayout : AsmLayout where
  isShort := fun _ => true
  sizes := []
  offsets := []

/-- The rounds, until nothing changes. -/
def asmLayout (fuel : ℕ) : AsmLayout := saturate text.layoutRound fuel shortLayout

end AsmText

/-- What `asm_finish_text` adds to the object. -/
structure AsmFinished where
  bytes : List (BitVec 8)
  relocs : List AsmReloc
deriving DecidableEq, Repr

/-- The bytes of a jump. -/
def asmJumpBytes (condition : Option ℕ) (isShort : Bool) (displacement : ℤ) : List (BitVec 8) :=
  if isShort then
    (match condition with
      | none => 0xEB
      | some cc => BitVec.ofNat 8 (0x70 + cc)) :: littleEndian 1 displacement
  else
    (match condition with
      | none => [0xE9]
      | some cc => [0x0F, BitVec.ofNat 8 (0x80 + cc)]) ++ littleEndian 4 (int32 displacement)

namespace AsmText

variable (text : AsmText)

/-- A jump to a symbol that isn't a label of the code. -/
def jumpError (line target : ℕ) : Text :=
  cut 512 (asciiBytes "line " ++ decimalText line ++ asciiBytes ": a jump to '" ++ text.symbolName target ++
    asciiBytes "', which isn't a label of the code")

/-- The loop of `asm_finish_text` over the items, from item `i` on. -/
def finishItems (layout : AsmLayout) : ℕ → List AsmItem → AsmFinished → Except Text AsmFinished
  | _, [], done => .ok done
  | i, .jump condition target line :: rest, done =>
    match text.labelItem target with
    | none => .error (text.jumpError line target)
    | some item =>
      finishItems layout (i + 1) rest
        { done with bytes := done.bytes ++ asmJumpBytes condition (layout.isShort i) (layout.displacement i item) }
  | i, .inst bytes relocs :: rest, done =>
    let start := int32 done.bytes.length
    finishItems layout (i + 1) rest
      { bytes := done.bytes ++ bytes
        relocs := done.relocs ++ relocs.map fun reloc => { reloc with offset := int32 (start + reloc.offset) } }

/-- The text of the layout, written into an empty section. -/
def asmFinishText (fuel : ℕ) : Except Text AsmFinished :=
  text.finishItems (text.asmLayout fuel) 0 text.items { bytes := [], relocs := [] }

/-- The offset that the symbol of a label gets. -/
def labelOffset (fuel symbol : ℕ) : Option ℤ :=
  (text.labelItem symbol).map fun item => (text.asmLayout fuel).offsets.getD item 0

end AsmText

/-! ## Where the items are -/

theorem asmOffsets_getD (sizes : List ℕ) {start : ℤ} (small : int32 start = start) {i : ℕ}
    (le : i ≤ sizes.length) :
    (asmOffsets start sizes).getD i 0 = int32 (start + (∑ k ∈ Finset.range i, sizes.getD k 0 : ℕ)) := by
  induction sizes generalizing start i with
  | nil =>
    obtain rfl : i = 0 := Nat.le_zero.mp le
    simp [asmOffsets, small]
  | cons size sizes ih =>
    cases i with
    | zero => simp [asmOffsets, small]
    | succ i =>
      rw [asmOffsets, List.getD_cons_succ, ih (int32_int32 _) (Nat.le_of_succ_le_succ le), int32_add_int32,
        Finset.sum_range_succ']
      simp only [List.getD_cons_succ, List.getD_cons_zero]
      congr 1
      push_cast
      ring

namespace AsmText

variable (text : AsmText)
variable {found : AsmItem} {layout : AsmLayout} {fuel : ℕ} {rest : List AsmItem}
  {done finished : AsmFinished}

/-- The size of an item when the jumps are short or long as told. -/
def sizeAt (isShort : ℕ → Bool) (i : ℕ) : ℕ := (text.roundSizes isShort).getD i 0

/-- The number of bytes before an item. -/
def offset (isShort : ℕ → Bool) (i : ℕ) : ℕ := ∑ k ∈ Finset.range i, text.sizeAt isShort k

/-- From the address after an item to another item. -/
def distance (isShort : ℕ → Bool) (i item : ℕ) : ℤ := text.offset isShort item - text.offset isShort (i + 1)

variable {text} {isShort other : ℕ → Bool} {i item target line : ℕ} {condition : Option ℕ}

@[simp] theorem length_roundSizes : (text.roundSizes isShort).length = text.items.length := by
  rw [roundSizes, List.length_mapIdx]

theorem sizeAt_item (at_i : text.items[i]? = some found) :
    text.sizeAt isShort i = found.size (isShort i) := by
  simp [sizeAt, roundSizes, List.getD_eq_getElem?_getD, List.getElem?_mapIdx, at_i]

theorem sizeAt_beyond (beyond : text.items[i]? = none) : text.sizeAt isShort i = 0 := by
  simp [sizeAt, roundSizes, List.getD_eq_getElem?_getD, List.getElem?_mapIdx, beyond]

theorem offset_succ (i : ℕ) : text.offset isShort (i + 1) = text.offset isShort i + text.sizeAt isShort i :=
  Finset.sum_range_succ _ _

/-- The wrapped offsets of a round, by the number of bytes before the item. -/
theorem roundOffsets_getD (le : i ≤ text.items.length) :
    (asmOffsets 0 (text.roundSizes isShort)).getD i 0 = int32 (text.offset isShort i) := by
  rw [asmOffsets_getD _ rfl (by rwa [length_roundSizes]), zero_add]
  rfl

/-! ### Shorter jumps bring everything closer -/

theorem sizeAt_le (shorter : ∀ i condition target line, text.items[i]? = some (.jump condition target line) →
    other i = true → isShort i = true) (i : ℕ) : text.sizeAt isShort i ≤ text.sizeAt other i := by
  cases at_i : text.items[i]? with
  | none => rw [sizeAt_beyond at_i, sizeAt_beyond at_i]
  | some found =>
    rw [sizeAt_item at_i, sizeAt_item at_i]
    cases found with
    | inst bytes relocs => rfl
    | jump condition target line =>
      have imp := shorter i condition target line at_i
      simp only [AsmItem.size]
      split_ifs <;> simp_all

theorem distance_forward (le : i + 1 ≤ item) :
    text.distance isShort i item = (∑ k ∈ Finset.Ico (i + 1) item, text.sizeAt isShort k : ℕ) := by
  have all := Finset.sum_range_add_sum_Ico (text.sizeAt isShort) le
  rw [distance, offset, offset, ← all]
  push_cast
  ring

theorem distance_backward (le : item ≤ i) :
    text.distance isShort i item = -(∑ k ∈ Finset.Ico item (i + 1), text.sizeAt isShort k : ℕ) := by
  have all := Finset.sum_range_add_sum_Ico (text.sizeAt isShort) (Nat.le_succ_of_le le)
  rw [distance, offset, offset, ← all]
  push_cast
  ring

/-- What is near when more jumps are long is near when fewer are. -/
theorem distance_within (shorter : ∀ i, text.sizeAt isShort i ≤ text.sizeAt other i)
    (low : -128 ≤ text.distance other i item) (high : text.distance other i item ≤ 127) :
    -128 ≤ text.distance isShort i item ∧ text.distance isShort i item ≤ 127 := by
  rcases Nat.lt_or_ge i item with forward | backward
  · have le := Finset.sum_le_sum fun k (_ : k ∈ Finset.Ico (i + 1) item) => shorter k
    rw [distance_forward forward] at *
    omega
  · have le := Finset.sum_le_sum fun k (_ : k ∈ Finset.Ico item (i + 1)) => shorter k
    rw [distance_backward backward] at *
    omega

/-! ## The rounds -/

variable (text) in
/-- Every jump that is short has its label within the reach of a byte. -/
def ShortJumpsReach (isShort : ℕ → Bool) : Prop :=
  ∀ i condition target line, text.items[i]? = some (.jump condition target line) → isShort i = true →
    ∃ item, text.labelItem target = some item ∧ -128 ≤ text.distance isShort i item ∧
      text.distance isShort i item ≤ 127

variable (text) in
/-- The sizes and offsets are those of the jumps as they are now, and no jump becomes long. -/
structure Settled (layout : AsmLayout) : Prop where
  sizes_eq : layout.sizes = text.roundSizes layout.isShort
  offsets_eq : layout.offsets = asmOffsets 0 layout.sizes
  stays : ∀ i, text.leavesShort layout i = false

theorem lt_of_item (at_i : text.items[i]? = some found) : i < text.items.length :=
  (List.getElem?_eq_some_iff.mp at_i).1

/-- The displacement of the second loop, by the distance. -/
theorem roundDisplacement (at_i : text.items[i]? = some (.jump condition target line))
    (short : isShort i = true) (le : item ≤ text.items.length) :
    int32 ((asmOffsets 0 (text.roundSizes isShort)).getD item 0 -
      int32 ((asmOffsets 0 (text.roundSizes isShort)).getD i 0 + 2)) = int32 (text.distance isShort i item) := by
  have size : text.sizeAt isShort i = 2 := by
    rw [sizeAt_item at_i, AsmItem.size, if_pos short]
  rw [roundOffsets_getD le, roundOffsets_getD (lt_of_item at_i).le, int32_add_int32, int32_sub_int32,
    distance, offset_succ, size]
  push_cast
  rfl

/-- A jump that reaches under a layout with more long jumps stays short. -/
theorem leavesShort_of_reaches (layout : AsmLayout) (sizes : layout.sizes = text.roundSizes layout.isShort)
    (offsets : layout.offsets = asmOffsets 0 layout.sizes) (reach : text.ShortJumpsReach other)
    (shorter : ∀ i condition target line, text.items[i]? = some (.jump condition target line) →
      other i = true → layout.isShort i = true)
    (at_i : text.items[i]? = some (.jump condition target line)) (short : other i = true) :
    text.leavesShort layout i = false := by
  obtain ⟨item, label, low, high⟩ := reach i condition target line at_i short
  have near := distance_within (sizeAt_le shorter) low high
  have small : int32 (text.distance layout.isShort i item) = text.distance layout.isShort i item :=
    int32_of_fits (by omega) (by omega)
  rw [leavesShort, at_i]
  simp only [label, offsets, sizes]
  rw [roundDisplacement at_i (shorter i condition target line at_i short) (text.labels_le _ _ label), small, fitsI8,
    decide_eq_true near, Bool.not_true, Bool.and_false]

theorem layoutRound_isShort (layout : AsmLayout) (i : ℕ) :
    (text.layoutRound layout).1.isShort i = (layout.isShort i && !text.leavesShort (text.giveSizes layout) i) := rfl

/-- A round keeps every jump short that is short where all short jumps reach. -/
theorem layoutRound_shorter (reach : text.ShortJumpsReach other)
    (shorter : ∀ i condition target line, text.items[i]? = some (.jump condition target line) →
      other i = true → layout.isShort i = true) :
    ∀ i condition target line, text.items[i]? = some (.jump condition target line) →
      other i = true → (text.layoutRound layout).1.isShort i = true := by
  intro i condition target line at_i short
  have stays := leavesShort_of_reaches (text.giveSizes layout) rfl rfl reach shorter at_i short
  rw [layoutRound_isShort, stays, Bool.not_false, Bool.and_true]
  exact shorter i condition target line at_i short

theorem short_of_leavesShort (leaves : text.leavesShort layout i = true) :
    layout.isShort i = true ∧ i < text.items.length := by
  rw [leavesShort] at leaves
  cases at_i : text.items[i]? with
  | none => simp [at_i] at leaves
  | some found =>
    cases found with
    | inst bytes relocs => simp [at_i] at leaves
    | jump condition target line =>
      simp only [at_i, Bool.and_eq_true] at leaves
      exact ⟨leaves.1, lt_of_item at_i⟩

variable (text) in
/-- The number of items that are not short, which a round that changes something raises. -/
def longCount (layout : AsmLayout) : ℕ :=
  ((Finset.range text.items.length).filter fun i => layout.isShort i = false).card

theorem longCount_le (layout : AsmLayout) : text.longCount layout ≤ text.items.length :=
  (Finset.card_filter_le _ _).trans_eq (Finset.card_range _)

theorem longCount_lt (changed : (text.layoutRound layout).2 = true) :
    text.longCount layout < text.longCount (text.layoutRound layout).1 := by
  simp only [layoutRound, List.any_eq_true, List.mem_range] at changed
  obtain ⟨i, inside, leaves⟩ := changed
  have short : layout.isShort i = true := (short_of_leavesShort leaves).1
  have long : (text.layoutRound layout).1.isShort i = false := by
    rw [layoutRound_isShort, leaves, Bool.not_true, Bool.and_false]
  apply Finset.card_lt_card
  rw [Finset.ssubset_iff_of_subset]
  · refine ⟨i, Finset.mem_filter.mpr ⟨Finset.mem_range.mpr inside, long⟩, fun member => ?_⟩
    exact Bool.false_ne_true ((Finset.mem_filter.mp member).2.symm.trans short)
  · intro k member
    obtain ⟨inside, stillLong⟩ := Finset.mem_filter.mp member
    refine Finset.mem_filter.mpr ⟨inside, ?_⟩
    rw [layoutRound_isShort, stillLong, Bool.false_and]

/-- A round that changes nothing leaves a layout that fits together. -/
theorem settled_of_unchanged {last : AsmLayout}
    (unchanged : text.layoutRound last = (layout, false)) :
    text.Settled layout := by
  have result := congrArg Prod.fst unchanged
  have none := congrArg Prod.snd unchanged
  simp only [layoutRound] at result none
  have stays : ∀ i, text.leavesShort (text.giveSizes last) i = false := by
    intro i
    by_contra leaves
    have leaves := Bool.eq_true_of_not_eq_false leaves
    rw [List.any_eq_false] at none
    exact none i (List.mem_range.mpr (short_of_leavesShort leaves).2) leaves
  simp only [stays, Bool.not_false, Bool.and_true] at result
  subst result
  exact ⟨rfl, rfl, stays⟩

/-- A layout that fits together is the result of one more round. -/
theorem layoutRound_of_settled (settled : text.Settled layout) :
    text.layoutRound layout = (layout, false) := by
  have same : text.giveSizes layout = layout := by
    rw [giveSizes, ← settled.sizes_eq, ← settled.offsets_eq]
  have none : (List.range text.items.length).any (text.leavesShort layout) = false :=
    List.any_eq_false.mpr fun i _ => by rw [settled.stays i]; decide
  simp only [layoutRound, same, settled.stays, none, Bool.not_false, Bool.and_true]

/-- Enough rounds end with a layout that fits together. -/
theorem asmLayout_settled (enough : text.items.length < fuel) :
    text.Settled (text.asmLayout fuel) := by
  obtain ⟨last, -, unchanged⟩ := saturate_stable text.layoutRound (I := fun _ => True) (fun _ _ => trivial)
    text.longCount text.items.length longCount_le (fun _ _ => longCount_lt) fuel shortLayout trivial (by omega)
  exact settled_of_unchanged unchanged

theorem asmLayout_more (enough : text.items.length < fuel) :
    text.asmLayout fuel = text.asmLayout (text.items.length + 1) :=
  saturate_more text.layoutRound text.longCount text.items.length longCount_le (fun _ => longCount_lt) enough _
    (by omega)

/-- No jump is long that is short in some layout in which the short jumps reach. -/
theorem asmLayout_shorter (fuel : ℕ) (reach : text.ShortJumpsReach other) :
    ∀ i condition target line, text.items[i]? = some (.jump condition target line) → other i = true →
      (text.asmLayout fuel).isShort i = true :=
  saturate_invariant (I := fun layout => ∀ i condition target line,
    text.items[i]? = some (.jump condition target line) → other i = true → layout.isShort i = true)
    (fun _ => layoutRound_shorter reach) fuel shortLayout fun _ _ _ _ _ _ => rfl

/-! ## The written text -/

/-- The bytes of the item, where its label is known. -/
def itemBytes (text : AsmText) (layout : AsmLayout) (i : ℕ) : AsmItem → Option (List (BitVec 8))
  | .inst bytes _ => some bytes
  | .jump condition target _ => (text.labelItem target).map fun item =>
      asmJumpBytes condition (layout.isShort i) (layout.displacement i item)

theorem displacement_settled (settled : text.Settled layout) (inside : i < text.items.length)
    (le : item ≤ text.items.length) :
    layout.displacement i item = int32 (text.distance layout.isShort i item) := by
  have size : layout.sizes.getD i 0 = text.sizeAt layout.isShort i := by rw [settled.sizes_eq, sizeAt]
  rw [AsmLayout.displacement, size, settled.offsets_eq, settled.sizes_eq, roundOffsets_getD le, roundOffsets_getD inside.le,
    int32_add_int32, int32_sub_int32, distance, offset_succ]
  push_cast
  rfl

theorem length_asmJumpBytes (condition : Option ℕ) (target line : ℕ) (short : Bool) (displacement : ℤ) :
    (asmJumpBytes condition short displacement).length = (AsmItem.jump condition target line).size short := by
  cases condition <;> cases short <;> simp [asmJumpBytes, AsmItem.size]

theorem length_itemBytes {bytes : List (BitVec 8)} (at_i : text.items[i]? = some found)
    (written : text.itemBytes layout i found = some bytes) :
    bytes.length = text.sizeAt layout.isShort i := by
  rw [sizeAt_item at_i]
  cases found with
  | inst inner relocs =>
    obtain rfl : inner = bytes := Option.some.inj written
    rfl
  | jump condition target line =>
    obtain ⟨item, -, rfl⟩ := Option.map_eq_some_iff.mp written
    exact length_asmJumpBytes condition _ _ _ _

/-- One item of the loop: its label is known, and its bytes come behind what is there. -/
theorem finishItems_cons (finishes : text.finishItems layout i (found :: rest) done = .ok finished) :
    ∃ bytes next, text.itemBytes layout i found = some bytes ∧ next.bytes = done.bytes ++ bytes ∧
      text.finishItems layout (i + 1) rest next = .ok finished := by
  cases found with
  | inst bytes relocs => exact ⟨bytes, _, rfl, rfl, finishes⟩
  | jump condition target line =>
    cases label : text.labelItem target with
    | none => simp [finishItems, label] at finishes
    | some item =>
      simp only [finishItems, label] at finishes
      exact ⟨_, _, by rw [itemBytes, label]; rfl, rfl, finishes⟩

theorem finishItems_appends (finishes : text.finishItems layout i rest done = .ok finished) :
    ∃ added, finished.bytes = done.bytes ++ added := by
  induction rest generalizing i done with
  | nil =>
    obtain rfl : done = finished := Except.ok.inj finishes
    exact ⟨[], (List.append_nil _).symm⟩
  | cons found rest ih =>
    obtain ⟨bytes, next, -, grown, finishes⟩ := finishItems_cons finishes
    obtain ⟨added, result⟩ := ih finishes
    exact ⟨bytes ++ added, by rw [result, grown, List.append_assoc]⟩

/-- Every item's bytes stand in the text, behind the bytes of the items before it. -/
theorem finishItems_places (tail : text.items.drop i = rest)
    (length : done.bytes.length = text.offset layout.isShort i)
    (finishes : text.finishItems layout i rest done = .ok finished) {k : ℕ} (le : i ≤ k)
    (at_k : text.items[k]? = some found) :
    ∃ before bytes after, finished.bytes = before ++ bytes ++ after ∧
      before.length = text.offset layout.isShort k ∧ text.itemBytes layout k found = some bytes := by
  induction rest generalizing i done with
  | nil =>
    have := List.drop_eq_nil_iff.mp tail
    have := lt_of_item at_k
    omega
  | cons first rest ih =>
    have at_i : text.items[i]? = some first := by
      rw [← List.head?_drop, tail, List.head?_cons]
    obtain ⟨bytes, next, written, grown, finishes⟩ := finishItems_cons finishes
    rcases Nat.eq_or_lt_of_le le with rfl | later
    · obtain rfl : first = found := Option.some.inj (at_i.symm.trans at_k)
      obtain ⟨added, result⟩ := finishItems_appends finishes
      exact ⟨done.bytes, bytes, added, by rw [result, grown], length, written⟩
    · apply ih _ _ finishes later
      · rw [← List.tail_drop, tail, List.tail_cons]
      · rw [grown, List.length_append, length, length_itemBytes at_i written, offset_succ]

/-- The relocations of the items, moved to where the items stand. -/
theorem finishItems_relocs (tail : text.items.drop i = rest)
    (length : done.bytes.length = text.offset layout.isShort i)
    (finishes : text.finishItems layout i rest done = .ok finished) :
    finished.relocs = done.relocs ++ (rest.zipIdx i).flatMap fun entry =>
      entry.1.relocs.map fun reloc => { reloc with offset := int32 (text.offset layout.isShort entry.2 + reloc.offset) } := by
  induction rest generalizing i done with
  | nil =>
    obtain rfl : done = finished := Except.ok.inj finishes
    exact (List.append_nil _).symm
  | cons found rest ih =>
    have at_i : text.items[i]? = some found := by
      rw [← List.head?_drop, tail, List.head?_cons]
    have tail_rest : text.items.drop (i + 1) = rest := by
      rw [← List.tail_drop, tail, List.tail_cons]
    have next_length {bytes : List (BitVec 8)} (written : text.itemBytes layout i found = some bytes) :
        (done.bytes ++ bytes).length = text.offset layout.isShort (i + 1) := by
      rw [List.length_append, length, length_itemBytes at_i written, offset_succ]
    rw [List.zipIdx_cons, List.flatMap_cons]
    cases found with
    | inst bytes relocs =>
      rw [ih tail_rest (next_length rfl) finishes, List.append_assoc, length]
      simp only [AsmItem.relocs, int32_add_int32]
    | jump condition target line =>
      cases label : text.labelItem target with
      | none => simp [finishItems, label] at finishes
      | some item =>
        simp only [finishItems, label] at finishes
        apply ih tail_rest _ finishes
        apply next_length
        rw [itemBytes, label]
        rfl

/-- When every jump's label is known, the text is written. -/
theorem finishItems_ok
    (known : ∀ condition target line, AsmItem.jump condition target line ∈ rest → (text.labelItem target).isSome) :
    ∃ finished, text.finishItems layout i rest done = .ok finished := by
  induction rest generalizing i done with
  | nil => exact ⟨done, rfl⟩
  | cons found rest ih =>
    have later := fun condition target line member => known condition target line (List.mem_cons_of_mem _ member)
    cases found with
    | inst bytes relocs => exact ih later
    | jump condition target line =>
      obtain ⟨item, label⟩ := Option.isSome_iff_exists.mp (known condition target line (List.mem_cons_self ..))
      simp only [finishItems, label]
      exact ih later

end AsmText

/-- Some bytes at an address of the text. -/
def bytesAt (bytes : List (BitVec 8)) (address count : ℕ) : List (BitVec 8) := (bytes.drop address).take count

theorem bytesAt_append {before bytes after : List (BitVec 8)} {address count : ℕ} (skipped : ℕ)
    (start : before.length + skipped = address) (inside : skipped + count ≤ bytes.length) :
    bytesAt (before ++ bytes ++ after) address count = (bytes.drop skipped).take count := by
  subst start
  rw [bytesAt, List.append_assoc, List.drop_append, List.drop_eq_nil_of_le (Nat.le_add_right _ _), List.nil_append,
    Nat.add_sub_cancel_left, List.drop_append_of_le_length (by omega), List.take_append_of_le_length]
  rw [List.length_drop]
  omega

namespace AsmText

variable {text : AsmText} {i item target line : ℕ} {condition : Option ℕ}

/-- The bytes of a jump's displacement: 1 or 4. -/
def fieldWidth (isShort : Bool) : ℕ := if isShort then 1 else 4

variable (text) in
/-- The displacement of a jump in the written text, sign extended from its bytes in front of the
address after the jump. -/
def writtenDisplacement (isShort : ℕ → Bool) (bytes : List (BitVec 8)) (i : ℕ) : ℤ :=
  readSigned (bytesAt bytes (text.offset isShort (i + 1) - fieldWidth (isShort i)) (fieldWidth (isShort i)))

/-- The field is the last part of a jump's bytes. -/
theorem drop_asmJumpBytes (condition : Option ℕ) (short : Bool) (displacement : ℤ) :
    (asmJumpBytes condition short displacement).drop
      ((AsmItem.jump condition target line).size short - fieldWidth short) =
      if short then littleEndian 1 displacement else littleEndian 4 (int32 displacement) := by
  cases condition <;> cases short <;> rfl

theorem fieldWidth_le (condition : Option ℕ) (target line : ℕ) (short : Bool) :
    fieldWidth short ≤ (AsmItem.jump condition target line).size short := by
  cases condition <;> cases short <;> exact Nat.le_of_ble_eq_true rfl

/-- A number that fits the field is read back from it. -/
theorem readSigned_field {short : Bool} {displacement : ℤ} (wrapped : int32 displacement = displacement)
    (reach : short = true → -128 ≤ displacement ∧ displacement ≤ 127) :
    readSigned (if short then littleEndian 1 displacement else littleEndian 4 (int32 displacement)) = displacement := by
  cases short with
  | false => exact (readSigned_littleEndian 4 _).trans ((int32_int32 displacement).trans wrapped)
  | true =>
    have near := reach rfl
    refine (readSigned_littleEndian 1 displacement).trans ?_
    apply Int.bmod_eq_of_le <;> simp <;> omega

/-- A short jump of a layout that fits together has its label, within the reach of a byte as far as
the wrapped numbers tell. -/
theorem short_near {layout : AsmLayout} (settled : text.Settled layout)
    (at_i : text.items[i]? = some (.jump condition target line)) (label : text.labelItem target = some item)
    (short : layout.isShort i = true) :
    -128 ≤ int32 (text.distance layout.isShort i item) ∧ int32 (text.distance layout.isShort i item) ≤ 127 := by
  have stays := settled.stays i
  rw [leavesShort, at_i, settled.offsets_eq, settled.sizes_eq] at stays
  simp only [label, roundDisplacement at_i short (text.labels_le _ _ label), short, Bool.true_and,
    Bool.not_eq_false'] at stays
  exact of_decide_eq_true stays

/-- What a jump's field says in the written text: the distance, in an `int`. -/
theorem writtenDisplacement_eq {fuel : ℕ} {finished : AsmFinished} (enough : text.items.length < fuel)
    (finishes : text.asmFinishText fuel = .ok finished)
    (at_i : text.items[i]? = some (.jump condition target line)) :
    ∃ item, text.labelItem target = some item ∧
      text.writtenDisplacement (text.asmLayout fuel).isShort finished.bytes i =
        int32 (text.distance (text.asmLayout fuel).isShort i item) := by
  have settled := text.asmLayout_settled enough
  obtain ⟨before, bytes, after, whole, start, written⟩ :=
    finishItems_places rfl rfl finishes (Nat.zero_le i) at_i
  obtain ⟨item, label, rfl⟩ := Option.map_eq_some_iff.mp written
  refine ⟨item, label, ?_⟩
  have le := fieldWidth_le condition target line ((text.asmLayout fuel).isShort i)
  have length := length_asmJumpBytes condition target line
    ((text.asmLayout fuel).isShort i) ((text.asmLayout fuel).displacement i item)
  have field : bytesAt finished.bytes
      (text.offset (text.asmLayout fuel).isShort (i + 1) - fieldWidth ((text.asmLayout fuel).isShort i))
      (fieldWidth ((text.asmLayout fuel).isShort i)) =
      ((asmJumpBytes condition ((text.asmLayout fuel).isShort i) ((text.asmLayout fuel).displacement i item)).drop
        ((AsmItem.jump condition target line).size ((text.asmLayout fuel).isShort i) -
          fieldWidth ((text.asmLayout fuel).isShort i))).take (fieldWidth ((text.asmLayout fuel).isShort i)) := by
    rw [whole]
    apply bytesAt_append
    · rw [start, offset_succ, sizeAt_item at_i]
      omega
    · rw [length]
      omega
  have all : ∀ short : Bool, ((if short then littleEndian 1 ((text.asmLayout fuel).displacement i item) else
      littleEndian 4 (int32 ((text.asmLayout fuel).displacement i item))).take (fieldWidth short)) =
      if short then littleEndian 1 ((text.asmLayout fuel).displacement i item) else
        littleEndian 4 (int32 ((text.asmLayout fuel).displacement i item)) := by
    intro short
    cases short <;> exact List.take_of_length_le (by rw [fieldWidth]; simp)
  have value := displacement_settled settled (lt_of_item at_i) (text.labels_le _ _ label)
  rw [writtenDisplacement, field, drop_asmJumpBytes, all, readSigned_field _ _, value]
  · rw [value, int32_int32]
  · rw [value]
    exact short_near settled at_i label

/-! ## The smallest layout -/

/-- What the layout and the written text promise. -/
structure LaidOut (text : AsmText) (fuel : ℕ) : Prop where
  /-- The rounds have ended by themselves. -/
  ended : text.layoutRound (text.asmLayout fuel) = (text.asmLayout fuel, false) ∧
    ∀ more ≥ fuel, text.asmLayout more = text.asmLayout fuel
  /-- No other layout in which the short jumps reach has a jump short that is long here. -/
  smallest : ∀ other, text.ShortJumpsReach other → ∀ i condition target line,
    text.items[i]? = some (.jump condition target line) → other i = true →
      (text.asmLayout fuel).isShort i = true
  /-- The items stand one after the other. -/
  placed : ∀ finished, text.asmFinishText fuel = .ok finished → ∀ i bytes relocs,
    text.items[i]? = some (.inst bytes relocs) →
      bytesAt finished.bytes (text.offset (text.asmLayout fuel).isShort i) bytes.length = bytes
  /-- Every jump has a label, and its field leads there when the label is near enough for 32 bits. -/
  arrives : ∀ finished, text.asmFinishText fuel = .ok finished → ∀ i condition target line,
    text.items[i]? = some (.jump condition target line) → ∃ item, text.labelItem target = some item ∧
      (text.writtenDisplacement (text.asmLayout fuel).isShort finished.bytes i +
          text.offset (text.asmLayout fuel).isShort (i + 1) = text.offset (text.asmLayout fuel).isShort item ↔
        -2 ^ 31 ≤ text.distance (text.asmLayout fuel).isShort i item ∧
          text.distance (text.asmLayout fuel).isShort i item < 2 ^ 31)
  /-- A short jump's field is within the reach of a byte. -/
  near : ∀ finished, text.asmFinishText fuel = .ok finished → ∀ i condition target line,
    text.items[i]? = some (.jump condition target line) → (text.asmLayout fuel).isShort i = true →
      -128 ≤ text.writtenDisplacement (text.asmLayout fuel).isShort finished.bytes i ∧
        text.writtenDisplacement (text.asmLayout fuel).isShort finished.bytes i ≤ 127

/-- A label's symbol gets the number of bytes before its item, and the relocations move with their instructions. -/
theorem asmFinishText_places (text : AsmText) {fuel : ℕ} (enough : text.items.length < fuel) {finished : AsmFinished}
    (finishes : text.asmFinishText fuel = .ok finished) :
    (∀ symbol, text.labelOffset fuel symbol =
      (text.labelItem symbol).map fun item => int32 (text.offset (text.asmLayout fuel).isShort item)) ∧
    finished.relocs = text.items.zipIdx.flatMap fun entry => entry.1.relocs.map fun reloc =>
      { reloc with offset := int32 (text.offset (text.asmLayout fuel).isShort entry.2 + reloc.offset) } := by
  have settled := text.asmLayout_settled enough
  refine ⟨fun symbol => Option.map_congr fun item label => ?_, finishItems_relocs rfl rfl finishes⟩
  rw [settled.offsets_eq, settled.sizes_eq, roundOffsets_getD (text.labels_le _ _ label)]

/-- Two instructions, of which the second has a field for the linker. -/
def linkedText : AsmText where
  items := [.inst [0x90] [], .inst [0xE8, 0, 0, 0, 0] [⟨1, .rel32, 0, 0, 0⟩]]
  labelItem := fun _ => some 1
  labels_le := fun _ _ label => by cases label; decide
  symbolName := fun _ => []

theorem asmFinishText_places_linkedText : ∃ finished, linkedText.asmFinishText 3 = .ok finished ∧
    linkedText.labelOffset 3 0 = some 1 ∧ finished.relocs = [⟨2, .rel32, 0, 0, 0⟩] := by
  have places := linkedText.asmFinishText_places (show linkedText.items.length < 3 by decide) rfl
  exact ⟨_, rfl, (places.1 0).trans (by decide), places.2.trans (by decide)⟩

/-- A jump over an instruction of 2 GiB, to the end of the text. -/
def hugeText : AsmText where
  items := [.jump none 0 1, .inst (List.replicate (2 ^ 31) 0x90) []]
  labelItem := fun symbol => if symbol = 0 then some 2 else none
  labels_le := by
    intro symbol item label
    split at label
    · exact (Option.some.inj label).ge
    · cases label
  symbolName := fun _ => []

end AsmText

end Saad
