import Saad.Json.Decode

/-! # The memory a decode asks for

Each slice, list and map that a decode comes to asks for the memory of its elements, and a map for that of its
slots. The product is one of `int`s, so it wraps where it is too large.
-/

namespace Saad.Json

open General

section Ask

/-- The memory of so many elements, and one more, or of the slots of a map. -/
inductive Ask where
  | elements (count size : ℕ)
  | slots (capacity : ℕ)

/-- The size that `mem.allocate` is asked for. -/
def Ask.bytes : Ask → ℤ
  | elements count size => elementsRoom count size
  | slots capacity => allocated (int32 (int32 capacity * 8))

/-- What is written. -/
def Ask.needed : Ask → ℕ
  | elements count size => count * size
  | slots capacity => capacity * 8

/-- The product without a limit. -/
def Ask.wanted : Ask → ℕ
  | elements count size => (count + 1) * size
  | slots capacity => capacity * 8

def Ask.SizeIsInt : Ask → Prop
  | elements _ size => size < 2 ^ 31
  | slots _ => True

theorem bytes_eq (ask : Ask) : ask.bytes = allocated (int32 ask.wanted) := by
  cases ask with
  | elements count size =>
    rw [Ask.bytes, elementsRoom, int32_mul_int32, Ask.wanted]
    have product : (((count + 1) * size : ℕ) : ℤ) = ((count : ℤ) + 1) * size := by push_cast; rfl
    rw [product, ← int32_mul_int32, int32_add_int32, int32_mul_int32]
  | slots capacity =>
    rw [Ask.bytes, int32_mul_int32, Ask.wanted]
    push_cast
    rfl

theorem allocated_int32_of_big {n : ℤ} (big : 2 ^ 31 ≤ n) : allocated (int32 n) ≤ 1 ∨ allocated (int32 n) ≤ n - 2 ^ 32 := by
  have lost := int32_le_of_big big
  rw [allocated]
  split <;> omega

/-- The memory is enough just when the product is an `int`. -/
theorem Ask.needed_le_iff {ask : Ask} (size : ask.SizeIsInt) : (ask.needed : ℤ) ≤ ask.bytes ↔ ask.wanted < 2 ^ 31 := by
  rw [bytes_eq]
  constructor
  · intro enough
    by_contra big
    have lost := allocated_int32_of_big (n := (ask.wanted : ℤ)) (by omega)
    cases ask with
    | elements count each =>
      have wanted : (elements count each).wanted = count * each + each := Nat.succ_mul count each
      have needed : (elements count each).needed = count * each := rfl
      have fits : each < 2 ^ 31 := size
      rw [needed] at enough
      obtain rfl | some_ := Nat.eq_zero_or_pos count
      · omega
      · have le : each ≤ count * each := Nat.le_mul_of_pos_left each some_
        omega
    | slots capacity =>
      have same : (slots capacity).needed = (slots capacity).wanted := rfl
      omega
  · intro small
    have le : ask.needed ≤ ask.wanted := by
      cases ask with
      | elements count each => exact Nat.mul_le_mul_right each (Nat.le_succ count)
      | slots capacity => exact Nat.le_refl _
    rw [int32_of_fits (by omega) (by omega), allocated]
    split <;> omega

end Ask

section Asks

variable {F L I C : Type} [Zero C] (layout : Layout F L I C) (types : I → TypeStruct L I C) (options : Options)

/-- The loop of `assignMap` over the members. -/
def entryJobs (fields : AssocList Text (Value F)) (type : Ty L I) (place : List Step) (path : Text) :
    List (Step × Job Step C DecodeFailure) :=
  fields.mapIdx fun i field => (Step.entry i, fun contents =>
    if elementsRoom fields.length (layout.entrySize type) < ((i + 1) * layout.entrySize type : ℕ) then .error .outside
    else assign layout types options field.2 type (place ++ [.entry i]) (memberPath path field.1) contents)

/-- Reading the value into the type at the place asks for the memory. What comes before in the value has been read
without an error. -/
inductive Asks : Value F → Ty L I → List Step → Text → Contents Step C → Ask → Prop
  | elements {items : List (Value F)} {type elem : Ty L I} {place : List Step} {path : Text} {contents : Contents Step C}
      (grown : type = .slice elem ∨ type = .list elem) :
      Asks (.array items) type place path contents (.elements items.length (layout.size elem))
  | element {items : List (Value F)} {type elem : Ty L I} {place : List Step} {path : Text}
      {contents reached : Contents Step C} {i : ℕ} {item : Value F} {ask : Ask}
      (grown : type = .slice elem ∨ type = .list elem) (present : items[i]? = some item)
      (before : assignElements layout (some (elementsRoom items.length (layout.size elem)))
        ((items.take i).map (assign layout types options)) elem place path
        (contents.write place (layout.count items.length)) = .ok reached)
      (asks : Asks item elem (place ++ [.element i]) (indexPath path i) reached ask) :
      Asks (.array items) type place path contents ask
  | fixedElement {items : List (Value F)} {count : ℕ} {elem : Ty L I} {place : List Step} {path : Text}
      {contents reached : Contents Step C} {i : ℕ} {item : Value F} {ask : Ask} (room : items.length ≤ count)
      (present : items[i]? = some item)
      (before : assignElements layout none ((items.take i).map (assign layout types options)) elem place path contents =
        .ok reached)
      (asks : Asks item elem (place ++ [.element i]) (indexPath path i) reached ask) :
      Asks (.array items) (.fixed count elem) place path contents ask
  | entries {fields : AssocList Text (Value F)} {type : Ty L I} {place : List Step} {path : Text}
      {contents : Contents Step C} :
      Asks (.object fields) (.map type) place path contents (.elements fields.length (layout.entrySize type))
  | entry {fields : AssocList Text (Value F)} {type : Ty L I} {place : List Step} {path : Text}
      {contents reached : Contents Step C} {i : ℕ} {key : Text} {v : Value F} {ask : Ask}
      (present : fields[i]? = some (key, v))
      (before : runEach ((entryJobs layout types options fields type place path).take i) (contents.write place (layout.keys fields.keys)) =
        .ok reached)
      (asks : Asks v type (place ++ [.entry i]) (memberPath path key) reached ask) :
      Asks (.object fields) (.map type) place path contents ask
  | slots {fields : AssocList Text (Value F)} {type : Ty L I} {place : List Step} {path : Text}
      {contents reached : Contents Step C} {capacity : ℕ} (found : slotCapacity fields.length = some capacity)
      (before : runEach (entryJobs layout types options fields type place path) (contents.write place (layout.keys fields.keys)) = .ok reached) :
      Asks (.object fields) (.map type) place path contents (.slots capacity)
  | member {fields : AssocList Text (Value F)} {id : I} {place : List Step} {path : Text}
      {contents reached : Contents Step C} {keys : List Text} {i : ℕ} {member : StructMember L I C} {key : Text}
      {v : Value F} {ask : Ask} (named : (types id).members.mapM (StructMember.keyOf options) = some keys)
      (declared : ((types id).members.zip keys)[i]? = some (member, key)) (read : key ≠ [])
      (present : fields.lookup key = some v)
      (before : runEach (memberJobs (fields.map fun field => (field.1, assign layout types options field.2)) place path 0
        (((types id).members.zip keys).take i)) contents = .ok reached)
      (asks : Asks v member.type (place ++ [.member i]) (memberPath path key) reached ask) :
      Asks (.object fields) (.struct id) place path contents ask
  | item {v : Value F} {type : Ty L I} {place : List Step} {path : Text} {contents : Contents Step C} {ask : Ask}
      (some_ : v ≠ .null) (asks : Asks v type (place ++ [.item]) path (contents.write place layout.present) ask) :
      Asks v (.optional type) place path contents ask
  | pointee {v : Value F} {type : Ty L I} {place : List Step} {path : Text} {contents : Contents Step C} {ask : Ask}
      (some_ : v ≠ .null) (asks : Asks v type (place ++ [.pointee]) path (contents.write place layout.address) ask) :
      Asks v (.pointer type) place path contents ask

variable {layout types options}

/-- Sizes of types are `int`s. -/
def Layout.SizesAreInts (layout : Layout F L I C) : Prop :=
  ∀ type, layout.size type < 2 ^ 31 ∧ layout.entrySize type < 2 ^ 31

theorem Asks.sizeIsInt (sizes : layout.SizesAreInts) {v : Value F} {type : Ty L I} {place : List Step} {path : Text}
    {contents : Contents Step C} {ask : Ask} (asks : Asks layout types options v type place path contents ask) :
    ask.SizeIsInt := by
  induction asks with
  | @elements _ _ elem => exact (sizes elem).1
  | @entries _ type => exact (sizes type).2
  | slots => trivial
  | element _ _ _ _ ih => exact ih
  | fixedElement _ _ _ _ ih => exact ih
  | entry _ _ _ ih => exact ih
  | member _ _ _ _ _ _ ih => exact ih
  | item _ _ ih => exact ih
  | pointee _ _ ih => exact ih

variable (strtod : Text → F) (layout types options)

/-- Reading the text into a value never asks for less memory than it writes to. -/
def SizesRight (text : Text) (type : Ty L I) (value : Contents Step C) : Prop :=
  ∀ root, parse strtod text = some (.ok root) →
    ∀ ask, Asks layout types options root type [] [] value ask → (ask.needed : ℤ) ≤ ask.bytes

/-- No memory of 2^31 bytes is wanted. -/
def SizesSmall (text : Text) (type : Ty L I) (value : Contents Step C) : Prop :=
  ∀ root, parse strtod text = some (.ok root) →
    ∀ ask, Asks layout types options root type [] [] value ask → ask.wanted < 2 ^ 31

theorem sizesRight_iff (sizes : layout.SizesAreInts) (text : Text) (type : Ty L I) (value : Contents Step C) :
    SizesRight layout types options strtod text type value ↔ SizesSmall layout types options strtod text type value := by
  constructor
  · intro right root reads ask asks
    exact (Ask.needed_le_iff (asks.sizeIsInt sizes)).mp (right root reads ask asks)
  · intro small root reads ask asks
    exact (Ask.needed_le_iff (asks.sizeIsInt sizes)).mpr (small root reads ask asks)

end Asks

section Blocks

/-- A fixed array of bytes has as many bytes as elements. -/
def blockLayout : Layout ℤ Unit Unit ℤ where
  read _ _ path := .error path
  count n := n
  keys texts := texts.length
  address := 1
  present := 1
  size
    | .fixed count _ => count % 2 ^ 31
    | _ => 1
  entrySize _ := 32

def blockTypes : Unit → TypeStruct Unit Unit ℤ := fun _ => { name := [], members := [] }

theorem blockLayout_sizes : blockLayout.SizesAreInts := by
  intro type
  have entry : blockLayout.entrySize type < 2 ^ 31 := show 32 < 2 ^ 31 by decide
  have one : 1 < 2 ^ 31 := by decide
  cases type with
  | fixed count elem => exact ⟨Nat.mod_lt _ (by decide), entry⟩
  | _ => exact ⟨one, entry⟩

theorem sizesRight_iff_block :
    SizesRight blockLayout blockTypes {} (fun _ => 0) (asciiBytes "[[]]") (.slice (.fixed 16 (.leaf ()))) 0 ↔
      SizesSmall blockLayout blockTypes {} (fun _ => 0) (asciiBytes "[[]]") (.slice (.fixed 16 (.leaf ()))) 0 :=
  sizesRight_iff blockLayout blockTypes {} (fun _ => 0) blockLayout_sizes _ _ _

/-- A slice of one block of 2^30 bytes gets one byte. -/
theorem not_sizesRight : ¬ ∀ (layout : Layout ℤ Unit Unit ℤ) (types : Unit → TypeStruct Unit Unit ℤ) (options : Options)
    (strtod : Text → ℤ), layout.SizesAreInts → ∀ (text : Text) (type : Ty Unit Unit) (value : Contents Step ℤ),
      SizesRight layout types options strtod text type value := by
  intro all
  have right := all blockLayout blockTypes {} (fun _ => 0) blockLayout_sizes (asciiBytes "[[]]")
    (.slice (.fixed (2 ^ 30) (.leaf ()))) 0
  have reads : parse (fun _ => (0 : ℤ)) (asciiBytes "[[]]") = some (.ok (.array [.array []])) := rfl
  have enough := right _ reads _ (.elements (.inl rfl))
  exact absurd enough (by decide)

end Blocks

end Saad.Json
