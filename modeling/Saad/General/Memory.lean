import Mathlib.Data.BitVec

/-! # Numbers as little-endian bytes

A number of a few bytes, in two's complement and with its lowest byte first.
-/

namespace Saad.General

/-- The lowest bytes of a number. -/
def littleEndian : ℕ → ℤ → List (BitVec 8)
  | 0, _ => []
  | n + 1, value => BitVec.ofInt 8 value :: littleEndian n (value / 256)

def readUnsigned : List (BitVec 8) → ℕ
  | [] => 0
  | byte :: rest => byte.toNat + 256 * readUnsigned rest

/-- The number that the bytes are, sign extended. -/
def readSigned (bytes : List (BitVec 8)) : ℤ := (readUnsigned bytes : ℤ).bmod (256 ^ bytes.length)

variable {n : ℕ}

@[simp] theorem length_littleEndian (n : ℕ) (value : ℤ) : (littleEndian n value).length = n := by
  induction n generalizing value with
  | zero => rfl
  | succ n ih => rw [littleEndian, List.length_cons, ih]

/-- A remainder in two steps: the lowest byte, and what is above it. -/
theorem emod_byte (value m : ℤ) : value % 256 + 256 * (value / 256 % m) = value % (256 * m) := by
  have low := Int.emod_add_mul_ediv value 256
  have high := Int.emod_add_mul_ediv (value / 256) m
  have all := Int.emod_add_mul_ediv value (256 * m)
  rw [Int.ediv_ediv_of_nonneg (show (0 : ℤ) ≤ 256 by decide)] at high
  rw [Int.mul_assoc] at all
  omega

theorem readUnsigned_littleEndian (n : ℕ) (value : ℤ) :
    (readUnsigned (littleEndian n value) : ℤ) = value % 256 ^ n := by
  induction n generalizing value with
  | zero => simp [littleEndian, readUnsigned, Int.emod_one]
  | succ n ih =>
    rw [littleEndian, readUnsigned, BitVec.toNat_ofInt]
    push_cast
    rw [ih, pow_succ, Int.mul_comm (256 ^ n) 256, ← emod_byte]
    exact congrArg (· + _) (Int.toNat_of_nonneg (Int.emod_nonneg _ (by decide)))

/-- What was written in enough bytes is read back. -/
theorem readSigned_littleEndian (n : ℕ) (value : ℤ) : readSigned (littleEndian n value) = value.bmod (256 ^ n) := by
  rw [readSigned, readUnsigned_littleEndian, length_littleEndian]
  have same := Int.emod_bmod value (256 ^ n)
  push_cast at same
  exact same

end Saad.General

/-! # Byte memory

A flat memory of bytes with 64-bit addresses that wrap around, read and written in little-endian
order.
-/

namespace Saad.General

abbrev Memory := BitVec 64 → BitVec 8

/-- The `n` bytes from an address on. -/
def readMem (mem : Memory) (addr : BitVec 64) : (n : ℕ) → BitVec (8 * n)
  | 0 => 0#0
  | n + 1 => (mem (addr + BitVec.ofNat 64 n) ++ readMem mem addr n).cast (by omega)

/-- The address is one of the `n` from `addr` on. -/
def Inside (addr : BitVec 64) (n : ℕ) (at' : BitVec 64) : Prop := (at' - addr).toNat < n

instance (addr : BitVec 64) (n : ℕ) (at' : BitVec 64) : Decidable (Inside addr n at') :=
  inferInstanceAs (Decidable (_ < _))

/-- Stores `n` bytes from an address on. -/
def writeMem (mem : Memory) (addr : BitVec 64) (n : ℕ) (value : BitVec (8 * n)) : Memory :=
  fun at' => if Inside addr n at' then value.extractLsb' (8 * (at' - addr).toNat) 8 else mem at'

variable {mem : Memory} {addr : BitVec 64} {n : ℕ}

theorem getLsbD_readMem {i : ℕ} (bound : i < 8 * n) : (readMem mem addr n).getLsbD i =
    (mem (addr + BitVec.ofNat 64 (i / 8))).getLsbD (i % 8) := by
  induction n with
  | zero => omega
  | succ n ih =>
    simp only [readMem, BitVec.getLsbD_cast, BitVec.getLsbD_append]
    by_cases low : i < 8 * n
    · rw [if_pos low, ih low]
    · rw [if_neg low, show i / 8 = n by omega, show i % 8 = i - 8 * n by omega]

theorem writeMem_of_outside {value : BitVec (8 * n)} {at' : BitVec 64}
    (outside : ¬ Inside addr n at') : writeMem mem addr n value at' = mem at' := if_neg outside

theorem inside_offset {i : ℕ} (bound : i < n) :
    Inside addr n (addr + BitVec.ofNat 64 i) := by
  unfold Inside
  have cancel : addr + BitVec.ofNat 64 i - addr = BitVec.ofNat 64 i := by
    rw [BitVec.add_comm, BitVec.add_sub_cancel]
  rw [cancel, BitVec.toNat_ofNat]
  exact Nat.lt_of_le_of_lt (Nat.mod_le _ _) bound

/-- Reading what was written gives it back. -/
theorem readMem_writeMem (value : BitVec (8 * n)) (small : n ≤ 2 ^ 64) :
    readMem (writeMem mem addr n value) addr n = value := by
  apply BitVec.eq_of_getLsbD_eq
  intro i bound
  have inByte : i / 8 < n := by omega
  have cancel : addr + BitVec.ofNat 64 (i / 8) - addr = BitVec.ofNat 64 (i / 8) := by
    rw [BitVec.add_comm, BitVec.add_sub_cancel]
  rw [getLsbD_readMem bound, writeMem, if_pos (inside_offset inByte), cancel,
    BitVec.toNat_ofNat, Nat.mod_eq_of_lt (by omega), BitVec.getLsbD_extractLsb']
  simp [Nat.mod_lt i (show 0 < 8 by decide), Nat.div_add_mod]

/-- A read only depends on the bytes that it reads. -/
theorem readMem_congr {other : Memory} (same : ∀ at', Inside addr n at' → mem at' = other at') :
    readMem mem addr n = readMem other addr n := by
  apply BitVec.eq_of_getLsbD_eq
  intro i bound
  rw [getLsbD_readMem bound, getLsbD_readMem bound,
    same _ (inside_offset (show i / 8 < n by omega))]

end Saad.General
