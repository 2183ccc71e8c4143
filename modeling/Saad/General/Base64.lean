import Mathlib.Data.BitVec

/-! # Bytes as numbers of six bits

RFC 4648 takes the bytes in groups of three as four numbers of six bits. Of the bytes that are left at the end,
the bits that are missing are zeros. The other way, bits behind the last byte are left out.
-/

namespace Saad.General

section Definitions

/-- The numbers of six bits of some bytes. -/
def sextets : List (BitVec 8) → List ℕ
  | [] => []
  | [a] => [a.toNat * 16 / 64, a.toNat * 16 % 64]
  | [a, b] =>
    let n := (a.toNat * 256 + b.toNat) * 4
    [n / 4096, n / 64 % 64, n % 64]
  | a :: b :: c :: rest =>
    let n := (a.toNat * 256 + b.toNat) * 256 + c.toNat
    n / 262144 :: n / 4096 % 64 :: n / 64 % 64 :: n % 64 :: sextets rest

/-- The bytes of numbers of six bits, which are none when one number is left over. -/
def bytesOfSextets : List ℕ → Option (List (BitVec 8))
  | [] => some []
  | [_] => none
  | [p, q] => some [BitVec.ofNat 8 ((p * 64 + q) / 16)]
  | [p, q, r] =>
    let n := (p * 64 + q) * 64 + r
    some [BitVec.ofNat 8 (n / 1024), BitVec.ofNat 8 (n / 4)]
  | p :: q :: r :: s :: rest =>
    let n := ((p * 64 + q) * 64 + r) * 64 + s
    (bytesOfSextets rest).map fun bytes =>
      BitVec.ofNat 8 (n / 65536) :: BitVec.ofNat 8 (n / 256) :: BitVec.ofNat 8 n :: bytes

/-- The bits behind the last byte. -/
def looseBits : List ℕ → ℕ
  | [] => 0
  | [_] => 0
  | [_, q] => q % 16
  | [_, _, r] => r % 4
  | _ :: _ :: _ :: _ :: rest => looseBits rest

end Definitions

section Lemmas

theorem length_sextets (bytes : List (BitVec 8)) : (sextets bytes).length = (bytes.length * 4 + 2) / 3 := by
  fun_induction sextets bytes with
  | case1 => simp
  | case2 => simp
  | case3 => simp
  | case4 a b c rest n ih =>
    simp only [List.length_cons, ih]
    omega

/-- The numbers have six bits. -/
theorem sextets_lt (bytes : List (BitVec 8)) : ∀ n ∈ sextets bytes, n < 64 := by
  fun_induction sextets bytes with
  | case1 => simp
  | case2 a =>
    have small := a.isLt
    simp only [List.mem_cons, List.not_mem_nil, or_false, forall_eq_or_imp, forall_eq]
    omega
  | case3 a b n =>
    have small := a.isLt
    have small' := b.isLt
    simp only [List.mem_cons, List.not_mem_nil, or_false, forall_eq_or_imp, forall_eq]
    omega
  | case4 a b c rest n ih =>
    have small := a.isLt
    have small' := b.isLt
    have small'' := c.isLt
    simp only [List.mem_cons, forall_eq_or_imp]
    exact ⟨by omega, by omega, by omega, by omega, ih⟩

theorem ofNat_eq_of_mod {n : ℕ} {a : BitVec 8} (same : n % 256 = a.toNat) : BitVec.ofNat 8 n = a := by
  apply BitVec.eq_of_toNat_eq
  rw [BitVec.toNat_ofNat]
  exact same

/-- The bytes come back. -/
theorem bytesOfSextets_sextets (bytes : List (BitVec 8)) : bytesOfSextets (sextets bytes) = some bytes := by
  fun_induction sextets bytes with
  | case1 => rfl
  | case2 a =>
    have small := a.isLt
    have first : BitVec.ofNat 8 ((a.toNat * 16 / 64 * 64 + a.toNat * 16 % 64) / 16) = a :=
      ofNat_eq_of_mod (by omega)
    rw [bytesOfSextets, first]
  | case3 a b n =>
    have small := a.isLt
    have small' := b.isLt
    have first : BitVec.ofNat 8 (((n / 4096 * 64 + n / 64 % 64) * 64 + n % 64) / 1024) = a :=
      ofNat_eq_of_mod (by omega)
    have second : BitVec.ofNat 8 (((n / 4096 * 64 + n / 64 % 64) * 64 + n % 64) / 4) = b :=
      ofNat_eq_of_mod (by omega)
    simp only [bytesOfSextets, first, second]
  | case4 a b c rest n ih =>
    have small := a.isLt
    have small' := b.isLt
    have small'' := c.isLt
    have whole : ((n / 262144 * 64 + n / 4096 % 64) * 64 + n / 64 % 64) * 64 + n % 64 = n := by omega
    have first : BitVec.ofNat 8 (n / 65536) = a := ofNat_eq_of_mod (by omega)
    have second : BitVec.ofNat 8 (n / 256) = b := ofNat_eq_of_mod (by omega)
    have third : BitVec.ofNat 8 n = c := ofNat_eq_of_mod (by omega)
    simp only [bytesOfSextets, whole, first, second, third, ih, Option.map_some]

/-- There are bytes unless one number is left over. -/
theorem bytesOfSextets_isSome (values : List ℕ) : (bytesOfSextets values).isSome ↔ values.length % 4 ≠ 1 := by
  fun_induction bytesOfSextets values with
  | case1 => simp
  | case2 => simp
  | case3 => simp
  | case4 => simp
  | case5 p q r s rest n ih =>
    rw [Option.isSome_map, ih]
    simp only [List.length_cons]
    omega

theorem length_bytesOfSextets {values : List ℕ} {bytes : List (BitVec 8)} (decodes : bytesOfSextets values = some bytes) :
    bytes.length = values.length * 3 / 4 := by
  fun_induction bytesOfSextets values generalizing bytes with
  | case1 =>
    cases decodes
    rfl
  | case2 => cases decodes
  | case3 =>
    cases decodes
    simp
  | case4 =>
    cases decodes
    simp
  | case5 =>
    rename_i p q r s rest n ih
    obtain ⟨others, decoded, rfl⟩ := Option.map_eq_some_iff.mp decodes
    simp only [List.length_cons, ih decoded]
    omega

/-- The numbers come back when the bits behind the last byte are zeros. -/
theorem sextets_bytesOfSextets {values : List ℕ} {bytes : List (BitVec 8)} (small : ∀ n ∈ values, n < 64)
    (decodes : bytesOfSextets values = some bytes) : sextets bytes = values ↔ looseBits values = 0 := by
  fun_induction bytesOfSextets values generalizing bytes with
  | case1 =>
    cases decodes
    exact ⟨fun _ => rfl, fun _ => rfl⟩
  | case2 => cases decodes
  | case3 p q =>
    cases decodes
    simp only [List.mem_cons, List.not_mem_nil, or_false, forall_eq_or_imp, forall_eq] at small
    simp only [sextets, looseBits, BitVec.toNat_ofNat, List.cons.injEq, and_true]
    omega
  | case4 p q r =>
    cases decodes
    simp only [List.mem_cons, List.not_mem_nil, or_false, forall_eq_or_imp, forall_eq] at small
    simp only [sextets, looseBits, BitVec.toNat_ofNat, List.cons.injEq, and_true]
    omega
  | case5 =>
    rename_i p q r s rest n ih
    obtain ⟨others, decoded, rfl⟩ := Option.map_eq_some_iff.mp decodes
    simp only [List.mem_cons, forall_eq_or_imp] at small
    obtain ⟨small_p, small_q, small_r, small_s, small⟩ := small
    rw [looseBits, ← ih small decoded]
    have same : (n / 65536 % 2 ^ 8 * 256 + n / 256 % 2 ^ 8) * 256 + n % 2 ^ 8 = n := by omega
    simp only [sextets, BitVec.toNat_ofNat, List.cons.injEq, same]
    constructor
    · rintro ⟨-, -, -, -, rest⟩
      exact rest
    · intro rest
      exact ⟨by omega, by omega, by omega, by omega, rest⟩

end Lemmas

end Saad.General
