import Saad.General.Base64
import Saad.Std.Quoted

/-! # Base64

`base64.encode` and `base64.decode`. Each gives none when the loop of a builder that grows doesn't end.
-/

namespace Saad.Base64

section Encoding

def alphabet : Text := asciiBytes "ABCDEFGHIJKLMNOPQRSTUVWXYZabcdefghijklmnopqrstuvwxyz0123456789+/"

def urlAlphabet : Text := asciiBytes "ABCDEFGHIJKLMNOPQRSTUVWXYZabcdefghijklmnopqrstuvwxyz0123456789-_"

/-- The character of six bits of a number. -/
def charAt (alphabet : Text) (n : BitVec 32) (shift : ℕ) : BitVec 8 := alphabet[((n >>> shift) &&& 63).toNat]?.getD 0

/-- The loop over three bytes at a time, and what is left at the end. -/
def encodeFrom (alphabet : Text) (url : Bool) : Text → StringBuilder → Option StringBuilder
  | a :: b :: c :: rest, sb => do
    let n := (a.setWidth 32 <<< 16) ||| (b.setWidth 32 <<< 8) ||| c.setWidth 32
    let sb ← sb.addChar (charAt alphabet n 18)
    let sb ← sb.addChar (charAt alphabet n 12)
    let sb ← sb.addChar (charAt alphabet n 6)
    let sb ← sb.addChar (charAt alphabet n 0)
    encodeFrom alphabet url rest sb
  | [a], sb => do
    let n := a.setWidth 32 <<< 16
    let sb ← sb.addChar (charAt alphabet n 18)
    let sb ← sb.addChar (charAt alphabet n 12)
    if url then some sb else sb.addString (asciiBytes "==")
  | [a, b], sb => do
    let n := (a.setWidth 32 <<< 16) ||| (b.setWidth 32 <<< 8)
    let sb ← sb.addChar (charAt alphabet n 18)
    let sb ← sb.addChar (charAt alphabet n 12)
    let sb ← sb.addChar (charAt alphabet n 6)
    if url then some sb else sb.addChar (byteOf '=')
  | [], sb => some sb

def encode (data : Text) (url : Bool) : Option Text := do
  let sb ← newStringBuilder (int32 (int32 ((int32 (int32 data.length + 2)).tdiv 3 * 4) + 1))
  let sb ← encodeFrom (if url then urlAlphabet else alphabet) url data sb
  some sb.text

end Encoding

section Decoding

/-- The value of a character, which is -1 when it is in neither alphabet. -/
def sextet (ch : BitVec 8) : ℤ :=
  if byteOf 'A' ≤ ch ∧ ch ≤ byteOf 'Z' then (ch - byteOf 'A').toNat
  else if byteOf 'a' ≤ ch ∧ ch ≤ byteOf 'z' then (ch - byteOf 'a').toNat + 26
  else if byteOf '0' ≤ ch ∧ ch ≤ byteOf '9' then (ch - byteOf '0').toNat + 52
  else if ch = byteOf '+' ∨ ch = byteOf '-' then 62
  else if ch = byteOf '/' ∨ ch = byteOf '_' then 63
  else -1

structure DecodeState where
  sb : StringBuilder
  bits : BitVec 32 := 0
  count : ℕ := 0
  padding : ℤ := 0
deriving DecidableEq

/-- The byte of a number of bits at a shift. -/
def byteAtShift (bits : BitVec 32) (shift : ℕ) : BitVec 8 := ((bits >>> shift) &&& 255).setWidth 8

/-- A value that is read. A fourth one makes three bytes. -/
def DecodeState.add (state : DecodeState) (value : ℤ) : Option DecodeState :=
  let bits := (state.bits <<< 6) ||| BitVec.ofInt 32 value
  let count := state.count + 1
  if count = 4 then do
    let sb ← state.sb.addChar (byteAtShift bits 16)
    let sb ← sb.addChar (byteAtShift bits 8)
    let sb ← sb.addChar (byteAtShift bits 0)
    some { state with sb := sb, bits := 0, count := 0 }
  else some { state with bits := bits, count := count }

/-- The loop over the characters. An inner none is a text that isn't base64. -/
def decodeFrom : Text → DecodeState → Option (Option DecodeState)
  | [], state => some (some state)
  | ch :: rest, state =>
    if ch = byteOf '=' then decodeFrom rest { state with padding := int32 (state.padding + 1) }
    else if state.padding > 0 then some none
    else if sextet ch < 0 then some none
    else do
      let state ← state.add (sextet ch)
      decodeFrom rest state

/-- What is left of a group at the end. -/
def decodeEnd (state : DecodeState) : Option (Text × Bool) :=
  if state.count = 1 ∨ state.padding > 2 then some ([], false)
  else if state.count = 2 then do
    let sb ← state.sb.addChar (byteAtShift state.bits 4)
    some (sb.text, true)
  else if state.count = 3 then do
    let sb ← state.sb.addChar (byteAtShift state.bits 10)
    let sb ← sb.addChar (byteAtShift state.bits 2)
    some (sb.text, true)
  else some (state.sb.text, true)

def decode (text : Text) : Option (Text × Bool) := do
  let sb ← newStringBuilder (int32 ((int32 text.length).tdiv 4 * 3 + 3))
  match ← decodeFrom text { sb := sb } with
  | some state => decodeEnd state
  | none => some ([], false)

end Decoding

end Saad.Base64

/-! # Base64 is that of RFC 4648

What `encode` writes is the encoding of RFC 4648, as far as a builder has room for it, and `decode` gives the
bytes of it back.
-/

namespace Saad.Base64

open General

section Words

variable {a b c : BitVec 8}

theorem toNat_three (a b c : BitVec 8) :
    ((a.setWidth 32 <<< 16) ||| (b.setWidth 32 <<< 8) ||| c.setWidth 32).toNat =
      (a.toNat * 256 + b.toNat) * 256 + c.toNat := by
  have small_a := a.isLt
  have small_b := b.isLt
  have small_c := c.isLt
  have front : a.toNat <<< 16 ||| b.toNat <<< 8 = (a.toNat * 256 + b.toNat) <<< 8 := by
    rw [← Nat.shiftLeft_add_eq_or_of_lt (by rw [Nat.shiftLeft_eq]; omega)]
    simp only [Nat.shiftLeft_eq]
    omega
  have whole : (a.toNat * 256 + b.toNat) <<< 8 ||| c.toNat = (a.toNat * 256 + b.toNat) * 256 + c.toNat := by
    rw [← Nat.shiftLeft_add_eq_or_of_lt (by omega), Nat.shiftLeft_eq]
  have narrow_a : a.toNat <<< 16 % 2 ^ 32 = a.toNat <<< 16 := Nat.mod_eq_of_lt (by rw [Nat.shiftLeft_eq]; omega)
  have narrow_b : b.toNat <<< 8 % 2 ^ 32 = b.toNat <<< 8 := Nat.mod_eq_of_lt (by rw [Nat.shiftLeft_eq]; omega)
  simp only [BitVec.toNat_or, BitVec.toNat_shiftLeft, BitVec.toNat_setWidth]
  rw [Nat.mod_eq_of_lt (show a.toNat < 2 ^ 32 by omega), Nat.mod_eq_of_lt (show b.toNat < 2 ^ 32 by omega),
    Nat.mod_eq_of_lt (show c.toNat < 2 ^ 32 by omega), narrow_a, narrow_b, front, whole]

/-- Six bits of a number, as a place of the alphabet. -/
theorem charAt_eq (alphabet : Text) (n : BitVec 32) (shift : ℕ) :
    charAt alphabet n shift = alphabet[n.toNat / 2 ^ shift % 64]?.getD 0 := by
  have bits : ((n >>> shift) &&& 63).toNat = n.toNat / 2 ^ shift % 64 := by
    rw [BitVec.toNat_and, BitVec.toNat_ushiftRight, Nat.shiftRight_eq_div_pow]
    exact Nat.and_two_pow_sub_one_eq_mod _ 6
  rw [charAt, bits]

theorem toNat_two (a b : BitVec 8) :
    ((a.setWidth 32 <<< 16) ||| (b.setWidth 32 <<< 8)).toNat = (a.toNat * 256 + b.toNat) * 256 := by
  have whole := toNat_three a b 0
  rw [show (0 : BitVec 8).setWidth 32 = 0 from rfl] at whole
  simpa using whole

theorem toNat_one (a : BitVec 8) : (a.setWidth 32 <<< 16).toNat = a.toNat * 65536 := by
  have whole := toNat_two a 0
  rw [show (0 : BitVec 8).setWidth 32 <<< 8 = 0 from rfl, show (0 : BitVec 8).toNat = 0 from rfl] at whole
  rw [show a.toNat * 65536 = (a.toNat * 256 + 0) * 256 by omega, ← whole]
  exact congrArg BitVec.toNat BitVec.or_zero.symm

end Words

section Texts

def alphabetOf (url : Bool) : Text := if url then urlAlphabet else alphabet

/-- The characters of the encoding, without padding. -/
def rfcChars (data : Text) (url : Bool) : Text := (sextets data).map fun n => (alphabetOf url)[n]?.getD 0

/-- The padding to a multiple of four characters. -/
def rfcPadding (data : Text) : Text := List.replicate ((3 - data.length % 3) % 3) (byteOf '=')

/-- The encoding of RFC 4648, with padding for the alphabet that isn't that of urls. -/
def rfcText (data : Text) (url : Bool) : Text := rfcChars data url ++ if url then [] else rfcPadding data

theorem length_rfcChars (data : Text) (url : Bool) : (rfcChars data url).length = (data.length * 4 + 2) / 3 := by
  rw [rfcChars, List.length_map, length_sextets]

theorem length_rfcText (data : Text) (url : Bool) :
    (rfcText data url).length ≤ (data.length + 2) / 3 * 4 := by
  have chars := length_rfcChars data url
  unfold rfcText rfcPadding
  cases url
  · rw [if_neg (by decide), List.length_append, List.length_replicate, chars]
    obtain left | left | left : data.length % 3 = 0 ∨ data.length % 3 = 1 ∨ data.length % 3 = 2 := by omega
    all_goals
      rw [left]
      omega
  · rw [if_pos rfl, List.append_nil, chars]
    omega

end Texts

section Encoding

variable {sb grown : StringBuilder} {data : Text} {url : Bool} {a b c : BitVec 8}

theorem rfcChars_three : rfcChars (a :: b :: c :: data) url = rfcChars [a, b, c] url ++ rfcChars data url := rfl

theorem rfcText_three : rfcText (a :: b :: c :: data) url = rfcChars [a, b, c] url ++ rfcText data url := by
  rw [rfcText, rfcText, rfcChars_three, List.append_assoc, rfcPadding, rfcPadding]
  simp only [List.length_cons, Nat.add_assoc, Nat.reduceAdd, Nat.add_mod_right]

theorem encodeFrom_three : encodeFrom (alphabetOf url) url (a :: b :: c :: data) sb =
    (rfcChars [a, b, c] url).foldlM StringBuilder.addChar sb >>= encodeFrom (alphabetOf url) url data := by
  have small_a := a.isLt
  have small_b := b.isLt
  have small_c := c.isLt
  have first : ((a.toNat * 256 + b.toNat) * 256 + c.toNat) / 262144 % 64 =
      ((a.toNat * 256 + b.toNat) * 256 + c.toNat) / 262144 := by omega
  rw [encodeFrom]
  simp only [charAt_eq, toNat_three, rfcChars, sextets, List.map_cons, List.map_nil, List.foldlM_cons, List.foldlM_nil,
    bind_assoc, pure_bind, pow_zero, Nat.div_one, Nat.reducePow, first]

theorem encodeFrom_two : encodeFrom (alphabetOf url) url [a, b] sb =
    (rfcChars [a, b] url).foldlM StringBuilder.addChar sb >>= fun sb =>
      if url then some sb else sb.addChar (byteOf '=') := by
  have small_a := a.isLt
  have small_b := b.isLt
  have first : (a.toNat * 256 + b.toNat) * 256 / 2 ^ 18 % 64 = (a.toNat * 256 + b.toNat) * 4 / 4096 := by omega
  have second : (a.toNat * 256 + b.toNat) * 256 / 2 ^ 12 % 64 = (a.toNat * 256 + b.toNat) * 4 / 64 % 64 := by omega
  have third : (a.toNat * 256 + b.toNat) * 256 / 2 ^ 6 % 64 = (a.toNat * 256 + b.toNat) * 4 % 64 := by omega
  rw [encodeFrom]
  simp only [charAt_eq, toNat_two, first, second, third, rfcChars, sextets, List.map_cons, List.map_nil,
    List.foldlM_cons, List.foldlM_nil, bind_assoc, pure_bind]

theorem encodeFrom_one : encodeFrom (alphabetOf url) url [a] sb =
    (rfcChars [a] url).foldlM StringBuilder.addChar sb >>= fun sb =>
      if url then some sb else sb.addString (asciiBytes "==") := by
  have small := a.isLt
  have first : a.toNat * 65536 / 2 ^ 18 % 64 = a.toNat * 16 / 64 := by omega
  have second : a.toNat * 65536 / 2 ^ 12 % 64 = a.toNat * 16 % 64 := by omega
  rw [encodeFrom]
  simp only [charAt_eq, toNat_one, first, second, rfcChars, sextets, List.map_cons, List.map_nil,
    List.foldlM_cons, List.foldlM_nil, bind_assoc, pure_bind]

/-- The steps of the loop add the encoding behind what is there. -/
theorem encodeFrom_text (sound : sb.Sound) (encodes : encodeFrom (alphabetOf url) url data sb = some grown) :
    grown.Sound ∧ grown.text = sb.text ++ rfcText data url := by
  induction data using sextets.induct generalizing sb with
  | case1 =>
    cases encodes
    cases url <;> exact ⟨sound, (List.append_nil _).symm⟩
  | case2 a =>
    rw [encodeFrom_one] at encodes
    obtain ⟨middle, adds, pads⟩ := Option.bind_eq_some_iff.mp encodes
    obtain ⟨middleSound, middleText⟩ := sound.addChars adds
    cases url
    · rw [if_neg (by decide)] at pads
      refine ⟨middleSound.addString pads, ?_⟩
      rw [StringBuilder.text_addString (by decide) pads, middleText, List.append_assoc]
      rfl
    · cases pads
      refine ⟨middleSound, ?_⟩
      rw [middleText, rfcText, if_pos rfl, List.append_nil]
  | case3 a b =>
    rw [encodeFrom_two] at encodes
    obtain ⟨middle, adds, pads⟩ := Option.bind_eq_some_iff.mp encodes
    obtain ⟨middleSound, middleText⟩ := sound.addChars adds
    cases url
    · rw [if_neg (by decide)] at pads
      refine ⟨middleSound.addChar pads, ?_⟩
      rw [StringBuilder.text_addChar pads, middleText, List.append_assoc]
      rfl
    · cases pads
      refine ⟨middleSound, ?_⟩
      rw [middleText, rfcText, if_pos rfl, List.append_nil]
  | case4 a b c rest ih =>
    rw [encodeFrom_three] at encodes
    obtain ⟨middle, adds, others⟩ := Option.bind_eq_some_iff.mp encodes
    obtain ⟨middleSound, middleText⟩ := sound.addChars adds
    obtain ⟨grownSound, text⟩ := ih middleSound others
    exact ⟨grownSound, by rw [text, middleText, rfcText_three, List.append_assoc]⟩

theorem encodeFrom_of_fits (sound : sb.Sound) (fits : sb.text.length + (rfcText data url).length < 2 ^ 30) :
    ∃ grown, encodeFrom (alphabetOf url) url data sb = some grown := by
  induction data using sextets.induct generalizing sb with
  | case1 => exact ⟨sb, rfl⟩
  | case2 a =>
    rw [rfcText, List.length_append] at fits
    obtain ⟨middle, adds⟩ := @StringBuilder.Sound.addChars_of_fits sb (rfcChars [a] url) sound (by omega)
    obtain ⟨middleSound, middleText⟩ := sound.addChars adds
    rw [encodeFrom_one, adds, Option.bind_eq_bind, Option.bind_some]
    cases url
    · rw [if_neg (by decide)] at fits ⊢
      rw [show rfcPadding [a] = asciiBytes "==" from rfl] at fits
      obtain ⟨grown, pads, -, -⟩ := middleSound.addString_of_fits (s := asciiBytes "==") (by
        rw [middleText, List.length_append]
        omega)
      exact ⟨grown, pads⟩
    · exact ⟨middle, if_pos rfl⟩
  | case3 a b =>
    rw [rfcText, List.length_append] at fits
    obtain ⟨middle, adds⟩ := @StringBuilder.Sound.addChars_of_fits sb (rfcChars [a, b] url) sound (by omega)
    obtain ⟨middleSound, middleText⟩ := sound.addChars adds
    rw [encodeFrom_two, adds, Option.bind_eq_bind, Option.bind_some]
    cases url
    · rw [if_neg (by decide)] at fits ⊢
      rw [show rfcPadding [a, b] = [byteOf '='] from rfl, List.length_singleton] at fits
      obtain ⟨grown, pads, -, -⟩ := middleSound.addChar_of_fits (c := byteOf '=') (by
        rw [middleText, List.length_append]
        omega)
      exact ⟨grown, pads⟩
    · exact ⟨middle, if_pos rfl⟩
  | case4 a b c rest ih =>
    rw [rfcText_three, List.length_append] at fits
    obtain ⟨middle, adds⟩ := @StringBuilder.Sound.addChars_of_fits sb (rfcChars [a, b, c] url) sound (by omega)
    obtain ⟨middleSound, middleText⟩ := sound.addChars adds
    rw [encodeFrom_three, adds]
    exact ih middleSound (by
      rw [middleText, List.length_append]
      omega)

/-- The room that the builder is made with. -/
theorem room_eq (small : data.length < 3 * 2 ^ 28) :
    int32 (int32 ((int32 (int32 data.length + 2)).tdiv 3 * 4) + 1) = ((data.length + 2) / 3 * 4 + 1 : ℕ) := by
  have groups : (data.length + 2) / 3 ≤ 2 ^ 28 := by omega
  rw [int32_of_fits (n := data.length) (by omega) (by omega), int32_of_fits (n := data.length + 2) (by omega) (by omega),
    show ((data.length : ℤ) + 2).tdiv 3 = ((data.length + 2) / 3 : ℕ) by
      rw [Int.tdiv_eq_ediv_of_nonneg (by omega)]
      omega,
    int32_of_fits (n := ((data.length + 2) / 3 : ℕ) * 4) (by omega) (by omega), int32_of_fits (by omega) (by omega)]
  push_cast
  rfl

/-- A text of less than 3 * 2^28 - 2 bytes has room for its encoding. -/
theorem encode_eq (small : data.length < 3 * 2 ^ 28 - 2) : encode data url = some (rfcText data url) := by
  have length := length_rfcText data url
  obtain ⟨sb, makes⟩ := StringBuilder.exists_newStringBuilder (n := ((data.length + 2) / 3 * 4 + 1 : ℕ)) (by omega)
    (by omega)
  obtain ⟨sound, text⟩ := StringBuilder.sound_newStringBuilder makes
  obtain ⟨grown, encodes⟩ := @encodeFrom_of_fits _ data url sound (by
    rw [text, List.length_nil]
    omega)
  obtain ⟨-, grownText⟩ := encodeFrom_text sound encodes
  rw [encode, room_eq (by omega), makes, Option.bind_eq_bind, Option.bind_some, ← alphabetOf, encodes,
    Option.bind_some, grownText, text, List.nil_append]

/-- A longer one has none. -/
theorem encode_ne (large : 3 * 2 ^ 28 - 2 ≤ data.length) : encode data url ≠ some (rfcText data url) := by
  intro encodes
  rw [encode] at encodes
  obtain ⟨sb, makes, encodes⟩ := Option.bind_eq_some_iff.mp encodes
  obtain ⟨grown, encodes, same⟩ := Option.bind_eq_some_iff.mp encodes
  obtain ⟨sound, text⟩ := StringBuilder.sound_newStringBuilder makes
  obtain ⟨grownSound, grownText⟩ := encodeFrom_text sound encodes
  have below := grownSound.length_lt
  rw [grownText, text, List.nil_append, rfcText, List.length_append, length_rfcChars] at below
  rw [room_eq (by omega), StringBuilder.newStringBuilder_eq_none (by omega) (by omega)] at makes
  cases makes

end Encoding

end Saad.Base64
