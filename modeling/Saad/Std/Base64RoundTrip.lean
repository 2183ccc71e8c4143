import Saad.Std.Base64Decodes

/-! # Which texts are base64

What is encoded is decoded to what it was, as long as it fits. Of what is decoded, a text may still not be base64 of
RFC 4648: its padding may be of another length, there may be bits behind the last byte, and its characters may be of
both alphabets.
-/

namespace Saad.Base64

open General

section Alphabets

variable {url : Bool} {ch : BitVec 8}

theorem map_sextet (url : Bool) : (alphabetOf url).map sextet = (List.range 64).map fun n : ℕ => (n : ℤ) := by
  cases url <;> rfl

theorem length_alphabetOf (url : Bool) : (alphabetOf url).length = 64 := by cases url <;> decide

theorem sextet_alphabetOf (url : Bool) (n : ℕ) (small : n < 64) : sextet ((alphabetOf url)[n]?.getD 0) = n := by
  have same := congrArg (fun values => values[n]?) (map_sextet url)
  simp only [List.getElem?_map, List.getElem?_range small, Option.map_some] at same
  obtain ⟨ch, read, value⟩ := Option.map_eq_some_iff.mp same
  rw [read, Option.getD_some, value]

theorem alphabetOf_sextet (member : ch ∈ alphabetOf url) :
    0 ≤ sextet ch ∧ (alphabetOf url)[(sextet ch).toNat]?.getD 0 = ch := by
  revert ch
  cases url <;> decide

theorem mem_alphabetOf {n : ℕ} (small : n < 64) : (alphabetOf url)[n]?.getD 0 ∈ alphabetOf url := by
  rw [List.getElem?_eq_getElem (by rwa [length_alphabetOf])]
  exact List.getElem_mem _

end Alphabets

section Texts

variable {text head : Text} {values : List ℕ} {pads : ℕ} {url : Bool} {data : Text}

/-- The text is base64 of RFC 4648: the encoding of some bytes, with or without padding. -/
def IsBase64 (text : Text) : Prop :=
  ∃ data url, text = rfcChars data url ∨ text = rfcChars data url ++ rfcPadding data

/-- The characters are those of one alphabet. -/
def OneAlphabet (text : Text) : Prop := ∃ url, ∀ ch ∈ text, ch ≠ byteOf '=' → ch ∈ alphabetOf url

/-- The characters in front of the padding have values, and behind them there is nothing else. -/
theorem shapeOf_eq_some_iff : shapeOf text = some (values, pads) ↔
    ∃ head, text = head ++ List.replicate pads (byteOf '=') ∧ (∀ ch ∈ head, 0 ≤ sextet ch) ∧
      values = head.map fun ch => (sextet ch).toNat := by
  induction text generalizing values with
  | nil =>
    constructor
    · intro shape
      cases shape
      exact ⟨[], rfl, by simp, rfl⟩
    · rintro ⟨head, whole, -, rfl⟩
      obtain ⟨rfl, none⟩ := List.append_eq_nil_iff.mp whole.symm
      obtain rfl : pads = 0 := by simpa using none
      rfl
  | cons ch rest ih =>
    rw [shapeOf_cons]
    by_cases pad : ch = byteOf '='
    · rw [if_pos pad]
      constructor
      · intro shape
        split at shape
        · next all =>
          cases shape
          refine ⟨[], ?_, by simp, rfl⟩
          rw [List.nil_append, List.replicate_succ, pad, ← List.eq_replicate_length.mpr all]
        · cases shape
      · rintro ⟨head, whole, read, rfl⟩
        cases head with
        | nil =>
          rw [List.nil_append] at whole
          have length := congrArg List.length whole
          rw [List.length_cons, List.length_replicate] at length
          rw [if_pos, ← length]
          · rfl
          · intro c member
            apply List.eq_of_mem_replicate (n := pads)
            rw [← whole]
            exact List.mem_cons_of_mem _ member
        | cons c head =>
          obtain rfl : ch = c := (List.cons.inj whole).1
          have bad := read ch (by simp)
          rw [pad, sextet_pad] at bad
          cases bad
    · rw [if_neg pad]
      constructor
      · intro shape
        split at shape
        · cases shape
        · next value =>
          obtain ⟨⟨others, count⟩, read, same⟩ := Option.map_eq_some_iff.mp shape
          cases same
          obtain ⟨head, rfl, all, rfl⟩ := ih.mp read
          exact ⟨ch :: head, rfl, by simpa using ⟨by omega, all⟩, rfl⟩
      · rintro ⟨head, whole, read, rfl⟩
        cases head with
        | nil =>
          exfalso
          apply pad
          apply List.eq_of_mem_replicate (n := pads)
          rw [← List.nil_append (List.replicate pads (byteOf '=')), ← whole]
          exact List.mem_cons_self
        | cons c head =>
          obtain ⟨rfl, rfl⟩ := List.cons.inj whole
          rw [List.forall_mem_cons] at read
          rw [if_neg (by omega), ih.mpr ⟨head, rfl, read.2, rfl⟩]
          rfl

/-- The characters of an encoding have the numbers of the bytes as values. -/
theorem shapeOf_rfcChars (pads : ℕ) :
    shapeOf (rfcChars data url ++ List.replicate pads (byteOf '=')) = some (sextets data, pads) := by
  apply shapeOf_eq_some_iff.mpr
  refine ⟨rfcChars data url, rfl, ?_, ?_⟩
  · intro ch member
    obtain ⟨n, value, rfl⟩ := List.mem_map.mp member
    rw [sextet_alphabetOf url n (sextets_lt data n value)]
    exact Int.natCast_nonneg n
  · rw [rfcChars, List.map_map]
    refine (List.map_id _).symm.trans (List.map_congr_left fun n value => ?_)
    exact (congrArg Int.toNat (sextet_alphabetOf url n (sextets_lt data n value))).symm

/-- What a text has to be like, if its characters can be read at all: one alphabet, no padding or padding to a multiple
of four, and zeros behind the last byte. -/
structure Strict (text : Text) (values : List ℕ) (pads : ℕ) : Prop where
  oneAlphabet : OneAlphabet text
  padding : pads = 0 ∨ (values.length + pads) % 4 = 0
  noBits : looseBits values = 0

theorem looseBits_sextets : looseBits (sextets data) = 0 :=
  (sextets_bytesOfSextets (sextets_lt data) (bytesOfSextets_sextets data)).mp rfl

/-- A text that is base64 has characters that can be read. -/
theorem IsBase64.strict (base64 : IsBase64 text) :
    ∃ values pads, shapeOf text = some (values, pads) ∧ values.length % 4 ≠ 1 ∧ pads ≤ 2 ∧ Strict text values pads := by
  obtain ⟨data, url, plain⟩ := base64
  have whole : ∃ pads, text = rfcChars data url ++ List.replicate pads (byteOf '=') ∧
      (pads = 0 ∨ pads = (3 - data.length % 3) % 3) := by
    obtain rfl | rfl := plain
    · exact ⟨0, (List.append_nil _).symm, .inl rfl⟩
    · exact ⟨_, rfl, .inr rfl⟩
  obtain ⟨pads, rfl, count⟩ := whole
  have length := length_sextets data
  refine ⟨sextets data, pads, shapeOf_rfcChars pads, ?_, by omega, ⟨url, ?_⟩, ?_, looseBits_sextets⟩
  · apply (bytesOfSextets_isSome _).mp
    rw [bytesOfSextets_sextets]
    rfl
  · intro ch member other
    obtain member | member := List.mem_append.mp member
    · obtain ⟨n, value, rfl⟩ := List.mem_map.mp member
      exact mem_alphabetOf (sextets_lt data n value)
    · exact absurd (List.eq_of_mem_replicate member) other
  · obtain none | count := count
    · exact .inl none
    · right
      obtain left | left | left : data.length % 3 = 0 ∨ data.length % 3 = 1 ∨ data.length % 3 = 2 := by omega
      all_goals
        rw [left] at count
        omega

/-- A text whose characters can be read is the encoding of what they are decoded to, if it is as it has to be. -/
theorem Strict.encoding {bytes : Text} (strict : Strict text values pads) (shape : shapeOf text = some (values, pads))
    (few : pads ≤ 2) (decodes : bytesOfSextets values = some bytes) :
    ∃ url, text = rfcChars bytes url ∨ text = rfcChars bytes url ++ rfcPadding bytes := by
  obtain ⟨head, rfl, read, rfl⟩ := shapeOf_eq_some_iff.mp shape
  obtain ⟨url, member⟩ := strict.oneAlphabet
  have small : ∀ n ∈ head.map (fun ch => (sextet ch).toNat), n < 64 := by
    intro n value
    obtain ⟨ch, -, rfl⟩ := List.mem_map.mp value
    have below := sextet_lt ch
    omega
  have same := (sextets_bytesOfSextets small decodes).mpr strict.noBits
  have chars : rfcChars bytes url = head := by
    rw [rfcChars, same, List.map_map]
    refine (List.map_congr_left fun ch inside => ?_).trans (List.map_id _)
    have pad : ch ≠ byteOf '=' := by
      rintro rfl
      have bad := read _ inside
      rw [sextet_pad] at bad
      cases bad
    exact (alphabetOf_sextet (member ch (List.mem_append_left _ inside) pad)).2
  have length := length_sextets bytes
  have groups := length_bytesOfSextets decodes
  rw [same] at length
  refine ⟨url, ?_⟩
  rw [chars]
  obtain rfl | multiple := strict.padding
  · exact .inl (List.append_nil _)
  · right
    have count : pads = (3 - bytes.length % 3) % 3 := by
      obtain left | left | left : bytes.length % 3 = 0 ∨ bytes.length % 3 = 1 ∨ bytes.length % 3 = 2 := by omega
      all_goals
        rw [left]
        omega
    rw [rfcPadding, ← count]

end Texts

section Claims

variable {x text : Text} {url : Bool}

/-- The text is encoded as RFC 4648 says, and decoded to what it was. -/
def RoundTrips (x : Text) (url : Bool) : Prop :=
  ∃ text, encode x url = some text ∧ text = rfcText x url ∧ decode text = some (x, true)

theorem decode_of_shape {values : List ℕ} {pads : ℕ} (small : text.length < 1431655764)
    (shape : shapeOf text = some (values, pads)) : decode text = some (bytesOf [] values pads) := by
  rw [decode_eq small, shape]
  rfl

/-- A text of less than 3 * 2^28 - 2 bytes comes back. -/
theorem decode_rfcText (small : x.length < 3 * 2 ^ 28 - 2) : decode (rfcText x url) = some (x, true) := by
  have length := length_rfcText x url
  have groups : (sextets x).length % 4 ≠ 1 := by
    apply (bytesOfSextets_isSome _).mp
    rw [bytesOfSextets_sextets]
    rfl
  have whole : ∃ pads, rfcText x url = rfcChars x url ++ List.replicate pads (byteOf '=') ∧ pads ≤ 2 := by
    cases url
    · exact ⟨_, rfl, by omega⟩
    · exact ⟨0, rfl, by decide⟩
  obtain ⟨pads, same, few⟩ := whole
  have shape := @shapeOf_rfcChars url x pads
  rw [← same] at shape
  rw [decode_of_shape (by omega) shape, bytesOf, if_neg (by omega), bytesOfSextets_sextets]
  rfl

/-- A text comes back through base64 exactly when it has less than 3 * 2^28 - 2 bytes. -/
theorem encode_roundTrips_iff (x : Text) (url : Bool) : RoundTrips x url ↔ x.length < 3 * 2 ^ 28 - 2 := by
  constructor
  · rintro ⟨text, encodes, rfl, -⟩
    by_contra large
    exact encode_ne (by omega) encodes
  · intro small
    exact ⟨_, encode_eq small, rfl, decode_rfcText small⟩

theorem not_encode_roundTrips : ¬∀ x url, RoundTrips x url := by
  intro all
  obtain ⟨text, encodes, rfl, -⟩ := all (List.replicate 805306366 0) false
  exact encode_ne (by rw [List.length_replicate]; decide) encodes

/-- The text is taken exactly when it is base64, and then it is what its bytes are encoded to, up to the padding. -/
def DecodedRight (text : Text) : Prop :=
  ∃ bytes ok, decode text = some (bytes, ok) ∧ (ok = true ↔ IsBase64 text) ∧
    (ok = true → ∃ url, encode bytes url = some (rfcText bytes url) ∧
      (text = rfcChars bytes url ∨ text = rfcChars bytes url ++ rfcPadding bytes))

/-- A builder can be made for the text, and if it is taken, it is as it has to be and its bytes can be encoded. -/
def Decodable (text : Text) : Prop :=
  text.length < 1431655764 ∧
    ∀ values pads, shapeOf text = some (values, pads) → values.length % 4 ≠ 1 → pads ≤ 2 →
      Strict text values pads ∧ values.length ≤ 2 ^ 30 - 4

theorem decodedRight_of_decodable (decodable : Decodable text) : DecodedRight text := by
  obtain ⟨small, taken⟩ := decodable
  cases shape : shapeOf text with
  | none =>
    refine ⟨[], false, ?_, ?_, by simp⟩
    · rw [decode_eq small, shape]
      rfl
    · simp only [Bool.false_eq_true, false_iff]
      intro base64
      obtain ⟨values, pads, read, -⟩ := base64.strict
      rw [shape] at read
      cases read
  | some found =>
    obtain ⟨values, pads⟩ := found
    by_cases refused : values.length % 4 = 1 ∨ 2 < pads
    · refine ⟨[], false, ?_, ?_, by simp⟩
      · rw [decode_of_shape small shape, bytesOf, if_pos refused]
      · simp only [Bool.false_eq_true, false_iff]
        intro base64
        obtain ⟨otherValues, otherPads, read, groups, few, -⟩ := base64.strict
        rw [shape] at read
        cases read
        omega
    · obtain ⟨strict, room⟩ := taken values pads shape (by omega) (by omega)
      obtain ⟨bytes, decodes⟩ := Option.isSome_iff_exists.mp ((bytesOfSextets_isSome values).mpr (by omega))
      obtain ⟨url, encoding⟩ := strict.encoding shape (by omega) decodes
      have length := length_bytesOfSextets decodes
      refine ⟨bytes, true, ?_, ?_, fun _ => ⟨url, encode_eq (by omega), encoding⟩⟩
      · rw [decode_of_shape small shape, bytesOf, if_neg refused, decodes]
        rfl
      · simp only [true_iff]
        exact ⟨bytes, url, encoding⟩

theorem decodable_of_decodedRight (small : text.length < 2 ^ 31) (right : DecodedRight text) : Decodable text := by
  obtain ⟨bytes, ok, decodes, accepted, encodes⟩ := right
  have fits : text.length < 1431655764 := by
    by_contra large
    rw [decode_eq_none (by omega) small] at decodes
    cases decodes
  refine ⟨fits, fun values pads shape groups few => ?_⟩
  rw [decode_of_shape fits shape, bytesOf, if_neg (by omega)] at decodes
  cases decodes
  obtain ⟨otherValues, otherPads, read, -, -, strict⟩ := (accepted.mp rfl).strict
  rw [shape] at read
  cases read
  refine ⟨strict, ?_⟩
  obtain ⟨url, encodes, -⟩ := encodes rfl
  obtain ⟨found, read⟩ := Option.isSome_iff_exists.mp ((bytesOfSextets_isSome values).mpr groups)
  rw [List.nil_append, read, Option.getD_some] at encodes
  have length := length_bytesOfSextets read
  by_contra long
  have longer : 2 ^ 30 - 2 ≤ values.length := by omega
  exact encode_ne (by omega) encodes

/-- A text without padding is what its bytes are encoded to in its alphabet. -/
theorem DecodedRight.eq_rfcChars {bytes : Text} (right : DecodedRight text) (plain : ∀ ch ∈ text, ch ∈ alphabetOf url)
    (decodes : decode text = some (bytes, true)) : text = rfcChars bytes url := by
  obtain ⟨found, ok, read, -, encodes⟩ := right
  rw [decodes] at read
  cases read
  obtain ⟨other, -, encoding⟩ := encodes rfl
  have chars : text = rfcChars bytes other := by
    obtain same | padded := encoding
    · exact same
    · cases pads : rfcPadding bytes with
      | nil => rwa [pads, List.append_nil] at padded
      | cons c rest =>
        exfalso
        have pad : c = byteOf '=' := List.eq_of_mem_replicate (show c ∈ rfcPadding bytes by simp [pads])
        have member := plain c (by simp [padded, pads])
        have value := (alphabetOf_sextet member).1
        rw [pad, sextet_pad] at value
        cases value
  rw [chars]
  apply List.map_congr_left
  intro n value
  have below := sextets_lt bytes n value
  have member := plain _ (by
    rw [chars]
    exact List.mem_map_of_mem value)
  have same := (alphabetOf_sextet member).2
  rw [sextet_alphabetOf other n below] at same
  exact same.symm

/-- A text is decoded right exactly when it is decodable, up to 2 GiB. Two texts without padding of one alphabet never
give the same bytes then. -/
theorem decodedRight_iff (text : Text) :
    (Decodable text → DecodedRight text ∧
      ∀ other bytes url, Decodable other → (∀ ch ∈ text, ch ∈ alphabetOf url) → (∀ ch ∈ other, ch ∈ alphabetOf url) →
        decode text = some (bytes, true) → decode other = some (bytes, true) → text = other) ∧
    (text.length < 2 ^ 31 → DecodedRight text → Decodable text) := by
  refine ⟨fun decodable => ⟨decodedRight_of_decodable decodable, ?_⟩, decodable_of_decodedRight⟩
  intro other bytes url otherDecodable plain otherPlain decodes otherDecodes
  rw [(decodedRight_of_decodable decodable).eq_rfcChars plain decodes]
  exact ((decodedRight_of_decodable otherDecodable).eq_rfcChars otherPlain otherDecodes).symm

/-- Padding of the wrong length is taken. -/
theorem not_decodedRight : ¬∀ text, DecodedRight text := by
  intro all
  have decodable := decodable_of_decodedRight (by decide) (all (asciiBytes "QQ="))
  obtain ⟨⟨-, padding, -⟩, -⟩ := decodable.2 [16, 16] 1 (by decide) (by decide) (by decide)
  revert padding
  decide

end Claims

end Saad.Base64
