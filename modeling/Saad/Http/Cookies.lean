import Saad.Http.Responses
import Saad.Std.Quoted
import Saad.Std.SplitJoin

/-! # Escaped urls

`escapeUrl` with the builder that it writes to, and that `decodeUrl` gives back what was escaped.
-/

namespace Saad.Http

open General

section Escaping

/-- The characters for one of the text. -/
def escaped (ch : BitVec 8) : Text :=
  if unreserved ch then [ch] else [byteOf '%', hexDigit (ch >>> 4), hexDigit ch]

def addEscapedUrl (sb : StringBuilder) (ch : BitVec 8) : Option StringBuilder :=
  if unreserved ch then sb.addChar ch
  else do
    let sb ← sb.addChar (byteOf '%')
    let sb ← sb.addChar (hexDigit (ch >>> 4))
    sb.addChar (hexDigit ch)

/-- `escapeUrl` with its builder. None is a loop of the builder that doesn't end. -/
def builtEscapeUrl (text : Text) : Option Text :=
  if text.all unreserved then some text
  else do
    let sb ← newStringBuilder (int32 (int32 text.length * 3))
    let sb ← text.foldlM addEscapedUrl sb
    some sb.text

end Escaping

section Building

variable {sb grown : StringBuilder} {text e : Text} {ch : BitVec 8}

theorem addEscapedUrl_eq : addEscapedUrl sb ch = (escaped ch).foldlM StringBuilder.addChar sb := by
  unfold addEscapedUrl escaped
  split
  · simp
  · simp

theorem addEscapes_eq : text.foldlM addEscapedUrl sb = (text.flatMap escaped).foldlM StringBuilder.addChar sb := by
  induction text generalizing sb with
  | nil => rfl
  | cons ch text ih =>
    rw [List.foldlM_cons, List.flatMap_cons, List.foldlM_append, addEscapedUrl_eq]
    congr 1
    funext sb
    exact ih

theorem escapeUrl_eq : escapeUrl text = text.flatMap escaped := by
  rw [escapeUrl]
  split
  · next plain =>
    rw [List.all_eq_true] at plain
    have same : text.flatMap escaped = text.flatMap fun ch => [ch] :=
      List.flatMap_congr fun ch member => if_pos (plain ch member)
    rw [same, List.flatMap_singleton']
  · rfl

theorem length_flatMap_escaped (text : Text) :
    text.length ≤ (text.flatMap escaped).length ∧ (text.flatMap escaped).length ≤ 3 * text.length := by
  induction text with
  | nil => exact ⟨le_rfl, le_rfl⟩
  | cons ch text ih =>
    rw [List.flatMap_cons, List.length_append, List.length_cons]
    have one : 1 ≤ (escaped ch).length ∧ (escaped ch).length ≤ 3 := by
      unfold escaped
      split <;> simp
    omega

/-- There is a builder for the text, and room for it. -/
def EscapeFits (text : Text) : Prop :=
  text.all unreserved ∨
    (3 * text.length < 2 ^ 30 ∨ 2 ^ 31 ≤ 3 * text.length) ∧ (escapeUrl text).length < 2 ^ 30

theorem builtEscapeUrl_of_fits (fits : EscapeFits text) : builtEscapeUrl text = some (escapeUrl text) := by
  unfold builtEscapeUrl
  by_cases plain : text.all unreserved
  · rw [if_pos plain, escapeUrl, if_pos plain]
  · rw [if_neg plain]
    obtain ⟨size, room⟩ := fits.resolve_left plain
    rw [escapeUrl_eq] at room ⊢
    obtain ⟨longer, -⟩ := length_flatMap_escaped text
    obtain ⟨sb, makes⟩ : ∃ sb, newStringBuilder (int32 (int32 text.length * 3)) = some sb := by
      rw [int32_of_fits (n := text.length) (by omega) (by omega)]
      obtain small | large := size
      · rw [int32_of_fits (by omega) (by omega)]
        exact StringBuilder.exists_newStringBuilder (by omega) (by omega)
      · rw [int32_of_wraps (by omega) (by omega)]
        exact StringBuilder.exists_newStringBuilder (by omega) (by omega)
    obtain ⟨sound, empty⟩ := StringBuilder.sound_newStringBuilder makes
    obtain ⟨grown, adds⟩ := @StringBuilder.Sound.addChars_of_fits sb (text.flatMap escaped) sound (by
      rw [empty, List.length_nil]
      omega)
    rw [makes, Option.bind_eq_bind, Option.bind_some, addEscapes_eq, adds, Option.bind_some,
      (sound.addChars adds).2, empty, List.nil_append]

theorem fits_of_builtEscapeUrl (builds : builtEscapeUrl text = some e) : EscapeFits text ∧ e = escapeUrl text := by
  unfold builtEscapeUrl at builds
  split at builds
  · next plain =>
    cases builds
    exact ⟨.inl plain, by rw [escapeUrl, if_pos plain]⟩
  · obtain ⟨sb, makes, builds⟩ := Option.bind_eq_some_iff.mp builds
    obtain ⟨grown, adds, same⟩ := Option.bind_eq_some_iff.mp builds
    cases same
    obtain ⟨sound, empty⟩ := StringBuilder.sound_newStringBuilder makes
    rw [addEscapes_eq] at adds
    obtain ⟨grownSound, grownText⟩ := sound.addChars adds
    have below := grownSound.length_lt
    rw [empty, List.nil_append, ← escapeUrl_eq] at grownText
    rw [grownText] at below ⊢
    refine ⟨.inr ⟨?_, below⟩, rfl⟩
    rw [escapeUrl_eq] at below
    obtain ⟨longer, -⟩ := length_flatMap_escaped text
    by_contra neither
    rw [int32_of_fits (n := text.length) (by omega) (by omega), int32_of_fits (by omega) (by omega),
      StringBuilder.newStringBuilder_eq_none (by omega) (by omega)] at makes
    cases makes

end Building

section Decoding

variable {text rest : Text} {ch : BitVec 8}

theorem decodeEscapes_plain (plus : ch ≠ byteOf '+') (percent : ch ≠ byteOf '%') :
    decodeEscapes (ch :: rest) = ch :: decodeEscapes rest := by
  obtain _ | ⟨high, _ | ⟨low, rest⟩⟩ := rest
  · rw [decodeEscapes, if_neg plus]
    simp
  · rw [decodeEscapes, if_neg plus]
    simp
  · rw [decodeEscapes, if_neg plus, if_neg (fun all => percent all.1)]

theorem unreserved_plain (free : unreserved ch = true) : ch ≠ byteOf '+' ∧ ch ≠ byteOf '%' := by
  revert ch
  decide

theorem hexDigits_decoded (ch : BitVec 8) :
    isHexDigit (hexDigit (ch >>> 4)) = true ∧ isHexDigit (hexDigit ch) = true ∧
      BitVec.ofInt 8 (digitValue (hexDigit (ch >>> 4)) * 16 + digitValue (hexDigit ch)) = ch := by
  revert ch
  decide

/-- An escaped character is read back, whatever follows. -/
theorem decodeEscapes_escaped : decodeEscapes (escaped ch ++ rest) = ch :: decodeEscapes rest := by
  unfold escaped
  split
  · next free => exact decodeEscapes_plain (unreserved_plain free).1 (unreserved_plain free).2
  · obtain ⟨high, low, value⟩ := hexDigits_decoded ch
    rw [List.cons_append, List.cons_append, List.singleton_append, decodeEscapes, if_neg (by decide),
      if_pos ⟨rfl, high, low⟩, value]

theorem decodeEscapes_flatMap (text : Text) : decodeEscapes (text.flatMap escaped) = text := by
  induction text with
  | nil => rfl
  | cons ch text ih => rw [List.flatMap_cons, decodeEscapes_escaped, ih]

/-- What is escaped is decoded to what it was. -/
theorem decodeUrl_escapeUrl (text : Text) : decodeUrl (escapeUrl text) = text := by
  unfold decodeUrl
  split
  · next neither =>
    rw [escapeUrl]
    split
    · rfl
    · next reserved =>
      exfalso
      obtain ⟨ch, member, other⟩ : ∃ ch ∈ text, unreserved ch = false := by simpa using reserved
      apply indexOf_char_eq_none_iff.mp neither.1
      rw [escapeUrl_eq]
      apply List.mem_flatMap.mpr
      refine ⟨ch, member, ?_⟩
      rw [escaped, if_neg (by simp [other])]
      exact List.mem_cons_self
  · rw [escapeUrl_eq, decodeEscapes_flatMap]

end Decoding

end Saad.Http

/-! # Cookies

What `setCookie` writes with its builder, what a browser sends of it, and how `cookie` finds it in a request. The head
of a request has an int as its limit, so each of its headers is shorter than 2 GiB.
-/

namespace Saad.Http

open General

section Writing

/-- What is added for a cookie, whose value is escaped. The first three are one format. -/
def cookiePieces (c : Cookie) (value : Text) : List Text :=
  [c.name, asciiBytes "=", value] ++ (if c.path ≠ [] then [asciiBytes "; Path=", c.path] else []) ++
    (if c.maxAge > 0 then [asciiBytes "; Max-Age=", intText c.maxAge] else []) ++
    (if c.maxAge < 0 then [asciiBytes "; Max-Age=0"] else []) ++
    (if c.httpOnly then [asciiBytes "; HttpOnly"] else []) ++ (if c.secure then [asciiBytes "; Secure"] else []) ++
    match c.sameSite with
    | .strict => [asciiBytes "; SameSite=Strict"]
    | .none => [asciiBytes "; SameSite=None"]
    | .lax => [asciiBytes "; SameSite=Lax"]

/-- The Set-Cookie header of `setCookie`. None is a loop of a builder that doesn't end. -/
def builtSetCookie (c : Cookie) : Option Text := do
  let sb ← newStringBuilder 64
  let value ← builtEscapeUrl c.value
  let sb ← (cookiePieces c value).foldlM StringBuilder.addString sb
  some sb.text

/-- What a browser keeps of a Set-Cookie header as name and value, and sends back. -/
def pairOf (setCookie : Text) : Text := setCookie.takeWhile (· ≠ byteOf ';')

end Writing

section Reading

/-- The value without the quotes around it. -/
def unquoted (value : Text) : Text :=
  if value.length ≥ 2 ∧ value.head? = some (byteOf '"') ∧ value.getLast? = some (byteOf '"') then value.tail.dropLast
  else value

/-- The value of a part, if it has the name. -/
def cookieValue (name part : Text) : Option Text :=
  let pair := trimSpaces part
  match indexOf pair [byteOf '='] with
  | none => none
  | some equals =>
    if trimSpaces (pair.take equals) ≠ name then none
    else some (decodeUrl (unquoted (trimSpaces (pair.drop (equals + 1)))))

/-- The loop over the headers. None is a text that is too long for an int. -/
def cookieIn (name : Text) : List Header → Option (Text × Bool)
  | [] => some ([], false)
  | h :: headers =>
    if equalFold h.name (asciiBytes "Cookie") then do
      let parts ← splitText h.value [byteOf ';']
      match parts.findSome? (cookieValue name) with
      | some value => some (value, true)
      | none => cookieIn name headers
    else cookieIn name headers

def Request.cookie (r : Request) (name : Text) : Option (Text × Bool) := cookieIn name r.headers

end Reading

end Saad.Http
