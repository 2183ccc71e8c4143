import Saad.Http.Cookies

/-! # Cookies come back

A value that is escaped has no character that ends it, is trimmed or quotes it, so that splitting, trimming and decoding
give it back.
-/

namespace Saad.Http

open General

section Pairs

variable {sb grown : StringBuilder} {c : Cookie} {text value : Text} {pieces : List Text}

theorem prefix_of_addString (adds : sb.addString text = some grown) : sb.text <+: grown.text := by
  unfold StringBuilder.addString at adds
  dsimp only at adds
  split at adds
  · cases adds
    exact List.prefix_rfl
  · obtain ⟨more, reserves, writes⟩ := Option.bind_eq_some_iff.mp adds
    rw [StringBuilder.write_text writes, StringBuilder.reserve_text reserves]
    exact List.prefix_append _ _

theorem prefix_of_addStrings (adds : pieces.foldlM StringBuilder.addString sb = some grown) :
    sb.text <+: grown.text := by
  induction pieces generalizing sb with
  | nil =>
    cases adds
    exact List.prefix_rfl
  | cons piece pieces ih =>
    rw [List.foldlM_cons] at adds
    obtain ⟨middle, first, others⟩ := Option.bind_eq_some_iff.mp adds
    exact (prefix_of_addString first).trans (ih others)

/-- Behind the value there is always an attribute. -/
theorem exists_attribute (c : Cookie) (value : Text) :
    ∃ first others, cookiePieces c value = c.name :: asciiBytes "=" :: value :: first :: others ∧
      first.head? = some (byteOf ';') ∧ first.length < 2 ^ 31 := by
  unfold cookiePieces
  split_ifs <;> cases c.sameSite <;> exact ⟨_, _, rfl, rfl, by decide⟩

/-- A name is one that can be in a cookie. -/
def ValidName (name : Text) : Prop :=
  ∀ ch ∈ name, ch ≠ byteOf ';' ∧ ch ≠ byteOf '=' ∧ ch ≠ byteOf ' ' ∧ 32 ≤ ch.toNat ∧ ch.toNat ≠ 127

/-- No character of an escaped text ends a value, is a blank or a quote. -/
theorem plain_of_mem_escapeUrl {ch : BitVec 8} (member : ch ∈ escapeUrl text) :
    ch ≠ byteOf ';' ∧ isBlank ch = false ∧ ch ≠ byteOf '"' := by
  have plain : ∀ d, (unreserved d = true → d ≠ byteOf ';' ∧ isBlank d = false ∧ d ≠ byteOf '"') ∧
      hexDigit d ≠ byteOf ';' ∧ isBlank (hexDigit d) = false ∧ hexDigit d ≠ byteOf '"' := by decide
  rw [escapeUrl_eq] at member
  obtain ⟨of, -, member⟩ := List.mem_flatMap.mp member
  unfold escaped at member
  split at member
  · next free =>
    obtain rfl := List.mem_singleton.mp member
    exact (plain ch).1 free
  · simp only [List.mem_cons, List.not_mem_nil, or_false] at member
    obtain rfl | rfl | rfl := member
    · decide
    · exact (plain _).2
    · exact (plain _).2

/-- The browser sends the name and the escaped value. -/
theorem pairOf_builtSetCookie (valid : ValidName c.name) (writes : builtSetCookie c = some text)
    (shortName : c.name.length < 2 ^ 31) (shortValue : c.value.length < 2 ^ 31) :
    pairOf text = c.name ++ byteOf '=' :: escapeUrl c.value := by
  rw [builtSetCookie] at writes
  obtain ⟨sb, makes, writes⟩ := Option.bind_eq_some_iff.mp writes
  obtain ⟨value, escapes, writes⟩ := Option.bind_eq_some_iff.mp writes
  obtain ⟨last, adds, same⟩ := Option.bind_eq_some_iff.mp writes
  cases same
  obtain ⟨-, empty⟩ := StringBuilder.sound_newStringBuilder makes
  obtain ⟨fits, rfl⟩ := fits_of_builtEscapeUrl escapes
  have short : (escapeUrl c.value).length < 2 ^ 31 := by
    obtain plain | ⟨-, room⟩ := fits
    · rwa [escapeUrl, if_pos plain]
    · omega
  obtain ⟨first, others, is, head, shortFirst⟩ := exists_attribute c (escapeUrl c.value)
  rw [is, List.foldlM_cons] at adds
  obtain ⟨named, addsName, adds⟩ := Option.bind_eq_some_iff.mp adds
  rw [List.foldlM_cons] at adds
  obtain ⟨equals, addsEquals, adds⟩ := Option.bind_eq_some_iff.mp adds
  rw [List.foldlM_cons] at adds
  obtain ⟨valued, addsValue, adds⟩ := Option.bind_eq_some_iff.mp adds
  rw [List.foldlM_cons] at adds
  obtain ⟨ended, addsFirst, adds⟩ := Option.bind_eq_some_iff.mp adds
  obtain ⟨more, whole⟩ := prefix_of_addStrings adds
  rw [StringBuilder.text_addString shortFirst addsFirst, StringBuilder.text_addString short addsValue,
    StringBuilder.text_addString (by decide) addsEquals, StringBuilder.text_addString shortName addsName, empty] at whole
  obtain ⟨c', rest, rfl⟩ : ∃ c' rest, first = c' :: rest := by
    cases first with
    | nil => cases head
    | cons c' rest => exact ⟨c', rest, rfl⟩
  cases head
  have pair : ∀ ch ∈ c.name ++ byteOf '=' :: escapeUrl c.value, decide (ch ≠ byteOf ';') = true := by
    intro ch member
    rw [decide_eq_true_eq]
    obtain member | member := List.mem_append.mp member
    · exact (valid ch member).1
    · obtain rfl | member := List.mem_cons.mp member
      · decide
      · exact (plain_of_mem_escapeUrl member).1
  rw [pairOf, ← whole, show [] ++ c.name ++ asciiBytes "=" ++ escapeUrl c.value ++ byteOf ';' :: rest ++ more =
    (c.name ++ byteOf '=' :: escapeUrl c.value) ++ byteOf ';' :: (rest ++ more) by simp [asciiBytes, byteOf],
    List.takeWhile_append_of_pos pair, List.takeWhile_cons_of_neg (by simp), List.append_nil]

end Pairs

section Lookup

variable {name : Text} {c : Cookie} {part : Text}

theorem trimmed_name (valid : ValidName name) : Trimmed name := by
  have plain : ∀ ch ∈ name, isBlank ch = false := by
    intro ch member
    obtain ⟨-, -, space, low, -⟩ := valid ch member
    have all : ∀ ch : BitVec 8, ch ≠ byteOf ' ' → 32 ≤ ch.toNat → isBlank ch = false := by decide
    exact all ch space low
  exact ⟨fun ch first => plain ch (List.mem_of_mem_head? first), fun ch last => plain ch (List.mem_of_getLast? last)⟩

theorem trimmed_escapeUrl (value : Text) : Trimmed (escapeUrl value) :=
  ⟨fun _ first => (plain_of_mem_escapeUrl (List.mem_of_mem_head? first)).2.1,
    fun _ last => (plain_of_mem_escapeUrl (List.mem_of_getLast? last)).2.1⟩

theorem trimmed_pair {value : Text} (valid : ValidName name) : Trimmed (name ++ byteOf '=' :: escapeUrl value) := by
  constructor
  · intro ch first
    cases is : name with
    | nil =>
      rw [is] at first
      cases first
      decide
    | cons c' rest =>
      rw [is] at first
      exact (trimmed_name valid).front ch (by
        rw [is]
        exact first)
  · intro ch last
    rw [List.getLast?_append_of_ne_nil _ (by simp)] at last
    obtain rfl | member := List.mem_cons.mp (List.mem_of_getLast? last)
    · decide
    · exact (plain_of_mem_escapeUrl member).2.1

/-- The value of a pair, for the name of a cookie. -/
theorem cookieValue_pair {blanks value : Text} {other : Text} (all : ∀ ch ∈ blanks, isBlank ch = true)
    (valid : ValidName other) :
    cookieValue name (blanks ++ (other ++ byteOf '=' :: escapeUrl value)) =
      if other = name then some value else none := by
  have trims := @trimSpaces_append _ _ [] all (@trimmed_pair _ value valid) (by simp)
  rw [List.append_nil] at trims
  have absent : byteOf '=' ∉ other := fun member => (valid _ member).2.1 rfl
  have plain : unquoted (escapeUrl value) = escapeUrl value := by
    rw [unquoted, if_neg]
    rintro ⟨-, first, -⟩
    exact (plain_of_mem_escapeUrl (List.mem_of_mem_head? first)).2.2 rfl
  unfold cookieValue
  dsimp only
  rw [trims, indexOf_char absent]
  dsimp only
  rw [List.take_left, show other ++ byteOf '=' :: escapeUrl value = (other ++ [byteOf '=']) ++ escapeUrl value by simp,
    List.drop_left' (by simp), (trimmed_name valid).trimSpaces, (trimmed_escapeUrl value).trimSpaces, plain,
    decodeUrl_escapeUrl]
  by_cases same : other = name
  · rw [if_neg (not_not.mpr same), if_pos same]
  · rw [if_pos same, if_neg same]

theorem split_flatMap {pair : Text} {pairs : List Text} (absent : byteOf ';' ∉ pair)
    (free : ∀ p ∈ pairs, byteOf ';' ∉ p) :
    split (pair ++ pairs.flatMap (asciiBytes "; " ++ ·)) [byteOf ';'] = pair :: pairs.map (byteOf ' ' :: ·) := by
  induction pairs generalizing pair with
  | nil =>
    rw [List.flatMap_nil, List.append_nil]
    exact split_of_none (indexOf_char_eq_none_iff.mpr absent)
  | cons next pairs ih =>
    have behind : pair ++ (next :: pairs).flatMap (asciiBytes "; " ++ ·) =
        pair ++ byteOf ';' :: ((byteOf ' ' :: next) ++ pairs.flatMap (asciiBytes "; " ++ ·)) := rfl
    have spaced : byteOf ';' ∉ byteOf ' ' :: next := by
      rw [List.mem_cons, not_or]
      exact ⟨by decide, free next List.mem_cons_self⟩
    rw [behind, split_of_some (indexOf_char absent), List.take_left, List.map_cons]
    rw [show pair ++ byteOf ';' :: ((byteOf ' ' :: next) ++ pairs.flatMap (asciiBytes "; " ++ ·)) =
      (pair ++ [byteOf ';']) ++ ((byteOf ' ' :: next) ++ pairs.flatMap (asciiBytes "; " ++ ·)) by simp]
    rw [List.drop_left' (by simp), ih spaced fun p member => free p (List.mem_cons_of_mem _ member)]

end Lookup

section Finding

variable {name value part : Text}

theorem length_trimSpaces_le (text : Text) : (trimSpaces text).length ≤ text.length :=
  (List.rdropWhile_prefix _ _).length_le.trans (List.dropWhile_suffix _).length_le

theorem length_decodeEscapes_le (text : Text) : (decodeEscapes text).length ≤ text.length := by
  fun_induction decodeEscapes text <;> simp only [List.length_cons, List.length_nil] at * <;> omega

theorem length_decodeUrl_le (text : Text) : (decodeUrl text).length ≤ text.length := by
  unfold decodeUrl
  split
  · exact le_rfl
  · exact length_decodeEscapes_le text

theorem length_unquoted_le (value : Text) : (unquoted value).length ≤ value.length := by
  unfold unquoted
  split
  · rw [List.length_dropLast, List.length_tail]
    omega
  · exact le_rfl

/-- A name and a value that are found are no longer than what they are found in. -/
theorem lengths_of_cookieValue (finds : cookieValue name part = some value) :
    name.length ≤ part.length ∧ value.length ≤ part.length := by
  unfold cookieValue at finds
  dsimp only at finds
  split at finds
  · cases finds
  · next equals found =>
    split at finds
    · cases finds
    · next same =>
      cases finds
      have whole := length_trimSpaces_le part
      have front := length_trimSpaces_le ((trimSpaces part).take equals)
      have back := length_trimSpaces_le ((trimSpaces part).drop (equals + 1))
      have decoded := length_decodeUrl_le (unquoted (trimSpaces ((trimSpaces part).drop (equals + 1))))
      have inner := length_unquoted_le (trimSpaces ((trimSpaces part).drop (equals + 1)))
      rw [List.length_take] at front
      rw [List.length_drop] at back
      rw [not_not.mp same] at front
      omega

theorem length_le_of_mem_split {s sep : Text} (member : part ∈ split s sep) : part.length ≤ s.length := by
  fun_induction split s sep with
  | case1 s absent => rw [List.mem_singleton.mp member]
  | case2 s n found ih =>
    obtain rfl | later := List.mem_cons.mp member
    · exact (List.take_prefix _ _).length_le
    · exact (ih later).trans (List.drop_suffix _ _).length_le

def Header.isCookie (h : Header) : Bool := equalFold h.name (asciiBytes "Cookie")

/-- Only the one Cookie header is looked at. -/
theorem cookieIn_eq {headers : List Header} {h : Header} (only : headers.filter Header.isCookie = [h])
    (small : h.value.length < 2 ^ 31) :
    cookieIn name headers =
      some (match (split h.value [byteOf ';']).findSome? (cookieValue name) with
        | some value => (value, true)
        | none => ([], false)) := by
  have none_behind : ∀ rest : List Header, rest.filter Header.isCookie = [] →
      cookieIn name rest = some ([], false) := by
    intro rest no
    induction rest with
    | nil => rfl
    | cons first rest ih =>
      rw [List.filter_eq_nil_iff] at no
      rw [cookieIn, if_neg (show ¬equalFold first.name _ = true from no first List.mem_cons_self)]
      apply ih
      rw [List.filter_eq_nil_iff]
      exact fun h member => no h (List.mem_cons_of_mem _ member)
  induction headers with
  | nil => cases only
  | cons first rest ih =>
    rw [cookieIn]
    by_cases cookie : first.isCookie = true
    · rw [List.filter_cons_of_pos cookie] at only
      obtain ⟨rfl, no⟩ := List.cons_eq_cons.mp only
      rw [if_pos (show equalFold first.name _ = true from cookie), splitText_eq (by simp) small, Option.bind_eq_bind, Option.bind_some]
      cases (split first.value [byteOf ';']).findSome? (cookieValue name) with
      | some value => rfl
      | none => exact none_behind rest no
    · rw [List.filter_cons_of_neg cookie] at only
      rw [if_neg (show ¬equalFold first.name _ = true from cookie)]
      exact ih only

end Finding

section Right

variable {r : Request} {written : List (Cookie × Text)} {parts : List Text} {text : Text}

/-- A request with the pairs of the cookies that were written, in any order. -/
structure SentBack (r : Request) (written : List (Cookie × Text)) : Prop where
  valid : ∀ w ∈ written, ValidName w.1.name
  different : (written.map (·.1.name)).Nodup
  wrote : ∀ w ∈ written, builtSetCookie w.1 = some w.2
  header : ∃ h, r.headers.filter Header.isCookie = [h] ∧
    h.value = (asciiBytes "; ").intercalate (written.map (pairOf ·.2)) ∧ h.value.length < 2 ^ 31

def ShortCookie (c : Cookie) : Prop := c.name.length < 2 ^ 31 ∧ c.value.length < 2 ^ 31

/-- A part of a Cookie header with the pair of a cookie. -/
def PairIn (part : Text) (w : Cookie × Text) : Prop :=
  ∃ blanks, (∀ ch ∈ blanks, isBlank ch = true) ∧ part = blanks ++ (w.1.name ++ byteOf '=' :: escapeUrl w.1.value)

theorem findSome?_pairs {w : Cookie × Text} (pairs : List.Forall₂ PairIn parts written)
    (valid : ∀ w ∈ written, ValidName w.1.name) (different : (written.map (·.1.name)).Nodup) (member : w ∈ written) :
    parts.findSome? (cookieValue w.1.name) = some w.1.value := by
  induction pairs with
  | nil => cases member
  | @cons part first parts others pair pairs ih =>
    obtain ⟨blanks, all, rfl⟩ := pair
    rw [List.map_cons, List.nodup_cons] at different
    rw [List.findSome?_cons, cookieValue_pair all (valid first List.mem_cons_self)]
    obtain rfl | later := List.mem_cons.mp member
    · rw [if_pos rfl]
    · have other : first.1.name ≠ w.1.name := by
        intro same
        apply different.1
        rw [same]
        exact List.mem_map_of_mem later
      rw [if_neg other]
      exact ih (fun w member => valid w (List.mem_cons_of_mem _ member)) different.2 later

theorem SentBack.found (sent : SentBack r written) (short : ∀ w ∈ written, ShortCookie w.1) :
    ∀ w ∈ written, r.cookie w.1.name = some (w.1.value, true) := by
  intro w member
  obtain ⟨h, only, joined, small⟩ := sent.header
  have pairs : written.map (pairOf ·.2) = written.map fun w => w.1.name ++ byteOf '=' :: escapeUrl w.1.value := by
    apply List.map_congr_left
    intro w member
    exact pairOf_builtSetCookie (sent.valid w member) (sent.wrote w member) (short w member).1 (short w member).2
  have free : ∀ w ∈ written, byteOf ';' ∉ w.1.name ++ byteOf '=' :: escapeUrl w.1.value := by
    intro w member occurs
    obtain occurs | occurs := List.mem_append.mp occurs
    · exact (sent.valid w member _ occurs).1 rfl
    · obtain same | occurs := List.mem_cons.mp occurs
      · cases same
      · exact (plain_of_mem_escapeUrl occurs).1 rfl
  have parts : List.Forall₂ PairIn (split h.value [byteOf ';']) written := by
    cases written with
    | nil => cases member
    | cons first others =>
      rw [joined, pairs, List.map_cons, intercalate_eq_flatMap, split_flatMap (free first List.mem_cons_self)]
      · apply List.Forall₂.cons
        · exact ⟨[], by simp, rfl⟩
        · rw [List.map_map, List.forall₂_map_left_iff, List.forall₂_same]
          intro w _
          exact ⟨[byteOf ' '], by simp [isBlank], rfl⟩
      · intro p occurs
        obtain ⟨w, later, rfl⟩ := List.mem_map.mp occurs
        exact free w (List.mem_cons_of_mem _ later)
  rw [Request.cookie, cookieIn_eq only small, findSome?_pairs parts sent.valid sent.different member]

theorem SentBack.short (sent : SentBack r written)
    (found : ∀ w ∈ written, r.cookie w.1.name = some (w.1.value, true)) : ∀ w ∈ written, ShortCookie w.1 := by
  intro w member
  obtain ⟨h, only, -, small⟩ := sent.header
  have finds := found w member
  rw [Request.cookie, cookieIn_eq only small] at finds
  cases first : (split h.value [byteOf ';']).findSome? (cookieValue w.1.name) with
  | none =>
    rw [first] at finds
    exact absurd (congrArg Prod.snd (Option.some.inj finds)) Bool.false_ne_true
  | some found =>
    rw [first] at finds
    have same : found = w.1.value := congrArg Prod.fst (Option.some.inj finds)
    rw [same] at first
    obtain ⟨part, inside, value⟩ := List.exists_of_findSome?_eq_some first
    have lengths := lengths_of_cookieValue value
    have whole := length_le_of_mem_split inside
    exact ⟨by omega, by omega⟩

/-- A cookie, the header that is written for it, and a request with what a browser sends of it. -/
def langCookie : Cookie := { name := asciiBytes "lang", value := asciiBytes "d e" }

def langWritten : List (Cookie × Text) := [(langCookie, asciiBytes "lang=d%20e; Path=/; SameSite=Lax")]

def langRequest : Request := { headers := [⟨asciiBytes "Cookie", asciiBytes "lang=d%20e"⟩] }

end Right

end Saad.Http
