import Saad.Http.ResponseFraming

/-! # Requests of the client

The text that the client sends for a request, and what the server reads of it. The two have their own
rules for lines, blanks and the length of the body.
-/

namespace Saad.Http

open General

section Client

/-- The parts of an http or https url. -/
structure Url where
  host : Text := []
  port : ℤ
  path : Text := [byteOf '/']
  tls : Bool := false
deriving DecidableEq, Repr

/-- The last place of a character. -/
def lastIndexOf (c : BitVec 8) : Text → Option ℕ
  | [] => none
  | ch :: rest =>
    match lastIndexOf c rest with
    | some i => some (i + 1)
    | none => if ch = c then some 0 else none

/-- The digits of a port, with what they are so far. -/
def readPort : ℤ → Text → Option ℤ
  | port, [] => some port
  | port, ch :: rest =>
    if !isDigit ch then none
    else
      let port := port * 10 + digitValue ch
      if port > 65535 then none else readPort port rest

def splitHostPort (address : Text) : Option (Text × ℤ) :=
  match lastIndexOf (byteOf ':') address with
  | none => none
  | some colon =>
    let portText := address.drop (colon + 1)
    if portText.length = 0 then none
    else (readPort 0 portText).map fun port => (address.take colon, port)

def parseUrl (url : Text) : Option Url := do
  let (rest, port, tls) ←
    if startsWith url (asciiBytes "http://") then some (url.drop 7, (80 : ℤ), false)
    else if startsWith url (asciiBytes "https://") then some (url.drop 8, (443 : ℤ), true)
    else none
  let (hostPort, path) := match indexOf rest [byteOf '/'] with
    | some slash => (rest.take slash, rest.drop slash)
    | none => (rest, [byteOf '/'])
  let (host, port) ←
    if indexOf hostPort [byteOf ':'] ≠ none then splitHostPort hostPort else some (hostPort, port)
  if host.length = 0 then none
  return { host, port, path, tls }

/-- The text that is sent for a request. None when the url is none of http. -/
def requestText (verb url : Text) (headers : List Header) (body : Text) : Option Text :=
  (parseUrl url).map fun parts =>
    verb ++ asciiBytes " " ++ parts.path ++ asciiBytes " HTTP/1.1" ++ crlf ++
    (if parts.port = 80 ∧ !parts.tls ∨ parts.port = 443 ∧ parts.tls then
      asciiBytes "Host: " ++ parts.host ++ crlf
    else asciiBytes "Host: " ++ parts.host ++ asciiBytes ":" ++ intText parts.port ++ crlf) ++
    (headers.flatMap fun h => h.name ++ asciiBytes ": " ++ h.value ++ crlf) ++
    (if body.length > 0 ∨ verb = asciiBytes "POST" ∨ verb = asciiBytes "PUT" ∨
        verb = asciiBytes "PATCH" then
      asciiBytes "Content-Length: " ++ decimalText body.length ++ crlf else []) ++
    asciiBytes "Connection: close" ++ crlf ++ crlf ++ body

end Client

section Urls

variable {host path : Text} {port : Option Text}

/-- `http://host[:port]/path` -/
def urlText (host : Text) (port : Option Text) (path : Text) : Text :=
  asciiBytes "http://" ++ (host ++ port.elim [] (byteOf ':' :: ·)) ++ path

def decimalValue (digits : Text) : ℕ := digits.foldl (fun n ch => n * 10 + (digitValue ch).toNat) 0

def portOf (port : Option Text) : ℕ := port.elim 80 decimalValue

def isControl (c : BitVec 8) : Bool := c < 0x20 || c == 0x7F

/-- A url with a host that can stand in one, a port, and a path without spaces and control characters. -/
structure HttpUrl (host : Text) (port : Option Text) (path : Text) : Prop where
  host_ne_nil : host ≠ []
  host_slash : byteOf '/' ∉ host
  host_colon : byteOf ':' ∉ host
  host_line : ¬crlf <:+: host
  host_trimmed : Trimmed host
  port_digits : ∀ digits ∈ port, digits ≠ [] ∧ (∀ c ∈ digits, isDigit c = true) ∧
    decimalValue digits ≤ 65535
  path_slash : path.head? = some (byteOf '/')
  path_plain : ∀ c ∈ path, c ≠ byteOf ' ' ∧ isControl c = false

theorem digit_chars : ∀ c : BitVec 8, isDigit c = true →
    c ≠ byteOf ':' ∧ c ≠ byteOf '/' ∧ 0 ≤ digitValue c := by decide

/-- The digits are only added to. -/
theorem le_foldl_digits (digits : Text) (start : ℕ) :
    start ≤ digits.foldl (fun n ch => n * 10 + (digitValue ch).toNat) start := by
  induction digits generalizing start with
  | nil => exact Nat.le_refl _
  | cons c digits ih =>
    rw [List.foldl_cons]
    have behind := ih (start * 10 + (digitValue c).toNat)
    omega

theorem readPort_digits {digits : Text} (all : ∀ c ∈ digits, isDigit c = true) (start : ℕ)
    (within : digits.foldl (fun n ch => n * 10 + (digitValue ch).toNat) start ≤ 65535) :
    readPort start digits =
      some (digits.foldl (fun n ch => n * 10 + (digitValue ch).toNat) start : ℕ) := by
  induction digits generalizing start with
  | nil => rfl
  | cons c digits ih =>
    have digit := all c List.mem_cons_self
    have value : (start : ℤ) * 10 + digitValue c = (start * 10 + (digitValue c).toNat : ℕ) := by
      have := (digit_chars c digit).2.2
      omega
    rw [List.foldl_cons] at within ⊢
    have fits : ¬((start * 10 + (digitValue c).toNat : ℕ) : ℤ) > 65535 := by
      have := le_foldl_digits digits (start * 10 + (digitValue c).toNat)
      omega
    rw [readPort, digit]
    simp only [Bool.not_true, Bool.false_eq_true, if_false, value]
    rw [if_neg fits]
    exact ih (fun d member => all d (List.mem_cons_of_mem _ member)) _ within

theorem lastIndexOf_of_notMem {c : BitVec 8} {text : Text} (absent : c ∉ text) :
    lastIndexOf c text = none := by
  induction text with
  | nil => rfl
  | cons d text ih =>
    rw [List.mem_cons, not_or] at absent
    rw [lastIndexOf, ih absent.2]
    exact if_neg (Ne.symm absent.1)

theorem lastIndexOf_append {c : BitVec 8} {after : Text} (absent : c ∉ after) (before : Text) :
    lastIndexOf c (before ++ c :: after) = some before.length := by
  induction before with
  | nil =>
    rw [List.nil_append, lastIndexOf, lastIndexOf_of_notMem absent]
    exact if_pos rfl
  | cons d before ih =>
    rw [List.cons_append, lastIndexOf, ih]
    rfl

theorem splitHostPort_digits {digits : Text} (nonempty : digits ≠ [])
    (all : ∀ c ∈ digits, isDigit c = true) (within : decimalValue digits ≤ 65535) (host : Text) :
    splitHostPort (host ++ byteOf ':' :: digits) = some (host, (decimalValue digits : ℤ)) := by
  have no_colon : byteOf ':' ∉ digits := fun member => (digit_chars _ (all _ member)).1 rfl
  have behind : (host ++ byteOf ':' :: digits).drop (host.length + 1) = digits := by
    rw [← List.drop_drop, List.drop_left]
    rfl
  have positive := List.length_pos_of_ne_nil nonempty
  have reads := readPort_digits all 0 within
  change readPort 0 digits = some (decimalValue digits : ℤ) at reads
  rw [splitHostPort, lastIndexOf_append no_colon]
  simp only [behind, List.take_left, reads, Option.map_some]
  rw [if_neg (by omega)]

theorem parseUrl_urlText (url : HttpUrl host port path) :
    parseUrl (urlText host port path) = some { host, port := portOf port, path } := by
  have starts : startsWith (urlText host port path) (asciiBytes "http://") = true := by
    rw [urlText, List.append_assoc, startsWith, List.isPrefixOf_iff_prefix]
    exact List.prefix_append _ _
  have rest : (urlText host port path).drop 7 = host ++ port.elim [] (byteOf ':' :: ·) ++ path := by
    have seven : 7 = (asciiBytes "http://").length := by decide
    rw [urlText, List.append_assoc, seven, List.drop_left]
  have no_slash : byteOf '/' ∉ host ++ port.elim [] (byteOf ':' :: ·) := by
    intro member
    obtain member | member := List.mem_append.mp member
    · exact url.host_slash member
    · cases port with
      | none => cases member
      | some digits =>
        obtain ⟨-, all, -⟩ := url.port_digits digits rfl
        obtain same | member := List.mem_cons.mp member
        · revert same
          decide
        · exact (digit_chars _ (all _ member)).2.1 rfl
  have slash : indexOf (host ++ port.elim [] (byteOf ':' :: ·) ++ path) [byteOf '/'] =
      some (host ++ port.elim [] (byteOf ':' :: ·)).length := by
    cases path with
    | nil => cases url.path_slash
    | cons c path =>
      obtain rfl := Option.some.inj url.path_slash
      exact indexOf_char no_slash
  have positive : host.length ≠ 0 := fun empty => url.host_ne_nil (List.length_eq_zero_iff.mp empty)
  rw [parseUrl, starts]
  simp only [if_true, bind, Option.bind, rest, slash, List.take_left, List.drop_left]
  cases port with
  | none =>
    have no_colon : indexOf host [byteOf ':'] = none := indexOf_char_eq_none_iff.mpr url.host_colon
    simp only [Option.elim_none, List.append_nil, no_colon, ne_eq, not_true_eq_false, if_false]
    rw [if_neg positive]
    rfl
  | some digits =>
    obtain ⟨nonempty, all, within⟩ := url.port_digits digits rfl
    have colon : indexOf (host ++ byteOf ':' :: digits) [byteOf ':'] = some host.length :=
      indexOf_char url.host_colon
    simp only [Option.elim_some, colon, ne_eq, reduceCtorEq, not_false_eq_true, if_true,
      splitHostPort_digits nonempty all within]
    rw [if_neg positive]
    rfl

end Urls

section Framing

variable {limits : Limits} {verb host path body : Text} {port : Option Text} {headers : List Header}

/-- A header that a program gives: a token with a value, and none that the client or the framing owns. -/
structure GivenHeader (h : Header) : Prop where
  name : Token h.name
  free : ∀ owned ∈ [asciiBytes "Content-Length", asciiBytes "Transfer-Encoding", asciiBytes "Host",
    asciiBytes "Expect", asciiBytes "Connection"], equalFold h.name owned = false
  value : ∀ c ∈ h.value, isControl c = false
  front : h.value.head? ≠ some (byteOf ' ')
  back : h.value.getLast? ≠ some (byteOf ' ')

def hostValue (host : Text) (port : ℕ) : Text :=
  if port = 80 then host else host ++ byteOf ':' :: decimalText port

/-- The headers that the client sends. -/
def clientHeaders (verb host : Text) (port : ℕ) (headers : List Header) (body : Text) : List Header :=
  ⟨asciiBytes "Host", hostValue host port⟩ :: headers ++
    (if body.length > 0 ∨ verb = asciiBytes "POST" ∨ verb = asciiBytes "PUT" ∨
        verb = asciiBytes "PATCH" then
      [⟨asciiBytes "Content-Length", decimalText body.length⟩] else []) ++
    [⟨asciiBytes "Connection", asciiBytes "close"⟩]

def requestLine (verb path : Text) : Text :=
  verb ++ byteOf ' ' :: (path ++ byteOf ' ' :: asciiBytes "HTTP/1.1")

/-- The text is a head and the body. -/
theorem requestText_eq (url : HttpUrl host port path) :
    requestText verb (urlText host port path) headers body =
      some (headText (requestLine verb path) (clientHeaders verb host (portOf port) headers body) ++
        body) := by
  have first : verb ++ asciiBytes " " ++ path ++ asciiBytes " HTTP/1.1" = requestLine verb path := by
    simp only [requestLine, List.append_assoc]
    rfl
  have host_line : (if ((portOf port : ℕ) : ℤ) = 80 ∧ (!false) = true ∨
        ((portOf port : ℕ) : ℤ) = 443 ∧ false = true then
        asciiBytes "Host: " ++ host ++ crlf
      else asciiBytes "Host: " ++ host ++ asciiBytes ":" ++ intText (portOf port) ++ crlf) =
      headerLine ⟨asciiBytes "Host", hostValue host (portOf port)⟩ ++ crlf := by
    have text : intText (portOf port) = decimalText (portOf port) := by
      rw [intText, if_neg (by omega), Int.toNat_natCast]
    rw [hostValue, text]
    by_cases plain : portOf port = 80
    · rw [if_pos (.inl ⟨by omega, rfl⟩), if_pos plain]
      rfl
    · rw [if_neg (by simpa using by omega), if_neg plain]
      simp only [headerLine, List.append_assoc]
      rfl
  have lines : ∀ first second : List Text,
      linesText (first ++ second) = linesText first ++ linesText second :=
    fun _ _ => List.flatMap_append
  have given : linesText (headers.map headerLine) =
      headers.flatMap fun h => h.name ++ asciiBytes ": " ++ h.value ++ crlf := by
    rw [linesText, List.flatMap_map]
    rfl
  rw [requestText, parseUrl_urlText url, Option.map_some]
  dsimp only
  rw [first, host_line, headText, clientHeaders, List.map_append, List.map_append, lines, lines,
    List.map_cons, ← given]
  congr 1
  split
  · simp only [linesText, List.flatMap_cons, List.map_singleton, List.append_assoc]
    rfl
  · simp only [linesText, List.flatMap_cons, List.map_singleton, List.map_nil, List.flatMap_nil,
      List.append_assoc, List.nil_append]
    rfl

theorem control_chars : ∀ c : BitVec 8, isControl c = false →
    c ≠ 13 ∧ (c ≠ byteOf ' ' → isBlank c = false) := by decide

theorem token_chars : ∀ c : BitVec 8, isTokenChar c = true →
    c ≠ byteOf ':' ∧ c ≠ byteOf ' ' ∧ c ≠ 13 := by decide

theorem Token.plain {name value : Text} (token : Token name) (one : ¬crlf <:+: value) :
    PlainHeader ⟨name, value⟩ where
  nonempty := token.1
  colon member := (token_chars _ (token.2 _ member)).1 rfl
  space member := (token_chars _ (token.2 _ member)).2.1 rfl
  name := token.oneLine.no_crlf
  value := one

theorem GivenHeader.plain {h : Header} (given : GivenHeader h) : PlainHeader h :=
  given.name.plain (OneLine.no_crlf fun c member => (control_chars c (given.value c member)).1)

theorem GivenHeader.trimmed {h : Header} (given : GivenHeader h) : h.trimmed = h := by
  have trimmed : Trimmed h.value := by
    constructor
    · intro c member
      apply (control_chars c (given.value c (List.mem_of_mem_head? member))).2
      rintro rfl
      exact given.front member
    · intro c member
      apply (control_chars c (given.value c (List.mem_of_getLast? member))).2
      rintro rfl
      exact given.back member
  rw [Header.trimmed, trimmed.trimSpaces]

theorem hostValue_plain (url : HttpUrl host port path) (n : ℕ) :
    ¬crlf <:+: hostValue host n ∧ Trimmed (hostValue host n) := by
  rw [hostValue]
  split
  · exact ⟨url.host_line, url.host_trimmed⟩
  · refine ⟨?_, ?_, ?_⟩
    · rw [infix_append_cons_iff (by decide)]
      rintro (occurs | occurs)
      · exact url.host_line occurs
      · exact (oneLine_decimalText n).no_crlf occurs
    · intro c member
      cases host with
      | nil => exact absurd rfl url.host_ne_nil
      | cons d host => exact url.host_trimmed.front c member
    · intro c member
      rw [List.getLast?_append, List.getLast?_cons, (List.getLast?_eq_some_getLast
        (decimalText_ne_nil n))] at member
      apply (trimmed_decimalText n).back c
      rw [List.getLast?_eq_some_getLast (decimalText_ne_nil n)]
      exact member

theorem clientHeaders_plain (url : HttpUrl host port path) (given : ∀ h ∈ headers, GivenHeader h)
    (n : ℕ) : ∀ h ∈ clientHeaders verb host n headers body, PlainHeader h ∧ h.trimmed = h := by
  have token : Token (asciiBytes "Host") ∧ Token (asciiBytes "Content-Length") ∧
      Token (asciiBytes "Connection") := by
    refine ⟨⟨by decide, by decide⟩, ⟨by decide, by decide⟩,
      by decide, by decide⟩
  intro h member
  rw [clientHeaders, List.append_assoc, List.cons_append, List.mem_cons, List.mem_append,
    List.mem_append] at member
  obtain rfl | member | member | member := member
  · obtain ⟨one, trimmed⟩ := hostValue_plain url n
    exact ⟨token.1.plain one, by rw [Header.trimmed, trimmed.trimSpaces]⟩
  · exact ⟨(given h member).plain, (given h member).trimmed⟩
  · split at member
    · obtain rfl := List.mem_singleton.mp member
      exact ⟨token.2.1.plain (oneLine_decimalText _).no_crlf,
        by rw [Header.trimmed, (trimmed_decimalText _).trimSpaces]⟩
    · cases member
  · obtain rfl := List.mem_singleton.mp member
    exact ⟨token.2.2.plain (oneLine_asciiBytes (by decide)).no_crlf, by decide⟩

theorem findHeader_client_encoding (given : ∀ h ∈ headers, GivenHeader h) (n : ℕ) :
    findHeader (clientHeaders verb host n headers body) (asciiBytes "Transfer-Encoding") = none := by
  have names : equalFold (asciiBytes "Host") (asciiBytes "Transfer-Encoding") = false ∧
      equalFold (asciiBytes "Content-Length") (asciiBytes "Transfer-Encoding") = false ∧
      equalFold (asciiBytes "Connection") (asciiBytes "Transfer-Encoding") = false := by
    decide
  rw [findHeader_eq_none_iff]
  intro h member
  rw [clientHeaders, List.append_assoc, List.cons_append, List.mem_cons, List.mem_append,
    List.mem_append] at member
  obtain rfl | member | member | member := member
  · exact names.1
  · exact (given h member).free _ (by simp)
  · split at member
    · obtain rfl := List.mem_singleton.mp member
      exact names.2.1
    · cases member
  · obtain rfl := List.mem_singleton.mp member
    exact names.2.2

/-- The length is there when it matters. -/
theorem findHeader_client_length (given : ∀ h ∈ headers, GivenHeader h) (n : ℕ) :
    findHeader (clientHeaders verb host n headers body) (asciiBytes "Content-Length") =
      some (decimalText body.length) ∨
    findHeader (clientHeaders verb host n headers body) (asciiBytes "Content-Length") = none ∧
      body = [] := by
  have names : equalFold (asciiBytes "Host") (asciiBytes "Content-Length") = false ∧
      equalFold (asciiBytes "Connection") (asciiBytes "Content-Length") = false := by
    decide
  have same : equalFold (asciiBytes "Content-Length") (asciiBytes "Content-Length") = true := by
    simp [equalFold]
  have absent : findHeader (⟨asciiBytes "Host", hostValue host n⟩ :: headers)
      (asciiBytes "Content-Length") = none := by
    rw [findHeader_eq_none_iff]
    intro h member
    obtain rfl | member := List.mem_cons.mp member
    · exact names.1
    · exact (given h member).free _ (by simp)
  rw [clientHeaders, List.append_assoc, findHeader_append_of_none absent]
  split
  · left
    rw [findHeader, List.singleton_append, List.find?_cons, same]
    rfl
  · next no_length =>
    right
    rw [not_or] at no_length
    refine ⟨?_, List.length_eq_zero_iff.mp (by omega)⟩
    rw [List.nil_append, findHeader_eq_none_iff]
    intro h member
    obtain rfl := List.mem_singleton.mp member
    exact names.2

/-- The path and the query of a target, which the first question mark parts. -/
def pathAndQuery (target : Text) : Text × Text :=
  (target.takeWhile (· != byteOf '?'), (target.dropWhile (· != byteOf '?')).drop 1)

theorem pathAndQuery_eq (target : Text) :
    (match indexOf target [byteOf '?'] with
      | some question => (target.take question, target.drop (question + 1))
      | none => (target, [])) = pathAndQuery target := by
  by_cases asked : byteOf '?' ∈ target
  · obtain ⟨before, behind, rfl, absent⟩ := List.eq_append_cons_of_mem asked
    have plain : ∀ c ∈ before, (c != byteOf '?') = true := by
      intro c member
      rw [bne_iff_ne]
      rintro rfl
      exact absent member
    have stops : ¬(byteOf '?' != byteOf '?') = true := by simp
    have back : (before ++ byteOf '?' :: behind).drop (before.length + 1) = behind := by
      rw [← List.drop_drop, List.drop_left]
      rfl
    rw [indexOf_char absent, pathAndQuery, List.takeWhile_append_of_pos plain,
      List.dropWhile_append_of_pos plain,
      List.takeWhile_cons_of_neg (p := fun a => a != byteOf '?') stops,
      List.dropWhile_cons_of_neg (p := fun a => a != byteOf '?') stops]
    simp only [List.take_left, back, List.append_nil]
    rfl
  · have plain : ∀ c ∈ target, (c != byteOf '?') = true := by
      intro c member
      rw [bne_iff_ne]
      rintro rfl
      exact asked member
    rw [indexOf_char_eq_none_iff.mpr asked, pathAndQuery, List.takeWhile_eq_self_iff.mpr plain,
      List.dropWhile_eq_nil_iff.mpr plain]
    rfl

theorem requestLine_isLine (verb_line : ¬crlf <:+: verb) (url : HttpUrl host port path) :
    IsLine (requestLine verb path) := by
  rw [isLine_iff, requestLine, infix_append_cons_iff (by decide), infix_append_cons_iff (by decide)]
  rintro (occurs | occurs | occurs)
  · exact verb_line occurs
  · apply OneLine.no_crlf _ occurs
    exact fun c member => (control_chars c (url.path_plain c member).2).1
  · exact (oneLine_asciiBytes (by decide)).no_crlf occurs

theorem readRequestLine_requestLine (verb_ne : verb ≠ []) (verb_spaces : byteOf ' ' ∉ verb)
    (url : HttpUrl host port path) :
    readRequestLine (requestLine verb path) =
      .ok { method := verb, target := path, path := (pathAndQuery path).1,
            query := (pathAndQuery path).2, version := asciiBytes "HTTP/1.1" } := by
  have no_space : byteOf ' ' ∉ path := fun member => (url.path_plain _ member).1 rfl
  have first : indexOf (requestLine verb path) [byteOf ' '] = some verb.length :=
    indexOf_char verb_spaces
  have method : (requestLine verb path).take verb.length = verb := List.take_left
  have rest : (requestLine verb path).drop (verb.length + 1) =
      path ++ byteOf ' ' :: asciiBytes "HTTP/1.1" := by
    rw [requestLine, ← List.drop_drop, List.drop_left]
    rfl
  have known : startsWith (asciiBytes "HTTP/1.1") (asciiBytes "HTTP/1.") = true := by decide
  have slash : startsWith path [byteOf '/'] = true := by
    cases path with
    | nil => cases url.path_slash
    | cons c path =>
      obtain rfl := Option.some.inj url.path_slash
      rfl
  obtain ⟨n, length⟩ : ∃ n, path.length = n + 1 := by
    apply Nat.exists_eq_succ_of_ne_zero
    intro empty
    rw [List.length_eq_zero_iff.mp empty] at slash
    cases slash
  have last : indexOf (path ++ byteOf ' ' :: asciiBytes "HTTP/1.1") [byteOf ' '] = some (n + 1) := by
    rw [← length]
    exact indexOf_char no_space
  have target : (path ++ byteOf ' ' :: asciiBytes "HTTP/1.1").take (n + 1) = path := by
    rw [← length, List.take_left]
  have version : (path ++ byteOf ' ' :: asciiBytes "HTTP/1.1").drop (n + 1 + 1) =
      asciiBytes "HTTP/1.1" := by
    rw [← length, ← List.drop_drop, List.drop_left]
    rfl
  have verb_length : verb.length ≠ 0 := fun empty => verb_ne (List.length_eq_zero_iff.mp empty)
  rw [readRequestLine, first]
  split
  · next none_ => cases none_
  · next zero => exact absurd (Option.some.inj zero) verb_length
  · next space _ same =>
    obtain rfl := Option.some.inj same
    simp only [rest, last, target, version, known, slash, method, Bool.not_true, Bool.false_and,
      Bool.false_eq_true, if_false]
    let request (split : Text × Text) : Request :=
      { method := verb, target := path, path := split.1, query := split.2,
        version := asciiBytes "HTTP/1.1" }
    exact congrArg (fun split => Except.ok (request split)) (pathAndQuery_eq path)

/-- What the server is meant to read. -/
def sentRequest (verb host : Text) (port : ℕ) (path : Text) (headers : List Header) (body : Text) :
    Request where
  method := verb
  target := path
  path := (pathAndQuery path).1
  query := (pathAndQuery path).2
  version := asciiBytes "HTTP/1.1"
  headers := clientHeaders verb host port headers body
  body := body

/-- The text that the client sends is read as the request that it was made of, in any pieces. -/
theorem readRequest_requestText (verb_ne : verb ≠ []) (verb_spaces : byteOf ' ' ∉ verb)
    (verb_line : ¬crlf <:+: verb) (url : HttpUrl host port path)
    (given : ∀ h ∈ headers, GivenHeader h) (within : body.length ≤ limits.bodyBytes)
    (head : (headLines (requestLine verb path)
      (clientHeaders verb host (portOf port) headers body)).length + 3 ≤ limits.headBytes) :
    ∃ text, requestText verb (urlText host port path) headers body = some text ∧
      ∀ incoming : Incoming, incoming.stream = text →
        ∃ after, readRequest limits incoming =
          .ok (sentRequest verb host (portOf port) path headers body, after) ∧ after.stream = [] := by
  refine ⟨_, requestText_eq url, ?_⟩
  intro incoming stream_eq
  have plain := @clientHeaders_plain verb _ _ body _ _ url given (portOf port)
  obtain ⟨behind, reads, stream, -⟩ := readHead_headText (requestLine_isLine verb_line url)
    (fun h member => (plain h member).1) head stream_eq
  have same : (clientHeaders verb host (portOf port) headers body).map Header.trimmed =
      clientHeaders verb host (portOf port) headers body := by
    conv_rhs => rw [← List.map_id (clientHeaders verb host (portOf port) headers body)]
    exact List.map_congr_left fun h member => (plain h member).2
  rw [same] at reads
  have below := limits.bodyBytes_lt
  have not_encoded := @findHeader_client_encoding verb host body _ given
    (portOf port)
  have reads_body : ∃ after, readBody limits (clientHeaders verb host (portOf port) headers body) false
      behind = .ok (body, after) ∧ after.stream = [] := by
    obtain counted | ⟨uncounted, rfl⟩ := @findHeader_client_length verb host body _ given (portOf port)
    · obtain ⟨after, reads, rest, -⟩ := @readBody_of_length _ _ behind _ [] false _ not_encoded counted
        (parseCount_decimalText (by omega)) within
        (by rw [stream, List.append_nil])
      exact ⟨after, reads, rest⟩
    · refine ⟨behind, ?_, stream⟩
      rw [readBody, not_encoded, uncounted]
      rfl
  obtain ⟨after, body_eq, rest⟩ := reads_body
  refine ⟨after, ?_, rest⟩
  rw [readRequest, reads]
  simp only [bind, Except.bind, readRequestLine_requestLine verb_ne verb_spaces url, body_eq]
  rfl

/-- A post to a port of its own, with a body that has an empty line. -/
theorem readRequest_postText :
    ∃ text, requestText (asciiBytes "POST") (asciiBytes "http://a:8080/p?q=1")
      [⟨asciiBytes "X", asciiBytes "y z"⟩] (asciiBytes "\r\n\r\n") = some text ∧
      ∀ incoming : Incoming, incoming.stream = text → ∃ after, readRequest {} incoming =
        .ok (sentRequest (asciiBytes "POST") (asciiBytes "a") 8080 (asciiBytes "/p?q=1")
          [⟨asciiBytes "X", asciiBytes "y z"⟩] (asciiBytes "\r\n\r\n"), after) ∧
        after.stream = [] := by
  have url : HttpUrl (asciiBytes "a") (some (asciiBytes "8080")) (asciiBytes "/p?q=1") := by
    refine ⟨by decide, by decide, by decide,
      (oneLine_asciiBytes (by decide)).no_crlf, ⟨by decide, by decide⟩, ?_,
      by decide, by decide⟩
    intro digits given
    obtain rfl := Option.some.inj given
    exact ⟨by decide, by decide, by decide⟩
  have given : ∀ h ∈ [(⟨asciiBytes "X", asciiBytes "y z"⟩ : Header)], GivenHeader h := by
    intro h member
    obtain rfl := List.mem_singleton.mp member
    exact ⟨⟨by decide, by decide⟩, by decide, by decide,
      by decide, by decide⟩
  exact @readRequest_requestText {} (asciiBytes "POST") _ _ (asciiBytes "\r\n\r\n") _ _
    (by decide) (by decide)
    (oneLine_asciiBytes (by decide)).no_crlf url given (by decide) (by decide)

/-- A verb that is empty or has a line break, and a head above the limit, are not read as a request. -/
theorem requestText_refused :
    (requestText [] (asciiBytes "http://a/") [] []).map
      (fun text => readRequest {} { buffer := text }) = some (.error (.status 400)) ∧
    (requestText (asciiBytes "A\r\nB") (asciiBytes "http://a/") [] []).map
      (fun text => readRequest {} { buffer := text }) = some (.error (.status 400)) ∧
    (requestText (asciiBytes "GET") (asciiBytes "http://a/") [] []).map
      (fun text => readRequest { headBytes := 32 } { buffer := text }) =
        some (.error (.status 431)) := by
  refine ⟨by decide +kernel, by decide +kernel, by decide +kernel⟩

end Framing

end Saad.Http
