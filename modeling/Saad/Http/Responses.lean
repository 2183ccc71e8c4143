import Saad.Http.Heads

/-! # Responses

What a handler answers with, the text that the server sends of it, and how a client reads that text.
The names and values of the headers are written as they are given.
-/

namespace Saad.Http

open General

section Writer

structure ResponseWriter where
  status : ℤ := 200
  headers : List Header := []
  body : Text := []
deriving DecidableEq, Repr

namespace ResponseWriter

/-- Sets a header, in place of the first one with the name. -/
def setHeader (w : ResponseWriter) (name value : Text) : ResponseWriter :=
  { w with headers := set w.headers }
where
  set : List Header → List Header
    | [] => [⟨name, value⟩]
    | h :: headers =>
      if equalFold h.name name then { h with value } :: headers else h :: set headers

def addHeader (w : ResponseWriter) (name value : Text) : ResponseWriter :=
  { w with headers := w.headers ++ [⟨name, value⟩] }

def writeHeader (w : ResponseWriter) (status : ℤ) : ResponseWriter := { w with status }

def write (w : ResponseWriter) (text : Text) : ResponseWriter := { w with body := w.body ++ text }

def error (w : ResponseWriter) (status : ℤ) (message : Text) : ResponseWriter :=
  let w := { w with status }.setHeader (asciiBytes "Content-Type")
    (asciiBytes "text/plain; charset=utf-8")
  { w with body := message ++ [10] }

def redirect (w : ResponseWriter) (url : Text) (status : ℤ) : ResponseWriter :=
  { w with status }.setHeader (asciiBytes "Location") url

end ResponseWriter

inductive SameSite where
  | lax
  | strict
  | none
deriving DecidableEq, Repr

structure Cookie where
  name : Text
  value : Text
  path : Text := [byteOf '/']
  maxAge : ℤ := 0
  httpOnly : Bool := false
  secure : Bool := false
  sameSite : SameSite := .lax
deriving DecidableEq, Repr

def unreserved (ch : BitVec 8) : Bool :=
  isLetter ch || isDigit ch || (asciiBytes "-_.!~*()").contains ch || ch == 0x27

def hexDigit (n : BitVec 8) : BitVec 8 := (asciiBytes "0123456789ABCDEF").getD (n &&& 15).toNat 0

/-- `%XX` for all but the unreserved characters. -/
def escapeUrl (text : Text) : Text :=
  if text.all unreserved then text
  else
    text.flatMap fun ch =>
      if unreserved ch then [ch] else [byteOf '%', hexDigit (ch >>> 4), hexDigit ch]

def cookieText (c : Cookie) : Text :=
  c.name ++ asciiBytes "=" ++ escapeUrl c.value ++
    (if c.path ≠ [] then asciiBytes "; Path=" ++ c.path else []) ++
    (if c.maxAge > 0 then asciiBytes "; Max-Age=" ++ intText c.maxAge else []) ++
    (if c.maxAge < 0 then asciiBytes "; Max-Age=0" else []) ++
    (if c.httpOnly then asciiBytes "; HttpOnly" else []) ++
    (if c.secure then asciiBytes "; Secure" else []) ++
    match c.sameSite with
    | .strict => asciiBytes "; SameSite=Strict"
    | .none => asciiBytes "; SameSite=None"
    | .lax => asciiBytes "; SameSite=Lax"

def ResponseWriter.setCookie (w : ResponseWriter) (c : Cookie) : ResponseWriter :=
  w.addHeader (asciiBytes "Set-Cookie") (cookieText c)

/-- What a handler does with its writer. -/
inductive Operation where
  | setHeader (name value : Text)
  | addHeader (name value : Text)
  | writeHeader (status : ℤ)
  | write (text : Text)
  | error (status : ℤ) (message : Text)
  | redirect (url : Text) (status : ℤ)
  | setCookie (cookie : Cookie)
deriving DecidableEq, Repr

def Operation.run (w : ResponseWriter) : Operation → ResponseWriter
  | .setHeader name value => w.setHeader name value
  | .addHeader name value => w.addHeader name value
  | .writeHeader status => w.writeHeader status
  | .write text => w.write text
  | .error status message => w.error status message
  | .redirect url status => w.redirect url status
  | .setCookie cookie => w.setCookie cookie

/-- The writer that a handler leaves. -/
def respond (operations : List Operation) : ResponseWriter := operations.foldl Operation.run {}

def statusText (status : ℤ) : Text :=
  match status with
  | 100 => asciiBytes "Continue"
  | 200 => asciiBytes "OK"
  | 201 => asciiBytes "Created"
  | 202 => asciiBytes "Accepted"
  | 204 => asciiBytes "No Content"
  | 301 => asciiBytes "Moved Permanently"
  | 302 => asciiBytes "Found"
  | 303 => asciiBytes "See Other"
  | 304 => asciiBytes "Not Modified"
  | 307 => asciiBytes "Temporary Redirect"
  | 308 => asciiBytes "Permanent Redirect"
  | 400 => asciiBytes "Bad Request"
  | 401 => asciiBytes "Unauthorized"
  | 403 => asciiBytes "Forbidden"
  | 404 => asciiBytes "Not Found"
  | 405 => asciiBytes "Method Not Allowed"
  | 408 => asciiBytes "Request Timeout"
  | 409 => asciiBytes "Conflict"
  | 410 => asciiBytes "Gone"
  | 413 => asciiBytes "Content Too Large"
  | 415 => asciiBytes "Unsupported Media Type"
  | 422 => asciiBytes "Unprocessable Content"
  | 429 => asciiBytes "Too Many Requests"
  | 431 => asciiBytes "Request Header Fields Too Large"
  | 500 => asciiBytes "Internal Server Error"
  | 501 => asciiBytes "Not Implemented"
  | 502 => asciiBytes "Bad Gateway"
  | 503 => asciiBytes "Service Unavailable"
  | 504 => asciiBytes "Gateway Timeout"
  | 505 => asciiBytes "HTTP Version Not Supported"
  | _ => []

def statusLine (status : ℤ) : Text :=
  asciiBytes "HTTP/1.1 " ++ intText status ++ asciiBytes " " ++ statusText status

def writeResponse (w : ResponseWriter) (method : Text) : Text :=
  statusLine w.status ++ crlf ++
    (if findHeader w.headers (asciiBytes "Content-Type") = none ∧ w.body.length > 0 then
      asciiBytes "Content-Type: text/plain; charset=utf-8" ++ crlf else []) ++
    (w.headers.flatMap fun h =>
      if equalFold h.name (asciiBytes "Content-Length") then []
      else h.name ++ asciiBytes ": " ++ h.value ++ crlf) ++
    (if w.status ≠ 204 ∧ w.status ≠ 304 then
      asciiBytes "Content-Length: " ++ decimalText w.body.length ++ crlf else []) ++
    crlf ++
    (if method ≠ asciiBytes "HEAD" ∧ w.status ≠ 204 ∧ w.status ≠ 304 then w.body else [])

end Writer

section Client

structure Response where
  status : ℤ
  statusText : Text := []
  version : Text
  headers : List Header := []
  body : Text := []
deriving DecidableEq, Repr

/-- `HTTP/1.1 200 OK` -/
def readStatusLine (first : Text) : Option Response :=
  match indexOf first [byteOf ' '] with
  | none | some 0 => none
  | some space =>
    if !startsWith first (asciiBytes "HTTP/1.") then none
    else
      let rest := first.drop (space + 1)
      let (code, statusText) := match indexOf rest [byteOf ' '] with
        | some last => (rest.take last, rest.drop (last + 1))
        | none => (rest, [])
      let status := int32 (parseCount code)
      if status < 100 ∨ code.length ≠ 3 then none
      else some { status, statusText, version := first.take space }

/-- The response to a request with the verb. The limits are the ones of the client. -/
def readResponse (verb : Text) (incoming : Incoming) : Option (Response × Incoming) := do
  let ((first, headers), incoming) ← (readHead {} incoming).toOption
  let response ← readStatusLine first
  if verb ≠ asciiBytes "HEAD" ∧ response.status ≠ 204 ∧ response.status ≠ 304 then
    let (body, incoming) ← (readBody {} headers true incoming).toOption
    return ({ response with headers, body }, incoming)
  else return ({ response with headers }, incoming)

end Client

end Saad.Http
