import Tigerkin.Http.Basic
import Tigerkin.Http.RequestMachine
import Tigerkin.Http.Stream

/-! # `HttpRequestParser` and `HttpSession::recvRequest` -/

namespace Tigerkin.Http

open Machine CString

structure HttpRequest where
  method : HttpMethod := .GET
  version : UInt8 := 0x11
  close : Bool := true
  path : List UInt8 := bytes "/"
  query : List UInt8 := []
  fragment : List UInt8 := []
  body : List UInt8 := []
  headers : Headers := []
  deriving DecidableEq

def HttpRequest.init (r : HttpRequest) : HttpRequest :=
  let conn := (r.headers.find "connection").getD []
  if conn.isEmpty then r
  else { r with close := strcasecmp conn (bytes "keep-alive") != .eq }

theorem HttpRequest.init_body (r : HttpRequest) : r.init.body = r.body := by
  unfold init
  dsimp only
  split <;> rfl

/-- The parser with the C struct `m_parser` in it. -/
structure HttpRequestParser where
  cs : Nat := 1
  bodyStart : Nat := 0
  nread : Nat := 0
  mark : Nat := 0
  fieldStart : Nat := 0
  fieldLen : Nat := 0
  /-- Nothing initializes `query_start` and `uri_relaxed`. -/
  queryStart : Nat
  xmlSent : Bool := false
  jsonSent : Bool := false
  uriRelaxed : Bool
  data : HttpRequest := {}
  error : HttpParserError := .OK

namespace HttpRequestParser

def new (queryStart : Nat) (uriRelaxed : Bool) : HttpRequestParser := { queryStart, uriRelaxed }

def onRequestMethod (buffer : List UInt8) (start n : Nat) (x : HttpRequestParser) :
    Option HttpRequestParser :=
  match charsToHttpMethod (buffer.drop start) with
  | some m => some { x with data := { x.data with method := m } }
  -- the string is built for the log
  | none => (string buffer start n).map fun _ => { x with error := .INVALID_METHOD_ERROR }

def onRequestFragment (buffer : List UInt8) (start n : Nat) (x : HttpRequestParser) :
    Option HttpRequestParser :=
  (string buffer start n).map fun s => { x with data := { x.data with fragment := s } }

def onRequestPath (buffer : List UInt8) (start n : Nat) (x : HttpRequestParser) :
    Option HttpRequestParser :=
  (string buffer start n).map fun s => { x with data := { x.data with path := s } }

def onRequestQueryString (buffer : List UInt8) (start n : Nat) (x : HttpRequestParser) :
    Option HttpRequestParser :=
  (string buffer start n).map fun s => { x with data := { x.data with query := s } }

def onRequestHttpVersion (buffer : List UInt8) (start n : Nat) (x : HttpRequestParser) :
    Option HttpRequestParser :=
  if strncmpEq n (bytes "HTTP/1.1") (buffer.drop start) then
    some { x with data := { x.data with version := 0x11 } }
  else if strncmpEq n (bytes "HTTP/1.0") (buffer.drop start) then
    some { x with data := { x.data with version := 0x10 } }
  else (string buffer start n).map fun _ => { x with error := .INVALID_VERSION_ERROR }

def onRequestHttpField (buffer : List UInt8) (field flen value vlen : Nat)
    (x : HttpRequestParser) : Option HttpRequestParser :=
  if flen = 0 then some x
  else do
    let key ← string buffer field flen
    let val ← string buffer value vlen
    some { x with data := { x.data with headers := x.data.headers.set key val } }

/-- An action of the machine at the position `p`; `none` is an exception. `on_request_uri` and
`on_request_header_done` do nothing, and nothing reads `content_len`. -/
def act (buffer : List UInt8) (p : Nat) (x : HttpRequestParser) :
    RequestAction → Option HttpRequestParser
  | .mark => some { x with mark := p }
  | .startField => some { x with fieldStart := p }
  | .writeField => some { x with fieldLen := len x.fieldStart p }
  | .writeValue => x.onRequestHttpField buffer x.fieldStart x.fieldLen x.mark (len x.mark p)
  | .requestMethod => x.onRequestMethod buffer x.mark (len x.mark p)
  | .requestUri => some x
  | .fragment => x.onRequestFragment buffer x.mark (len x.mark p)
  | .startQuery => some { x with queryStart := p }
  | .queryString => x.onRequestQueryString buffer x.queryStart (len x.queryStart p)
  | .httpVersion => x.onRequestHttpVersion buffer x.mark (len x.mark p)
  | .requestPath => x.onRequestPath buffer x.mark (len x.mark p)
  | .done =>
    if x.xmlSent || x.jsonSent then some { x with bodyStart := x.mark }
    else some { x with bodyStart := p + 1 }
  | .xml => some { x with xmlSent := true }
  | .json => some { x with jsonSent := true }

/-- `http_request_parser_execute` from the offset 0; `none` is an exception or an assertion that
fails. -/
def parserExecute (x : HttpRequestParser) (buffer : List UInt8) (len : Nat) :
    Option (HttpRequestParser × Nat) :=
  if len = 0 then some (x, 0)
  else do
    let (y, cs, p) ←
      exec (requestRows x.uriRelaxed) (· == .done) (act buffer) x.cs x 0 (buffer.take len)
    let y := { y with cs := if x.cs = 0 then x.cs else cs, nread := y.nread + p }
    if y.nread ≤ len ∧ y.bodyStart ≤ len ∧ y.mark < len ∧ y.fieldLen ≤ len ∧ y.fieldStart < len
    then some (y, y.nread)
    else none

/-- The result has the buffer after the `memmove`. -/
def execute (x : HttpRequestParser) (data : List UInt8) (len : Nat) :
    Option (HttpRequestParser × List UInt8 × Nat) := do
  let (y, offset) ← x.parserExecute data len
  some (y, (data.take len).drop offset ++ data.drop (len - offset), offset)

def hasError (x : HttpRequestParser) : Bool := x.error != .OK || x.cs == 0

def isFinished (x : HttpRequestParser) : Int :=
  if x.cs = 0 then -1 else if 348 ≤ x.cs then 1 else 0

end HttpRequestParser

/-- The variables of `recvRequest` in its first loop. The length of `data` is the buffer size (an
`int` in the code's own comparison with the offset); what the buffer holds first is arbitrary. -/
structure HttpSession where
  parser : HttpRequestParser
  data : List UInt8
  offset : Nat := 0
  sock : Socket

namespace HttpSession

def start (queryStart : Nat) (uriRelaxed : Bool) (data : List UInt8) (sock : Socket) :
    HttpSession :=
  { parser := .new queryStart uriRelaxed, data, sock }

/-- A round of the loop that reads the head of the request. -/
def recvHead (s : HttpSession) : HttpSession ⊕ Except Stop HttpSession :=
  match s.sock.read (s.data.length - s.offset) with
  | (none, _) => .inr (.error .nullptr)
  | (some b, sock) =>
    let data := s.data.take s.offset ++ b ++ s.data.drop (s.offset + b.length)
    let len := s.offset + b.length
    match s.parser.execute data len with
    | none => .inr (.error .abort)
    | some (parser, data, nparse) =>
      if parser.hasError then .inr (.error .nullptr)
      else if len - nparse = data.length then .inr (.error .nullptr)
      else if parser.isFinished ≠ 0 then .inr (.ok ⟨parser, data, len - nparse, sock⟩)
      else .inl ⟨parser, data, len - nparse, sock⟩

variable (lexicalCast : List UInt8 → Option UInt64)

def contentLength (s : HttpSession) : Int :=
  (s.parser.data.headers.getUInt64 lexicalCast "content-length").toInt64.toInt

/-- What follows the loop: the request, and the socket for the next one. The buffer goes with the
call. -/
def recvBody (fuel : Nat) (s : HttpSession) : Option (Except Stop (HttpRequest × Socket)) :=
  let r := s.parser.data
  let n := (s.contentLength lexicalCast).toNat
  if s.contentLength lexicalCast ≤ 0 then some (.ok (r.init, s.sock))
  else if n ≤ s.offset then some (.ok ({ r with body := s.data.take n }.init, s.sock))
  else
    (Loop.run readFixLength fuel ⟨n - s.offset, s.data.take s.offset, s.sock⟩).map fun
      | (none, _) => .error .nullptr
      | (some body, sock) => .ok ({ r with body := body }.init, sock)

def recvRequest (fuel : Nat) (s : HttpSession) : Option (Except Stop (HttpRequest × Socket)) :=
  (Loop.run recvHead fuel s).bind fun
    | .error e => some (.error e)
    | .ok s => s.recvBody lexicalCast fuel

end HttpSession

end Tigerkin.Http
