import Tigerkin.Http.Basic
import Tigerkin.Http.ResponseMachine
import Tigerkin.Http.Stream

/-! # `HttpResponse`, `HttpResponseParser` and `HttpConnection::recvResponse` -/

namespace Tigerkin.Http

open Machine CString

/-- `enum class HttpStatus`, to which any `int` can be cast. -/
structure HttpStatus where
  code : Int
  deriving DecidableEq

/-- `HTTP_STATUS_MAP`, in its order. -/
def httpStatusMap : List (Int × String) :=
  [(100, "Continue"), (101, "Switching Protocols"), (102, "Processing"), (200, "OK"),
    (201, "Created"), (202, "Accepted"), (203, "Non - Authoritative Information"),
    (204, "No Content"), (205, "Reset Content"), (206, "Partial Content"), (207, "Multi - Status"),
    (208, "Already Reported"), (226, "IM Used"), (300, "Multiple Choices"),
    (301, "Moved Permanently"), (302, "Found"), (303, "See Other"), (304, "Not Modified"),
    (305, "Use Proxy"), (307, "Temporary Redirect"), (308, "Permanent Redirect"),
    (400, "Bad Request"), (401, "Unauthorized"), (402, "Payment Required"), (403, "Forbidden"),
    (404, "Not Found"), (405, "Method Not Allowed"), (406, "Not Acceptable"),
    (407, "Proxy Authentication Required"), (408, "Request Timeout"), (409, "Conflict"),
    (410, "Gone"), (411, "Length Required"), (412, "Precondition Failed"),
    (413, "Payload Too Large"), (414, "URI Too Long"), (415, "Unsupported Media Type"),
    (416, "Range Not Satisfiable"), (417, "Expectation Failed"), (421, "Misdirected Request"),
    (422, "Unprocessable Entity"), (423, "Locked"), (424, "Failed Dependency"),
    (426, "Upgrade Required"), (428, "Precondition Required"), (429, "Too Many Requests"),
    (431, "Request Header Fields Too Large"), (451, "Unavailable For Legal Reasons"),
    (500, "Internal Server Error"), (501, "Not Implemented"), (502, "Bad Gateway"),
    (503, "Service Unavailable"), (504, "Gateway Timeout"), (505, "HTTP Version Not Supported"),
    (506, "Variant Also Negotiates"), (507, "Insufficient Storage"), (508, "Loop Detected"),
    (510, "Not Extended"), (511, "Network Authentication Required")]

def httpStatusToString (s : HttpStatus) : String :=
  ((httpStatusMap.find? fun x => x.1 == s.code).map Prod.snd).getD "UNKNOWN"

structure HttpResponse where
  status : HttpStatus := ⟨200⟩
  version : UInt8 := 0x11
  close : Bool := true
  websocket : Bool := false
  body : List UInt8 := []
  reason : List UInt8 := []
  headers : Headers := []
  cookies : List (List UInt8) := []
  deriving DecidableEq

namespace HttpResponse

def effectiveReason (r : HttpResponse) : List UInt8 :=
  if r.reason.isEmpty then bytes (httpStatusToString r.status) else r.reason

def dump (r : HttpResponse) : List UInt8 :=
  bytes "HTTP/" ++ showNat (r.version >>> 4).toNat ++ bytes "." ++
    showNat (r.version &&& 0x0F).toNat ++ bytes " " ++
    showNat (r.status.code % 2 ^ 32).toNat ++ bytes " " ++ r.effectiveReason ++ bytes "\r\n" ++
    dumpHeaders r.websocket r.headers ++
    r.cookies.flatMap (fun c => bytes "Set-Cookie: " ++ c ++ bytes "\r\n") ++
    (if r.websocket then [] else dumpConnection r.close) ++ dumpBody r.body

end HttpResponse

/-- The parser with the C struct `m_parser` in it. Nothing reads the `status` and `close` of the
struct. -/
structure HttpResponseParser where
  cs : Nat := 1
  bodyStart : Nat := 0
  contentLen : Int := -1
  chunked : Bool := false
  chunksDone : Bool := false
  nread : Nat := 0
  mark : Nat := 0
  fieldStart : Nat := 0
  fieldLen : Nat := 0
  data : HttpResponse := {}
  error : HttpParserError := .OK

namespace HttpResponseParser

/-- `http_response_parser_init` -/
def init (x : HttpResponseParser) : HttpResponseParser := { data := x.data, error := x.error }

def onResponseReasonPhrase (buffer : List UInt8) (start n : Nat) (x : HttpResponseParser) :
    Option HttpResponseParser :=
  (string buffer start n).map fun s => { x with data := { x.data with reason := s } }

def onResponseStatusCode (buffer : List UInt8) (start : Nat) (x : HttpResponseParser) :
    HttpResponseParser :=
  { x with data := { x.data with status := ⟨toInt (strtol (buffer.drop start) 10)⟩ } }

def onResponseHttpVersion (buffer : List UInt8) (start n : Nat) (x : HttpResponseParser) :
    Option HttpResponseParser :=
  if strncmpEq n (bytes "HTTP/1.1") (buffer.drop start) then
    some { x with data := { x.data with version := 0x11 } }
  else if strncmpEq n (bytes "HTTP/1.0") (buffer.drop start) then
    some { x with data := { x.data with version := 0x10 } }
  else (string buffer start n).map fun _ => { x with error := .INVALID_VERSION_ERROR }

def onResponseHttpField (buffer : List UInt8) (field flen value vlen : Nat)
    (x : HttpResponseParser) : Option HttpResponseParser :=
  if flen = 0 then some x
  else do
    let key ← string buffer field flen
    let val ← string buffer value vlen
    some { x with data := { x.data with headers := x.data.headers.set key val } }

/-- An action of the machine at the position `p`; `none` is an exception. `on_response_chunk_size`,
`on_response_last_chunk` and `on_response_header_done` do nothing. -/
def act (buffer : List UInt8) (p : Nat) (x : HttpResponseParser) :
    ResponseAction → Option HttpResponseParser
  | .mark => some { x with mark := p }
  | .startField => some { x with fieldStart := p }
  | .writeField => some { x with fieldLen := len x.fieldStart p }
  | .writeContentLen => some { x with contentLen := toInt (strtol (buffer.drop x.mark) 10) }
  | .writeConnectionClose => some x
  | .writeValue => x.onResponseHttpField buffer x.fieldStart x.fieldLen x.mark (len x.mark p)
  | .reasonPhrase => x.onResponseReasonPhrase buffer x.mark (len x.mark p)
  | .statusCode => some (x.onResponseStatusCode buffer x.mark)
  | .httpVersion => x.onResponseHttpVersion buffer x.mark (len x.mark p)
  | .chunkSize =>
    let n := toInt (strtol (buffer.drop x.mark) 16)
    some { x with chunked := true, contentLen := n, chunksDone := n ≤ 0 }
  | .transChunked => some { x with chunked := true }
  | .done => some { x with bodyStart := p + 1 }

/-- `http_response_parser_execute` from the offset 0 on the bytes of the buffer, which a NUL
follows; `none` is an exception, an assertion that fails or a `check` that fails: its result -1
makes the `memmove` of `execute` leave the buffer. -/
def parserExecute (x : HttpResponseParser) (buffer : List UInt8) :
    Option (HttpResponseParser × Nat) := do
  let (y, cs, p) ← exec responseRows (· == .done) (act buffer) x.cs x 0 buffer
  let y := { y with cs, nread := y.nread + p }
  if y.nread ≤ buffer.length ∧ y.bodyStart ≤ buffer.length ∧ y.mark < buffer.length ∧
      y.fieldLen ≤ buffer.length ∧ y.fieldStart < buffer.length
  then some (y, y.nread)
  else none

/-- The result has the bytes that are left in the buffer. -/
def execute (x : HttpResponseParser) (data : List UInt8) (chunck : Bool) :
    Option (HttpResponseParser × List UInt8) := do
  let x := if chunck then x.init else x
  let (y, offset) ← x.parserExecute data
  some (y, data.drop offset)

def hasError (x : HttpResponseParser) : Bool := x.error != .OK || x.cs == 0

def isFinished (x : HttpResponseParser) : Bool := x.cs == 120

end HttpResponseParser

/-- The variables of `recvResponse`; `data` are the bytes in the buffer. -/
structure HttpConnection where
  bufferSize : Nat
  parser : HttpResponseParser := {}
  data : List UInt8 := []
  body : List UInt8 := []
  sock : Socket

/-- Where the control is in the loop over the chunks. -/
inductive ChunkLoop where
  | header (begin : Bool)
  | data (left : Nat)
  deriving DecidableEq

namespace HttpConnection

/-- A round of the loop that reads the head of the response. -/
def recvHead (s : HttpConnection) : HttpConnection ⊕ Except Stop HttpConnection :=
  match s.sock.read (s.bufferSize - s.data.length) with
  | (none, _) | (some [], _) => .inr (.error .nullptr)
  | (some b, sock) =>
    match s.parser.execute (s.data ++ b) false with
    | none => .inr (.error .abort)
    | some (parser, data) =>
      let s := { s with parser, data, sock }
      if parser.hasError then .inr (.error .nullptr)
      else if data.length = s.bufferSize then .inr (.error .nullptr)
      else if parser.isFinished then .inr (.ok s)
      else .inl s

/-- The end of a round of the outer loop over the chunks. -/
def endChunk (s : HttpConnection) : ChunkLoop × HttpConnection ⊕ Except Stop HttpConnection :=
  if s.parser.chunksDone then .inr (.ok s) else .inl (.header true, s)

/-- What follows the loop that reads the header of a chunk. A `content_len` that is negative, or too
large for `content_len + 2`, makes `append` throw or leave the buffer. -/
def recvChunkBody (s : HttpConnection) :
    ChunkLoop × HttpConnection ⊕ Except Stop HttpConnection :=
  if toInt (s.parser.contentLen + 2) ≤ s.data.length then
    if s.parser.contentLen < 0 ∨ s.data.length < s.parser.contentLen then .inr (.error .abort)
    else
      let n := s.parser.contentLen.toNat
      endChunk { s with data := s.data.drop (n + 2), body := s.body ++ s.data.take n }
  else
    .inl (.data (s.parser.contentLen - s.data.length + 2).toNat,
      { s with body := s.body ++ s.data })

/-- What follows the `read` in the loop that reads the header of a chunk. -/
def parseChunkHeader (s : HttpConnection) :
    ChunkLoop × HttpConnection ⊕ Except Stop HttpConnection :=
  match s.parser.execute s.data true with
  | none => .inr (.error .abort)
  | some (parser, data) =>
    let s := { s with parser, data }
    if parser.hasError then .inr (.error .nullptr)
    else if data.length = s.bufferSize then .inr (.error .nullptr)
    else if parser.isFinished then s.recvChunkBody
    else .inl (.header false, s)

/-- A round of one of the two inner loops over the chunks. -/
def recvChunk : ChunkLoop × HttpConnection →
    ChunkLoop × HttpConnection ⊕ Except Stop HttpConnection
  | (.header begin, s) =>
    if !begin || s.data.isEmpty then
      match s.sock.read (s.bufferSize - s.data.length) with
      | (none, _) | (some [], _) => .inr (.error .nullptr)
      | (some b, sock) => { s with data := s.data ++ b, sock }.parseChunkHeader
    else s.parseChunkHeader
  | (.data left, s) =>
    if left = 0 then
      if s.body.length < 2 then .inr (.error .abort)
      else endChunk { s with data := [], body := s.body.take (s.body.length - 2) }
    else
      match s.sock.read (if left > s.bufferSize then s.bufferSize else left) with
      | (none, _) => .inr (.error .nullptr)
      | (some b, sock) => .inl (.data (left - b.length), { s with body := s.body ++ b, sock })

variable (lexicalCast : List UInt8 → Option UInt64)

def contentLength (s : HttpConnection) : Int :=
  (s.parser.data.headers.getUInt64 lexicalCast "content-length").toInt64.toInt

/-- The body of a response that is not chunked. -/
def recvBody (fuel : Nat) (s : HttpConnection) : Option (Except Stop HttpConnection) :=
  let n := (s.contentLength lexicalCast).toNat
  if s.contentLength lexicalCast ≤ 0 then some (.ok s)
  else if n ≤ s.data.length then some (.ok { s with body := s.data.take n })
  else
    (Loop.run readFixLength fuel ⟨n - s.data.length, s.data, s.sock⟩).map fun
      | (none, _) => .error .nullptr
      | (some body, sock) => .ok { s with body, sock }

/-- What `recvResponse` returns; the branches for `content-encoding` do nothing. -/
def response (s : HttpConnection) : HttpResponse :=
  if s.body.isEmpty then s.parser.data else { s.parser.data with body := s.body }

def recvResponse (fuel : Nat) (s : HttpConnection) : Option (Except Stop HttpResponse) :=
  (Loop.run recvHead fuel s).bind fun
    | .error e => some (.error e)
    | .ok s =>
      (if s.parser.chunked then Loop.run recvChunk fuel (.header true, s)
        else s.recvBody lexicalCast fuel).map fun o => o.map response

variable {lexicalCast}

theorem recvBody_mono {n m : Nat} (hnm : n ≤ m) {s : HttpConnection}
    {o : Except Stop HttpConnection} (h : s.recvBody lexicalCast n = some o) :
    s.recvBody lexicalCast m = some o := by
  simp only [recvBody] at h ⊢
  split at h
  · rwa [if_pos ‹_›]
  · rw [if_neg ‹_›]
    split at h
    · rwa [if_pos ‹_›]
    · rw [if_neg ‹_›]
      obtain ⟨o', ho', rfl⟩ := Option.map_eq_some_iff.mp h
      rw [Loop.run_mono hnm ho']
      rfl

theorem recvResponse_mono {n m : Nat} (hnm : n ≤ m) {s : HttpConnection}
    {o : Except Stop HttpResponse} (h : s.recvResponse lexicalCast n = some o) :
    s.recvResponse lexicalCast m = some o := by
  obtain ⟨o', hrun, h⟩ := Option.bind_eq_some_iff.mp h
  rw [recvResponse, Loop.run_mono hnm hrun]
  cases o' with
  | error e => exact h
  | ok s' =>
    simp only [Option.bind_some] at h ⊢
    split at h
    · rw [if_pos ‹_›]
      obtain ⟨o', ho', rfl⟩ := Option.map_eq_some_iff.mp h
      rw [Loop.run_mono hnm ho']
      rfl
    · rw [if_neg ‹_›]
      obtain ⟨o', ho', rfl⟩ := Option.map_eq_some_iff.mp h
      rw [recvBody_mono hnm ho']
      rfl

/-- A read after which the parser has seen the end of the head. -/
theorem recvHead_finished {s : HttpConnection} {b data : List UInt8} {sock : Socket}
    {y : HttpResponseParser} (hread : s.sock.read (s.bufferSize - s.data.length) = (some b, sock))
    (hb : b ≠ []) (hexec : s.parser.execute (s.data ++ b) false = some (y, data))
    (herror : y.hasError = false) (hfull : data.length ≠ s.bufferSize)
    (hfin : y.isFinished = true) :
    s.recvHead = .inr (.ok { s with parser := y, data := data, sock := sock }) := by
  obtain ⟨c, b, rfl⟩ := List.exists_cons_of_ne_nil hb
  simp only [recvHead, hread, hexec, herror, hfull, hfin, if_true, if_false, Bool.false_eq_true]

end HttpConnection

end Tigerkin.Http
