import Tigerkin.Http.Client
import Tigerkin.Http.RequestRoundTrip
import Tigerkin.Http.Server

/-! # The result of a request

`HttpConnection::Request(req, uri, timeout)` and `HttpConnectionPool::request(req, timeout)` of
`http_connection.cpp`. Both send the request, wait for the response, and tell by an error code what
went wrong. The number of bytes that `sendRequest` returns is an `int`. -/

namespace Tigerkin.Http

open CString Loop
open UriParser (Uri)

/-- `HttpResult::ErrorCode` -/
inductive ErrorCode where
  | OK | INVALID_URL | INVALID_HOST | CONNECT_FAIL | SEND_CLOSE_BY_PEER | SEND_SOCKET_ERROR
  | TIMEOUT | CREATE_SOCKET_ERROR | POOL_GET_CONNECTION_FAIL | POOL_INVALID_CONNECTION
  deriving DecidableEq

structure HttpResult where
  rsp : Option HttpResponse := none
  errCode : ErrorCode
  errDes : List UInt8

/-- What a call returns (nothing if an assertion fails or an exception leaves it), and what it has
sent. -/
structure Reply where
  result : Option HttpResult
  sent : List UInt8 := []

variable {σ : Type} (lexicalCast : List UInt8 → Option UInt64) (w : Stream.Writer σ)

namespace HttpConnection

/-- The result, and the bytes that the socket has taken. -/
def sendRequest (fuel : Nat) (req : FullRequest) (peer : σ) : Option (Int × List UInt8) :=
  let data := req.dump
  (run (Stream.writeFixLength w (UInt64.ofNat data.length)) fuel
    { left := UInt64.ofNat data.length, state := (data, peer) }).map fun o =>
      (o.1.toInt.bmod (2 ^ 32), Stream.moved o.2.calls)

/-- What follows the connection in both functions; `describe` adds what a text ends with. -/
def exchange (describe : String → List UInt8) (fuel : Nat) (req : FullRequest) (peer : σ)
    (conn : HttpConnection) : Option Reply :=
  match sendRequest w fuel req peer with
  | none => none
  | some (rt, sent) =>
    if rt = 0 then
      some ⟨some { errCode := .SEND_CLOSE_BY_PEER, errDes := describe "\nSocket closed by peer:" },
        sent⟩
    else if rt < 0 then
      some ⟨some { errCode := .SEND_SOCKET_ERROR, errDes := describe "\nSocket send error:" }, sent⟩
    else
      match conn.recvResponse lexicalCast fuel with
      | none => none
      | some (.error .nullptr) =>
        some ⟨some { errCode := .TIMEOUT, errDes := describe "\nSocket send error:" }, sent⟩
      | some (.error .abort) => some ⟨none, sent⟩
      | some (.ok rsp) =>
        some ⟨some { rsp := some rsp, errCode := .OK, errDes := bytes "ok" }, sent⟩

/-- What `Request` finds: the address of the host by its text, whether a socket can be created and
connected, and the error when something fails. -/
structure Dial where
  address : Option (List UInt8)
  created : Bool
  connected : Bool
  errno : Nat
  strerror : List UInt8

def Dial.describe (d : Dial) (address : List UInt8) (timeout : Nat) (text : String) : List UInt8 :=
  bytes text ++ bytes "\n\taddress: " ++ address ++ bytes "\n\terrno: " ++ showNat d.errno ++
    bytes "\n\tstrerror: " ++ d.strerror ++ bytes "\n\ttimeout: " ++ showNat timeout

/-- `HttpConnection::Request(req, uri, timeout)` -/
def Request (d : Dial) (fuel : Nat) (req : FullRequest) (uri : Uri) (timeout : Nat) (peer : σ)
    (conn : HttpConnection) : Option Reply :=
  match d.address with
  | none =>
    let errDes := bytes "\nInvalid host:" ++ bytes "\n\thost: " ++ uri.host ++
      bytes "\n\ttimeout: " ++ showNat timeout
    some ⟨some { errCode := .INVALID_HOST, errDes }, []⟩
  | some address =>
    let describe := d.describe address timeout
    if !d.created then
      let errDes := describe "\nCreate socket fail:"
      some ⟨some { errCode := .CREATE_SOCKET_ERROR, errDes }, []⟩
    else if !d.connected then
      some ⟨some { errCode := .CONNECT_FAIL, errDes := describe "\nSocket connect fail:" }, []⟩
    else exchange lexicalCast w describe fuel req peer conn

end HttpConnection

/-- `HttpConnectionPool::request(req, timeout)`, with what `getConnection` returns: a connection has
a socket with the text of its remote address, or none. -/
def HttpConnectionPool.request (host : List UInt8) (port : Nat)
    (conn : Option (Option (List UInt8) × HttpConnection)) (fuel : Nat) (req : FullRequest)
    (timeout : Nat) (peer : σ) : Option Reply :=
  match conn with
  | none =>
    let errDes := bytes "\nGet connection from pool fail:\n" ++ req.dump ++
      bytes "\n\ttimeout: " ++ showNat timeout
    some ⟨some { errCode := .POOL_GET_CONNECTION_FAIL, errDes }, []⟩
  | some (none, _) =>
    let errDes := bytes "\nConnection invalid:" ++ bytes "\n\thost:" ++ host ++
      bytes "\n\tport:" ++ showNat port ++ bytes "\n\ttimeout: " ++ showNat timeout
    some ⟨some { errCode := .POOL_INVALID_CONNECTION, errDes }, []⟩
  | some (some address, conn) =>
    conn.exchange lexicalCast w (fun text => bytes text ++ bytes "\n\tremoteAddress: " ++ address ++
      bytes "\n\ttimeout: " ++ showNat timeout) fuel req peer

/-! ## What the code tells -/

/-- What the `int` makes of the number of bytes. -/
def count (req : FullRequest) : Int := (req.dump.length : Int).bmod (2 ^ 32)

/-- What a result says about a request, of which the peer has been sent some bytes. -/
structure HttpResult.Tells (req : FullRequest) (sent : List UInt8) (result : HttpResult) :
    Prop where
  part : sent <+: req.dump
  rsp : result.rsp.isSome = true ↔ result.errCode = .OK
  whole : result.errCode = .OK ∨ result.errCode = .TIMEOUT ↔ sent = req.dump ∧ 0 < count req
  closed : result.errCode = .SEND_CLOSE_BY_PEER ↔ sent = req.dump ∧ count req = 0
  error : result.errCode = .SEND_SOCKET_ERROR → sent ≠ req.dump ∨ count req < 0
  nothing : result.errCode ∉ [.OK, .TIMEOUT, .SEND_CLOSE_BY_PEER, .SEND_SOCKET_ERROR] → sent = []

variable {lexicalCast w} {fuel : Nat} {req : FullRequest} {peer : σ} {rt : Int}
  {sent : List UInt8} {conn : HttpConnection} {describe : String → List UInt8} {o : Reply}

theorem sendRequest_result (hsize : req.dump.length < 2 ^ 64)
    (h : HttpConnection.sendRequest w fuel req peer = some (rt, sent)) :
    sent <+: req.dump ∧ (sent = req.dump ∧ rt = count req ∨ sent ≠ req.dump ∧ rt = -1) := by
  have hlength : (UInt64.ofNat req.dump.length).toNat = req.dump.length :=
    UInt64.toNat_ofNat_of_lt' hsize
  obtain ⟨⟨r, q⟩, hr, heq⟩ := Option.map_eq_some_iff.mp h
  obtain ⟨⟨hsent, -⟩, hresult⟩ := Stream.fixLength_result (t := w.ofBuffer) ⟨fuel, hr⟩
  cases heq
  rw [hlength] at hresult
  refine ⟨hsent ▸ List.take_prefix .., ?_⟩
  rcases hresult with ⟨rfl, hlen⟩ | ⟨rfl, hlen⟩
  · refine .inl ⟨?_, ?_⟩
    · rw [← hsent, hlen, List.take_length]
    · show (UInt64.ofNat req.dump.length).toInt64.toInt.bmod (2 ^ 32) = count req
      rw [UInt64.toInt64_ofNat', Int64.toInt_ofNat']
      exact Int.bmod_bmod_of_dvd ⟨2 ^ 32, rfl⟩
  · refine .inr ⟨?_, rfl⟩
    intro heq
    exact absurd (congrArg List.length heq) (Nat.ne_of_lt hlen)

theorem HttpResult.tells_nothing {result : HttpResult} (hrsp : result.rsp = none)
    (h : result.errCode ∉ [.OK, .TIMEOUT, .SEND_CLOSE_BY_PEER, .SEND_SOCKET_ERROR]) :
    result.Tells req [] := by
  have hne : [] ≠ req.dump := req.dump_ne_nil.symm
  simp only [List.mem_cons, List.not_mem_nil, or_false, not_or] at h
  obtain ⟨hok, htimeout, hclosed, herror⟩ := h
  refine ⟨List.nil_prefix, ?_, ?_, ?_, fun h => absurd h herror, fun _ => rfl⟩
  · simp [hrsp, hok]
  · exact iff_of_false (by simp [hok, htimeout]) fun h => hne h.1
  · exact iff_of_false hclosed fun h => hne h.1

theorem exchange_tells (hsize : req.dump.length < 2 ^ 64)
    (h : conn.exchange lexicalCast w describe fuel req peer = some o) :
    ∀ result ∈ o.result, result.Tells req o.sent := by
  unfold HttpConnection.exchange at h
  cases hsend : HttpConnection.sendRequest w fuel req peer with
  | none => simp [hsend] at h
  | some x =>
    obtain ⟨rt, sent⟩ := x
    obtain ⟨hstart, hcount⟩ := sendRequest_result hsize hsend
    simp only [hsend] at h
    split at h
    · -- no bytes, as the `int` has it
      rename_i hzero
      obtain ⟨hsent, hrt⟩ : sent = req.dump ∧ rt = count req := by
        refine hcount.resolve_right fun h => ?_
        omega
      cases h
      rintro _ ⟨⟩
      refine ⟨hstart, ?_, ?_, ?_, ?_, ?_⟩
      · simp
      · exact iff_of_false (by simp) fun h => by omega
      · exact iff_of_true rfl ⟨hsent, by omega⟩
      · simp
      · simp
    · split at h
      · rename_i hne hneg
        cases h
        rintro _ ⟨⟩
        have hsent : sent = req.dump → count req < 0 := by
          intro heq
          rcases hcount with ⟨-, hrt⟩ | ⟨hsent, -⟩
          · omega
          · exact absurd heq hsent
        refine ⟨hstart, ?_, ?_, ?_, ?_, ?_⟩
        · simp
        · exact iff_of_false (by simp) fun h => by
            have := hsent h.1
            omega
        · exact iff_of_false (by simp) fun h => by
            have := hsent h.1
            omega
        · exact fun _ => (em (sent = req.dump)).symm.imp_right hsent
        · simp
      · -- the whole request has been sent
        rename_i hne hneg
        obtain ⟨hsent, hrt⟩ : sent = req.dump ∧ rt = count req := by
          refine hcount.resolve_right fun h => ?_
          omega
        have hwhole : sent = req.dump ∧ 0 < count req := ⟨hsent, by omega⟩
        have hclosed : ¬(sent = req.dump ∧ count req = 0) := fun h => by omega
        cases hrecv : conn.recvResponse lexicalCast fuel with
        | none => simp [hrecv] at h
        | some x =>
          simp only [hrecv] at h
          split at h
          · cases h
          · cases h
            rintro _ ⟨⟩
            exact ⟨hstart, by simp, iff_of_true (.inr rfl) hwhole, iff_of_false (by simp) hclosed,
              by simp, by simp⟩
          · cases h
            rintro _ ⟨⟩
          · cases h
            rintro _ ⟨⟩
            exact ⟨hstart, iff_of_true rfl rfl, iff_of_true (.inl rfl) hwhole,
              iff_of_false (by simp) hclosed, by simp, by simp⟩

/-- **What the error code of a request tells**, from either client: a response comes with `OK` and
with no other code; `OK` and `TIMEOUT` say that the peer has got the whole request; a peer that
closes is never reported as such, but a request whose length is a multiple of 2^32 is. -/
theorem request_tells (hsize : req.dump.length < 2 ^ 64) :
    (∀ d uri timeout, HttpConnection.Request lexicalCast w d fuel req uri timeout peer conn =
      some o → ∀ result ∈ o.result, result.Tells req o.sent) ∧
    ∀ host port found timeout, HttpConnectionPool.request lexicalCast w host port found fuel req
      timeout peer = some o → ∀ result ∈ o.result, result.Tells req o.sent := by
  constructor
  · intro d uri timeout h
    unfold HttpConnection.Request at h
    split at h
    · cases h
      rintro _ ⟨⟩
      exact HttpResult.tells_nothing rfl (by simp)
    · dsimp only at h
      split at h
      · cases h
        rintro _ ⟨⟩
        exact HttpResult.tells_nothing rfl (by simp)
      · split at h
        · cases h
          rintro _ ⟨⟩
          exact HttpResult.tells_nothing rfl (by simp)
        · exact exchange_tells hsize h
  · intro host port found timeout h
    unfold HttpConnectionPool.request at h
    split at h
    · cases h
      rintro _ ⟨⟩
      exact HttpResult.tells_nothing rfl (by simp)
    · cases h
      rintro _ ⟨⟩
      exact HttpResult.tells_nothing rfl (by simp)
    · exact exchange_tells hsize h

def reachable : HttpConnection.Dial :=
  { address := some (bytes "127.0.0.1:80"), created := true, connected := true, errno := 0
    strerror := bytes "Success" }

/-- A connection whose peer has answered with an empty response. -/
def answeredConnection : HttpConnection :=
  { bufferSize := 200, sock := ⟨[HttpResponse.dump {}], false, true⟩ }

theorem request_tells_get : ∃ o, HttpConnection.Request decimalValue HttpServer.pages reachable 5
    { path := bytes "/b" } { host := bytes "127.0.0.1" } 1000 [] answeredConnection = some o ∧
    ∀ result ∈ o.result, result.errCode = .OK ∧ result.Tells { path := bytes "/b" } o.sent := by
  have hreply : ((HttpConnection.Request decimalValue HttpServer.pages reachable 5
      { path := bytes "/b" } { host := bytes "127.0.0.1" } 1000 [] answeredConnection).map fun o =>
        o.result.map HttpResult.errCode) = some (some .OK) := by
    decide +kernel
  obtain ⟨o, ho, hcode⟩ := Option.map_eq_some_iff.mp hreply
  refine ⟨o, ho, fun result hresult => ?_⟩
  have htells := (request_tells (show (FullRequest.dump { path := bytes "/b" }).length < 2 ^ 64 by
    decide +kernel)).1 _ _ _ ho result hresult
  rw [Option.mem_def.mp hresult] at hcode
  exact ⟨Option.some.inj hcode, htells⟩

end Tigerkin.Http
