import Tigerkin.Http.KeepAlive
import Tigerkin.Http.PeerClose
import Tigerkin.Http.Servlet
import Tigerkin.Stream.FixLength

/-! # Serving a connection

`HttpServer::handleClient` of `http_server.cpp`, with the servlets of `http_servlet.cpp` and
`HttpSession::sendResponse`. The results of `handle` and of `sendResponse` are not looked at: what
ends the loop is a request that cannot be received, a request that asks for it, or a server without
keep-alive. -/

namespace Tigerkin.Http

open Loop

/-- A `Servlet`; the callback of a `FunctionServlet` is what it makes of the response. -/
inductive Servlet where
  | notFound
  | function (cb : HttpRequest → HttpResponse → HttpResponse)

def HttpResponse.setHeader (key value : List UInt8) (r : HttpResponse) : HttpResponse :=
  { r with headers := r.headers.set key value }

namespace Servlet

/-- The lines of `rspBody`, each with its indentation but without its end. -/
def notFoundBody : List UInt8 :=
  bytes "<html>            <head>                <title>                    404 Not Found" ++
    bytes "                </title>            </head>            <body>" ++
    bytes "                <center>                    <h1>404 Not Found</h1>" ++
    bytes "                </center>            </body>        </html>"

def handle : Servlet → HttpRequest → HttpResponse → HttpResponse
  | notFound, _, response =>
    let response := { response with status := ⟨404⟩ }
    let response := response.setHeader (bytes "Content-Type") (bytes "text/html")
    let response := response.setHeader (bytes "Server") (bytes "tigerkin/1.0.0")
    { response with body := notFoundBody }
  | function cb, request, response => cb request response

end Servlet

variable (fnmatch : List UInt8 → List UInt8 → Int)

/-- `ServletDispatch::handle` -/
def ServletDispatch.handle (fuel : Nat) (d : ServletDispatch Servlet) (request : HttpRequest)
    (response : HttpResponse) : Option HttpResponse :=
  (d.getMatchedServlet fnmatch fuel request.path).map fun
    | some slt => slt.handle request response
    | none => response

structure HttpServer where
  keepalive : Bool
  dispatch : ServletDispatch Servlet

namespace HttpServer

variable {σ : Type}

/-- A request, the response to it, and the bytes of the response that the socket has taken. -/
structure Exchange where
  request : HttpRequest
  response : HttpResponse
  sent : List UInt8
  deriving DecidableEq

/-- What is left when `handleClient` ends. -/
structure Served (σ : Type) where
  exchanges : List Exchange := []
  peer : σ
  aborted : Bool := false

def Served.cons (x : Exchange) (o : Served σ) : Served σ := { o with exchanges := x :: o.exchanges }

/-- The condition of the `break` after a response. -/
def breaks (server : HttpServer) (request : HttpRequest) : Bool :=
  !server.keepalive || request.close

/-- `HttpResponse(req->getVersion(), req->isClose() || !m_keepalive)` -/
def newResponse (server : HttpServer) (request : HttpRequest) : HttpResponse :=
  { version := request.version, close := request.close || !server.keepalive }

/-- `HttpSession::sendResponse`: the bytes that are taken, and the socket. -/
def sendResponse (w : Stream.Writer σ) (fuel : Nat) (rsp : HttpResponse) (peer : σ) :
    Option (List UInt8 × σ) :=
  let data := rsp.dump
  (run (Stream.writeFixLength w (UInt64.ofNat data.length)) fuel
    { left := UInt64.ofNat data.length, state := (data, peer) }).map fun o =>
      (Stream.moved o.2.calls, o.2.state.2)

variable (lexicalCast : List UInt8 → Option UInt64) (server : HttpServer) (w : Stream.Writer σ)

/-- `handleClient`, for at most as many rounds as there are memories for calls of `recvRequest`. -/
def handleClient (fuel : Nat) : List Memory → Socket → σ → Option (Served σ)
  | [], _, _ => none
  | m :: ms, sock, peer =>
    match (HttpSession.start m.queryStart m.uriRelaxed m.data sock).recvRequest lexicalCast
        fuel with
    | none => none
    | some (.error e) => some { peer, aborted := e = .abort }
    | some (.ok (req, sock)) =>
      match server.dispatch.handle fnmatch fuel req (server.newResponse req) with
      | none => none
      | some rsp =>
        match sendResponse w fuel rsp peer with
        | none => none
        | some (sent, peer) =>
          if server.breaks req then some { exchanges := [⟨req, rsp, sent⟩], peer }
          else (handleClient fuel ms sock peer).map (·.cons ⟨req, rsp, sent⟩)

variable {fnmatch lexicalCast server w} {fuel n m : Nat} {req : HttpRequest} {rsp : HttpResponse}
  {sock : Socket} {peer peer' : σ} {sent : List UInt8} {ms : List Memory} {o : Served σ}

theorem newResponse_close (server : HttpServer) (req : HttpRequest) :
    (server.newResponse req).close = server.breaks req :=
  Bool.or_comm ..

/-! ## Sending -/

/-- Whatever the socket answers, it takes the first bytes of the response, in order. -/
theorem sendResponse_sent (h : sendResponse w fuel rsp peer = some (sent, peer')) :
    sent <+: rsp.dump := by
  obtain ⟨⟨r, q⟩, hr, heq⟩ := Option.map_eq_some_iff.mp h
  obtain ⟨⟨hsent, -⟩, -⟩ := Stream.fixLength_result (t := w.ofBuffer) ⟨fuel, hr⟩
  cases heq
  rw [← hsent]
  exact List.take_prefix ..

/-- A socket that takes something whenever it is given something. -/
def Takes (w : Stream.Writer σ) : Prop := ∀ data peer, data ≠ [] → 0 < (w.write data peer).1

/-- Such a socket takes the whole response. -/
theorem sendResponse_takes (hw : Takes w) (hsize : rsp.dump.length < 2 ^ 64) (peer : σ) :
    ∃ fuel peer', sendResponse w fuel rsp peer = some (rsp.dump, peer') := by
  have hlength : (UInt64.ofNat rsp.dump.length).toNat = rsp.dump.length :=
    UInt64.toNat_ofNat_of_lt' hsize
  have hpos : ∀ {offset left u}, Stream.Asked w.ofBuffer (UInt64.ofNat rsp.dump.length)
      (rsp.dump, peer) offset left u → 0 < left → 0 < (w.ofBuffer.ask offset left u).len := by
    intro offset left u h hleft
    obtain ⟨calls, -, hsound⟩ := h.reaches
    have htotal : offset.toNat + left.toNat = _ := hsound.total
    obtain ⟨-, hdata⟩ := hsound.inOrder
    rw [UInt64.lt_iff_toNat_lt, UInt64.toNat_zero] at hleft
    apply hw
    apply List.length_pos_iff.mp
    rw [show u.1 = rsp.dump from hdata, List.length_take, List.length_drop]
    omega
  obtain ⟨offset, left, u, h, hend⟩ := Stream.Asked.first.ends fun h hleft hzero =>
    absurd (hpos h hleft) (hzero ▸ Int64.lt_irrefl)
  rcases hend with rfl | ⟨hleft, hneg⟩
  · obtain ⟨q, ⟨fuel, hr⟩, -, hmoved, hsent, -⟩ := h.returns_done
    refine ⟨fuel, q.state.2, ?_⟩
    have hall : Stream.moved q.calls = rsp.dump := by
      rw [← hsent, hmoved, hlength, List.take_length]
    exact congrArg (Option.map _) hr |>.trans (congrArg some (congrArg (·, q.state.2) hall))
  · exact absurd (hpos h hleft) (Int64.not_lt.mpr (Int64.le_of_lt hneg))

theorem sendResponse_mono (hnm : n ≤ m) (h : sendResponse w n rsp peer = some (sent, peer')) :
    sendResponse w m rsp peer = some (sent, peer') :=
  run_map_mono hnm h

/-! ## What has been served -/

/-- The exchanges of a connection that has ended: `sock'` is the socket after the last request that
was received. -/
structure Serves (fnmatch : List UInt8 → List UInt8 → Int)
    (lexicalCast : List UInt8 → Option UInt64) (server : HttpServer) (fuel : Nat)
    (ms : List Memory) (sock : Socket) (o : Served σ) (sock' : Socket) : Prop where
  received : recvRequests lexicalCast fuel (ms.take o.exchanges.length) sock =
    some (.ok (o.exchanges.map Exchange.request, sock'))
  answered : ∀ x ∈ o.exchanges, server.dispatch.handle fnmatch fuel x.request
    (server.newResponse x.request) = some x.response ∧ x.sent <+: x.response.dump
  announced : ∀ x ∈ o.exchanges.dropLast, (server.newResponse x.request).close = false
  ends : (o.aborted = false ∧
      ∃ x ∈ o.exchanges.getLast?, (server.newResponse x.request).close = true) ∨
    (∀ x ∈ o.exchanges, (server.newResponse x.request).close = false) ∧
      ∃ m ∈ ms[o.exchanges.length]?, ∃ e,
        (HttpSession.start m.queryStart m.uriRelaxed m.data sock').recvRequest lexicalCast fuel =
          some (.error e) ∧ o.aborted = decide (e = .abort)

theorem Serves.cons {m : Memory} {x : Exchange} {sock₁ sock' : Socket}
    (hrecv : (HttpSession.start m.queryStart m.uriRelaxed m.data sock).recvRequest lexicalCast
      fuel = some (.ok (x.request, sock₁)))
    (hx : server.dispatch.handle fnmatch fuel x.request (server.newResponse x.request) =
      some x.response ∧ x.sent <+: x.response.dump)
    (hgo : (server.newResponse x.request).close = false)
    (h : Serves fnmatch lexicalCast server fuel ms sock₁ o sock') :
    Serves fnmatch lexicalCast server fuel (m :: ms) sock (o.cons x) sock' := by
  refine ⟨?_, List.forall_mem_cons.mpr ⟨hx, h.answered⟩, ?_, ?_⟩
  · simp only [Served.cons, List.length_cons, List.take_succ_cons, recvRequests, hrecv, h.received,
      List.map_cons]
  · intro y hy
    cases hxs : o.exchanges with
    | nil => simp [Served.cons, hxs] at hy
    | cons z zs =>
      simp only [Served.cons, hxs, List.dropLast_cons_cons, List.mem_cons] at hy
      rcases hy with rfl | hy
      · exact hgo
      · exact h.announced y (hxs ▸ hy)
  · rcases h.ends with ⟨haborted, y, hy, hclose⟩ | ⟨hall, hend⟩
    · refine .inl ⟨haborted, y, ?_, hclose⟩
      cases hxs : o.exchanges with
      | nil => simp [hxs] at hy
      | cons z zs =>
        rw [hxs] at hy
        simpa only [Served.cons, hxs, List.getLast?_cons_cons] using hy
    · exact .inr ⟨List.forall_mem_cons.mpr ⟨hgo, hall⟩, hend⟩

theorem handle_mono {d : ServletDispatch Servlet} {r : HttpResponse} (hnm : n ≤ m)
    (h : d.handle fnmatch n req rsp = some r) : d.handle fnmatch m req rsp = some r := by
  obtain ⟨slt, hslt, rfl⟩ := Option.map_eq_some_iff.mp h
  have hcall : ServletDispatch.call fnmatch n d (.getMatchedServlet req.path) = some (d, slt) :=
    congrArg (Option.map (d, ·)) hslt
  obtain ⟨slt', hslt', heq⟩ := Option.map_eq_some_iff.mp (ServletDispatch.call_mono hnm hcall)
  cases heq
  exact congrArg (Option.map _) hslt'

theorem handleClient_mono (hnm : n ≤ m)
    (h : handleClient fnmatch lexicalCast server w n ms sock peer = some o) :
    handleClient fnmatch lexicalCast server w m ms sock peer = some o := by
  induction ms generalizing sock peer o with
  | nil => cases h
  | cons mem ms ih =>
    simp only [handleClient] at h ⊢
    cases hrecv : (HttpSession.start mem.queryStart mem.uriRelaxed mem.data sock).recvRequest
        lexicalCast n with
    | none => simp [hrecv] at h
    | some r =>
      rw [hrecv] at h
      rw [HttpSession.recvRequest_mono hnm hrecv]
      cases r with
      | error e => exact h
      | ok r =>
        obtain ⟨req, sock₁⟩ := r
        dsimp only at h ⊢
        cases hhandle : server.dispatch.handle fnmatch n req (server.newResponse req) with
        | none => simp [hhandle] at h
        | some rsp =>
          rw [hhandle] at h
          rw [handle_mono hnm hhandle]
          dsimp only at h ⊢
          cases hsend : sendResponse w n rsp peer with
          | none => simp [hsend] at h
          | some r =>
            obtain ⟨sent, peer₁⟩ := r
            rw [hsend] at h
            rw [sendResponse_mono hnm hsend]
            dsimp only at h ⊢
            split at h
            · rw [if_pos ‹_›]
              exact h
            · rw [if_neg ‹_›]
              obtain ⟨o₁, ho₁, rfl⟩ := Option.map_eq_some_iff.mp h
              rw [ih ho₁]
              rfl

/-- The requests that are answered: those up to the first after which the loop breaks. -/
def answered (server : HttpServer) : List HttpRequest → List HttpRequest
  | [] => []
  | req :: reqs => if server.breaks req then [req] else req :: answered server reqs

/-- At the end of the stream `recvRequest` fails if the socket does, and else does not return. -/
theorem recvRequest_nothing {mem : Memory} {fails : Bool} (hroom : 0 < mem.data.length) :
    (∃ fuel r, (HttpSession.start mem.queryStart mem.uriRelaxed mem.data
        ⟨[], fails, true⟩).recvRequest lexicalCast fuel = some r) ↔ fails = true := by
  cases fails with
  | true => exact iff_of_true ⟨1, .error .nullptr, rfl⟩ rfl
  | false =>
    refine iff_of_false ?_ Bool.false_ne_true
    rintro ⟨fuel, r, h⟩
    have hw : (HttpSession.start mem.queryStart mem.uriRelaxed mem.data
        ⟨[], false, true⟩).Waiting :=
      HttpSession.start_waiting _ _ hroom (List.forall_mem_nil _)
    obtain ⟨o, hrun, -⟩ := Option.bind_eq_some_iff.mp h
    exact (HttpSession.recvHead_returns_iff hw).mp ⟨o, fuel, hrun⟩ _ .refl rfl

/-- A round on a message that has arrived in step, with enough fuel for its loops. -/
theorem handleClient_round {mem : Memory} {x : Message} {f rest : List UInt8}
    {fs : List (List UInt8)} (fails : Bool) (hx : x.Valid lexicalCast mem)
    (hcut : (f :: fs).flatten = x.head ++ x.body ++ rest) (hne : ∀ g ∈ f :: fs, g ≠ [])
    (hhead : x.head.length ≤ min f.length mem.data.length)
    (hbody : min f.length mem.data.length ≤ x.head.length + x.body.length)
    (hdispatch : ∃ fuel rsp, server.dispatch.handle fnmatch fuel x.request
      (server.newResponse x.request) = some rsp ∧ rsp.dump.length < 2 ^ 64)
    (hw : Takes w) (peer : σ) (ms : List Memory) :
    ∃ k rsp peer', (∀ n ≥ k, server.dispatch.handle fnmatch n x.request
        (server.newResponse x.request) = some rsp) ∧
      ∀ n ≥ k, handleClient fnmatch lexicalCast server w n (mem :: ms) ⟨f :: fs, fails, true⟩ peer =
        if server.breaks x.request then
          some { exchanges := [⟨x.request, rsp, rsp.dump⟩], peer := peer' }
        else (handleClient fnmatch lexicalCast server w n ms (Socket.skip ⟨f :: fs, fails, true⟩
          (x.head.length + x.body.length)) peer').map (·.cons ⟨x.request, rsp, rsp.dump⟩) := by
  obtain ⟨k₁, hrecv⟩ : ∃ k, (HttpSession.start _ _ _ ⟨f :: fs, fails, true⟩).recvRequest _ k = _ :=
    recvRequest_inStep hx hcut hne hhead hbody
  obtain ⟨k₂, rsp, hhandle, hsize⟩ := hdispatch
  obtain ⟨k₃, peer', hsend⟩ := sendResponse_takes hw hsize peer
  refine ⟨max k₁ (max k₂ k₃), rsp, peer', fun n hn => handle_mono (by omega) hhandle, ?_⟩
  intro n hn
  have hrecv' := HttpSession.recvRequest_mono (m := n) (by omega) hrecv
  have hhandle' := handle_mono (m := n) (by omega) hhandle
  have hsend' := sendResponse_mono (m := n) (by omega) hsend
  simp only [handleClient, hrecv', hhandle', hsend']

/-- The first of the requests that arrive in step, and the fragments of the others. -/
theorem inStep_cons {mem : Memory} {x : Message} {l : List (Memory × Message)}
    {fs : List (List UInt8)} (hx : x.Valid lexicalCast mem)
    (hcut : fs.flatten = ((mem, x) :: l).flatMap fun p => p.2.head ++ p.2.body)
    (hstep : InStep ((mem, x) :: l) fs) :
    ∃ f fs', fs = f :: fs' ∧
      (f :: fs').flatten = x.head ++ x.body ++ l.flatMap (fun p => p.2.head ++ p.2.body) ∧
      x.head.length ≤ min f.length mem.data.length ∧
      min f.length mem.data.length ≤ x.head.length + x.body.length ∧
      (Socket.dropFrags (x.head.length + x.body.length) fs).flatten =
        l.flatMap (fun p => p.2.head ++ p.2.body) ∧
      InStep l (Socket.dropFrags (x.head.length + x.body.length) fs) := by
  obtain ⟨hhead, hbody, hrest⟩ := hstep
  have hpos : 0 < x.head.length := hx.head.pos
  cases fs with
  | nil =>
    have hzero : x.head.length ≤ 0 := Nat.le_trans hhead (Nat.min_le_left ..)
    omega
  | cons f fs =>
    rw [List.flatMap_cons] at hcut
    refine ⟨f, fs, rfl, hcut, hhead, hbody, ?_, hrest⟩
    rw [Socket.flatten_dropFrags, hcut, ← List.length_append, List.drop_left]

section

variable {l : List (Memory × Message)} {mem : Memory} {fs : List (List UInt8)} {fails : Bool}

/-- Without a request that closes the connection the loop ends with the stream, if at all. -/
theorem ends_of_handleClient (hl : ∀ p ∈ l, p.2.Valid lexicalCast p.1)
    (hcut : fs.flatten = l.flatMap fun p => p.2.head ++ p.2.body) (hne : ∀ f ∈ fs, f ≠ [])
    (hstep : InStep l fs) (hroom : 0 < mem.data.length)
    (hdispatch : ∀ p ∈ l, ∃ fuel rsp, server.dispatch.handle fnmatch fuel p.2.request
      (server.newResponse p.2.request) = some rsp ∧ rsp.dump.length < 2 ^ 64)
    (hw : Takes w) (h : handleClient fnmatch lexicalCast server w n (l.map Prod.fst ++ [mem])
      ⟨fs, fails, true⟩ peer = some o) :
    fails = true ∨ ∃ p ∈ l, server.breaks p.2.request = true := by
  induction l generalizing fs peer o n with
  | nil =>
    obtain rfl : fs = [] := List.eq_nil_iff_forall_not_mem.mpr fun f hf =>
      hne f hf (List.flatten_eq_nil_iff.mp hcut f hf)
    refine .inl ((recvRequest_nothing hroom).mp
      (show ∃ fuel r, HttpSession.recvRequest lexicalCast fuel _ = some r from ⟨n, ?_⟩))
    simp only [List.map_nil, List.nil_append, handleClient] at h
    split at h
    · cases h
    · exact ⟨_, ‹_›⟩
    · exact ⟨_, ‹_›⟩
  | cons p l ih =>
    obtain ⟨mem₁, x⟩ := p
    obtain ⟨hx, hl⟩ := List.forall_mem_cons.mp hl
    obtain ⟨hdx, hdispatch⟩ := List.forall_mem_cons.mp hdispatch
    obtain ⟨f, fs, rfl, hflat, hhead, hbody, hcut', hrest⟩ := inStep_cons hx hcut hstep
    obtain ⟨k, rsp, peer₁, -, hround⟩ :=
      handleClient_round fails hx hflat hne hhead hbody hdx hw peer (l.map Prod.fst ++ [mem])
    rw [List.exists_mem_cons_iff]
    by_cases hbreaks : server.breaks x.request = true
    · exact .inr (.inl hbreaks)
    · rw [or_iff_right hbreaks]
      have h' := handleClient_mono (Nat.le_max_left n k) h
      rw [List.map_cons, List.cons_append, hround _ (Nat.le_max_right n k), if_neg hbreaks] at h'
      obtain ⟨o, ho, rfl⟩ := Option.map_eq_some_iff.mp h'
      exact ih hl hcut' (Socket.dropFrags_nonempty hne) hrest hdispatch ho

/-- Every request up to the one that closes the connection is answered. -/
theorem handleClient_inStep (hl : ∀ p ∈ l, p.2.Valid lexicalCast p.1)
    (hcut : fs.flatten = l.flatMap fun p => p.2.head ++ p.2.body) (hne : ∀ f ∈ fs, f ≠ [])
    (hstep : InStep l fs)
    (hdispatch : ∀ p ∈ l, ∃ fuel rsp, server.dispatch.handle fnmatch fuel p.2.request
      (server.newResponse p.2.request) = some rsp ∧ rsp.dump.length < 2 ^ 64)
    (hw : Takes w) (peer : σ) (h : fails = true ∨ ∃ p ∈ l, server.breaks p.2.request = true) :
    ∃ fuel o, handleClient fnmatch lexicalCast server w fuel (l.map Prod.fst ++ [mem])
        ⟨fs, fails, true⟩ peer = some o ∧ o.aborted = false ∧
      o.exchanges.map Exchange.request = server.answered (l.map fun p => p.2.request) ∧
      ∀ x ∈ o.exchanges, server.dispatch.handle fnmatch fuel x.request
        (server.newResponse x.request) = some x.response ∧ x.sent = x.response.dump := by
  induction l generalizing fs peer with
  | nil =>
    obtain rfl : fs = [] := List.eq_nil_iff_forall_not_mem.mpr fun f hf =>
      hne f hf (List.flatten_eq_nil_iff.mp hcut f hf)
    rcases h with rfl | ⟨p, hp, -⟩
    · exact ⟨1, { peer }, rfl, rfl, rfl, List.forall_mem_nil _⟩
    · cases hp
  | cons p l ih =>
    obtain ⟨mem₁, x⟩ := p
    obtain ⟨hx, hl⟩ := List.forall_mem_cons.mp hl
    obtain ⟨hdx, hdispatch⟩ := List.forall_mem_cons.mp hdispatch
    obtain ⟨f, fs, rfl, hflat, hhead, hbody, hcut', hrest⟩ := inStep_cons hx hcut hstep
    obtain ⟨k, rsp, peer₁, hhandle, hround⟩ :=
      handleClient_round fails hx hflat hne hhead hbody hdx hw peer (l.map Prod.fst ++ [mem])
    rw [List.exists_mem_cons_iff] at h
    simp only [List.map_cons, List.cons_append]
    by_cases hbreaks : server.breaks x.request = true
    · refine ⟨k, _, (hround k (Nat.le_refl k)).trans (if_pos hbreaks), rfl, ?_, ?_⟩
      · simp only [answered, if_pos hbreaks, List.map_cons, List.map_nil]
      · exact List.forall_mem_singleton.mpr ⟨hhandle k (Nat.le_refl k), rfl⟩
    · rw [or_iff_right hbreaks] at h
      obtain ⟨n, o, ho, haborted, hreqs, hall⟩ :=
        ih hl hcut' (Socket.dropFrags_nonempty hne) hrest hdispatch peer₁ h
      refine ⟨max n k, o.cons ⟨x.request, rsp, rsp.dump⟩, ?_, haborted, ?_, ?_⟩
      · refine (hround _ (Nat.le_max_right n k)).trans ((if_neg hbreaks).trans ?_)
        exact congrArg (Option.map _) (handleClient_mono (Nat.le_max_left n k) ho)
      · simp only [Served.cons, List.map_cons, answered, if_neg hbreaks, hreqs]
      · exact List.forall_mem_cons.mpr ⟨⟨hhandle _ (Nat.le_max_right n k), rfl⟩,
          fun y hy => ⟨handle_mono (Nat.le_max_left n k) (hall y hy).1, (hall y hy).2⟩⟩

end

/-! ## A connection -/

/-- A socket that takes up to a page at once, and its peer that keeps what it gets. -/
def pages : Stream.Writer (List UInt8) where
  write data peer :=
    (Int64.ofNat (min data.length 4096), peer ++ data.take (min data.length 4096))
  le data _ := by
    have hlt : min data.length 4096 < 2 ^ 63 := by omega
    rw [Int64.toInt_ofNat_of_lt hlt]
    omega

theorem pages_takes : Takes pages := by
  intro data peer hne
  have hpos := List.length_pos_iff.mpr hne
  have hlt : min data.length 4096 < 2 ^ 63 := by omega
  apply Int64.lt_iff_toInt_lt.mpr
  rw [pages, Int64.toInt_ofNat_of_lt hlt]
  exact Int.natCast_pos.mpr (by omega)

def notFoundServer : HttpServer :=
  { keepalive := true, dispatch := { defaultServlet := some .notFound } }

def aliveHead : List UInt8 := bytes "GET /a HTTP/1.1\r\nconnection: keep-alive\r\n\r\n"

def aliveRequest : HttpRequest :=
  { close := false, path := bytes "/a", headers := [(bytes "connection", bytes "keep-alive")] }

/-- What is evaluated of a connection with these two requests. -/
theorem alive_facts :
    (IsHead memory.uriRelaxed aliveHead ∧ aliveHead.length ≤ memory.data.length ∧
      (HttpSession.start memory.queryStart memory.uriRelaxed memory.data
        ⟨[aliveHead ++ []], false, true⟩).recvRequest decimal 1 =
          some (.ok (aliveRequest, ⟨[], false, true⟩))) ∧
    (handleClient (fun _ _ => 1) decimal notFoundServer pages 2 [memory, memory]
      ⟨[aliveHead, getHead], false, true⟩ []).isSome = true ∧
    [aliveHead, getHead].flatten = aliveHead ++ [] ++ (getHead ++ []) ∧
    (∀ f ∈ [aliveHead, getHead], f ≠ []) ∧
    (aliveHead.length ≤ min aliveHead.length memory.data.length ∧
      min aliveHead.length memory.data.length ≤ aliveHead.length + 0 ∧
      getHead.length ≤ min getHead.length memory.data.length ∧
      min getHead.length memory.data.length ≤ getHead.length + 0) ∧
    ∀ r ∈ [aliveRequest, getRequest], ∃ rsp ∈ notFoundServer.dispatch.handle (fun _ _ => 1) 1 r
      (notFoundServer.newResponse r), rsp.dump.length < 2 ^ 64 := by
  decide +kernel

theorem valid_alive : Message.Valid decimal ⟨aliveHead, [], aliveRequest⟩ memory := by
  obtain ⟨hhead, hfits, hreceived⟩ := alive_facts.1
  exact ⟨hhead, hfits, ⟨_, 1, hreceived⟩, rfl⟩

end HttpServer

end Tigerkin.Http
