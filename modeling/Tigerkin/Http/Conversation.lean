import Tigerkin.Http.RequestRoundTrip
import Tigerkin.Http.ResponseRoundTrip
import Tigerkin.Http.Server

/-! # A client and the server

A client of `HttpConnection` waits for the response before it sends its next request. The requests
that it dumps arrive in step at `HttpServer::handleClient`, which answers what the client has
built, and `recvResponse` returns what the servlet has made of it. -/

namespace Tigerkin.Http

open Machine Loop CString
open HttpRequestParser HttpSession

/-- A machine that stops in its last state at the end of `as` has no need of more bytes. -/
theorem walk_of_append {α : Type} {rows : List (List (Edge α))} {stop : α → Bool} {cs t : Nat}
    {as bs : List UInt8} (ht : (walk rows stop cs (as ++ bs)).1 = t)
    (hlen : (walk rows stop cs (as ++ bs)).2.1 = as.length) (hpos : t ≠ 0)
    (hlt : (walk rows stop cs as).2.2 = false → (walk rows stop cs as).1 < t) :
    walk rows stop cs as = (t, as.length, true) := by
  cases hhalt : (walk rows stop cs as).2.2 with
  | true =>
    rw [walk_append_halted bs hhalt] at ht hlen
    exact Prod.ext ht (Prod.ext hlen hhalt)
  | false =>
    have hlt := hlt hhalt
    rw [walk_append bs hhalt] at ht hlen
    dsimp only at ht hlen
    cases bs with
    | nil => exact absurd ht (Nat.ne_of_lt hlt)
    | cons b bs =>
      rw [walk_step] at ht hlen
      cases he : edge rows (walk rows stop cs as).1 b with
      | none =>
        rw [he] at ht
        exact absurd ht.symm hpos
      | some e =>
        rw [he] at hlen
        dsimp only at hlen
        split at hlen <;> (dsimp only at hlen; omega)

namespace FullRequest

variable {lexicalCast : List UInt8 → Option UInt64} {q : Nat} {r : Bool} {req : FullRequest}

/-! ## A dumped request as a message -/

theorem isHead_dumpHead (hr : req.Built r) (hm : req.method ≠ .MSEARCH) (hc : req.cookies = [])
    (hshort : req.dump.length < 2 ^ 31) : IsHead r req.dumpHead := by
  obtain ⟨y, hexec, -⟩ := exec_dump (q := 0) hr hm hc (List.prefix_refl req.dump) hshort
  obtain ⟨hcs, hp⟩ := exec_walk hexec
  rw [Nat.zero_add, dump_eq_head hr hc] at hp
  rw [dump_eq_head hr hc] at hcs
  exact walk_of_append hcs hp.symm (by decide) fun h => walk_lt_final (by decide) h

theorem parseHead_dumpHead (hr : req.Built r) (hm : req.method ≠ .MSEARCH) (hc : req.cookies = [])
    (hshort : req.dump.length < 2 ^ 31) :
    ∃ y ∈ (HttpRequestParser.new q r).parseHead req.dumpHead,
      y.data = req.received req.dumpedHeaders ∧ y.hasError = false := by
  have hhead := isHead_dumpHead hr hm hc hshort
  have hdump := dump_eq_head hr hc
  obtain ⟨y, hexec, hdata, herr, hnread, hbody, hmark, hstart, hflen⟩ :=
    exec_dump (q := q) hr hm hc (List.prefix_refl req.dump) hshort
  have hpos := hhead.pos
  have hlen : req.dump.length = req.dumpHead.length + req.body.length := by
    rw [hdump, List.length_append]
  have hpe : (HttpRequestParser.new q r).parserExecute req.dump req.dump.length =
      some ({ y with cs := 348, nread := req.dumpHead.length }, req.dumpHead.length) := by
    rw [parserExecute, if_neg (by omega), List.take_length]
    simp only [show (HttpRequestParser.new q r).cs = 1 from rfl,
      show (HttpRequestParser.new q r).uriRelaxed = r from rfl, hexec, Option.bind_eq_bind,
      Option.bind_some, hnread, Nat.zero_add]
    rw [if_pos ⟨by omega, by omega, by omega, by omega, by omega⟩]
    rfl
  rw [hdump, parserExecute_head req.body hhead (by simp)] at hpe
  obtain ⟨z, hz, heq⟩ := Option.map_eq_some_iff.mp hpe
  cases heq
  refine ⟨_, hz, hdata, ?_⟩
  rw [hasError, herr]
  rfl

/-- What the server makes of a dumped request. -/
def message (req : FullRequest) : Message :=
  ⟨req.dumpHead, req.body, { req.received req.dumpedHeaders with body := req.body }.init⟩

theorem message_valid {mem : Memory} (hr : req.Built mem.uriRelaxed) (hm : req.method ≠ .MSEARCH)
    (hc : req.cookies = []) (hshort : req.dump.length < 2 ^ 31)
    (hfit : req.dumpHead.length ≤ mem.data.length)
    (hcast : ∀ k < 2 ^ 64, lexicalCast (showNat k) = some (UInt64.ofNat k)) :
    req.message.Valid lexicalCast mem where
  head := isHead_dumpHead hr hm hc hshort
  fits := hfit
  received := by
    have hhead := isHead_dumpHead hr hm hc hshort
    have hopen : Socket.Open ⟨[req.dumpHead ++ req.body], false, true⟩ := by
      refine ⟨rfl, List.forall_mem_singleton.mpr ?_⟩
      exact List.append_ne_nil_of_left_ne_nil (List.length_pos_iff.mp hhead.pos) _
    have hblen : req.body.length ≤ req.dump.length := by
      rw [dump_eq_head hr hc, List.length_append]
      exact Nat.le_add_left ..
    obtain ⟨y, hy, hdata, herr⟩ := parseHead_dumpHead (q := mem.queryStart) hr hm hc hshort
    obtain ⟨-, hbad⟩ | ⟨y', hy', -, s, hs, hp, hpend, ho, hoff, -⟩ :=
      recvHead_whole (q := mem.queryStart) hhead hfit hopen
    · rw [hbad y hy] at herr
      cases herr
    obtain rfl : y = y' := Option.some.inj (hy.symm.trans hy')
    rw [List.flatten_nil, List.append_nil] at hpend
    have hcomplete := complete_dump (s := s) hr (by omega) hcast (hp ▸ hdata) hpend
    obtain ⟨fuel, h⟩ := recvRequest_iff_returns.mpr
      ⟨s, .done hs, (recvBody_iff ho hoff).mpr ⟨hcomplete, rfl⟩⟩
    exact ⟨_, fuel, h⟩
  body := HttpRequest.init_body _

end FullRequest

/-! ## The response that comes back -/

/-- A response that has been received is the one that was dumped. -/
structure HttpResponse.Matches (rsp got : HttpResponse) : Prop where
  version : got.version = rsp.version
  status : got.status = rsp.status
  reason : got.effectiveReason = rsp.effectiveReason
  headers : got.headers = rsp.dumpedHeaders
  body : got.body = rsp.body

variable {lexicalCast : List UInt8 → Option UInt64} {rsp : HttpResponse} {n : Nat}
  {frags : List (List UInt8)}

/-- A response that arrives in fragments, the first of which holds its head. -/
structure HttpResponse.Arrives (rsp : HttpResponse) (n : Nat) (frags : List (List UInt8)) :
    Prop where
  size : n < 2 ^ 31
  cut : frags.flatten = rsp.dump
  nonempty : ∀ f ∈ frags, f ≠ []
  head : rsp.dumpHead.length ≤ min (frags.headD []).length n

theorem HttpResponse.Arrives.received (h : rsp.Arrives n frags) (hr : rsp.Plain)
    (hcast : ∀ k < 2 ^ 64, lexicalCast (showNat k) = some (UInt64.ofNat k)) (fails : Bool) :
    ∃ fuel got, HttpConnection.recvResponse lexicalCast fuel
      { bufferSize := n, sock := ⟨frags, fails, true⟩ } = some (.ok got) ∧ rsp.Matches got := by
  have hsize := h.size
  have hhead := h.head
  have hpos := rsp.dumpHead_pos
  cases frags with
  | nil =>
    have hzero : rsp.dumpHead.length ≤ 0 := Nat.le_trans hhead (Nat.min_le_left ..)
    omega
  | cons f fs =>
    obtain ⟨s, hs, hdata, hch, hbody, hopen, hrest⟩ :=
      recvHead_dumpHead fails hr (by omega) h.cut h.nonempty hhead
    obtain ⟨k, s', hs', hparser, hbody'⟩ := HttpConnection.recvBody_all hopen hbody
      (hrest.symm ▸ contentLength_received hr hcast hdata)
    rw [hrest] at hbody'
    have hreason : ∀ b, HttpResponse.effectiveReason { rsp.received with body := b } =
        rsp.effectiveReason := fun b =>
      if_neg fun he => (HttpResponse.effectiveReason_line hr).1 (List.isEmpty_iff.mp he)
    refine ⟨k + 1, s'.response, ?_, ?_⟩
    · rw [HttpConnection.recvResponse, run_succ_done hs, Option.bind_some]
      simp only [hch, Bool.false_eq_true, if_false]
      rw [hs' (k + 1) (Nat.le_succ k)]
      rfl
    · rw [HttpConnection.response, hparser, hdata, hbody']
      cases hb : rsp.body with
      | nil => exact ⟨rfl, rfl, hreason [], rfl, hb.symm⟩
      | cons b body => exact ⟨rfl, rfl, hreason (b :: body), rfl, hb.symm⟩

/-! ## Turns -/

/-- A request of the client, the way it arrives, and the memory of the call that receives it. -/
structure Turn where
  memory : Memory
  request : FullRequest
  arrives : List (List UInt8)

structure Turn.Fits (t : Turn) : Prop where
  built : t.request.Built t.memory.uriRelaxed
  method : t.request.method ≠ .MSEARCH
  cookies : t.request.cookies = []
  short : t.request.dump.length < 2 ^ 31
  cut : t.arrives.flatten = t.request.dump
  nonempty : ∀ f ∈ t.arrives, f ≠ []
  head : t.request.dumpHead.length ≤ min (t.arrives.headD []).length t.memory.data.length

theorem Turn.Fits.matches {t : Turn} (ht : t.Fits) : t.request.Matches t.request.message.request :=
  FullRequest.matches_received ht.built ht.cookies

theorem Turn.Fits.valid {t : Turn} (ht : t.Fits)
    (hcast : ∀ k < 2 ^ 64, lexicalCast (showNat k) = some (UInt64.ofNat k)) :
    t.request.message.Valid lexicalCast t.memory :=
  FullRequest.message_valid ht.built ht.method ht.cookies ht.short
    (Nat.le_trans ht.head (Nat.min_le_right ..)) hcast

theorem flatten_turns {l : List Turn} (hl : ∀ t ∈ l, t.Fits) :
    (l.flatMap Turn.arrives).flatten =
      (l.map fun t => (t.memory, t.request.message)).flatMap fun p => p.2.head ++ p.2.body := by
  induction l with
  | nil => rfl
  | cons t l ih =>
    obtain ⟨ht, hl⟩ := List.forall_mem_cons.mp hl
    rw [List.flatMap_cons, List.flatten_append, ih hl, ht.cut,
      FullRequest.dump_eq_head ht.built ht.cookies, List.map_cons, List.flatMap_cons]
    rfl

theorem Socket.dropFrags_append {fs gs : List (List UInt8)} (hgs : ∀ g ∈ gs, g ≠ []) :
    Socket.dropFrags fs.flatten.length (fs ++ gs) = gs := by
  induction fs with
  | nil => exact Socket.dropFrags_zero hgs
  | cons f fs ih =>
    rw [List.flatten_cons, List.length_append, List.cons_append, Socket.dropFrags,
      if_neg (by omega), Nat.add_sub_cancel_left, ih]

theorem inStep_turns {l : List Turn} (hl : ∀ t ∈ l, t.Fits) :
    InStep (l.map fun t => (t.memory, t.request.message)) (l.flatMap Turn.arrives) := by
  induction l with
  | nil => trivial
  | cons t l ih =>
    obtain ⟨ht, hl⟩ := List.forall_mem_cons.mp hl
    have hne : ∀ g ∈ l.flatMap Turn.arrives, g ≠ [] := by
      intro g hg
      obtain ⟨u, hu, hg⟩ := List.mem_flatMap.mp hg
      exact (hl u hu).nonempty g hg
    have hdump : t.request.dumpHead ++ t.request.body = t.arrives.flatten :=
      (FullRequest.dump_eq_head ht.built ht.cookies).symm.trans ht.cut.symm
    have hlen : t.request.dumpHead.length + t.request.body.length = t.arrives.flatten.length := by
      rw [← List.length_append, hdump]
    have hpos := (FullRequest.isHead_dumpHead ht.built ht.method ht.cookies ht.short).pos
    obtain ⟨f, fs, hf⟩ : ∃ f fs, t.arrives = f :: fs := by
      refine List.exists_cons_of_ne_nil fun hnil => ?_
      rw [hnil, List.flatten_nil, List.length_nil] at hlen
      omega
    have hhead : t.request.dumpHead.length ≤ min f.length t.memory.data.length := by
      simpa only [hf, List.headD_cons] using ht.head
    have hfirst : f.length ≤ t.arrives.flatten.length := by
      rw [hf, List.flatten_cons, List.length_append]
      exact Nat.le_add_right ..
    have hhd : (t.arrives ++ l.flatMap Turn.arrives).headD [] = f := by
      rw [hf, List.cons_append, List.headD_cons]
    rw [List.map_cons, List.flatMap_cons, InStep, hhd]
    refine ⟨hhead, ?_, ?_⟩
    · rw [show t.request.message.head.length + t.request.message.body.length = _ from hlen]
      omega
    · rw [show t.request.message.head.length + t.request.message.body.length = _ from hlen,
        Socket.dropFrags_append hne]
      exact ih hl

namespace HttpServer

variable {σ : Type} {fnmatch : List UInt8 → List UInt8 → Int} {server : HttpServer}
  {w : Stream.Writer σ} {mem : Memory} {fails : Bool}

/-- The turns that are answered: those up to the first after which the loop breaks. -/
def answeredTurns (server : HttpServer) : List Turn → List Turn
  | [] => []
  | t :: l =>
    if !server.keepalive || t.request.close then [t] else t :: answeredTurns server l

/-- What has become of a turn: the servlet has got what the client had built, and the client gets
what the servlet has made of it, whatever the fragments that it arrives in. -/
structure Answers (fnmatch : List UInt8 → List UInt8 → Int)
    (lexicalCast : List UInt8 → Option UInt64) (server : HttpServer) (fuel : Nat) (t : Turn)
    (x : Exchange) : Prop where
  request : t.request.Matches x.request
  response : server.dispatch.handle fnmatch fuel x.request (server.newResponse x.request) =
    some x.response
  sent : x.sent = x.response.dump
  received : ∀ n frags fails, x.response.Arrives n frags →
    ∃ fuel got, HttpConnection.recvResponse lexicalCast fuel
      { bufferSize := n, sock := ⟨frags, fails, true⟩ } = some (.ok got) ∧ x.response.Matches got

theorem answered_turns {l : List Turn} (hl : ∀ t ∈ l, t.Fits) :
    server.answered (l.map fun t => t.request.message.request) =
      (server.answeredTurns l).map fun t => t.request.message.request := by
  induction l with
  | nil => rfl
  | cons t l ih =>
    obtain ⟨ht, hl⟩ := List.forall_mem_cons.mp hl
    simp only [List.map_cons, answered, answeredTurns, breaks, ht.matches.close]
    split
    · rfl
    · rw [List.map_cons, ih hl]

theorem answeredTurns_subset (l : List Turn) : server.answeredTurns l ⊆ l := by
  induction l with
  | nil => exact List.Subset.refl _
  | cons t l ih =>
    rw [answeredTurns]
    split
    · exact List.cons_subset_cons t (List.nil_subset l)
    · exact List.cons_subset_cons t ih

/-- A request that keeps the connection, and one that does not. -/
def twoTurns : List Turn :=
  [⟨memory, putRequest, [putRequest.dumpHead, putRequest.body]⟩,
    ⟨memory, { path := bytes "/b" }, [FullRequest.dump { path := bytes "/b" }]⟩]

/-- What is evaluated of the two requests and of the page that answers them. -/
theorem twoTurns_facts :
    (bytes "/b" = 47 :: bytes "b" ∧ (∀ b ∈ bytes "b", (pathChar false).has b) ∧
      ∀ b ∈ (bytes "b").head?, b ≠ 47) ∧
    (∀ t ∈ twoTurns, t.request.method ≠ .MSEARCH ∧ t.request.cookies = [] ∧
      t.request.dump.length < 2 ^ 31 ∧ t.arrives.flatten = t.request.dump ∧
      (∀ f ∈ t.arrives, f ≠ []) ∧
      t.request.dumpHead.length ≤ min (t.arrives.headD []).length t.memory.data.length) ∧
    (∀ x ∈ (Servlet.notFound.handle {} {}).headers, x.1 ≠ [] ∧ (∀ b ∈ x.1, isFieldChar b) ∧
      x.1.map toLower ∉ ["connection", "content-length", "transfer-encoding"].map bytes ∧
      (∀ b ∈ x.2, b ≠ 10 ∧ b ≠ 13) ∧ ∀ b ∈ x.2.head?, isSpace b = false) ∧
    (404 : Int) ∈ httpStatusMap.map Prod.fst ∧ Servlet.notFoundBody.length < 2 ^ 63 ∧
    ∀ version ∈ [(0x10 : UInt8), 0x11], ∀ close,
      (Servlet.notFound.handle {} { version, close }).dump.length < 2 ^ 64 := by
  decide +kernel

theorem built_get : FullRequest.Built false { path := bytes "/b" } where
  version := .inr rfl
  path := by
    obtain ⟨hpath, hletters, hslash⟩ := twoTurns_facts.1
    exact ⟨bytes "b", hpath, .of_forall hletters, hslash⟩
  query := .nil
  fragment := .nil
  headers := List.forall_mem_nil _
  plain := List.forall_mem_nil _
  sorted := .nil
  websocket := rfl
  parserParamFlag := rfl

theorem twoTurns_fits : ∀ t ∈ twoTurns, t.Fits := by
  have hbuilt : ∀ t ∈ twoTurns, t.request.Built t.memory.uriRelaxed :=
    List.forall_mem_cons.mpr ⟨built_putRequest, List.forall_mem_singleton.mpr built_get⟩
  intro t ht
  obtain ⟨hm, hc, hshort, hcut, hne, hhead⟩ := twoTurns_facts.2.1 t ht
  exact ⟨hbuilt t ht, hm, hc, hshort, hcut, hne, hhead⟩

theorem notFound_plain {version : UInt8} (hv : version = 0x10 ∨ version = 0x11) (close : Bool)
    (req : HttpRequest) : (Servlet.notFound.handle req { version, close }).Plain where
  version := hv
  status := twoTurns_facts.2.2.2.1
  websocket := rfl
  cookies := rfl
  reason := List.forall_mem_nil _
  headers := by
    intro x hx
    obtain ⟨hne, htoken, hplain, hline, htrimmed⟩ := twoTurns_facts.2.2.1 x hx
    exact ⟨⟨hne, htoken, hplain⟩, hline, htrimmed⟩
  sorted := List.pairwise_pair.mpr (by decide)
  body := twoTurns_facts.2.2.2.2.1

end HttpServer

end Tigerkin.Http
