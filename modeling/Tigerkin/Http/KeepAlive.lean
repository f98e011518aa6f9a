import Tigerkin.Http.RecvRequest

/-! # Requests on one connection

`HttpServer::handleClient` calls `recvRequest` again and again on one session. What a call has read
beyond the body of its request is in the buffer of that call, and is lost with it. -/

namespace Tigerkin.Http

open Machine Loop

/-- What a call of `recvRequest` finds in the memory that it does not initialize. -/
structure Memory where
  queryStart : Nat
  uriRelaxed : Bool
  data : List UInt8

/-- The bytes of a request, and the request that they are. -/
structure Message where
  head : List UInt8
  body : List UInt8
  request : HttpRequest

variable (lexicalCast : List UInt8 → Option UInt64)

/-- Calls of `recvRequest` on one session, until one returns no request. -/
def recvRequests (fuel : Nat) :
    List Memory → Socket → Option (Except Stop (List HttpRequest × Socket))
  | [], sock => some (.ok ([], sock))
  | m :: ms, sock =>
    match (HttpSession.start m.queryStart m.uriRelaxed m.data sock).recvRequest lexicalCast fuel with
    | none => none
    | some (.error e) => some (.error e)
    | some (.ok (r, sock)) =>
      match recvRequests fuel ms sock with
      | some (.ok (rs, sock)) => some (.ok (r :: rs, sock))
      | o => o

/-- A request that is received when it comes alone. -/
structure Message.Valid (x : Message) (m : Memory) : Prop where
  head : IsHead m.uriRelaxed x.head
  fits : x.head.length ≤ m.data.length
  received : ∃ sock fuel, (HttpSession.start m.queryStart m.uriRelaxed m.data
    ⟨[x.head ++ x.body], false, true⟩).recvRequest lexicalCast fuel = some (.ok (x.request, sock))
  body : x.request.body = x.body

/-- The first read for each request gets its whole head and nothing of the next request. -/
def InStep : List (Memory × Message) → List (List UInt8) → Prop
  | [], _ => True
  | (m, x) :: l, fs =>
    x.head.length ≤ min (fs.headD []).length m.data.length ∧
      min (fs.headD []).length m.data.length ≤ x.head.length + x.body.length ∧
      InStep l (Socket.dropFrags (x.head.length + x.body.length) fs)

variable {lexicalCast}

namespace HttpSession

variable {s : HttpSession} {n m : Nat}

theorem recvRequest_mono (hnm : n ≤ m) {o : Except Stop (HttpRequest × Socket)}
    (h : s.recvRequest lexicalCast n = some o) : s.recvRequest lexicalCast m = some o := by
  obtain ⟨o', hrun, h⟩ := Option.bind_eq_some_iff.mp h
  rw [recvRequest, run_mono hnm hrun]
  cases o' with
  | error e => exact h
  | ok s' => exact recvBody_mono hnm h

end HttpSession

theorem recvRequests_mono {n m : Nat} (hnm : n ≤ m) {ms : List Memory} {sock : Socket}
    {o : Except Stop (List HttpRequest × Socket)}
    (h : recvRequests lexicalCast n ms sock = some o) :
    recvRequests lexicalCast m ms sock = some o := by
  induction ms generalizing sock o with
  | nil => exact h
  | cons mem ms ih =>
    simp only [recvRequests] at h ⊢
    split at h
    · cases h
    · rename_i e he
      rw [HttpSession.recvRequest_mono hnm he]
      exact h
    · rename_i r sock₁ hr
      rw [HttpSession.recvRequest_mono hnm hr]
      cases hrs : recvRequests lexicalCast n ms sock₁ with
      | none =>
        rw [hrs] at h
        cases h
      | some o' =>
        rw [hrs] at h
        simp only [ih hrs]
        exact h

theorem HttpRequestParser.parseHead_body {x y : HttpRequestParser} {head : List UInt8}
    (h : x.parseHead head = some y) : y.data.body = x.data.body := by
  obtain ⟨⟨z, cs, p⟩, hz, rfl⟩ := Option.map_eq_some_iff.mp h
  exact (exec_frame hz).body

/-- How many bytes a valid request takes. -/
theorem complete_length {s : HttpSession} {r : HttpRequest} {body : List UInt8}
    (h : s.complete lexicalCast = some r) (hs : s.parser.data.body = []) (hr : r.body = body)
    (hp : s.pending = body) : (s.contentLength lexicalCast).toNat = body.length := by
  unfold HttpSession.complete at h
  split at h
  · rename_i hneg
    cases h
    rw [HttpRequest.init_body, hs] at hr
    rw [← hr, Int.toNat_eq_zero.mpr hneg]
    rfl
  · split at h
    · rename_i hle
      cases h
      rw [HttpRequest.init_body, hp] at hr
      have := congrArg List.length hr
      rw [List.length_take] at this
      rw [hp] at hle
      omega
    · cases h

/-- The first read of a request that is in step. -/
theorem recvRequest_inStep {x : Message} {m : Memory} (hx : x.Valid lexicalCast m)
    {f rest : List UInt8} {fs : List (List UInt8)} {fails : Bool}
    (hcut : (f :: fs).flatten = x.head ++ x.body ++ rest) (hne : ∀ g ∈ f :: fs, g ≠ [])
    (hhead : x.head.length ≤ min f.length m.data.length)
    (hbody : min f.length m.data.length ≤ x.head.length + x.body.length) :
    ∃ fuel, (HttpSession.start m.queryStart m.uriRelaxed m.data ⟨f :: fs, fails, true⟩).recvRequest
      lexicalCast fuel = some (.ok (x.request,
        Socket.skip ⟨f :: fs, fails, true⟩ (x.head.length + x.body.length))) := by
  obtain ⟨f, rfl⟩ : ∃ f₁, f = x.head ++ f₁ := by
    rw [List.append_assoc, List.flatten_cons] at hcut
    obtain ⟨f₁, h⟩ := List.prefix_of_prefix_length_le (List.prefix_append x.head _)
      (hcut ▸ List.prefix_append f fs.flatten) (by omega)
    exact ⟨f₁, h.symm⟩
  have hpend : f ++ fs.flatten = x.body ++ rest := by
    rw [List.flatten_cons, List.append_assoc, List.append_assoc] at hcut
    exact List.append_cancel_left hcut
  have halone : Socket.Open ⟨[x.head ++ x.body], false, true⟩ := by
    refine ⟨rfl, fun g hg => ?_⟩
    rw [List.mem_singleton.mp hg]
    exact List.append_ne_nil_of_left_ne_nil (List.length_pos_iff.mp hx.head.pos) _
  obtain ⟨sock, hrecv⟩ := hx.received
  obtain ⟨s₁, hret, hrecv⟩ := HttpSession.recvRequest_iff_returns.mp hrecv
  obtain ⟨⟨e, he⟩, -⟩ | ⟨y, hy, hyok, s₁', hs₁, hp, hpend₁, ho, hoff, -⟩ :=
    HttpSession.recvHead_whole (q := m.queryStart) hx.head hx.fits halone
  · cases hret.of_done he
  cases hret.of_done hs₁
  rw [HttpSession.recvBody_iff ho hoff] at hrecv
  obtain ⟨-, hbad⟩ | ⟨y', hy', -, s₂, hs₂, hp', hpend₂, ho', hoff', hlen, hsock⟩ :=
    HttpSession.recvHead_whole (q := m.queryStart) (f := f) hx.head hx.fits
      (show Socket.Open ⟨_ :: fs, fails, true⟩ from ⟨rfl, hne⟩)
  · rw [hbad y hy] at hyok
    cases hyok
  obtain rfl : y = y' := Option.some.inj (hy.symm.trans hy')
  rw [List.flatten_nil, List.append_nil] at hpend₁
  have hbody₁ : s₁.parser.data.body = [] := hp ▸ HttpRequestParser.parseHead_body hy
  have hn := complete_length hrecv.1 hbody₁ hx.body hpend₁
  have hcl : s₂.contentLength lexicalCast = s₁.contentLength lexicalCast := by
    simp only [HttpSession.contentLength, hp, hp']
  rw [hpend] at hpend₂
  have hrecv₂ : s₂.complete lexicalCast = some x.request := by
    rw [← hrecv.1]
    unfold HttpSession.complete
    rw [hcl, hp, hp', hn, hpend₁, hpend₂, List.take_left, List.take_length]
    simp
  refine HttpSession.recvRequest_iff_returns.mpr
    ⟨s₂, .done hs₂, (HttpSession.recvBody_iff ho' hoff').mpr ⟨hrecv₂, ?_⟩⟩
  rw [hsock, Socket.skip_skip, hcl, hn]
  congr 1
  rw [List.length_append] at hbody
  omega

/-- **Requests that arrive in step** are all received, in order and with their own bodies. -/
theorem recvRequests_eq {l : List (Memory × Message)} {fs : List (List UInt8)} {fails : Bool}
    (hl : ∀ p ∈ l, p.2.Valid lexicalCast p.1)
    (hcut : fs.flatten = l.flatMap fun p => p.2.head ++ p.2.body) (hne : ∀ f ∈ fs, f ≠ [])
    (hstep : InStep l fs) :
    ∃ fuel sock, recvRequests lexicalCast fuel (l.map Prod.fst) ⟨fs, fails, true⟩ =
      some (.ok (l.map fun p => p.2.request, sock)) := by
  induction l generalizing fs with
  | nil => exact ⟨0, _, rfl⟩
  | cons p l ih =>
    obtain ⟨m, x⟩ := p
    obtain ⟨hhead, hbody, hrest⟩ := hstep
    have hx := hl (m, x) List.mem_cons_self
    obtain ⟨f, fs, rfl⟩ : ∃ f fs', fs = f :: fs' := by
      refine List.exists_cons_of_ne_nil ?_
      rintro rfl
      have hpos : 0 < x.head.length := hx.head.pos
      have hzero : x.head.length ≤ 0 := Nat.le_trans hhead (Nat.min_le_left ..)
      omega
    rw [List.flatMap_cons] at hcut
    have hcut' : (Socket.dropFrags (x.head.length + x.body.length) (f :: fs)).flatten =
        l.flatMap fun p => p.2.head ++ p.2.body := by
      rw [Socket.flatten_dropFrags, hcut, ← List.length_append, List.drop_left]
    obtain ⟨n, hr⟩ : ∃ n, (HttpSession.start _ _ _ ⟨f :: fs, fails, true⟩).recvRequest _ n = _ :=
      recvRequest_inStep hx hcut hne hhead hbody
    obtain ⟨k, sock, hrs⟩ := ih (fun p hp => hl p (List.mem_cons_of_mem _ hp)) hcut'
      (Socket.dropFrags_nonempty hne) hrest
    refine ⟨max n k, sock, ?_⟩
    have hr' := HttpSession.recvRequest_mono (Nat.le_max_left n k) hr
    have hrs' := recvRequests_mono (Nat.le_max_right n k) hrs
    simp only [List.map_cons, recvRequests, hr']
    simp only [Socket.skip, hrs']

def getHead : List UInt8 := bytes "GET /index.html HTTP/1.1\r\nHost: a\r\n\r\n"

def getRequest : HttpRequest :=
  { path := bytes "/index.html", headers := [(bytes "Host", bytes "a")] }

def memory : Memory := ⟨0, false, List.replicate 100 0⟩

theorem valid_get : Message.Valid decimal ⟨getHead, [], getRequest⟩ memory :=
  ⟨by decide +kernel, by decide +kernel, ⟨⟨[], false, true⟩, 1, by decide +kernel⟩, rfl⟩

theorem valid_post : Message.Valid decimal ⟨postHead, bytes "hello world", postRequest⟩ memory :=
  ⟨by decide +kernel, by decide +kernel, ⟨⟨[], false, true⟩, 1, by decide +kernel⟩, rfl⟩

theorem recvRequests_post_get :
    ∃ fuel sock, recvRequests decimal fuel [memory, memory]
      ⟨[postHead ++ bytes "hel", bytes "lo world" ++ getHead], false, true⟩ =
        some (.ok ([postRequest, getRequest], sock)) :=
  recvRequests_eq (l := [(memory, ⟨postHead, bytes "hello world", postRequest⟩),
      (memory, ⟨getHead, [], getRequest⟩)])
    (List.forall_mem_cons.mpr ⟨valid_post, List.forall_mem_singleton.mpr valid_get⟩)
    (by decide +kernel) (by decide +kernel)
    ⟨by decide +kernel, by decide +kernel, by decide +kernel, by decide +kernel, trivial⟩

/-- Two requests in one read: the second is lost. -/
theorem pipelined_request_lost :
    Message.Valid decimal ⟨getHead, [], getRequest⟩ memory ∧
      ¬∃ fuel sock, recvRequests decimal fuel [memory, memory] ⟨[getHead ++ getHead], true, true⟩ =
        some (.ok ([getRequest, getRequest], sock)) := by
  refine ⟨valid_get, fun ⟨fuel, sock, h⟩ => ?_⟩
  have hlost : recvRequests decimal 1 [memory, memory] ⟨[getHead ++ getHead], true, true⟩ =
      some (.error .nullptr) := by
    decide +kernel
  have h1 := recvRequests_mono (Nat.le_max_left fuel 1) h
  have h2 := recvRequests_mono (Nat.le_max_right fuel 1) hlost
  rw [h1] at h2
  cases h2

end Tigerkin.Http
