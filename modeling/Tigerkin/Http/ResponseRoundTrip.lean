import Mathlib.Data.List.TakeWhile
import Tigerkin.Http.ResponseHead

/-! # A response is received as it was dumped -/

namespace Tigerkin.Http

open Machine CString Loop

variable {o : Option (HttpResponseParser × Nat × Nat)} {buffer head rest : List UInt8}
  {d : HttpResponse} {s : Nat × List ResponseAction} {name value : List UInt8}

namespace HttpResponseParser

/-- An execution of the machine on the buffer passes the state `cs` after the bytes `head`. -/
def At (o : Option (HttpResponseParser × Nat × Nat)) (buffer : List UInt8) (cs : Nat)
    (d : HttpResponse) (head rest : List UInt8) : Prop :=
  buffer = head ++ rest ∧ ∃ x, Parsed d head.length x ∧
    o = exec responseRows (· == .done) (act buffer) cs x head.length rest

theorem At.line {cs cs' : Nat} {d' : HttpResponse} {line : List UInt8}
    {l : List (Nat × ResponseAction)} (h : At o buffer cs d head (line ++ rest))
    (ht : responseTrace cs head.length line = some (l, cs'))
    (hl : ∀ x, Parsed d head.length x →
      ∃ y, perform (act buffer) x l = some y ∧ Parsed d' (head ++ line).length y) :
    At o buffer cs' d' (head ++ line) rest := by
  obtain ⟨hbuf, x, hx, rfl⟩ := h
  obtain ⟨y, hy, hparsed⟩ := hl x hx
  refine ⟨by rw [hbuf, List.append_assoc], y, hparsed, ?_⟩
  rw [exec_trace ht, hy, List.length_append]
  rfl

theorem lineStarts_acts (hs : s ∈ lineStarts) : s.2 = [] ∨ s.2 = [.writeConnectionClose] := by
  revert s
  decide

theorem At.field (hlen : buffer.length < 2 ^ 63) (hn : IsName name) (hv : IsValue value)
    (h : At o buffer 20 d head (name ++ bytes ": " ++ value ++ bytes "\r\n" ++ rest)) :
    At o buffer 20 { d with headers := d.headers.set name value }
      (head ++ (name ++ bytes ": " ++ value ++ bytes "\r\n")) rest :=
  h.line (trace_field (s := (20, [])) (by decide) hn hv head.length) fun _ hx =>
    perform_field (.inl rfl) (.inl rfl) hx h.1 hlen hn.ne_nil

theorem At.connection (hlen : buffer.length < 2 ^ 63) {close : Bool}
    (h : At o buffer 20 d head (dumpConnection close ++ rest)) :
    ∃ s ∈ lineStarts, At o buffer s.1
      { d with
        headers := d.headers.set (bytes "connection")
          (bytes (if close then "close" else "keep-alive")) }
      (head ++ dumpConnection close) rest := by
  have hbytes : (bytes (if close then "close" else "keep-alive")).length =
      if close then 5 else 10 := by
    cases close <;> rfl
  refine ⟨if close then (43, [.writeConnectionClose]) else (20, []), by cases close <;> decide,
    h.line ?_ fun x hx => perform_field (.inl rfl) (.inl rfl) hx h.1 hlen (by decide)⟩
  rw [hbytes, trace_connection]
  cases close <;> rfl

theorem At.contentLength (hs : s ∈ lineStarts) (hlen : buffer.length < 2 ^ 63) {n : Nat}
    (h : At o buffer s.1 d head (bytes "content-length: " ++ showNat n ++ bytes "\r\n" ++ rest)) :
    At o buffer 20 { d with headers := d.headers.set (bytes "content-length") (showNat n) }
      (head ++ (bytes "content-length: " ++ showNat n ++ bytes "\r\n")) rest := by
  obtain ⟨hne, hdig, -⟩ := showNat_eq n
  have hname : bytes "content-length: " = bytes "content-length" ++ bytes ": " := by decide
  rw [hname] at h ⊢
  refine h.line (hname ▸ trace_content_length hs hne hdig head.length) fun x hx => ?_
  exact perform_field (lineStarts_acts hs) (.inr rfl) hx h.1 hlen (by decide)

theorem At.fields (hlen : buffer.length < 2 ^ 63) {hs : Headers}
    (hh : ∀ x ∈ hs, IsName x.1 ∧ IsValue x.2)
    (h : At o buffer 20 d head
      (hs.flatMap (fun x => x.1 ++ bytes ": " ++ x.2 ++ bytes "\r\n") ++ rest)) :
    At o buffer 20 { d with headers := hs.foldl (fun m x => m.set x.1 x.2) d.headers }
      (head ++ hs.flatMap fun x => x.1 ++ bytes ": " ++ x.2 ++ bytes "\r\n") rest := by
  induction hs generalizing d head with
  | nil => rwa [List.flatMap_nil, List.append_nil]
  | cons x hs ih =>
    obtain ⟨hn, hv⟩ := hh x List.mem_cons_self
    rw [List.flatMap_cons, List.append_assoc] at h
    have hnext := ih (fun y hy => hh y (List.mem_cons_of_mem x hy)) (h.field hlen hn hv)
    rwa [List.append_assoc] at hnext

/-- The empty line ends the head. -/
theorem At.done (hs : s ∈ lineStarts) (h : At o buffer s.1 d head (bytes "\r\n" ++ rest)) :
    ∃ y, o = some (y, 120, head.length + 2) ∧ y.data = d ∧ y.error = .OK ∧ y.nread = 0 ∧
      y.chunked = false ∧ y.bodyStart = head.length + 2 ∧ y.mark < head.length ∧
      y.fieldStart < head.length ∧ y.fieldLen ≤ head.length := by
  obtain ⟨hbuf, x, hx, rfl⟩ := h
  have ht : responseTrace s.1 head.length (bytes "\r") =
      some (s.2.map (head.length, ·), 3) := by
    rw [responseTrace, trace_shift]
    simp only [lineStarts, List.mem_cons, List.not_mem_nil, or_false] at hs
    rcases hs with rfl | rfl <;> rfl
  have hp : perform (act buffer) x (s.2.map (head.length, ·)) = some x := by
    rcases lineStarts_acts hs with h | h <;> rw [h] <;> rfl
  obtain ⟨e, he, hacts, htarget⟩ : ∃ e ∈ edge responseRows 3 10, e.acts = [.done] ∧
      e.target = 120 := by
    decide +kernel
  refine ⟨{ x with bodyStart := head.length + 2 }, ?_, hx.data, hx.error, hx.nread, hx.chunked, rfl,
    hx.mark, hx.fieldStart, hx.fieldLen⟩
  have hcrlf : bytes "\r\n" ++ rest = bytes "\r" ++ 10 :: rest := rfl
  rw [hcrlf, exec_trace ht, hp, Option.bind_some,
    exec_stop he (by simp [Edge.stops, hacts]), hacts, htarget]
  rfl

/-- The line of the status. -/
theorem At.start {v : UInt8} {n : Nat} {reason : List UInt8} (hv : v = 0x10 ∨ v = 0x11)
    (hn : n < 2 ^ 31) (hreason : reason ≠ []) (hline : ∀ b ∈ reason, b ≠ 10 ∧ b ≠ 13)
    (hbuf : buffer = versionText v ++ bytes " " ++ showNat n ++ bytes " " ++ reason ++
      bytes "\r\n" ++ rest) (hlen : buffer.length < 2 ^ 63) :
    At (exec responseRows (· == .done) (act buffer) 1 {} 0 buffer) buffer 20
      { status := ⟨n⟩, version := v, reason := reason }
      (versionText v ++ bytes " " ++ showNat n ++ bytes " " ++ reason ++ bytes "\r\n") rest := by
  obtain ⟨hne, hdig, -⟩ := showNat_eq n
  obtain ⟨y, hy, hparsed⟩ := perform_status hv hn hbuf hlen
  refine ⟨hbuf, y, hparsed, ?_⟩
  have hexec : exec _ _ (act buffer) _ _ _ _ = _ := exec_trace
    (trace_status (versionText_mem hv) hne hdig hreason hline) {} rest
  rw [hy, Option.bind_some, Nat.zero_add, ← hbuf] at hexec
  exact hexec

end HttpResponseParser

/-! ## The head that is dumped -/

theorem IsName.ofMemory (hn : IsName name) : ofMemory name = name := by
  have h0 : isFieldChar 0 = false := by decide
  refine List.takeWhile_eq_self_iff.mpr fun b hb => ?_
  have hb := hn.token b hb
  rw [bne_iff_ne]
  rintro rfl
  rw [h0] at hb
  cases hb

theorem IsName.strcasecmp_ne (hn : IsName name) {key : String}
    (hkey : key ∈ ["connection", "content-length", "transfer-encoding"]) :
    strcasecmp (bytes key) name ≠ .eq := by
  have hlower : (CString.ofMemory (bytes key)).map toLower = bytes key := by
    simp only [List.mem_cons, List.not_mem_nil, or_false] at hkey
    rcases hkey with rfl | rfl | rfl <;> decide
  intro h
  rw [Headers.strcasecmp_eq_iff, hn.ofMemory, hlower] at h
  exact hn.plain (h ▸ List.mem_map_of_mem hkey)

namespace HttpResponse

/-- The responses that are dumped and received again. -/
structure Plain (r : HttpResponse) : Prop where
  version : r.version = 0x10 ∨ r.version = 0x11
  status : r.status.code ∈ httpStatusMap.map Prod.fst
  websocket : r.websocket = false
  cookies : r.cookies = []
  reason : ∀ b ∈ r.reason, b ≠ 10 ∧ b ≠ 13
  headers : ∀ x ∈ r.headers, IsName x.1 ∧ IsValue x.2
  sorted : r.headers.Sorted
  body : r.body.length < 2 ^ 63

/-- The headers, and those that `dump` adds. -/
def dumpedHeaders (r : HttpResponse) : Headers :=
  let h := r.headers.set (bytes "connection") (bytes (if r.close then "close" else "keep-alive"))
  if r.body.isEmpty then h else h.set (bytes "content-length") (showNat r.body.length)

def statusLine (r : HttpResponse) : List UInt8 :=
  versionText r.version ++ bytes " " ++ showNat r.status.code.toNat ++ bytes " " ++
    r.effectiveReason ++ bytes "\r\n"

/-- What `dump` prints before the body. -/
def dumpHead (r : HttpResponse) : List UInt8 :=
  r.statusLine ++ r.headers.flatMap (fun x => x.1 ++ bytes ": " ++ x.2 ++ bytes "\r\n") ++
    dumpConnection r.close ++
    (if r.body.isEmpty then [] else bytes "content-length: " ++ showNat r.body.length ++
      bytes "\r\n") ++ bytes "\r\n"

variable {r : HttpResponse}

theorem effectiveReason_line (hr : r.Plain) :
    r.effectiveReason ≠ [] ∧ ∀ b ∈ r.effectiveReason, b ≠ 10 ∧ b ≠ 13 := by
  have hall : ∀ x ∈ httpStatusMap, bytes (httpStatusToString ⟨x.1⟩) ≠ [] ∧
      (bytes (httpStatusToString ⟨x.1⟩)).all (fun b => b ≠ 10 ∧ b ≠ 13) = true := by
    decide +kernel
  unfold effectiveReason
  split
  · obtain ⟨x, hx, hcode⟩ := List.mem_map.mp hr.status
    have hstatus : r.status = ⟨x.1⟩ := by rw [hcode]
    rw [hstatus]
    exact ⟨(hall x hx).1, by simpa using (hall x hx).2⟩
  · rename_i hne
    exact ⟨fun h => hne (by rw [h]; rfl), hr.reason⟩

theorem Plain.code_bounds (hr : r.Plain) : 0 ≤ r.status.code ∧ r.status.code < 2 ^ 31 := by
  have hall : ∀ c ∈ httpStatusMap.map Prod.fst, 0 ≤ c ∧ c < 2 ^ 31 := by
    decide
  exact hall _ hr.status

theorem dump_eq (hr : r.Plain) : r.dump = r.dumpHead ++ r.body := by
  obtain ⟨h0, h31⟩ := hr.code_bounds
  have hcode : r.status.code % 2 ^ 32 = r.status.code := Int.emod_eq_of_lt h0 (by omega)
  unfold dump dumpHead
  rw [hr.websocket, hr.cookies,
    dumpHeaders_eq fun x hx => (hr.headers x hx).1.strcasecmp_ne (by decide), hcode, dumpBody]
  cases hb : r.body with
  | nil => simp [statusLine, versionText]
  | cons b body => simp [statusLine, versionText, bytes]

/-- What is received before the body. -/
def received (r : HttpResponse) : HttpResponse :=
  { status := r.status, version := r.version, reason := r.effectiveReason,
    headers := r.dumpedHeaders }

theorem dumpHead_pos (r : HttpResponse) : 0 < r.dumpHead.length := by
  have hpos : 0 < (bytes "\r\n").length := by decide
  rw [dumpHead, List.length_append]
  omega

open HttpResponseParser in
theorem parserExecute_dumpHead (hr : r.Plain) (hbuf : buffer = r.dumpHead ++ rest)
    (hlen : buffer.length < 2 ^ 63) :
    ∃ y, ({} : HttpResponseParser).parserExecute buffer = some (y, r.dumpHead.length) ∧
      y.data = r.received ∧ y.error = .OK ∧ y.chunked = false ∧ y.cs = 120 := by
  obtain ⟨h0, h31⟩ := hr.code_bounds
  obtain ⟨hreason, hline⟩ := effectiveReason_line hr
  have hcode : (⟨r.status.code.toNat⟩ : HttpStatus) = r.status := by
    rw [Int.toNat_of_nonneg h0]
  have hsplit : buffer = versionText r.version ++ bytes " " ++ showNat r.status.code.toNat ++
      bytes " " ++ r.effectiveReason ++ bytes "\r\n" ++ (r.headers.flatMap
        (fun x => x.1 ++ bytes ": " ++ x.2 ++ bytes "\r\n") ++ (dumpConnection r.close ++
          ((if r.body.isEmpty then [] else bytes "content-length: " ++ showNat r.body.length ++
            bytes "\r\n") ++ (bytes "\r\n" ++ rest)))) := by
    simp only [hbuf, dumpHead, statusLine, List.append_assoc]
  have hstart := At.start hr.version (by omega) hreason hline hsplit hlen
  obtain ⟨s, hs, hconn⟩ := (hstart.fields hlen hr.headers).connection hlen
  have hfields : r.headers.foldl (fun (m : Headers) x => m.set x.1 x.2) [] = r.headers :=
    Headers.foldl_set (h := []) hr.sorted
  rw [hfields, hcode] at hconn
  obtain ⟨head, hhead, s, hs, hend⟩ : ∃ head, r.dumpHead = head ++ bytes "\r\n" ∧
      ∃ s ∈ lineStarts, At (exec responseRows (· == .done) (act buffer) 1 {} 0 buffer) buffer s.1
        r.received head (bytes "\r\n" ++ rest) := by
    refine ⟨_, rfl, ?_⟩
    cases hb : r.body.isEmpty with
    | true =>
      refine ⟨s, hs, ?_⟩
      simp only [hb, if_true, List.nil_append, List.append_nil] at hconn ⊢
      simpa only [received, dumpedHeaders, statusLine, hb, if_true] using hconn
    | false =>
      refine ⟨(20, []), by decide, ?_⟩
      simp only [hb, Bool.false_eq_true, if_false] at hconn ⊢
      have hcl := hconn.contentLength hs hlen
      simpa only [received, dumpedHeaders, statusLine, hb, Bool.false_eq_true, if_false] using hcl
  obtain ⟨y, hy, hdata, herr, hnread, hch, hbody, hmark, hstart, hflen⟩ := hend.done hs
  have hhlen : r.dumpHead.length = head.length + 2 := by
    rw [hhead, List.length_append]
    rfl
  have hle : r.dumpHead.length ≤ buffer.length := by
    rw [hbuf, List.length_append]
    exact Nat.le_add_right ..
  refine ⟨{ y with cs := 120, nread := y.nread + (head.length + 2) }, ?_, hdata, herr, hch, rfl⟩
  have hasserts : y.nread + (head.length + 2) ≤ buffer.length ∧ y.bodyStart ≤ buffer.length ∧
      y.mark < buffer.length ∧ y.fieldLen ≤ buffer.length ∧ y.fieldStart < buffer.length := by
    omega
  simp only [parserExecute, hy, Option.bind_eq_bind, Option.bind_some]
  rw [if_pos hasserts, hnread, Nat.zero_add, hhlen]

end HttpResponse

/-! ## The response that is received -/

variable {lexicalCast : List UInt8 → Option UInt64} {r : HttpResponse} {n : Nat}
  {f : List UInt8} {fs : List (List UInt8)} {fails : Bool}

/-- A first read that gets the head is the only one in the loop that reads the head. -/
theorem recvHead_dumpHead (fails : Bool) (hr : r.Plain) (hn : n < 2 ^ 63)
    (hcut : (f :: fs).flatten = r.dump) (hne : ∀ g ∈ f :: fs, g ≠ [])
    (hhead : r.dumpHead.length ≤ min f.length n) :
    ∃ s : HttpConnection, HttpConnection.recvHead { bufferSize := n, sock := ⟨f :: fs, fails, true⟩ } =
        .inr (.ok s) ∧
      s.parser.data = r.received ∧ s.parser.chunked = false ∧ s.body = [] ∧ s.sock.Open ∧
      s.data ++ s.sock.pending = r.body := by
  have hopen : Socket.Open ⟨f :: fs, fails, true⟩ := ⟨rfl, hne⟩
  rw [HttpResponse.dump_eq hr, List.flatten_cons] at hcut
  have hprefix : f.take n <+: r.dumpHead ++ r.body :=
    hcut ▸ (List.take_prefix n f).trans (List.prefix_append f fs.flatten)
  have hle : r.dumpHead.length ≤ (f.take n).length := by
    rw [List.length_take]
    omega
  obtain ⟨more, hmore⟩ := List.prefix_of_prefix_length_le (List.prefix_append ..) hprefix hle
  replace hmore := hmore.symm
  have hlen : (f.take n).length ≤ n := by
    rw [List.length_take]
    exact Nat.min_le_left ..
  obtain ⟨y, hy, hdata, herr, hch, hcs⟩ := HttpResponse.parserExecute_dumpHead hr hmore (by omega)
  have hpos := r.dumpHead_pos
  have hmlen : more.length < n := by
    rw [hmore, List.length_append] at hlen
    omega
  have hdrop : (f.take n).drop r.dumpHead.length = more := by
    rw [hmore, List.drop_left]
  refine ⟨⟨n, y, more, [], Socket.skip ⟨f :: fs, fails, true⟩ (f.take n).length⟩, ?_, hdata, hch, rfl,
    hopen.skip _, ?_⟩
  · have hread := Socket.read_cons hopen rfl n
    have hexec : ({} : HttpResponseParser).execute (f.take n) false = some (y, more) := by
      rw [HttpResponseParser.execute, if_neg Bool.false_ne_true, hy, ← hdrop]
      rfl
    have herror : y.hasError = false := by
      rw [HttpResponseParser.hasError, herr, hcs]
      rfl
    have hfin : y.isFinished = true := by
      rw [HttpResponseParser.isFinished, hcs]
      rfl
    exact HttpConnection.recvHead_finished hread (List.length_pos_iff.mp (by omega)) hexec herror
      (by dsimp only; omega) hfin
  · have hpend : Socket.pending ⟨f :: fs, fails, true⟩ = r.dumpHead ++ r.body := hcut
    have hrest : more ++ (r.dumpHead ++ r.body).drop (f.take n).length = r.body := by
      obtain ⟨tail, htail⟩ := hprefix
      rw [← htail, List.drop_left]
      rw [hmore, List.append_assoc] at htail
      exact List.append_cancel_left htail
    rw [Socket.pending_skip, hpend]
    exact hrest

theorem contentLength_received (hr : r.Plain) {s : HttpConnection}
    (hcast : ∀ k < 2 ^ 64, lexicalCast (showNat k) = some (UInt64.ofNat k))
    (hdata : s.parser.data = r.received) :
    s.contentLength lexicalCast = r.body.length := by
  rw [HttpConnection.contentLength, hdata]
  exact contentLength_dumped hcast (fun x hx => (hr.headers x hx).1.strcasecmp_ne (by decide)) _
    hr.body

/-- When everything that is left is the body, the connection gets it. -/
theorem HttpConnection.recvBody_all {s : HttpConnection} (ho : s.sock.Open) (hb : s.body = [])
    (hlen : s.contentLength lexicalCast = (s.data ++ s.sock.pending).length) :
    ∃ fuel s', (∀ m ≥ fuel, s.recvBody lexicalCast m = some (.ok s')) ∧ s'.parser = s.parser ∧
      s'.body = s.data ++ s.sock.pending := by
  have hcat : (s.data ++ s.sock.pending).length = _ := List.length_append
  unfold recvBody
  rw [hlen, Int.toNat_natCast]
  by_cases h0 : (s.data ++ s.sock.pending).length = 0
  · refine ⟨0, s, fun m _ => ?_, rfl, ?_⟩
    · rw [h0]
      rfl
    · rw [hb, List.length_eq_zero_iff.mp h0]
  by_cases hle : (s.data ++ s.sock.pending).length ≤ s.data.length
  · have hp : s.sock.pending = [] := List.length_eq_zero_iff.mp (by omega)
    refine ⟨0, { s with body := s.data }, fun m _ => ?_, rfl, ?_⟩
    · simp only [if_pos hle]
      rw [if_neg (by omega), hp, List.append_nil, List.take_length]
    · rw [hp, List.append_nil]
  · obtain ⟨fuel, hrun⟩ := readFixLength_returns
      (s := ⟨(s.data ++ s.sock.pending).length - s.data.length, s.data, s.sock⟩) ho
      (by dsimp only; omega)
    have htake : s.sock.pending.take ((s.data ++ s.sock.pending).length - s.data.length) =
        s.sock.pending := List.take_of_length_le (by omega)
    rw [htake] at hrun
    refine ⟨fuel, { s with
      body := s.data ++ s.sock.pending
      sock := s.sock.skip ((s.data ++ s.sock.pending).length - s.data.length) },
      fun m hm => ?_, rfl, rfl⟩
    simp only [if_neg hle]
    rw [if_neg (by omega), run_mono hm hrun]
    rfl

/-- **A dumped response is received** as it was. -/
theorem recvResponse_dump {frags : List (List UInt8)} (hr : r.Plain) (hn : n < 2 ^ 31)
    (hcast : ∀ k < 2 ^ 64, lexicalCast (showNat k) = some (UInt64.ofNat k))
    (hcut : frags.flatten = r.dump) (hne : ∀ f ∈ frags, f ≠ [])
    (hhead : r.dump.length - r.body.length ≤ min (frags.headD []).length n) :
    ∃ fuel r', HttpConnection.recvResponse lexicalCast fuel
        { bufferSize := n, sock := ⟨frags, fails, true⟩ } = some (.ok r') ∧
      r'.version = r.version ∧ r'.status = r.status ∧ r'.effectiveReason = r.effectiveReason ∧
      r'.headers = r.dumpedHeaders ∧ r'.body = r.body := by
  have hdump : r.dump.length - r.body.length = r.dumpHead.length := by
    rw [HttpResponse.dump_eq hr, List.length_append, Nat.add_sub_cancel]
  rw [hdump] at hhead
  obtain ⟨f, fs, rfl⟩ : ∃ f fs', frags = f :: fs' := by
    refine List.exists_cons_of_ne_nil ?_
    rintro rfl
    have hpos := r.dumpHead_pos
    have hzero : r.dumpHead.length ≤ 0 := Nat.le_trans hhead (Nat.min_le_left ..)
    omega
  obtain ⟨s, hs, hdata, hch, hbody, hopen, hrest⟩ :=
    recvHead_dumpHead fails hr (by omega) hcut hne hhead
  obtain ⟨k, s', hs', hparser, hbody'⟩ := HttpConnection.recvBody_all hopen hbody
    (hrest.symm ▸ contentLength_received hr hcast hdata)
  rw [hrest] at hbody'
  have hreason : ∀ b, HttpResponse.effectiveReason { r.received with body := b } =
      r.effectiveReason := fun b =>
    if_neg fun he => (HttpResponse.effectiveReason_line hr).1 (List.isEmpty_iff.mp he)
  refine ⟨k + 1, s'.response, ?_, ?_⟩
  · rw [HttpConnection.recvResponse, run_succ_done hs, Option.bind_some]
    simp only [hch, Bool.false_eq_true, if_false]
    rw [hs' (k + 1) (Nat.le_succ k)]
    rfl
  · rw [HttpConnection.response, hparser, hdata, hbody']
    cases hb : r.body with
    | nil => exact ⟨rfl, rfl, hreason [], rfl, rfl⟩
    | cons b body => exact ⟨rfl, rfl, hreason (b :: body), rfl, rfl⟩

def notFound : HttpResponse :=
  { status := ⟨404⟩, version := 0x10, close := false, body := bytes "no such page",
    headers := [(bytes "Content", bytes "text/html"), (bytes "X-a", bytes "")] }

theorem plain_notFound : notFound.Plain where
  version := .inl rfl
  status := by decide +kernel
  websocket := rfl
  cookies := rfl
  reason := by decide +kernel
  headers := by
    refine List.forall_mem_cons.mpr ⟨⟨⟨by decide, by decide +kernel, by decide⟩,
      ⟨by decide +kernel, by decide +kernel⟩⟩, ?_⟩
    exact List.forall_mem_singleton.mpr ⟨⟨by decide, by decide +kernel, by decide⟩,
      ⟨by decide +kernel, by decide +kernel⟩⟩
  sorted := List.pairwise_pair.mpr (by decide)
  body := by decide

theorem recvResponse_dump_notFound :
    ∃ fuel r', HttpConnection.recvResponse decimalValue fuel
        { bufferSize := 200, sock := ⟨[notFound.dump.take 100, notFound.dump.drop 100], true, true⟩ } =
          some (.ok r') ∧
      r'.version = notFound.version ∧ r'.status = notFound.status ∧
      r'.effectiveReason = notFound.effectiveReason ∧ r'.headers = notFound.dumpedHeaders ∧
      r'.body = notFound.body :=
  recvResponse_dump plain_notFound (by decide) (fun k _ => by rw [decimalValue, (showNat_eq k).2.2])
    (by decide +kernel) (by decide +kernel) (by decide +kernel)

end Tigerkin.Http
