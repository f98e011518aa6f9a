import Tigerkin.Http.ResponseHead

/-! # Chunked responses

`recvResponse` starts its parser again for every execution on the header of a chunk. A chunk-size
line is read as one when it is in the buffer as a whole. -/

namespace Tigerkin.Http

open Machine CString Loop

/-- A chunk as it is sent; the last one has no data. -/
structure Chunk where
  size : List UInt8
  extensions : List (List UInt8 × Option (List UInt8)) := []
  data : List UInt8 := []

def IsToken (w : List UInt8) : Prop := w ≠ [] ∧ ∀ b ∈ w, isFieldChar b

instance (w : List UInt8) : Decidable (IsToken w) := inferInstanceAs (Decidable (_ ∧ _))

def extensionText (e : List UInt8 × Option (List UInt8)) : List UInt8 :=
  bytes ";" ++ e.1 ++ match e.2 with
    | none => []
    | some v => bytes "=" ++ v

namespace Chunk

def line (c : Chunk) : List UInt8 := c.size ++ (c.extensions.flatMap extensionText ++ bytes "\r\n")

def text (c : Chunk) : List UInt8 := c.line ++ (c.data ++ bytes "\r\n")

structure Valid (c : Chunk) : Prop where
  ne_nil : c.size ≠ []
  digits : ∀ b ∈ c.size, IsDigit 16 b
  value : CString.value 16 c.size = c.data.length
  names : ∀ e ∈ c.extensions, IsToken e.1
  values : ∀ e ∈ c.extensions, ∀ v ∈ e.2, IsToken v

end Chunk

/-! ## The machine on a chunk-size line -/

theorem size_edge : ∀ b : UInt8, IsDigit 16 b →
    (∃ e ∈ edge responseRows 1 b, e.acts = [.mark] ∧ e.target = 2) ∧
      ∃ e ∈ edge responseRows 2 b, e.acts = [] ∧ e.target = 2 :=
  forall_byte (by decide +kernel)

/-- The states in which a part of the line ends, with the actions at its end. -/
def partEnds : List (Nat × List ResponseAction) :=
  [(2, [.chunkSize]), (5, [.writeField, .mark, .writeValue]), (7, [.writeValue])]

theorem part_edge : ∀ s ∈ partEnds,
    (∃ e ∈ edge responseRows s.1 59, e.acts = s.2 ∧ e.target = 4) ∧
      ∃ e ∈ edge responseRows s.1 13, e.acts = s.2 ∧ e.target = 3 := by
  decide +kernel

/-- The states before and in a token, with the action between them. -/
def tokenStates : List (Nat × ResponseAction × Nat) := [(4, .startField, 5), (6, .mark, 7)]

theorem token_edge : ∀ b : UInt8, isFieldChar b → ∀ s ∈ tokenStates,
    (∃ e ∈ edge responseRows s.1 b, e.acts = [s.2.1] ∧ e.target = s.2.2) ∧
      ∃ e ∈ edge responseRows s.2.2 b, e.acts = [] ∧ e.target = s.2.2 :=
  forall_byte (by decide +kernel)

/-- The actions that only write headers. -/
def IsHeaderAction (a : ResponseAction) : Prop :=
  a ∈ [ResponseAction.mark, .startField, .writeField, .writeValue]

instance : DecidablePred IsHeaderAction := fun _ => inferInstanceAs (Decidable (_ ∈ _))

variable {s : Nat × List ResponseAction} {e : List UInt8 × Option (List UInt8)}

theorem partEnds_stops (hs : s ∈ partEnds) : s.2.any (· == .done) = false := by
  revert s
  decide

theorem trace_size {n : List UInt8} (hne : n ≠ []) (hn : ∀ b ∈ n, IsDigit 16 b) (p : Nat) :
    responseTrace 1 p n = some ([(p, .mark)], 2) := by
  obtain ⟨b, n, rfl⟩ := List.exists_cons_of_ne_nil hne
  exact trace_run (by decide) (size_edge b (hn b List.mem_cons_self)).1
    (fun c hc => (size_edge c (hn c (List.mem_cons_of_mem b hc))).2) p

theorem trace_token {s : Nat × ResponseAction × Nat} (hs : s ∈ tokenStates) {w : List UInt8}
    (hw : IsToken w) (p : Nat) : responseTrace s.1 p w = some ([(p, s.2.1)], s.2.2) := by
  obtain ⟨hne, hw⟩ := hw
  obtain ⟨b, w, rfl⟩ := List.exists_cons_of_ne_nil hne
  have hdone : [s.2.1].any (· == .done) = false := by
    revert s
    decide
  exact trace_run hdone (token_edge b (hw b List.mem_cons_self) s hs).1
    (fun c hc => (token_edge c (hw c (List.mem_cons_of_mem b hc)) s hs).2) p

/-- An extension ends what is before it, and leaves its own end to what follows. -/
theorem trace_extension (hs : s ∈ partEnds) (hn : IsToken e.1) (hv : ∀ v ∈ e.2, IsToken v)
    (p : Nat) :
    ∃ l, ∃ s' ∈ partEnds, (∀ a ∈ l, IsHeaderAction a.2) ∧ (∀ a ∈ s'.2, IsHeaderAction a) ∧
      responseTrace s.1 p (extensionText e) = some (s.2.map (p, ·) ++ l, s'.1) := by
  obtain ⟨name, val⟩ := e
  obtain ⟨⟨e, he, hacts, htarget⟩, -⟩ := part_edge s hs
  have hname := trace_token (s := (4, .startField, 5)) (by decide) hn (p + 1)
  dsimp only at hname
  rw [← htarget] at hname
  have hfirst := trace_cons he (by simp [Edge.stops, hacts, partEnds_stops hs]) hname
  rw [hacts] at hfirst
  cases val with
  | none =>
    refine ⟨[(p + 1, .startField)], (5, [.writeField, .mark, .writeValue]), by decide,
      by simp [IsHeaderAction], by simp [IsHeaderAction], ?_⟩
    rw [extensionText, List.append_nil]
    exact hfirst
  | some v =>
    have hmid : ∀ q, responseTrace 5 q (bytes "=") = some ([(q, .writeField), (q, .mark)], 6) :=
      fun q => by
        rw [responseTrace, trace_shift]
        rfl
    have hval := trace_token (s := (6, .mark, 7)) (by decide) (hv v rfl)
    refine ⟨_, (7, [.writeValue]), by decide, ?_, by simp [IsHeaderAction],
      (trace_append hfirst (trace_append (hmid _) (hval _))).trans
        (by rw [List.append_assoc])⟩
    simp [IsHeaderAction]

/-- The rest of the line, from the end of a part to the carriage return. -/
theorem trace_extensions {es : List (List UInt8 × Option (List UInt8))}
    (hn : ∀ e ∈ es, IsToken e.1) (hv : ∀ e ∈ es, ∀ v ∈ e.2, IsToken v) (hs : s ∈ partEnds)
    (p : Nat) :
    ∃ l, (∀ a ∈ l, IsHeaderAction a.2) ∧
      responseTrace s.1 p (es.flatMap extensionText ++ bytes "\r") =
        some (s.2.map (p, ·) ++ l, 3) := by
  induction es generalizing s p with
  | nil =>
    obtain ⟨-, e, he, hacts, htarget⟩ := part_edge s hs
    refine ⟨[], by simp, ?_⟩
    have hend : responseTrace s.1 p (bytes "\r") = some (e.acts.map (p, ·) ++ [], e.target) :=
      trace_cons he (by simp [Edge.stops, hacts, partEnds_stops hs]) rfl
    rwa [hacts, htarget] at hend
  | cons e es ih =>
    obtain ⟨l, s', hs', hl, hs'', ht⟩ :=
      trace_extension hs (hn e List.mem_cons_self) (hv e List.mem_cons_self) p
    obtain ⟨l', hl', ht'⟩ := ih (fun e' he => hn e' (List.mem_cons_of_mem e he))
      (fun e' he => hv e' (List.mem_cons_of_mem e he)) hs' (p + (extensionText e).length)
    refine ⟨l ++ (s'.2.map (p + (extensionText e).length, ·) ++ l'), ?_, ?_⟩
    · simp only [List.mem_append, List.mem_map]
      rintro a (ha | ⟨a, ha, rfl⟩ | ha)
      · exact hl a ha
      · exact hs'' a ha
      · exact hl' a ha
    · rw [List.flatMap_cons, List.append_assoc, ← List.append_assoc (s.2.map (p, ·))]
      exact trace_append ht ht'

/-! ## The parser on a chunk-size line -/

namespace HttpResponseParser

/-- The parser that has read the size `n` of a chunk, before the position `p` of the line. -/
structure Sized (e : HttpParserError) (n : Nat) (p : Nat) (x : HttpResponseParser) : Prop where
  error : x.error = e
  contentLen : x.contentLen = n
  chunksDone : x.chunksDone = decide (n = 0)
  nread : x.nread = 0
  bodyStart : x.bodyStart = 0
  mark : x.mark ≤ p
  fieldStart : x.fieldStart ≤ p
  fieldLen : x.fieldLen ≤ p

variable {buffer rest : List UInt8} {err : HttpParserError} {n p : Nat} {x : HttpResponseParser}

theorem Sized.mono {q : Nat} (hpq : p ≤ q) (h : Sized err n p x) : Sized err n q x :=
  ⟨h.error, h.contentLen, h.chunksDone, h.nread, h.bodyStart, Nat.le_trans h.mark hpq,
    Nat.le_trans h.fieldStart hpq, Nat.le_trans h.fieldLen hpq⟩

theorem act_header {a : ResponseAction} (hp : p < 2 ^ 63) (ha : IsHeaderAction a)
    (h : Sized err n p x) : ∃ y, act buffer p x a = some y ∧ Sized err n p y := by
  obtain ⟨he, hc, hd, hr, hb, hm, hs, hl⟩ := h
  simp only [IsHeaderAction, List.mem_cons, List.not_mem_nil, or_false] at ha
  rcases ha with rfl | rfl | rfl | rfl
  · exact ⟨_, rfl, he, hc, hd, hr, hb, Nat.le_refl p, hs, hl⟩
  · exact ⟨_, rfl, he, hc, hd, hr, hb, hm, Nat.le_refl p, hl⟩
  · refine ⟨_, rfl, he, hc, hd, hr, hb, hm, hs, ?_⟩
    exact Nat.le_trans (len_le hs) (Nat.sub_le ..)
  · have hlen : len x.mark p < 2 ^ 63 := by
      have := len_le hm
      omega
    simp only [act, onResponseHttpField, string, if_pos hlen, if_pos (Nat.lt_of_le_of_lt hl hp)]
    split
    · exact ⟨x, rfl, he, hc, hd, hr, hb, hm, hs, hl⟩
    · exact ⟨_, rfl, he, hc, hd, hr, hb, hm, hs, hl⟩

theorem act_chunkSize {c : Chunk} (hc : c.Valid) (hn : c.data.length < 2 ^ 31)
    (hbuf : buffer = c.line ++ rest) (hm : x.mark = 0) :
    act buffer p x .chunkSize = some { x with
      chunked := true
      contentLen := c.data.length
      chunksDone := decide (c.data.length = 0) } := by
  have hend : ∀ b ∈ (c.extensions.flatMap extensionText ++ bytes "\r\n" ++ rest).head?,
      ¬IsDigit 16 b ∧ b ≠ 120 ∧ b ≠ 88 := by
    have hsep : ∀ b : UInt8, b = 13 ∨ b = 59 → ¬IsDigit 16 b ∧ b ≠ 120 ∧ b ≠ 88 := by
      rintro b (rfl | rfl)
      · exact ⟨not_isDigit rfl, by decide⟩
      · exact ⟨not_isDigit rfl, by decide⟩
    intro b hb
    refine hsep b ?_
    cases he : c.extensions with
    | nil =>
      rw [he] at hb
      cases hb
      exact .inl rfl
    | cons e es =>
      rw [he] at hb
      cases hb
      exact .inr rfl
  have hstr : strtol (buffer.drop x.mark) 16 = c.data.length := by
    rw [hm, List.drop_zero, hbuf, Chunk.line, List.append_assoc,
      strtol_digits hc.digits hc.ne_nil hend, hc.value]
    omega
  have hint : toInt (c.data.length : Nat) = c.data.length := by
    unfold toInt
    rw [Int.bmod_eq_of_le (by omega) (by omega)]
  have hdone : decide ((c.data.length : Int) ≤ 0) = decide (c.data.length = 0) := by
    rw [decide_eq_decide]
    omega
  simp only [act, hstr, hint, hdone]

/-- An execution on a buffer that has a whole chunk-size line. -/
theorem parserExecute_line {c : Chunk} (hc : c.Valid) (hn : c.data.length < 2 ^ 31)
    (hlen : (c.line ++ rest).length < 2 ^ 63) :
    ∃ y, x.init.parserExecute (c.line ++ rest) = some (y, c.line.length) ∧ y.error = x.error ∧
      y.cs = 120 ∧ y.contentLen = c.data.length ∧ y.chunksDone = decide (c.data.length = 0) := by
  obtain ⟨l, hl, ht⟩ := trace_extensions hc.names hc.values (s := (2, [.chunkSize])) (by decide)
    (0 + c.size.length)
  obtain ⟨hsorted, hbounds⟩ := trace_positions ht
  have hline := trace_append (trace_size hc.ne_nil hc.digits 0) ht
  have hlen₁ : 0 + (c.size ++ (c.extensions.flatMap extensionText ++ bytes "\r")).length + 1 =
      c.line.length := by
    simp only [Chunk.line, List.length_append, Nat.zero_add]
    rfl
  have hbuf : c.line ++ rest =
      c.size ++ (c.extensions.flatMap extensionText ++ bytes "\r") ++ 10 :: rest := by
    simp only [Chunk.line, List.append_assoc]
    rfl
  have hlen₂ : (c.line ++ rest).length = _ := List.length_append
  -- the size
  have hmark : act (c.line ++ rest) 0 x.init .mark = some x.init := rfl
  have hsize : act (c.line ++ rest) (0 + c.size.length) x.init .chunkSize = _ :=
    act_chunkSize hc hn rfl (show x.init.mark = 0 from rfl)
  have hsized : Sized x.error c.data.length (0 + c.size.length) { x.init with
      chunked := true
      contentLen := c.data.length
      chunksDone := decide (c.data.length = 0) } :=
    ⟨rfl, rfl, rfl, rfl, rfl, Nat.zero_le _, Nat.zero_le _, Nat.zero_le _⟩
  -- the extensions
  obtain ⟨y, hy, hyn⟩ := perform_inv (N := c.line.length - 1)
    (I := Sized x.error c.data.length) (P := IsHeaderAction)
    (fun hq ha h => act_header (by omega) ha h) (fun hqr h => h.mono hqr)
    (List.pairwise_append.mp hsorted).2.1 (fun a ha => by
      have hpos := hbounds a (List.mem_append_right _ ha)
      rw [List.length_append] at hlen₁
      exact ⟨hpos.1, by omega, hl a ha⟩) hsized (by rw [List.length_append] at hlen₁; omega)
  have hperform : perform (act (c.line ++ rest)) x.init
      ([(0, .mark)] ++ ([ResponseAction.chunkSize].map (0 + c.size.length, ·) ++ l)) = some y :=
    (perform_cons hmark _).trans ((perform_cons hsize _).trans hy)
  -- the line feed
  obtain ⟨e, he, hacts, htarget⟩ : ∃ e ∈ edge responseRows 3 10, e.acts = [.done] ∧
      e.target = 120 := by
    decide +kernel
  have hexec : exec responseRows (· == .done) (act (c.line ++ rest)) 1 x.init 0 (c.line ++ rest) =
      some ({ y with bodyStart := c.line.length }, 120, c.line.length) := by
    conv_lhs => rw [hbuf]
    rw [exec_trace hline, ← hbuf, hperform, Option.bind_some,
      exec_stop he (by simp [Edge.stops, hacts]), hacts, htarget, ← hlen₁]
    rfl
  obtain ⟨herror, hcontent, hdone, hnread, -, hmark', hstart, hflen⟩ := hyn
  refine ⟨{ y with bodyStart := c.line.length, cs := 120, nread := y.nread + c.line.length }, ?_,
    herror, rfl, hcontent, hdone⟩
  have hasserts : y.nread + c.line.length ≤ (c.line ++ rest).length ∧
      c.line.length ≤ (c.line ++ rest).length ∧ y.mark < (c.line ++ rest).length ∧
      y.fieldLen ≤ (c.line ++ rest).length ∧ y.fieldStart < (c.line ++ rest).length := by
    omega
  have hcs : x.init.cs = 1 := rfl
  simp only [parserExecute, hcs, hexec, Option.bind_eq_bind, Option.bind_some]
  rw [if_pos hasserts, hnread, Nat.zero_add]

theorem onResponseHttpField_body {buffer : List UInt8} {f n v m : Nat} {x y : HttpResponseParser}
    (h : x.onResponseHttpField buffer f n v m = some y) : y.data.body = x.data.body := by
  unfold onResponseHttpField at h
  split at h
  · cases h
    rfl
  · simp only [Option.bind_eq_bind, Option.bind_eq_some_iff] at h
    obtain ⟨_, -, _, -, h⟩ := h
    cases h
    rfl

theorem act_body {buffer : List UInt8} {p : Nat} {x y : HttpResponseParser} {a : ResponseAction}
    (h : act buffer p x a = some y) : y.data.body = x.data.body := by
  cases a with
  | writeValue => exact onResponseHttpField_body h
  | reasonPhrase =>
    obtain ⟨-, -, rfl⟩ := Option.map_eq_some_iff.mp h
    rfl
  | httpVersion =>
    simp only [act, onResponseHttpVersion] at h
    split at h
    · cases h
      rfl
    · split at h
      · cases h
        rfl
      · obtain ⟨-, -, rfl⟩ := Option.map_eq_some_iff.mp h
        rfl
  | mark | startField | writeField | writeContentLen | writeConnectionClose | statusCode | chunkSize
  | transChunked | done =>
    cases h
    rfl

/-- The parser does not set the body. -/
theorem parserExecute_body {x y : HttpResponseParser} {k : Nat} {buffer : List UInt8}
    (h : x.parserExecute buffer = some (y, k)) : y.data.body = x.data.body := by
  simp only [parserExecute, Option.bind_eq_bind, Option.bind_eq_some_iff] at h
  obtain ⟨⟨z, cs, p⟩, hz, h⟩ := h
  dsimp only at h
  split at h
  · cases h
    exact exec_inv (I := fun z => z.data.body = x.data.body)
      (fun hact hz => (act_body hact).trans hz) hz rfl
  · cases h

theorem parserExecute_le {x y : HttpResponseParser} {k : Nat} {buffer : List UInt8}
    (h : x.parserExecute buffer = some (y, k)) : k ≤ buffer.length := by
  simp only [parserExecute, Option.bind_eq_bind, Option.bind_eq_some_iff] at h
  obtain ⟨_, -, h⟩ := h
  split at h
  · rename_i hasserts
    cases h
    exact hasserts.1
  · cases h

end HttpResponseParser

/-! ## The loop over the chunks -/

/-- Before each chunk of a list its whole size line is in the buffer of size `n` when the parser is
executed. `data` are the bytes in the buffer, and `fs` the fragments to come. -/
def Whole (n : Nat) : List Chunk → List UInt8 → List (List UInt8) → Prop
  | [], _, _ => True
  | c :: cs, data, fs =>
    let read := if data.isEmpty then (fs.headD []).take n else []
    let fs := Socket.dropFrags read.length fs
    c.line.length ≤ (data ++ read).length ∧
      Whole n cs ((data ++ read).drop c.text.length)
        (Socket.dropFrags (c.text.length - (data ++ read).length) fs)

namespace HttpConnection

variable {s : HttpConnection} {c : Chunk} {rest : List UInt8}

/-- The round on the header of a chunk, when its size line is in the buffer. -/
theorem parseChunkHeader_line (hc : c.Valid) (hn : c.data.length + 2 < 2 ^ 31)
    (hdata : s.data = c.line ++ rest) (hlen : s.data.length ≤ s.bufferSize)
    (hsize : s.bufferSize < 2 ^ 63) (herr : s.parser.error = .OK) :
    ∃ y, s.parseChunkHeader = recvChunkBody { s with parser := y, data := rest } ∧
      y.error = .OK ∧ y.contentLen = c.data.length ∧ y.chunksDone = decide (c.data.length = 0) ∧
      y.data.body = s.parser.data.body := by
  obtain ⟨y, hy, hyerr, hcs, hcontent, hdone⟩ := HttpResponseParser.parserExecute_line
    (x := s.parser) hc (by omega) (hdata ▸ Nat.lt_of_le_of_lt hlen hsize)
  have hexec : s.parser.execute s.data true = some (y, rest) := by
    rw [hdata, HttpResponseParser.execute, if_pos rfl]
    simp only [hy, Option.bind_eq_bind, Option.bind_some, List.drop_left]
  have herror : y.hasError = false := by
    rw [HttpResponseParser.hasError, hyerr, herr, hcs]
    rfl
  have hfin : y.isFinished = true := by
    rw [HttpResponseParser.isFinished, hcs]
    rfl
  have hline : 0 < c.line.length := by
    have := List.length_pos_iff.mpr hc.ne_nil
    rw [Chunk.line, List.length_append]
    omega
  have hfull : rest.length ≠ s.bufferSize := by
    rw [hdata, List.length_append] at hlen
    omega
  refine ⟨y, ?_, hyerr.trans herr, hcontent, hdone,
    HttpResponseParser.parserExecute_body (x := s.parser.init) hy⟩
  simp only [parseChunkHeader, hexec, herror, hfull, hfin, if_true, if_false, Bool.false_eq_true]

/-- The loop that reads the rest of a chunk, as the rounds of a loop that has them all. -/
theorem recvData_returns {ρ : Type} {round : ChunkLoop × HttpConnection →
    ChunkLoop × HttpConnection ⊕ ρ} (hround : ∀ {left left' s s'},
      recvChunk (.data left, s) = .inl (.data left', s') →
      round (.data left, s) = .inl (.data left', s'))
    {left : Nat} (ho : s.sock.Open) (hl : left ≤ s.sock.pending.length)
    (hsize : 0 < s.bufferSize) {r : ρ}
    (hr : Returns round (.data 0, { s with
      body := s.body ++ s.sock.pending.take left
      sock := s.sock.skip left }) r) : Returns round (.data left, s) r := by
  induction left using Nat.strongRecOn generalizing s with
  | ind left ih =>
    by_cases h0 : left = 0
    · subst h0
      rw [List.take_zero, List.append_nil, ho.skip_zero] at hr
      exact hr
    · have hp : s.sock.pending ≠ [] := fun hp => h0 (by simpa [hp] using hl)
      have hn : 0 < if left > s.bufferSize then s.bufferSize else left := by
        split <;> omega
      obtain ⟨b, hread, hb, hbl, hcat⟩ := s.sock.read_some ho hp hn
      have hb0 : 0 < b.length := List.length_pos_iff.mpr hb
      have hbl : b.length ≤ left := Nat.le_trans hbl (by split <;> omega)
      have hlen := congrArg List.length hcat
      rw [List.length_append] at hlen
      have hnext : recvChunk (.data left, s) = .inl (.data (left - b.length), { s with
          body := s.body ++ b
          sock := s.sock.skip b.length }) := by
        simp only [recvChunk, if_neg h0, hread]
      refine .next (hround hnext) (ih (left - b.length) (by omega) (ho.skip b.length)
        (by dsimp only; omega) hsize ?_)
      dsimp only
      rw [Socket.skip_skip, Nat.add_sub_of_le hbl, List.append_assoc]
      rwa [← hcat, List.take_append, List.take_of_length_le hbl] at hr

/-- What follows the header of a chunk, whose data comes next. -/
theorem recvChunkBody_data {data : List UInt8} (ho : s.sock.Open) (hn : data.length + 2 < 2 ^ 31)
    (hcontent : s.parser.contentLen = data.length) (hsize : 0 < s.bufferSize)
    (hnext : s.data ++ s.sock.pending = data ++ bytes "\r\n" ++ rest)
    {r : Except Stop HttpConnection}
    (hr : Continues recvChunk (endChunk { s with
      data := s.data.drop (data.length + 2)
      body := s.body ++ data
      sock := s.sock.skip (data.length + 2 - s.data.length) }) r) :
    Continues recvChunk s.recvChunkBody r := by
  have hcrlf : (data ++ bytes "\r\n").length = data.length + 2 := List.length_append
  have hint : toInt ((data.length : Int) + 2) = (data.length + 2 : Nat) := by
    unfold toInt
    rw [Int.bmod_eq_of_le (by omega) (by omega)]
    rfl
  have htotal := congrArg List.length hnext
  rw [List.length_append, List.length_append, hcrlf] at htotal
  rw [recvChunkBody, hcontent, hint]
  by_cases hle : data.length + 2 ≤ s.data.length
  · have htake : s.data.take data.length = data := by
      have h := congrArg (List.take data.length) hnext
      rwa [List.take_append_of_le_length (by omega), List.append_assoc, List.take_left] at h
    rw [if_pos (by omega), if_neg (by omega), Int.toNat_natCast]
    rw [Nat.sub_eq_zero_of_le hle, ho.skip_zero] at hr
    dsimp only
    rwa [htake]
  · rw [if_neg (by omega)]
    have hleft : ((data.length : Int) - s.data.length + 2).toNat =
        data.length + 2 - s.data.length := by
      omega
    have htake : s.data ++ s.sock.pending.take (data.length + 2 - s.data.length) =
        data ++ bytes "\r\n" := by
      have h := congrArg (List.take (data.length + 2)) hnext
      rwa [← hcrlf, List.take_left, List.take_append, List.take_of_length_le (by omega), hcrlf] at h
    rw [hleft]
    refine recvData_returns id (s := { s with body := s.body ++ s.data }) ho
      (by dsimp only; omega) hsize (.of_round ?_)
    have hbody : s.body ++ s.data ++ s.sock.pending.take (data.length + 2 - s.data.length) =
        s.body ++ data ++ bytes "\r\n" := by
      rw [List.append_assoc, htake, List.append_assoc]
    have hblen : (s.body ++ data ++ bytes "\r\n").length = (s.body ++ data).length + 2 :=
      List.length_append
    have hdrop : s.data.drop (data.length + 2) = [] := List.drop_eq_nil_of_le (by omega)
    rw [hdrop] at hr
    dsimp only
    simp only [recvChunk, if_true, hbody, hblen, Nat.add_sub_cancel, List.take_left]
    rwa [if_neg (by omega)]

/-- The first round for a chunk executes the parser on what is in the buffer, or on a first read. -/
theorem recvChunk_begin (ho : s.sock.Open) {read : List UInt8}
    (hread : read = if s.data.isEmpty then (s.sock.frags.headD []).take s.bufferSize else [])
    (hne : s.data ++ read ≠ []) :
    recvChunk (.header true, s) = parseChunkHeader { s with
      data := s.data ++ read
      sock := s.sock.skip read.length } := by
  rw [recvChunk, Bool.not_true, Bool.false_or]
  cases hd : s.data with
  | nil =>
    rw [hd] at hread hne
    cases hf : s.sock.frags with
    | nil =>
      rw [hf] at hread
      subst hread
      simp at hne
    | cons f fs =>
      have hr : read = f.take s.bufferSize := by
        rw [hread, hf]
        rfl
      have hnb : f.take s.bufferSize ≠ [] := by
        rw [← hr]
        simpa using hne
      obtain ⟨b, bs, hb⟩ := List.exists_cons_of_ne_nil hnb
      rw [hr, if_pos (by rfl)]
      simp only [List.length_nil, Nat.sub_zero, Socket.read_cons ho hf, hb, List.nil_append]
  | cons b data =>
    have hr : read = [] := by
      rw [hread, hd]
      rfl
    rw [hr, if_neg (by simp), List.append_nil, List.length_nil, ho.skip_zero, ← hd]

/-- A whole chunk. -/
theorem recvChunk_chunk (ho : s.sock.Open) (hc : c.Valid) (hn : c.data.length + 2 < 2 ^ 31)
    (hlen : s.data.length ≤ s.bufferSize) (hsize : s.bufferSize < 2 ^ 63)
    (herr : s.parser.error = .OK) (hnext : s.data ++ s.sock.pending = c.text ++ rest)
    {read : List UInt8}
    (hread : read = if s.data.isEmpty then (s.sock.frags.headD []).take s.bufferSize else [])
    (hwhole : c.line.length ≤ (s.data ++ read).length) :
    ∃ y, y.error = .OK ∧ y.data.body = s.parser.data.body ∧
      y.chunksDone = decide (c.data.length = 0) ∧
      (s.data ++ read).drop c.text.length ++
        (s.sock.skip (read.length + (c.text.length - (s.data ++ read).length))).pending = rest ∧
      (s.data ++ read).length ≤ s.bufferSize ∧
      ∀ r, Continues recvChunk (endChunk { s with
        parser := y
        data := (s.data ++ read).drop c.text.length
        body := s.body ++ c.data
        sock := s.sock.skip (read.length + (c.text.length - (s.data ++ read).length)) }) r →
      Returns recvChunk (.header true, s) r := by
  have hline : 0 < c.line.length := by
    have := List.length_pos_iff.mpr hc.ne_nil
    rw [Chunk.line, List.length_append]
    omega
  have hne : s.data ++ read ≠ [] := List.length_pos_iff.mp (by omega)
  have hreadlen : (s.data ++ read).length ≤ s.bufferSize := by
    rw [hread]
    cases hd : s.data with
    | nil => simp
    | cons b data => simpa [hd] using hlen
  have hprefix : read <+: s.sock.pending := by
    rw [hread, Socket.pending]
    split
    · cases s.sock.frags with
      | nil => simp
      | cons f fs => exact (List.take_prefix s.bufferSize f).trans (List.prefix_append f fs.flatten)
    · exact List.nil_prefix
  have hpend : s.data ++ read ++ (s.sock.skip read.length).pending = c.text ++ rest := by
    rw [List.append_assoc, Socket.pending_skip, List.prefix_iff_eq_append.mp hprefix, hnext]
  have hafter : (s.data ++ read).drop c.text.length ++
      (s.sock.skip (read.length + (c.text.length - (s.data ++ read).length))).pending = rest := by
    have h := congrArg (List.drop c.text.length) hpend
    rwa [List.drop_append, List.drop_left, ← Socket.pending_skip, Socket.skip_skip] at h
  have htext : c.text ++ rest = c.line ++ (c.data ++ bytes "\r\n" ++ rest) := by
    rw [Chunk.text, List.append_assoc]
  have hlentext : c.text.length = c.line.length + (c.data.length + 2) := by
    rw [Chunk.text, List.length_append, List.length_append]
    rfl
  obtain ⟨more, hmore⟩ := List.prefix_of_prefix_length_le (List.prefix_append c.line _)
    (htext ▸ hpend ▸ List.prefix_append (s.data ++ read) _) hwhole
  rw [← hmore, htext, List.append_assoc] at hpend
  obtain ⟨y, hy, hyerr, hcontent, hdone, hbody⟩ := parseChunkHeader_line (s := { s with
      data := s.data ++ read
      sock := s.sock.skip read.length }) hc hn hmore.symm hreadlen hsize herr
  refine ⟨y, hyerr, hbody, hdone, hafter, hreadlen, fun r hr => .of_round ?_⟩
  rw [recvChunk_begin ho hread hne, hy]
  refine recvChunkBody_data (ho.skip _) hn hcontent (by dsimp only; omega)
    (List.append_cancel_left hpend) ?_
  rw [← hmore, hlentext, List.length_append, Nat.add_sub_add_left, List.drop_length_add_append,
    ← Socket.skip_skip] at hr
  exact hr

/-- The loop over the chunks. The last one has no data. -/
theorem recvChunk_returns {cs : List Chunk} {z : Chunk} (ho : s.sock.Open)
    (hcs : ∀ c ∈ cs, c.Valid ∧ c.data ≠ []) (hz : z.Valid ∧ z.data = [])
    (hn : ∀ c ∈ cs, c.data.length + 2 < 2 ^ 31) (hlen : s.data.length ≤ s.bufferSize)
    (hsize : s.bufferSize < 2 ^ 63) (herr : s.parser.error = .OK)
    (hnext : s.data ++ s.sock.pending = (cs ++ [z]).flatMap Chunk.text)
    (hwhole : Whole s.bufferSize (cs ++ [z]) s.data s.sock.frags) :
    ∃ s', Returns recvChunk (.header true, s) (.ok s') ∧
      s'.parser.data.body = s.parser.data.body ∧ s'.body = s.body ++ cs.flatMap Chunk.data := by
  induction cs generalizing s with
  | nil =>
    obtain ⟨hwhole, -⟩ := hwhole
    have hlast : s.data ++ s.sock.pending = z.text ++ [] := by simpa using hnext
    obtain ⟨y, -, hbody, hdone, -, -, hr⟩ := recvChunk_chunk ho hz.1 (by simp [hz.2]) hlen hsize
      herr hlast rfl hwhole
    have hend := hr (.ok _) (by
      simp only [endChunk, hdone, hz.2, List.length_nil, decide_true, if_true]
      rfl)
    exact ⟨_, hend, hbody, by simp⟩
  | cons c cs ih =>
    obtain ⟨hc, hne⟩ := hcs c List.mem_cons_self
    obtain ⟨hwhole, hrest⟩ := hwhole
    rw [List.cons_append, List.flatMap_cons] at hnext
    obtain ⟨y, hyerr, hbody, hdone, hafter, hreadlen, hr⟩ := recvChunk_chunk ho hc
      (hn c List.mem_cons_self) hlen hsize herr hnext rfl hwhole
    rw [← Socket.dropFrags_add] at hrest
    obtain ⟨s', hs', hbody', hall⟩ := ih (s := { s with
        parser := y
        data := _
        body := s.body ++ c.data
        sock := s.sock.skip _ }) (ho.skip _) (fun d hd => hcs d (List.mem_cons_of_mem c hd))
      (fun d hd => hn d (List.mem_cons_of_mem c hd))
      (by dsimp only; rw [List.length_drop]; omega) hsize hyerr hafter hrest
    have hmore : c.data.length ≠ 0 := fun h => hne (List.length_eq_zero_iff.mp h)
    refine ⟨s', hr _ ?_, hbody'.trans hbody, ?_⟩
    · rw [endChunk, hdone, decide_eq_false hmore]
      exact hs'
    · rw [hall, List.flatMap_cons, List.append_assoc]

end HttpConnection

/-- The parser finds the whole head of a chunked response in the buffer. -/
def ChunkedHead (head buffer : List UInt8) : Prop :=
  head ≠ [] ∧ (({} : HttpResponseParser).parserExecute buffer).any fun (y, k) =>
    k == head.length && !y.hasError && y.isFinished && y.chunked

/-- **A chunked response is received** when no chunk-size line is cut by a read. -/
theorem recvResponse_chunked {lexicalCast : List UInt8 → Option UInt64} {n : Nat} (hn : n < 2 ^ 31)
    {head first : List UInt8} {fs : List (List UInt8)} {fails : Bool} {cs : List Chunk} {z : Chunk}
    (hhead : ChunkedHead head (first.take n)) (hcs : ∀ c ∈ cs, c.Valid ∧ c.data ≠ [])
    (hz : z.Valid ∧ z.data = [])
    (hcut : (first :: fs).flatten = head ++ (cs ++ [z]).flatMap Chunk.text)
    (hne : ∀ f ∈ first :: fs, f ≠ []) (hsize : ∀ c ∈ cs, c.data.length + 2 < 2 ^ 31)
    (hwhole : Whole n (cs ++ [z]) ((first.take n).drop head.length)
      (Socket.dropFrags (first.take n).length (first :: fs))) :
    ∃ fuel r, HttpConnection.recvResponse lexicalCast fuel
      { bufferSize := n, sock := ⟨first :: fs, fails, true⟩ } = some (.ok r) ∧
      r.body = cs.flatMap Chunk.data := by
  obtain ⟨hhne, hparsed⟩ := hhead
  obtain ⟨⟨y, k⟩, hy, hparsed⟩ := (Option.any_eq_true _ _).mp hparsed
  simp only [Bool.and_eq_true, beq_iff_eq, Bool.not_eq_true'] at hparsed
  obtain ⟨⟨⟨rfl, herr⟩, hfin⟩, hch⟩ := hparsed
  have ho : Socket.Open ⟨first :: fs, fails, true⟩ := ⟨rfl, hne⟩
  have hpos := List.length_pos_iff.mpr hhne
  have hlen : (first.take n).length ≤ n := by
    rw [List.length_take]
    exact Nat.min_le_left ..
  have hle := HttpResponseParser.parserExecute_le hy
  have hexec : ({} : HttpResponseParser).execute (first.take n) false =
      some (y, (first.take n).drop head.length) := by
    rw [HttpResponseParser.execute, if_neg Bool.false_ne_true, hy]
    rfl
  have hrecv := HttpConnection.recvHead_finished
    (s := { bufferSize := n, sock := ⟨first :: fs, fails, true⟩ }) (Socket.read_cons ho rfl n)
    (List.length_pos_iff.mp (by omega)) hexec herr
    (by rw [List.length_drop]; dsimp only; omega) hfin
  have hok : y.error = .OK := by
    simpa [HttpResponseParser.hasError] using (Bool.or_eq_false_iff.mp herr).1
  have hnext : (first.take n).drop head.length ++
      (Socket.skip ⟨first :: fs, fails, true⟩ (first.take n).length).pending =
        (cs ++ [z]).flatMap Chunk.text := by
    obtain ⟨t, ht⟩ := (List.take_prefix n first).trans (List.prefix_append first fs.flatten)
    have hflat : (first :: fs).flatten = first.take n ++ t := ht.symm
    rw [Socket.pending_skip, Socket.pending, hflat, List.drop_left,
      ← List.drop_append_of_le_length hle, ← hflat, hcut, List.drop_left]
  obtain ⟨s', ⟨fuel, hs'⟩, hbody, hall⟩ := HttpConnection.recvChunk_returns
    (s := {
      bufferSize := n
      parser := y
      data := (first.take n).drop head.length
      sock := Socket.skip ⟨first :: fs, fails, true⟩ (first.take n).length })
    (ho.skip _) hcs hz hsize (by rw [List.length_drop]; dsimp only; omega) (by dsimp only; omega)
    hok hnext hwhole
  refine ⟨fuel + 1, s'.response, ?_, ?_⟩
  · rw [HttpConnection.recvResponse, run_succ_done hrecv, Option.bind_some]
    simp only [hch, if_true]
    rw [run_mono (Nat.le_succ fuel) hs']
    rfl
  · rw [List.nil_append] at hall
    rw [HttpConnection.response, ← hall]
    split
    · rename_i hempty
      rw [hbody, HttpResponseParser.parserExecute_body hy, List.isEmpty_iff.mp hempty]
    · rfl

def chunkedHead : List UInt8 := bytes "HTTP/1.1 200 OK\r\nTransfer-Encoding: chunked\r\n\r\n"

def hello : Chunk := ⟨bytes "05", [(bytes "a", some (bytes "b"))], bytes "hello"⟩

def lastChunk : Chunk := ⟨bytes "0", [], []⟩

theorem hello_valid : hello.Valid :=
  ⟨by decide, by decide +kernel, by decide +kernel, by decide +kernel, by decide +kernel⟩

theorem lastChunk_valid : lastChunk.Valid :=
  ⟨by decide, by decide +kernel, by decide +kernel, by decide +kernel, by decide +kernel⟩

theorem recvResponse_chunked_hello :
    ∃ fuel r, HttpConnection.recvResponse (fun _ => none) fuel
      { bufferSize := 100, sock := ⟨[chunkedHead ++ bytes "05;a=b\r\nhe", bytes "llo\r",
          bytes "\n0\r\n", bytes "\r\n"], false, true⟩ } = some (.ok r) ∧
      r.body = bytes "hello" :=
  recvResponse_chunked (z := lastChunk) (by decide)
    (show ChunkedHead chunkedHead _ from ⟨by decide, by decide +kernel⟩)
    (List.forall_mem_singleton.mpr ⟨hello_valid, by decide⟩)
    ⟨lastChunk_valid, rfl⟩ (by decide +kernel) (by decide +kernel) (by decide)
    ⟨by decide +kernel, by decide +kernel, trivial⟩

/-- The first read ends in a size line: the parser takes what the buffer has of it, is started again
and finds no size line in the rest. -/
theorem cut_size_line_fails :
    (hello.Valid ∧ lastChunk.Valid) ∧ ChunkedHead chunkedHead (chunkedHead ++ bytes "05") ∧
      [chunkedHead ++ bytes "05", bytes ";a=b\r\nhello\r\n0\r\n\r\n"].flatten =
        chunkedHead ++ [hello, lastChunk].flatMap Chunk.text ∧
      ¬∃ fuel r, HttpConnection.recvResponse (fun _ => none) fuel { bufferSize := 100, sock :=
        ⟨[chunkedHead ++ bytes "05", bytes ";a=b\r\nhello\r\n0\r\n\r\n"], false, true⟩ } =
          some (.ok r) ∧ r.body = bytes "hello" := by
  refine ⟨⟨hello_valid, lastChunk_valid⟩, ⟨by decide, by decide +kernel⟩, by decide +kernel,
    fun ⟨fuel, r, h, _⟩ => ?_⟩
  have hfail : HttpConnection.recvResponse (fun _ => none) 2 { bufferSize := 100, sock :=
      ⟨[chunkedHead ++ bytes "05", bytes ";a=b\r\nhello\r\n0\r\n\r\n"], false, true⟩ } =
        some (.error .nullptr) := by
    decide +kernel
  have h1 := HttpConnection.recvResponse_mono (Nat.le_max_left fuel 2) h
  have h2 := HttpConnection.recvResponse_mono (Nat.le_max_right fuel 2) hfail
  rw [h1] at h2
  cases h2

end Tigerkin.Http
