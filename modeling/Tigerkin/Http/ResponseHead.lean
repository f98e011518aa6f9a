import Tigerkin.Http.Response

/-! # The head of a response

What the machine of the response parser does on a status line and on header lines. The names that
have states of their own share these with the names that begin like them: `spelled` is what the
machine has read in such a state. -/

namespace Tigerkin.Http

open Machine CString

def isFieldChar (b : UInt8) : Bool := fieldChar.any fun r => r.1 ≤ b && b ≤ r.2

/-- The name of a header that the machine has no states for. -/
structure IsName (name : List UInt8) : Prop where
  ne_nil : name ≠ []
  token : ∀ b ∈ name, isFieldChar b
  plain : name.map toLower ∉ ["connection", "content-length", "transfer-encoding"].map bytes

structure IsValue (value : List UInt8) : Prop where
  line : ∀ b ∈ value, b ≠ 10 ∧ b ≠ 13
  trimmed : ∀ b ∈ value.head?, isSpace b = false

/-! ## The edges of the machine -/

/-- The states in the name of a header. -/
def nameStates : List Nat := 21 :: (List.range' 25 10 ++ List.range' 44 17 ++ List.range' 101 11)

/-- The part of a special name that leads to a state. -/
def spelled (cs : Nat) : List UInt8 :=
  if cs < 44 then (bytes "connection").take (cs - 24)
  else if cs < 101 then (bytes "transfer-encoding").take (cs - 43)
  else (bytes "content-length").take (cs - 97)

/-- A byte of a name, after the part `done` of a special name. -/
def NameEdge (acts : List ResponseAction) (done : Option (List UInt8)) (cs : Nat) (b : UInt8) :
    Prop :=
  ∃ e ∈ edge responseRows cs b, e.acts = acts ∧ e.target ∈ nameStates ∧
    (e.target = 21 ∨ done.map (· ++ [toLower b]) = some (spelled e.target))

instance (acts : List ResponseAction) (done : Option (List UInt8)) (cs : Nat) (b : UInt8) :
    Decidable (NameEdge acts done cs b) :=
  inferInstanceAs (Decidable (∃ e ∈ edge responseRows cs b, _))

/-- The states between two lines, with the action that the machine has put off. -/
def lineStarts : List (Nat × List ResponseAction) := [(20, []), (43, [.writeConnectionClose])]

/-- The edges in a name, and those to its first byte. -/
theorem name_edges : ∀ b : UInt8, isFieldChar b →
    (∀ cs ∈ nameStates, NameEdge [] (if cs = 21 then none else some (spelled cs)) cs b) ∧
    ∀ s ∈ lineStarts, NameEdge (s.2 ++ [.startField]) (some []) s.1 b :=
  forall_byte (by decide +kernel)

/-- An edge by what it does and where it leads. -/
def Leads (cs : Nat) (b : UInt8) (acts : List ResponseAction) (cs' : Nat) : Prop :=
  ∃ e ∈ edge responseRows cs b, e.acts = acts ∧ e.target = cs'

instance (cs : Nat) (b : UInt8) (acts : List ResponseAction) (cs' : Nat) :
    Decidable (Leads cs b acts cs') :=
  inferInstanceAs (Decidable (∃ e ∈ edge responseRows cs b, _))

theorem colon_edge : ∀ cs ∈ nameStates, cs ∉ [34, 60, 111] →
    Leads cs 58 [.writeField] 22 := by
  decide +kernel

/-- The edges in a value, and those in a reason phrase. -/
theorem text_edges : ∀ b : UInt8, b ≠ 10 ∧ b ≠ 13 →
    ((isSpace b = false → Leads 22 b [.mark] 23) ∧ Leads 23 b [] 23) ∧
    Leads 18 b [.mark] 19 ∧ Leads 19 b [] 19 :=
  forall_byte (by decide +kernel)

/-- The states in a number, with the one before its first digit. -/
def numberStates : List (Nat × Nat) := [(16, 17), (112, 119)]

theorem digit_edge : ∀ b : UInt8, IsDigit 10 b → ∀ s ∈ numberStates,
    Leads s.1 b [.mark] s.2 ∧ Leads s.2 b [] s.2 :=
  forall_byte (by decide +kernel)

/-! ## Traces -/

abbrev responseTrace := trace responseRows (· == .done)

variable {s : Nat × List ResponseAction} {name value : List UInt8}

theorem lineStarts_stops (hs : s ∈ lineStarts) : s.2.any (· == .done) = false := by
  revert s
  decide

theorem spelled_special : ∀ cs ∈ [34, 60, 111],
    cs ≠ 21 ∧ spelled cs ∈ ["connection", "content-length", "transfer-encoding"].map bytes := by
  decide

/-- What is known of a state in a name, of which `done` has been read. -/
def InName (done : List UInt8) (cs : Nat) : Prop :=
  cs ∈ nameStates ∧ (cs = 21 ∨ done.map toLower = spelled cs)

theorem InName.step {done : List UInt8} {cs : Nat} (h : InName done cs) {b : UInt8}
    (hb : isFieldChar b) :
    ∃ e, edge responseRows cs b = some e ∧ e.acts = [] ∧ InName (done ++ [b]) e.target := by
  obtain ⟨e, he, hacts, htarget, hspell⟩ := (name_edges b hb).1 cs h.1
  refine ⟨e, he, hacts, htarget, hspell.imp_right fun h' => ?_⟩
  by_cases h21 : cs = 21
  · rw [if_pos h21] at h'
    cases h'
  · rw [if_neg h21] at h'
    rw [List.map_append, h.2.resolve_left h21]
    exact Option.some.inj h'

theorem trace_name (hs : s ∈ lineStarts) (hn : IsName name) (p : Nat) :
    ∃ cs ∈ nameStates, cs ∉ [34, 60, 111] ∧
      responseTrace s.1 p name = some ((s.2 ++ [ResponseAction.startField]).map (p, ·), cs) := by
  obtain ⟨b, name, rfl⟩ := List.exists_cons_of_ne_nil hn.ne_nil
  obtain ⟨e, he, hacts, htarget, hspell⟩ :=
    (name_edges b (hn.token b List.mem_cons_self)).2 s hs
  have hfirst : InName [b] e.target := ⟨htarget, hspell.imp_right fun h => Option.some.inj h⟩
  obtain ⟨cs, ht, hcs, hdone⟩ : ∃ cs, responseTrace e.target (p + 1) name = some ([], cs) ∧
      InName ([b] ++ name) cs :=
    trace_quiet (fun h hb => h.step hb) hfirst
      (fun c hc => hn.token c (List.mem_cons_of_mem b hc)) (p + 1)
  refine ⟨cs, hcs, fun hspecial => ?_, ?_⟩
  · obtain ⟨hne, hmem⟩ := spelled_special cs hspecial
    exact hn.plain (hdone.resolve_left hne ▸ hmem)
  · rw [responseTrace, trace_cons he (by simp [Edge.stops, hacts, lineStarts_stops hs]) ht, hacts,
      List.append_nil]

theorem trace_number {s : Nat × Nat} (hs : s ∈ numberStates) {n : List UInt8} (hne : n ≠ [])
    (hn : ∀ b ∈ n, IsDigit 10 b) (p : Nat) :
    responseTrace s.1 p n = some ([(p, .mark)], s.2) := by
  obtain ⟨b, n, rfl⟩ := List.exists_cons_of_ne_nil hne
  exact trace_run rfl (digit_edge b (hn b List.mem_cons_self) s hs).1
    (fun c hc => (digit_edge c (hn c (List.mem_cons_of_mem b hc)) s hs).2) p

/-- A value, from the byte before it to the end of the line. -/
theorem trace_value (hv : IsValue value) (p : Nat) :
    responseTrace 22 p (bytes " " ++ value ++ bytes "\r\n") =
      some ([(p, .mark), (p + 1, .mark), (p + 1 + value.length, .writeValue)], 20) := by
  have hspace : responseTrace 22 p (bytes " ") = some ([(p, .mark)], 22) := by
    rw [responseTrace, trace_shift]
    rfl
  cases value with
  | nil =>
    have hend : responseTrace 22 (p + 1) (bytes "\r\n") =
        some ([(p + 1, .mark), (p + 1, .writeValue)], 20) := by
      rw [responseTrace, trace_shift]
      rfl
    rw [List.append_nil]
    exact trace_append hspace hend
  | cons b value =>
    have hb := hv.line b List.mem_cons_self
    have hrun : responseTrace 22 (p + 1) (b :: value) = some ([(p + 1, .mark)], 23) :=
      trace_run rfl ((text_edges b hb).1.1 (hv.trimmed b rfl))
        (fun c hc => (text_edges c (hv.line c (List.mem_cons_of_mem b hc))).1.2) (p + 1)
    have hend : responseTrace 23 (p + (bytes " " ++ b :: value).length) (bytes "\r\n") =
        some ([(p + 1 + (b :: value).length, .writeValue)], 20) := by
      rw [responseTrace, trace_shift]
      simp only [List.length_append, ← Nat.add_assoc]
      rfl
    exact trace_append (trace_append hspace hrun) hend

/-- What the machine does on the line of a header: at its first byte also what has been put off, and
at the end of the value also what is done with the value of a special header. -/
def fieldActions (before after : List ResponseAction) (p n v : Nat) : List (Nat × ResponseAction) :=
  (before ++ [ResponseAction.startField]).map (p, ·) ++
    ([(p + n, .writeField), (p + n + 1, .mark), (p + n + 2, .mark)] ++
      (after ++ [ResponseAction.writeValue]).map (p + n + 2 + v, ·))

theorem trace_field (hs : s ∈ lineStarts) (hn : IsName name) (hv : IsValue value) (p : Nat) :
    responseTrace s.1 p (name ++ bytes ": " ++ value ++ bytes "\r\n") =
      some (fieldActions s.2 [] p name.length value.length, 20) := by
  obtain ⟨cs, hcs, hspecial, hname⟩ := trace_name hs hn p
  obtain ⟨e, he, hacts, htarget⟩ := colon_edge cs hcs hspecial
  have hvalue := trace_value hv (p + name.length + 1)
  rw [← htarget] at hvalue
  have hrest := trace_cons he (by simp [Edge.stops, hacts]) hvalue
  rw [hacts] at hrest
  have hline : name ++ bytes ": " ++ value ++ bytes "\r\n" =
      name ++ 58 :: (bytes " " ++ value ++ bytes "\r\n") := by
    simp only [List.append_assoc]
    rfl
  rw [hline]
  exact trace_append hname hrest

/-- The lines of the two special headers that `dump` prints itself. -/
theorem trace_connection (close : Bool) (p : Nat) :
    responseTrace 20 p (dumpConnection close) =
      some (fieldActions [] [] p 10 (if close then 5 else 10), if close then 43 else 20) := by
  rw [responseTrace, trace_shift]
  cases close
  · rfl
  · rfl

theorem trace_content_length (hs : s ∈ lineStarts) {n : List UInt8} (hne : n ≠ [])
    (hn : ∀ b ∈ n, IsDigit 10 b) (p : Nat) :
    responseTrace s.1 p (bytes "content-length: " ++ n ++ bytes "\r\n") =
      some (fieldActions s.2 [.writeContentLen] p 14 n.length, 20) := by
  have hname : responseTrace s.1 p (bytes "content-length: ") =
      some ((s.2 ++ [ResponseAction.startField]).map (p, ·) ++
        [(p + 14, .writeField), (p + 14 + 1, .mark)], 112) := by
    rw [responseTrace, trace_shift]
    simp only [lineStarts, List.mem_cons, List.not_mem_nil, or_false] at hs
    rcases hs with rfl | rfl <;> rfl
  have hnumber : responseTrace 112 (p + 16) n = some ([(p + 16, .mark)], 119) :=
    trace_number (s := (112, 119)) (by decide) hne hn (p + 16)
  have hend : responseTrace 119 (p + (bytes "content-length: " ++ n).length) (bytes "\r\n") =
      some ([(p + 14 + 2 + n.length, .writeContentLen), (p + 14 + 2 + n.length, .writeValue)],
        20) := by
    rw [responseTrace, trace_shift, List.length_append, ← Nat.add_assoc]
    rfl
  refine (trace_append (trace_append hname hnumber) hend).trans ?_
  simp only [fieldActions, List.append_assoc]
  rfl

/-- What the machine does on a status line with `n` digits and a reason of `r` bytes. -/
def statusActions (n r : Nat) : List (Nat × ResponseAction) :=
  [(0, .mark), (8, .httpVersion), (9, .mark), (9 + n, .statusCode), (10 + n, .mark),
    (10 + n + r, .reasonPhrase)]

theorem trace_status {version code reason : List UInt8}
    (hv : version ∈ ["HTTP/1.0", "HTTP/1.1"].map bytes) (hcode : code ≠ [])
    (hdig : ∀ b ∈ code, IsDigit 10 b) (hreason : reason ≠ [])
    (hline : ∀ b ∈ reason, b ≠ 10 ∧ b ≠ 13) :
    responseTrace 1 0 (version ++ bytes " " ++ code ++ bytes " " ++ reason ++ bytes "\r\n") =
      some (statusActions code.length reason.length, 20) := by
  have hlen : (version ++ bytes " ").length = 9 := by
    revert version
    decide
  have hversion : responseTrace 1 0 (version ++ bytes " ") =
      some ([(0, .mark), (8, .httpVersion)], 16) := by
    simp only [List.map_cons, List.map_nil, List.mem_cons, List.not_mem_nil, or_false] at hv
    rcases hv with rfl | rfl <;> rfl
  have hnumber := trace_number (s := (16, 17)) (by decide) hcode hdig 9
  have hspace : responseTrace 17 (9 + code.length) (bytes " ") =
      some ([(9 + code.length, .statusCode)], 18) := by
    rw [responseTrace, trace_shift]
    rfl
  obtain ⟨b, reason, rfl⟩ := List.exists_cons_of_ne_nil hreason
  have hphrase : responseTrace 18 (10 + code.length) (b :: reason) =
      some ([(10 + code.length, .mark)], 19) :=
    trace_run rfl (text_edges b (hline b List.mem_cons_self)).2.1
      (fun c hc => (text_edges c (hline c (List.mem_cons_of_mem b hc))).2.2) (10 + code.length)
  have hend : responseTrace 19 (10 + code.length + (b :: reason).length) (bytes "\r\n") =
      some ([(10 + code.length + (b :: reason).length, .reasonPhrase)], 20) := by
    rw [responseTrace, trace_shift]
    rfl
  have hlen₁ : (version ++ bytes " " ++ code).length = 9 + code.length := by
    rw [List.length_append, hlen]
  have hlen₂ : (version ++ bytes " " ++ code ++ bytes " ").length = 10 + code.length := by
    rw [List.length_append, hlen₁, Nat.add_right_comm]
    rfl
  rw [← hlen, ← Nat.zero_add (version ++ bytes " ").length] at hnumber
  rw [← hlen₁, ← Nat.zero_add (version ++ bytes " " ++ code).length] at hspace
  rw [← hlen₂, ← Nat.zero_add (version ++ bytes " " ++ code ++ bytes " ").length] at hphrase
  rw [← hlen₂, ← List.length_append, ← Nat.zero_add (List.length _)] at hend
  refine (trace_append (trace_append (trace_append (trace_append hversion hnumber) hspace) hphrase)
    hend).trans ?_
  simp only [statusActions, Nat.zero_add, hlen, hlen₁, hlen₂, List.length_append]
  rfl

/-! ## What the actions do -/

namespace HttpResponseParser

/-- The parser before the position `p` of the head, of which it has read `d`. -/
structure Parsed (d : HttpResponse) (p : Nat) (x : HttpResponseParser) : Prop where
  data : x.data = d
  error : x.error = .OK
  nread : x.nread = 0
  chunked : x.chunked = false
  mark : x.mark < p
  fieldStart : x.fieldStart < p
  fieldLen : x.fieldLen ≤ p
  bodyStart : x.bodyStart ≤ p

variable {d : HttpResponse} {p : Nat} {x y : HttpResponseParser}
  {buffer head name value rest : List UInt8}

/-- A header line in the buffer is set as a header. -/
theorem act_writeValue (hbuf : buffer = head ++ (name ++ bytes ": " ++ value ++ bytes "\r\n" ++ rest))
    (hlen : buffer.length < 2 ^ 63) (hname : name ≠ []) (hfield : x.fieldStart = head.length)
    (hfieldLen : x.fieldLen = name.length) (hmark : x.mark = head.length + name.length + 2) :
    act buffer (head.length + name.length + 2 + value.length) x .writeValue =
      some { x with data := { x.data with headers := x.data.headers.set name value } } := by
  have hkey : string buffer head.length name.length = some name :=
    string_eq (r := bytes ": " ++ value ++ bytes "\r\n" ++ rest) (by simp [hbuf]) hlen
  have hval : string buffer (head ++ name ++ bytes ": ").length value.length = some value :=
    string_eq (r := bytes "\r\n" ++ rest) (by simp [hbuf]) hlen
  have hstart : (head ++ name ++ bytes ": ").length = head.length + name.length + 2 := by
    simp only [List.length_append]
    rfl
  have hv : value.length < 2 ^ 64 := by
    rw [hbuf] at hlen
    simp only [List.length_append] at hlen
    omega
  have hn : name.length ≠ 0 := fun h => hname (List.length_eq_zero_iff.mp h)
  rw [hstart] at hval
  simp only [act, hmark, len_add _ hv, onResponseHttpField, hfield, hfieldLen, if_neg hn, hkey, hval]
  rfl

theorem perform_field {before after : List ResponseAction}
    (hbefore : before = [] ∨ before = [.writeConnectionClose])
    (hafter : after = [] ∨ after = [.writeContentLen]) (hx : Parsed d head.length x)
    (hbuf : buffer = head ++ (name ++ bytes ": " ++ value ++ bytes "\r\n" ++ rest))
    (hlen : buffer.length < 2 ^ 63) (hname : name ≠ []) :
    ∃ y, perform (act buffer) x (fieldActions before after head.length name.length value.length) =
        some y ∧
      Parsed { d with headers := d.headers.set name value }
        (head ++ (name ++ bytes ": " ++ value ++ bytes "\r\n")).length y := by
  have hn : name.length < 2 ^ 64 := by
    rw [hbuf] at hlen
    simp only [List.length_append] at hlen
    omega
  have hline : (head ++ (name ++ bytes ": " ++ value ++ bytes "\r\n")).length =
      head.length + name.length + 2 + value.length + 2 := by
    simp only [List.length_append, ← Nat.add_assoc]
    rfl
  have hbody := hx.bodyStart
  have hparsed : ∀ c, Parsed { d with headers := d.headers.set name value }
      (head ++ (name ++ bytes ": " ++ value ++ bytes "\r\n")).length
      { x with
        fieldStart := head.length
        fieldLen := name.length
        mark := head.length + name.length + 2
        contentLen := c
        data := { x.data with headers := x.data.headers.set name value } } := fun c => by
    rw [hline]
    exact ⟨by simp only [hx.data], hx.error, hx.nread, hx.chunked, by simp only; omega,
      by simp only; omega, by simp only; omega, by simp only; omega⟩
  have hstart : perform (act buffer) x ((before ++ [ResponseAction.startField]).map (head.length, ·)) =
      some { x with fieldStart := head.length } := by
    rcases hbefore with rfl | rfl <;> rfl
  have hmarks : perform (act buffer) { x with fieldStart := head.length }
      [(head.length + name.length, .writeField), (head.length + name.length + 1, .mark),
        (head.length + name.length + 2, .mark)] = some { x with
          fieldStart := head.length
          fieldLen := name.length
          mark := head.length + name.length + 2 } := by
    simp only [perform, List.foldlM_cons, List.foldlM_nil, act, len_add _ hn]
    rfl
  rw [fieldActions, perform_append, hstart, Option.bind_some, perform_append, hmarks,
    Option.bind_some]
  rcases hafter with rfl | rfl
  · refine ⟨_, ?_, hparsed x.contentLen⟩
    have hset := act_writeValue (x := { x with
      fieldStart := head.length
      fieldLen := name.length
      mark := head.length + name.length + 2 }) hbuf hlen hname rfl rfl rfl
    simp only [perform, List.nil_append, List.map_cons, List.map_nil, List.foldlM_cons, hset]
    rfl
  · refine ⟨_, ?_, hparsed (toInt (strtol (buffer.drop (head.length + name.length + 2)) 10))⟩
    have hset := act_writeValue (x := { x with
      fieldStart := head.length
      fieldLen := name.length
      mark := head.length + name.length + 2
      contentLen := toInt (strtol (buffer.drop (head.length + name.length + 2)) 10) })
      hbuf hlen hname rfl rfl rfl
    simp only [perform, List.cons_append, List.nil_append, List.map_cons, List.map_nil,
      List.foldlM_cons, List.foldlM_nil]
    exact (congrArg (Option.bind · some) hset).trans rfl

theorem act_httpVersion {v : UInt8} (hv : v = 0x10 ∨ v = 0x11)
    (hbuf : buffer = versionText v ++ rest) (hmark : x.mark = 0) :
    act buffer 8 x .httpVersion = some { x with data := { x.data with version := v } } := by
  have hcmp : ∀ s, strncmpEq 8 s buffer = strncmpEq 8 s (versionText v) := fun s => by
    rw [hbuf, ← versionText_length hv, ← strncmpEq_take, List.take_left]
  have hlen : len 0 8 = 8 := by decide
  simp only [act, hmark, hlen, onResponseHttpVersion, List.drop_zero, hcmp]
  rcases hv with rfl | rfl <;> rfl

theorem act_statusCode {start : List UInt8} {n : Nat} (hn : n < 2 ^ 31)
    (hbuf : buffer = start ++ (showNat n ++ (bytes " " ++ rest))) (hmark : x.mark = start.length)
    (p : Nat) :
    act buffer p x .statusCode = some { x with data := { x.data with status := ⟨n⟩ } } := by
  obtain ⟨hne, hdig, hval⟩ := showNat_eq n
  have hstr : strtol (buffer.drop start.length) 10 = n := by
    rw [hbuf, List.drop_left, strtol_digits hdig hne fun b hb => ?_, hval]
    · omega
    · cases hb
      exact ⟨not_isDigit rfl, by decide, by decide⟩
  have hint : toInt n = n := by
    unfold toInt
    rw [Int.bmod_eq_of_le (by omega) (by omega)]
  simp only [act, onResponseStatusCode, hmark, hstr, hint]

theorem perform_status {v : UInt8} {n : Nat} {reason : List UInt8} (hv : v = 0x10 ∨ v = 0x11)
    (hn : n < 2 ^ 31)
    (hbuf : buffer = versionText v ++ bytes " " ++ showNat n ++ bytes " " ++ reason ++
      bytes "\r\n" ++ rest) (hlen : buffer.length < 2 ^ 63) :
    ∃ y, perform (act buffer) {} (statusActions (showNat n).length reason.length) = some y ∧
      Parsed { status := ⟨n⟩, version := v, reason := reason }
        (versionText v ++ bytes " " ++ showNat n ++ bytes " " ++ reason ++ bytes "\r\n").length
        y := by
  have hstart : (versionText v ++ bytes " ").length = 9 := by
    rw [List.length_append, versionText_length hv]
    rfl
  have hstart' : (versionText v ++ bytes " " ++ showNat n ++ bytes " ").length =
      10 + (showNat n).length := by
    rw [List.length_append, List.length_append, hstart]
    exact Nat.add_right_comm ..
  have hend : (versionText v ++ bytes " " ++ showNat n ++ bytes " " ++ reason ++
      bytes "\r\n").length = 10 + (showNat n).length + reason.length + 2 := by
    rw [List.length_append, List.length_append, hstart']
    rfl
  have hstring : string buffer (10 + (showNat n).length) reason.length = some reason := by
    rw [← hstart']
    exact string_eq (hbuf.trans (List.append_assoc ..)) hlen
  have hr : reason.length < 2 ^ 64 := by
    rw [hbuf] at hlen
    simp only [List.length_append] at hlen
    omega
  have hversion : act buffer 8 {} .httpVersion = some { data := { version := v } } :=
    act_httpVersion hv (show buffer = versionText v ++ (bytes " " ++ showNat n ++ bytes " " ++
      reason ++ bytes "\r\n" ++ rest) by simp [hbuf]) rfl
  have hcode : act buffer (9 + (showNat n).length) { mark := 9, data := { version := v } }
      .statusCode = some { mark := 9, data := { version := v, status := ⟨n⟩ } } :=
    act_statusCode hn (show buffer = versionText v ++ bytes " " ++ (showNat n ++ (bytes " " ++
      (reason ++ bytes "\r\n" ++ rest))) by simp [hbuf]) hstart.symm _
  have hphrase : act buffer (10 + (showNat n).length + reason.length)
      { mark := 10 + (showNat n).length, data := { version := v, status := ⟨n⟩ } } .reasonPhrase =
        some {
          mark := 10 + (showNat n).length
          data := { status := ⟨n⟩, version := v, reason := reason } } := by
    simp only [act, len_add _ hr, onResponseReasonPhrase, hstring]
    rfl
  refine ⟨{
    mark := 10 + (showNat n).length
    data := { status := ⟨n⟩, version := v, reason := reason } }, ?_, ?_⟩
  · rw [statusActions, perform_cons rfl, perform_cons hversion, perform_cons rfl,
      perform_cons hcode, perform_cons rfl, perform_cons hphrase]
    rfl
  · rw [hend]
    exact ⟨rfl, rfl, rfl, rfl, by simp only; omega, by simp only; omega, by simp only; omega,
      by simp only; omega⟩

end HttpResponseParser

end Tigerkin.Http
