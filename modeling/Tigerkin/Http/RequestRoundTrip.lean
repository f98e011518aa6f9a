import Tigerkin.Http.RecvRequest
import Tigerkin.Http.RequestHead

/-! # Which requests are received as they were dumped -/

namespace Tigerkin.Http

open Machine CString Loop

variable {r : Bool} {o : Option (HttpRequestParser × Nat × Nat)} {d : HttpRequest} {p n : Nat}
  {x : HttpRequestParser} {buffer head rest name value : List UInt8}

/-! ## What the actions do -/

/-- A method is recognized by its name and the space after it. -/
theorem charsToHttpMethod_name {m : HttpMethod × String} (hm : m ∈ httpMethodMap)
    (t : List UInt8) : charsToHttpMethod (bytes m.2 ++ 32 :: t) = some m.1 := by
  have hall : ∀ m ∈ httpMethodMap, (httpMethodMap.find? fun x =>
      strncmpEq (min x.2.length (m.2.length + 1)) (bytes x.2) (bytes m.2 ++ [32])) = some m := by
    decide +kernel
  have hlen : (bytes m.2 ++ [32]).length = m.2.length + 1 := by
    simp [bytes, String.length_toList]
  obtain ⟨hself, as, bs, hmap, has⟩ := List.find?_eq_some_iff_append.mp (hall m hm)
  have htake : ∀ k ≤ m.2.length + 1,
      (bytes m.2 ++ 32 :: t).take k = (bytes m.2 ++ [32]).take k := fun k hk => by
    rw [List.append_cons]
    exact List.take_append_of_le_length (hlen ▸ hk)
  rw [charsToHttpMethod, List.find?_eq_some_iff_append.mpr ⟨?_, as, bs, hmap, fun x hx => ?_⟩]
  · rfl
  · rw [Nat.min_eq_left (Nat.le_succ _)] at hself
    rwa [strncmpEq_congr _ (htake _ (Nat.le_succ _))]
  · have hfalse := has x hx
    rw [← strncmpEq_congr _ (htake _ (Nat.min_le_right ..))] at hfalse
    cases htrue : strncmpEq x.2.length (bytes x.2) (bytes m.2 ++ 32 :: t) with
    | false => rfl
    | true => rwa [strncmpEq_mono (Nat.min_le_left ..) htrue] at hfalse

namespace HttpRequestParser

/-- The parser before the position `p` of the head, of which it has read `d`. -/
structure Parsed (d : HttpRequest) (p : Nat) (x : HttpRequestParser) : Prop where
  data : x.data = d
  error : x.error = .OK
  nread : x.nread = 0
  sent : (x.xmlSent || x.jsonSent) = false
  mark : x.mark ≤ p
  fieldStart : x.fieldStart ≤ p
  fieldLen : x.fieldLen ≤ p

/-- An execution of the machine on the buffer passes the state `cs` after the bytes `head`. -/
structure At (r : Bool) (o : Option (HttpRequestParser × Nat × Nat)) (buffer : List UInt8)
    (cs : Nat) (d : HttpRequest) (head rest : List UInt8) : Prop where
  sub : head ++ rest <+: buffer
  short : (head ++ rest).length < 2 ^ 31
  run : ∃ x, Parsed d head.length x ∧
    o = exec (requestRows r) (· == .done) (act buffer) cs x head.length rest

theorem At.line {cs cs' : Nat} {d' : HttpRequest} {line : List UInt8}
    {l : List (Nat × RequestAction)} (h : At r o buffer cs d head (line ++ rest))
    (ht : requestTrace r cs head.length line = some (l, cs'))
    (hl : ∀ x, Parsed d head.length x →
      ∃ y, perform (act buffer) x l = some y ∧ Parsed d' (head ++ line).length y) :
    At r o buffer cs' d' (head ++ line) rest := by
  obtain ⟨hbuf, hlen, x, hx, rfl⟩ := h
  obtain ⟨y, hy, hparsed⟩ := hl x hx
  rw [← List.append_assoc] at hbuf hlen
  refine ⟨hbuf, hlen, y, hparsed, ?_⟩
  rw [exec_trace ht, hy, List.length_append]
  rfl

theorem At.stuck {cs cs' : Nat} {line : List UInt8} {b : UInt8} {l : List (Nat × RequestAction)}
    (h : At r o buffer cs d head (line ++ b :: rest))
    (ht : requestTrace r cs head.length line = some (l, cs'))
    (hb : edge (requestRows r) cs' b = none) : ∀ y ∈ o, y.2.1 = 0 := by
  obtain ⟨-, -, x, -, rfl⟩ := h
  exact exec_stuck ht hb x rest

/-- A line whose bytes before the last are set as a string. -/
theorem At.part {cs cs' : Nat} {d' : HttpRequest} {b : UInt8} {l : List (Nat × RequestAction)}
    (h : At r o buffer cs d head (value ++ [b] ++ rest))
    (ht : requestTrace r cs head.length (value ++ [b]) = some (l, cs'))
    (hl : string buffer head.length value.length = some value →
      len head.length (head.length + value.length) = value.length → ∀ x, Parsed d head.length x →
      ∃ m ≤ head.length, ∃ q, perform (act buffer) x l =
        some { x with mark := m, queryStart := q, data := d' }) :
    At r o buffer cs' d' (head ++ (value ++ [b])) rest := by
  have hshort := h.short
  simp only [List.length_append] at hshort
  have hpre : head ++ value <+: buffer := by
    refine .trans ?_ h.sub
    simp only [List.append_assoc, List.prefix_append_right_inj, List.prefix_append]
  have hle : head.length ≤ (head ++ (value ++ [b])).length := by
    rw [List.length_append]
    exact Nat.le_add_right ..
  refine h.line ht fun x hx => ?_
  obtain ⟨m, hm, q, hy⟩ := hl (string_at hpre (by omega)) (len_add _ (by omega)) x hx
  exact ⟨_, hy, rfl, hx.error, hx.nread, hx.sent, Nat.le_trans hm hle,
    Nat.le_trans hx.fieldStart hle, Nat.le_trans hx.fieldLen hle⟩

theorem At.start {q : Nat} {line : List UInt8} (hbuf : line <+: buffer)
    (hshort : line.length < 2 ^ 31) :
    At r (exec (requestRows r) (· == .done) (act buffer) 1 (new q r) 0 line) buffer 1 {} [] line :=
  ⟨hbuf, hshort, new q r,
    ⟨rfl, rfl, rfl, rfl, Nat.le_refl 0, Nat.le_refl 0, Nat.le_refl 0⟩, rfl⟩

theorem At.method {m : HttpMethod × String} (hm : m ∈ httpMethodMap) (hne : m.1 ≠ .MSEARCH)
    (h : At r o buffer 1 d [] (bytes m.2 ++ [32] ++ rest)) :
    At r o buffer 3 { d with method := m.1 } (bytes m.2 ++ [32]) rest := by
  refine h.part (method_trace m hm hne r) fun _ _ x hx => ⟨0, Nat.le_refl 0, x.queryStart, ?_⟩
  have hname : charsToHttpMethod buffer = some m.1 := by
    obtain ⟨t, rfl⟩ := h.sub
    simpa [bytes] using charsToHttpMethod_name hm (rest ++ t)
  have hact : act buffer (bytes m.2).length { x with mark := 0 } .requestMethod =
      some { x with mark := 0, data := { d with method := m.1 } } := by
    simp only [act, onRequestMethod, List.drop_zero, hname, hx.data]
  rw [perform_cons rfl, perform_cons hact]
  rfl

theorem At.path {path : List UInt8} (hpath : IsPath r path)
    {e : UInt8 × List RequestAction × Nat} (he : e ∈ pathPart.ends)
    (h : At r o buffer 3 d head (path ++ [e.1] ++ rest)) :
    At r o buffer e.2.2 { d with path := path } (head ++ (path ++ [e.1])) rest := by
  refine h.part (trace_path hpath he head.length) fun hstring hlen x hx =>
    ⟨head.length, Nat.le_refl _, x.queryStart, ?_⟩
  have hacts : ∀ e ∈ pathPart.ends, e.2.1 = [.requestPath, .requestUri] ∨
      e.2.1 = [.requestPath] := by
    decide
  have hact : act buffer (head.length + path.length) { x with mark := head.length } .requestPath =
      some { x with mark := head.length, data := { d with path := path } } := by
    simp only [act, hlen, onRequestPath, hstring, hx.data]
    rfl
  rw [perform_cons rfl]
  rcases hacts e he with h | h <;> rw [h, List.map_cons, perform_cons hact] <;> rfl

theorem At.query {query : List UInt8} (hquery : Encoded (queryChar r) query)
    {e : UInt8 × List RequestAction × Nat} (he : e ∈ queryPart.ends)
    (h : At r o buffer 29 d head (query ++ [e.1] ++ rest)) :
    At r o buffer e.2.2 { d with query := query } (head ++ (query ++ [e.1])) rest := by
  refine h.part (trace_part (P := queryPart) (by simp [parts]) hquery
    (fun _ _ => List.not_mem_nil) he head.length) fun hstring hlen x hx =>
    ⟨x.mark, hx.mark, head.length, ?_⟩
  have hacts : ∀ e ∈ queryPart.ends, e.2.1 = [.queryString, .requestUri] := by
    decide
  have hact : act buffer (head.length + query.length) { x with queryStart := head.length }
      .queryString = some { x with queryStart := head.length, data := { d with query := query } } := by
    simp only [act, hlen, onRequestQueryString, hstring, hx.data]
    rfl
  rw [queryPart, List.map_cons, List.map_nil, List.singleton_append, perform_cons rfl, hacts e he,
    List.map_cons, perform_cons hact]
  rfl

theorem At.fragment {fragment : List UInt8} (hfragment : Encoded (queryChar r) fragment)
    (h : At r o buffer 20 d head (fragment ++ [32] ++ rest)) :
    At r o buffer 4 { d with fragment := fragment } (head ++ (fragment ++ [32])) rest := by
  refine h.part (trace_part (P := fragmentPart) (d := (32, [.fragment], 4)) (by simp [parts])
    hfragment (fun _ _ => List.not_mem_nil) List.mem_cons_self head.length) fun hstring hlen x hx =>
    ⟨head.length, Nat.le_refl _, x.queryStart, ?_⟩
  have hact : act buffer (head.length + fragment.length) { x with mark := head.length } .fragment =
      some { x with mark := head.length, data := { d with fragment := fragment } } := by
    simp only [act, hlen, onRequestFragment, hstring, hx.data]
    rfl
  rw [fragmentPart, List.map_cons, List.map_nil, List.singleton_append, perform_cons rfl,
    List.map_cons, perform_cons hact]
  rfl

theorem At.version {v : UInt8} (hv : v = 0x10 ∨ v = 0x11)
    (h : At r o buffer 4 d head (versionText v ++ bytes "\r\n" ++ rest)) :
    At r o buffer 13 { d with version := v } (head ++ (versionText v ++ bytes "\r\n")) rest := by
  refine h.line (trace_versionText hv head.length) fun x hx => ?_
  have hcmp : ∀ s, strncmpEq 8 s (buffer.drop head.length) = strncmpEq 8 s (versionText v) := by
    intro s
    obtain ⟨t, rfl⟩ := h.sub
    rw [List.append_assoc, List.drop_left, List.append_assoc, List.append_assoc,
      ← versionText_length hv, ← strncmpEq_take, List.take_left]
  have hact : act buffer (head.length + 8) { x with mark := head.length } .httpVersion =
      some { x with mark := head.length, data := { d with version := v } } := by
    simp only [act, len_add head.length (n := 8) (by decide), onRequestHttpVersion, hcmp, hx.data]
    rcases hv with rfl | rfl <;> rfl
  have hle : head.length ≤ (head ++ (versionText v ++ bytes "\r\n")).length := by
    rw [List.length_append]
    exact Nat.le_add_right ..
  refine ⟨{ x with mark := head.length, data := { d with version := v } }, ?_, rfl, hx.error,
    hx.nread, hx.sent, hle, Nat.le_trans hx.fieldStart hle, Nat.le_trans hx.fieldLen hle⟩
  rw [perform_cons rfl, perform_cons hact]
  rfl

theorem At.field (hn : IsFieldName name) (hv : IsFieldValue value)
    (h : At r o buffer 13 d head (name ++ bytes ": " ++ (value ++ bytes "\r\n") ++ rest)) :
    At r o buffer 13 { d with headers := d.headers.set name value }
      (head ++ (name ++ bytes ": " ++ (value ++ bytes "\r\n"))) rest := by
  have hshort := h.short
  have hline : (head ++ (name ++ bytes ": " ++ (value ++ bytes "\r\n"))).length =
      head.length + name.length + 2 + value.length + 2 := by
    simp only [List.length_append, ← Nat.add_assoc]
    rfl
  simp only [List.length_append] at hshort
  have hkey : string buffer head.length name.length = some name := by
    refine string_at (.trans ?_ h.sub) (by omega)
    simp only [List.append_assoc, List.prefix_append_right_inj, List.prefix_append]
  have hval : string buffer (head.length + name.length + 2) value.length = some value := by
    have hstart : (head ++ name ++ bytes ": ").length = head.length + name.length + 2 := by
      simp only [List.length_append]
      rfl
    rw [← hstart]
    refine string_at (.trans ?_ h.sub) (by omega)
    simp only [List.append_assoc, List.prefix_append_right_inj, List.prefix_append]
  have hnlen : len head.length (head.length + name.length) = name.length :=
    len_add _ (by omega)
  have hvlen : len (head.length + name.length + 2)
      (head.length + name.length + 2 + value.length) = value.length := len_add _ (by omega)
  have hne : name.length ≠ 0 := fun h => hn.ne_nil (List.length_eq_zero_iff.mp h)
  refine h.line (trace_fieldLine hn hv head.length) fun x hx => ?_
  have hname : act buffer (head.length + name.length) { x with fieldStart := head.length }
      .writeField = some { x with fieldStart := head.length, fieldLen := name.length } := by
    simp only [act, hnlen]
  have hset : act buffer (head.length + name.length + 2 + value.length)
      { x with
        fieldStart := head.length
        fieldLen := name.length
        mark := head.length + name.length + 2 } .writeValue =
      some { x with
        fieldStart := head.length
        fieldLen := name.length
        mark := head.length + name.length + 2
        data := { d with headers := d.headers.set name value } } := by
    simp only [act, hvlen, onRequestHttpField, if_neg hne, hkey, hval, hx.data]
    rfl
  refine ⟨{ x with
    fieldStart := head.length
    fieldLen := name.length
    mark := head.length + name.length + 2
    data := { d with headers := d.headers.set name value } }, ?_, ?_⟩
  · rw [fieldLineActions, perform_cons rfl, perform_cons hname, perform_cons rfl, perform_cons rfl,
      perform_cons hset]
    rfl
  · rw [hline]
    exact ⟨rfl, hx.error, hx.nread, hx.sent, by simp only; omega, by simp only; omega,
      by simp only; omega⟩

theorem At.fields {hs : Headers} (hh : ∀ x ∈ hs, IsFieldName x.1 ∧ IsFieldValue x.2)
    (h : At r o buffer 13 d head
      (hs.flatMap (fun x => x.1 ++ bytes ": " ++ (x.2 ++ bytes "\r\n")) ++ rest)) :
    At r o buffer 13 { d with headers := hs.foldl (fun m x => m.set x.1 x.2) d.headers }
      (head ++ hs.flatMap fun x => x.1 ++ bytes ": " ++ (x.2 ++ bytes "\r\n")) rest := by
  induction hs generalizing d head with
  | nil => rwa [List.flatMap_nil, List.append_nil]
  | cons x hs ih =>
    obtain ⟨hn, hv⟩ := hh x List.mem_cons_self
    rw [List.flatMap_cons, List.append_assoc] at h
    have hnext := ih (fun y hy => hh y (List.mem_cons_of_mem x hy)) (h.field hn hv)
    rwa [List.append_assoc] at hnext

/-- The empty line ends the head. -/
theorem At.done (h : At r o buffer 13 d head (bytes "\r\n" ++ rest)) :
    ∃ y, o = some (y, 348, head.length + 2) ∧ y.data = d ∧ y.error = .OK ∧ y.nread = 0 ∧
      y.bodyStart = head.length + 2 ∧ y.mark ≤ head.length ∧ y.fieldStart = head.length ∧
      y.fieldLen ≤ head.length := by
  obtain ⟨-, -, x, hx, rfl⟩ := h
  have ht : requestTrace r 13 head.length (bytes "\r") =
      some ([(head.length, .startField)], 18) := by
    rw [requestTrace, trace_shift]
    cases r <;> rfl
  obtain ⟨e, he, hacts, htarget⟩ : ∃ e ∈ edge (requestRows r) 18 10, e.acts = [.done] ∧
      e.target = 348 := by
    cases r <;> exact ⟨_, rfl, rfl, rfl⟩
  refine ⟨{ x with fieldStart := head.length, bodyStart := head.length + 2 }, ?_, hx.data, hx.error,
    hx.nread, rfl, hx.mark, rfl, hx.fieldLen⟩
  have hcrlf : bytes "\r\n" ++ rest = bytes "\r" ++ 10 :: rest := rfl
  have hdone : act buffer (head.length + 1) { x with fieldStart := head.length } .done =
      some { x with fieldStart := head.length, bodyStart := head.length + 2 } := by
    simp only [act, hx.sent, Bool.false_eq_true, if_false]
  rw [hcrlf, exec_trace ht, perform_cons rfl]
  refine (exec_stop he (by simp [Edge.stops, hacts]) _ rest).trans ?_
  rw [hacts, htarget]
  exact congrArg (Option.map fun y => (y, 348, head.length + 2)) (congrArg (Option.bind · some) hdone)

end HttpRequestParser

/-! ## The request that is dumped -/

namespace FullRequest

open HttpRequestParser

/-- The requests that can be built of what the grammar lets in. -/
structure Built (r : Bool) (req : FullRequest) : Prop where
  version : req.version = 0x10 ∨ req.version = 0x11
  path : IsPath r req.path
  query : Encoded (queryChar r) req.query
  fragment : Encoded (queryChar r) req.fragment
  headers : ∀ x ∈ req.headers, IsFieldName x.1 ∧ IsFieldValue x.2
  plain : ∀ x ∈ req.headers, ∀ key ∈ ["connection", "content-length"],
    strcasecmp (bytes key) x.1 ≠ .eq
  sorted : req.headers.Sorted
  websocket : req.websocket = false
  parserParamFlag : req.parserParamFlag = 0

/-- The headers, and those that `dump` adds. -/
def dumpedHeaders (req : FullRequest) : Headers :=
  let h := req.headers.set (bytes "connection")
    (bytes (if req.close then "close" else "keep-alive"))
  if req.body.isEmpty then h else h.set (bytes "content-length") (showNat req.body.length)

/-- A request that has been received is the one that was dumped. -/
structure Matches (req : FullRequest) (got : HttpRequest) : Prop where
  method : got.method = req.method
  version : got.version = req.version
  close : got.close = req.close
  path : got.path = req.path
  query : got.query = req.query
  fragment : got.fragment = req.fragment
  headers : got.headers = req.dumpedHeaders
  cookies : getCookies { toHttpRequest := got } = req.getCookies
  body : got.body = req.body

def target (req : FullRequest) : List UInt8 :=
  req.path ++ (if req.query.isEmpty then [] else bytes "?") ++ req.query ++
    (if req.fragment.isEmpty then [] else bytes "#") ++ req.fragment

/-- What `dump` prints before the cookies. -/
def dumpLines (req : FullRequest) : List UInt8 :=
  bytes (httpMethodToString req.method) ++ [32] ++ (req.target ++ [32]) ++
    (versionText req.version ++ bytes "\r\n") ++
    (bytes "connection" ++ bytes ": " ++
      (bytes (if req.close then "close" else "keep-alive") ++ bytes "\r\n")) ++
    req.headers.flatMap fun x => x.1 ++ bytes ": " ++ (x.2 ++ bytes "\r\n")

variable {req : FullRequest}

theorem dump_eq (hr : req.Built r) :
    req.dump = req.dumpLines ++ ((if req.cookies.isEmpty then [] else
      bytes "Set-Cookie: \n" ++
        req.cookies.flatMap fun x => bytes "\t" ++ x.1 ++ bytes ":" ++ x.2 ++ bytes "\n") ++
      dumpBody req.body) := by
  have hconn : dumpConnection req.close = bytes "connection" ++ bytes ": " ++
      (bytes (if req.close then "close" else "keep-alive") ++ bytes "\r\n") := by
    rw [dumpConnection, List.append_assoc]
    rfl
  have hheaders := dumpHeaders_eq fun x hx => hr.plain x hx "connection" (by decide)
  have hspace : bytes " " = [32] := rfl
  simp only [dump, dumpLines, target, hr.websocket, hheaders, hconn, hspace, Bool.false_eq_true,
    if_false, List.append_assoc]

theorem at_target {o : Option (HttpRequestParser × Nat × Nat)} {m : HttpMethod} (hr : req.Built r)
    (h : At r o buffer 3 { method := m } head (req.target ++ [32] ++ rest)) :
    At r o buffer 4
      { method := m, path := req.path, query := req.query, fragment := req.fragment }
      (head ++ (req.target ++ [32])) rest := by
  have hq : bytes "?" = [63] := rfl
  have hf : bytes "#" = [35] := rfl
  unfold FullRequest.target at h ⊢
  cases hquery : req.query.isEmpty with
  | true =>
    rw [List.isEmpty_iff.mp hquery] at h ⊢
    cases hfragment : req.fragment.isEmpty with
    | true =>
      rw [List.isEmpty_iff.mp hfragment] at h ⊢
      simp only [List.isEmpty_nil, if_true, List.append_nil] at h ⊢
      exact h.path hr.path (e := (32, [.requestPath, .requestUri], 4)) (by decide)
    | false =>
      simp only [hfragment, List.isEmpty_nil, if_true, Bool.false_eq_true, if_false,
        List.append_nil, hf, List.append_assoc] at h ⊢
      have hsplit : At r o buffer 3 { method := m } head
          (req.path ++ [35] ++ (req.fragment ++ [32] ++ rest)) := by
        simpa only [List.append_assoc] using h
      have hpath := hsplit.path hr.path (e := (35, [.requestPath, .requestUri], 20)) (by decide)
      simpa only [List.append_assoc] using hpath.fragment hr.fragment
  | false =>
    cases hfragment : req.fragment.isEmpty with
    | true =>
      rw [List.isEmpty_iff.mp hfragment] at h ⊢
      simp only [hquery, List.isEmpty_nil, if_true, Bool.false_eq_true, if_false,
        List.append_nil, hq, List.append_assoc] at h ⊢
      have hsplit : At r o buffer 3 { method := m } head
          (req.path ++ [63] ++ (req.query ++ [32] ++ rest)) := by
        simpa only [List.append_assoc] using h
      have hpath := hsplit.path hr.path (e := (63, [.requestPath], 29)) (by decide)
      simpa only [List.append_assoc] using
        hpath.query hr.query (e := (32, [.queryString, .requestUri], 4)) (by decide)
    | false =>
      simp only [hquery, hfragment, Bool.false_eq_true, if_false, hq, hf,
        List.append_assoc] at h ⊢
      have hsplit : At r o buffer 3 { method := m } head
          (req.path ++ [63] ++ (req.query ++ [35] ++ (req.fragment ++ [32] ++ rest))) := by
        simpa only [List.append_assoc] using h
      have hpath := hsplit.path hr.path (e := (63, [.requestPath], 29)) (by decide)
      have hquery' := hpath.query hr.query (e := (35, [.queryString, .requestUri], 20)) (by decide)
      simpa only [List.append_assoc] using hquery'.fragment hr.fragment

theorem httpMethodToString_mem (m : HttpMethod) : (m, httpMethodToString m) ∈ httpMethodMap := by
  cases m <;> decide

/-- The lines that `dump` adds to the headers are field lines. -/
theorem dumped_fields (close : Bool) :
    IsFieldName (bytes "connection") ∧ IsFieldName (bytes "content-length") ∧
      IsFieldValue (bytes (if close then "close" else "keep-alive")) := by
  have hnames : ∀ key ∈ ["connection", "content-length"],
      bytes key ≠ [] ∧ ∀ b ∈ bytes key, token.has b ∧ 32 < b := by
    decide +kernel
  refine ⟨⟨(hnames _ (by simp)).1, (hnames _ (by simp)).2⟩,
    ⟨(hnames _ (by simp)).1, (hnames _ (by simp)).2⟩, ?_⟩
  cases close <;> exact ⟨by decide +kernel, by decide +kernel⟩

/-- What is received before the body. -/
def received (req : FullRequest) (headers : Headers) : HttpRequest :=
  { method := req.method, version := req.version, path := req.path, query := req.query
    fragment := req.fragment, headers }

theorem at_lines {q : Nat} (hr : req.Built r) (hm : req.method ≠ .MSEARCH)
    (hbuf : req.dumpLines ++ rest <+: buffer) (hshort : (req.dumpLines ++ rest).length < 2 ^ 31) :
    At r (exec (requestRows r) (· == .done) (act buffer) 1 (new q r) 0 (req.dumpLines ++ rest))
      buffer 13
      (req.received (req.headers.set (bytes "connection")
        (bytes (if req.close then "close" else "keep-alive")))) req.dumpLines rest := by
  have hstart := At.start (q := q) (r := r) hbuf hshort
  generalize exec _ _ _ _ _ _ _ = o at hstart ⊢
  simp only [dumpLines, List.append_assoc] at hstart
  have hmethod := At.method (httpMethodToString_mem req.method) hm
    (by simpa only [List.append_assoc] using hstart)
  have htarget := at_target hr (by simpa only [List.append_assoc] using hmethod)
  have hversion := At.version hr.version (by simpa only [List.append_assoc] using htarget)
  obtain ⟨hname, -, hvalue⟩ := dumped_fields req.close
  have hconnection := At.field hname hvalue (by simpa only [List.append_assoc] using hversion)
  have hfields := At.fields hr.headers (by simpa only [List.append_assoc] using hconnection)
  have hset : req.headers.foldl (fun (m : Headers) x => m.set x.1 x.2)
      (Headers.set (bytes "connection") (bytes (if req.close then "close" else "keep-alive")) []) =
      req.headers.set (bytes "connection")
        (bytes (if req.close then "close" else "keep-alive")) := by
    rw [Headers.foldl_set_set fun x hx => hr.plain x hx "connection" (by decide),
      Headers.foldl_set (h := []) hr.sorted, List.nil_append]
  rw [hset] at hfields
  simpa only [dumpLines, received, List.append_assoc] using hfields

/-- A request that is not received: the machine has no edge for the second word of the method, or for
the tab before a cookie. -/
theorem exec_dump_stuck {q : Nat} (hr : req.Built r)
    (h : ¬(req.method ≠ .MSEARCH ∧ req.cookies = [])) (hbuf : req.dump <+: buffer)
    (hshort : req.dump.length < 2 ^ 31) :
    ∀ y ∈ exec (requestRows r) (· == .done) (act buffer) 1 (new q r) 0 req.dump, y.2.1 = 0 := by
  by_cases hm : req.method = .MSEARCH
  · have ht : requestTrace r 1 0 (bytes "M - ") = some ([(0, .mark), (1, .requestMethod),
        (2, .mark), (3, .requestPath), (3, .requestUri)], 4) := by
      cases r <;> rfl
    have hb : edge (requestRows r) 4 83 = none := by
      cases r <;> rfl
    have hword : bytes (httpMethodToString req.method) = bytes "M - " ++ 83 :: bytes "EARCH" := by
      rw [hm]
      decide
    obtain ⟨rest, hdump⟩ : ∃ rest, req.dump = bytes "M - " ++ 83 :: rest := by
      simp only [dump, hword, List.append_assoc, List.cons_append]
      exact ⟨_, rfl⟩
    have hstart := At.start (q := q) (r := r) hbuf hshort
    generalize exec _ _ _ _ _ _ _ = o at hstart ⊢
    rw [hdump] at hstart
    exact hstart.stuck ht hb
  · obtain ⟨c, cookies, hc⟩ := List.exists_cons_of_ne_nil fun hc => h ⟨hm, hc⟩
    have ht : ∀ p, requestTrace r 13 p (bytes "Set-Cookie: \n") =
        some ([(p, .startField), (p + 10, .writeField), (p + 11, .mark), (p + 12, .mark),
          (p + 12, .writeValue)], 13) := fun p => by
      rw [requestTrace, trace_shift]
      cases r <;> rfl
    have hb : edge (requestRows r) 13 9 = none := by
      cases r <;> rfl
    obtain ⟨rest, hdump⟩ : ∃ rest,
        req.dump = req.dumpLines ++ (bytes "Set-Cookie: \n" ++ 9 :: rest) := by
      have htab : ∀ l, bytes "\t" ++ l = 9 :: l := fun l => rfl
      simp only [dump_eq hr, hc, List.isEmpty_cons, Bool.false_eq_true, if_false,
        List.flatMap_cons, List.append_assoc, htab, List.cons_append]
      exact ⟨_, rfl⟩
    rw [hdump] at hbuf hshort ⊢
    exact (at_lines hr hm hbuf hshort).stuck (ht _) hb

/-- The head of a request without cookies, up to the empty line. -/
def dumpHead (req : FullRequest) : List UInt8 :=
  req.dumpLines ++ (if req.body.isEmpty then [] else
    bytes "content-length" ++ bytes ": " ++ (showNat req.body.length ++ bytes "\r\n")) ++
    bytes "\r\n"

theorem dump_eq_head (hr : req.Built r) (hc : req.cookies = []) :
    req.dump = req.dumpHead ++ req.body := by
  have hlength : bytes "content-length: " = bytes "content-length" ++ bytes ": " := rfl
  have hend : bytes "\r\n\r\n" = bytes "\r\n" ++ bytes "\r\n" := rfl
  rw [dump_eq hr, hc, dumpHead, dumpBody]
  cases hb : req.body with
  | nil => simp
  | cons b body => simp [hlength, hend]

theorem isFieldValue_showNat (n : Nat) : IsFieldValue (showNat n) := by
  obtain ⟨-, hdig, -⟩ := showNat_eq n
  have hall : ∀ b ∈ showNat n, 32 ≤ b ∧ b ≠ 127 ∧ b ≠ 32 := by
    intro b hb
    obtain ⟨hlo, hhi⟩ := (hdig b hb).ten
    refine ⟨UInt8.le_trans (by decide) hlo, ?_, ?_⟩
    · rintro rfl
      exact absurd hhi (by decide)
    · rintro rfl
      exact absurd hlo (by decide)
  exact ⟨fun b hb => ⟨(hall b hb).1, (hall b hb).2.1⟩,
    fun b hb => (hall b (List.mem_of_mem_head? hb)).2.2⟩

theorem exec_dump {q : Nat} (hr : req.Built r) (hm : req.method ≠ .MSEARCH)
    (hc : req.cookies = []) (hbuf : req.dump <+: buffer) (hshort : req.dump.length < 2 ^ 31) :
    ∃ y, exec (requestRows r) (· == .done) (act buffer) 1 (new q r) 0 req.dump =
        some (y, 348, req.dumpHead.length) ∧
      y.data = req.received req.dumpedHeaders ∧ y.error = .OK ∧ y.nread = 0 ∧
      y.bodyStart = req.dumpHead.length ∧ y.mark < req.dumpHead.length ∧
      y.fieldStart < req.dumpHead.length ∧ y.fieldLen < req.dumpHead.length := by
  obtain ⟨lines, hhead, hend⟩ : ∃ lines, req.dumpHead = lines ++ bytes "\r\n" ∧
      At r (exec (requestRows r) (· == .done) (act buffer) 1 (new q r) 0 req.dump) buffer 13
        (req.received req.dumpedHeaders) lines (bytes "\r\n" ++ req.body) := by
    refine ⟨_, rfl, ?_⟩
    have hdump := dump_eq_head hr hc
    unfold dumpHead at hdump
    rw [List.append_assoc, List.append_assoc] at hdump
    rw [hdump] at hbuf hshort ⊢
    have hlines := at_lines (q := q) hr hm hbuf hshort
    cases hb : req.body.isEmpty with
    | true => simpa [hb, dumpedHeaders] using hlines
    | false =>
      simp only [hb, Bool.false_eq_true, if_false] at hlines ⊢
      have hlength := hlines.field (dumped_fields req.close).2.1 (isFieldValue_showNat _)
      simpa [dumpedHeaders, received, hb] using hlength
  obtain ⟨y, hy, hdata, herr, hnread, hbody, hmark, hstart, hflen⟩ := hend.done
  have hlen : req.dumpHead.length = lines.length + 2 := by
    rw [hhead, List.length_append]
    rfl
  rw [hlen]
  exact ⟨y, hy, hdata, herr, hnread, hbody, by omega, by omega, by omega⟩

end FullRequest

/-! ## The request that is received -/

namespace HttpSession

open HttpRequestParser

variable {q : Nat} {data line body : List UInt8} {fails : Bool}

theorem read_line (hfit : line.length ≤ data.length) :
    Socket.read ⟨[line], fails, true⟩ data.length = (some line, ⟨[], fails, true⟩) := by
  simp [Socket.read, hfit]

/-- An execution that ends in error. -/
theorem recvHead_stuck (hne : line ≠ []) (hfit : line.length ≤ data.length)
    (h : ∀ y ∈ exec (requestRows r) (· == .done) (act (line ++ data.drop line.length)) 1 (new q r) 0
      line, y.2.1 = 0) :
    ∃ e, (start q r data ⟨[line], fails, true⟩).recvHead = .inr (.error e) := by
  have hlen : line.length ≠ 0 := fun h => hne (List.length_eq_zero_iff.mp h)
  have herror : ∀ y ∈ (new q r).parserExecute (line ++ data.drop line.length) line.length,
      y.1.hasError = true := by
    intro y hy
    rw [parserExecute, if_neg hlen, List.take_left] at hy
    obtain ⟨⟨z, cs, p⟩, hz, hy⟩ := Option.bind_eq_some_iff.mp hy
    obtain rfl : cs = 0 := h _ hz
    dsimp only at hy
    split at hy
    · cases hy
      simp [hasError, new]
    · cases hy
  simp only [recvHead, start, Nat.sub_zero, read_line hfit, List.take_zero, List.nil_append,
    Nat.zero_add, execute]
  cases hexec : (new q r).parserExecute (line ++ data.drop line.length) line.length with
  | none => exact ⟨_, rfl⟩
  | some y => exact ⟨_, if_pos (herror y hexec)⟩

/-- An execution that ends after the head. -/
theorem recvHead_head {y : HttpRequestParser} (hline : line = head ++ body)
    (hfit : line.length ≤ data.length)
    (hexec : exec (requestRows r) (· == .done) (act (line ++ data.drop line.length)) 1 (new q r) 0
      line = some (y, 348, head.length)) (herror : y.error = .OK) (hnread : y.nread = 0)
    (hbody : y.bodyStart ≤ head.length) (hmark : y.mark < head.length)
    (hstart : y.fieldStart < head.length) (hflen : y.fieldLen < head.length) :
    ∃ s : HttpSession, (start q r data ⟨[line], fails, true⟩).recvHead = .inr (.ok s) ∧
      s.parser.data = y.data ∧ s.pending = body ∧ s.offset ≤ s.data.length ∧
      s.sock = ⟨[], fails, true⟩ := by
  have hlen : line.length = head.length + body.length := by
    rw [hline, List.length_append]
  have hpe : (new q r).parserExecute (line ++ data.drop line.length) line.length =
      some ({ y with cs := 348, nread := head.length }, head.length) := by
    rw [parserExecute, if_neg (by omega), List.take_left]
    simp only [show (new q r).cs = 1 from rfl, show (new q r).uriRelaxed = r from rfl, hexec,
      Option.bind_eq_bind, Option.bind_some, hnread, Nat.zero_add]
    rw [if_pos ⟨by omega, by omega, by omega, by omega, by omega⟩]
    rfl
  have hmove : ((line ++ data.drop line.length).take line.length).drop head.length = body := by
    rw [List.take_left, hline, List.drop_left]
  have hoff : line.length - head.length = body.length := by
    omega
  have hok : HttpRequestParser.hasError { y with cs := 348, nread := head.length } = false := by
    rw [hasError, herror]
    rfl
  simp only [recvHead, start, Nat.sub_zero, read_line hfit, List.take_zero, List.nil_append,
    Nat.zero_add, execute, hpe, Option.bind_eq_bind, Option.bind_some, hmove, hoff, hok]
  rw [if_neg Bool.false_ne_true, if_neg, if_pos]
  · refine ⟨_, rfl, rfl, ?_, ?_, rfl⟩
    · rw [pending, List.take_left]
      exact List.append_nil body
    · rw [List.length_append]
      exact Nat.le_add_right ..
  · exact Int.one_ne_zero
  · simp only [List.length_append, List.length_drop]
    omega

end HttpSession

open HttpSession

variable {lexicalCast : List UInt8 → Option UInt64} {q : Nat} {data : List UInt8} {fails : Bool}
  {req : FullRequest}

namespace FullRequest

theorem dump_ne_nil (req : FullRequest) : req.dump ≠ [] := by
  have hspace : bytes " " ≠ [] := by decide
  simp [dump, hspace]

theorem getCookies_received (hr : req.Built r) (hc : req.cookies = []) {got : HttpRequest}
    (hgot : got.headers = req.dumpedHeaders) :
    getCookies { toHttpRequest := got } = req.getCookies := by
  have hfind : req.dumpedHeaders.find "cookie" = req.headers.find "cookie" := by
    unfold dumpedHeaders
    dsimp only
    split
    · exact Headers.find_set_ne (by decide) _
    · rw [Headers.find_set_ne (by decide), Headers.find_set_ne (by decide)]
  have hflag : ((0 : UInt8) &&& 0x4 != 0) = false := by decide
  simp only [getCookies, initCookies, hr.parserParamFlag, hc, hgot, hfind, hflag,
    Bool.false_eq_true, if_false]
  split <;> rfl

/-- What is received of a request without cookies. -/
theorem matches_received (hr : req.Built r) (hc : req.cookies = []) :
    req.Matches { req.received req.dumpedHeaders with body := req.body }.init := by
  have hfind : req.dumpedHeaders.find "connection" =
      some (bytes (if req.close then "close" else "keep-alive")) := by
    unfold dumpedHeaders
    dsimp only
    split
    · exact Headers.find_set ..
    · rw [Headers.find_set_ne (by decide), Headers.find_set]
  have hinit : HttpRequest.init { req.received req.dumpedHeaders with body := req.body } =
      { req.received req.dumpedHeaders with body := req.body, close := req.close } := by
    simp only [HttpRequest.init, received, hfind, Option.getD_some]
    cases req.close <;> rfl
  rw [hinit]
  exact ⟨rfl, rfl, rfl, rfl, rfl, rfl, rfl, getCookies_received hr hc rfl, rfl⟩

end FullRequest

open FullRequest

theorem complete_dump {s : HttpSession} (hr : req.Built r) (hread : req.body.length < 2 ^ 63)
    (hcast : ∀ k < 2 ^ 64, lexicalCast (showNat k) = some (UInt64.ofNat k))
    (hdata : s.parser.data = req.received req.dumpedHeaders) (hpend : s.pending = req.body) :
    s.complete lexicalCast = some { req.received req.dumpedHeaders with body := req.body }.init := by
  have hlength : s.contentLength lexicalCast = req.body.length := by
    rw [contentLength, hdata]
    exact contentLength_dumped hcast (fun x hx => hr.plain x hx "content-length" (by decide)) _ hread
  rw [complete, hlength, hdata, hpend]
  cases hb : req.body with
  | nil => rfl
  | cons b body =>
    have hpos : ¬((b :: body).length : Int) ≤ 0 := by
      rw [List.length_cons]
      omega
    rw [if_neg hpos, Int.toNat_natCast, if_pos (Nat.le_refl _), List.take_length]

theorem not_received (hr : req.Built r) (h : ¬(req.method ≠ .MSEARCH ∧ req.cookies = []))
    (hfit : req.dump.length ≤ data.length) (hread : req.dump.length < 2 ^ 31) (fuel : Nat)
    (got : HttpRequest) (sock : Socket) :
    (start q r data ⟨[req.dump], fails, true⟩).recvRequest lexicalCast fuel ≠
      some (.ok (got, sock)) := by
  intro hrecv
  obtain ⟨s, hs, -⟩ := recvRequest_iff_returns.mp ⟨fuel, hrecv⟩
  obtain ⟨e, he⟩ := recvHead_stuck req.dump_ne_nil hfit
    (exec_dump_stuck hr h (List.prefix_append ..) hread)
  cases hs.of_done he

/-- **A dumped request is received** as it was, when it has no cookies and its method is not
`MSEARCH`. -/
theorem recvRequest_dump (hr : req.Built r) (hfit : req.dump.length ≤ data.length)
    (hread : req.dump.length < 2 ^ 31)
    (hcast : ∀ k < 2 ^ 64, lexicalCast (showNat k) = some (UInt64.ofNat k)) :
    (∃ fuel got sock, (start q r data ⟨[req.dump], fails, true⟩).recvRequest lexicalCast fuel =
      some (.ok (got, sock)) ∧ req.Matches got) ↔ req.method ≠ .MSEARCH ∧ req.cookies = [] := by
  constructor
  · rintro ⟨fuel, got, sock, h, -⟩
    by_contra hneg
    exact not_received hr hneg hfit hread fuel got sock h
  · rintro ⟨hm, hc⟩
    have hdump := dump_eq_head hr hc
    obtain ⟨y, hexec, hdata, herr, hnread, hbody, hmark, hstart, hflen⟩ :=
      exec_dump hr hm hc (List.prefix_append req.dump (data.drop req.dump.length)) hread
    obtain ⟨s, hs, hsdata, hpend, hoff, hsock⟩ :=
      recvHead_head hdump hfit hexec herr hnread (Nat.le_of_eq hbody) hmark hstart hflen
    have hopen : s.sock.Open := hsock ▸ ⟨rfl, nofun⟩
    have hblen : req.body.length ≤ req.dump.length := by
      rw [hdump, List.length_append]
      exact Nat.le_add_left ..
    have hcomplete := complete_dump hr (by omega) hcast (hsdata.trans hdata) hpend
    obtain ⟨fuel, h⟩ := recvRequest_iff_returns.mpr
      ⟨s, .done hs, (recvBody_iff hopen hoff).mpr ⟨hcomplete, rfl⟩⟩
    exact ⟨fuel, _, _, h, matches_received hr hc⟩

theorem Encoded.of_forall {C : ByteClass} {l : List UInt8} (h : ∀ b ∈ l, C.has b) :
    Encoded C l := by
  induction l with
  | nil => exact .nil
  | cons b l ih => exact .char (h b List.mem_cons_self) (ih fun c hc => h c (List.mem_cons_of_mem b hc))

def putRequest : FullRequest :=
  { method := .PUT, version := 0x10, close := false, path := bytes "/a/b", query := bytes "k=v&x"
    fragment := bytes "top", headers := [(bytes "cookie", bytes "id=1; n=two")]
    body := bytes "hello" }

theorem built_putRequest : putRequest.Built false where
  version := .inl rfl
  path := ⟨bytes "a/b", by decide +kernel, .of_forall (by decide +kernel), by decide +kernel⟩
  query := .of_forall (by decide +kernel)
  fragment := .of_forall (by decide +kernel)
  headers := List.forall_mem_singleton.mpr
    ⟨⟨by decide +kernel, by decide +kernel⟩, ⟨by decide +kernel, by decide +kernel⟩⟩
  plain := List.forall_mem_singleton.mpr (by decide +kernel)
  sorted := List.pairwise_singleton ..
  websocket := rfl
  parserParamFlag := rfl

theorem recvRequest_dump_put :
    (∃ fuel got sock,
      (start 0 false (List.replicate 200 0) ⟨[putRequest.dump], false, true⟩).recvRequest
        decimalValue fuel = some (.ok (got, sock)) ∧ putRequest.Matches got) ↔
      putRequest.method ≠ .MSEARCH ∧ putRequest.cookies = [] :=
  recvRequest_dump built_putRequest (by decide +kernel) (by decide +kernel)
    fun k _ => by rw [decimalValue, (showNat_eq k).2.2]

/-- The requests that are built of nothing but a method, or a cookie, and are not received. -/
theorem dump_not_received :
    (Built false { method := .MSEARCH } ∧ ¬∃ fuel got sock,
      (start 0 false (List.replicate 200 0)
        ⟨[FullRequest.dump { method := .MSEARCH }], false, true⟩).recvRequest
          decimalValue fuel = some (.ok (got, sock)) ∧ Matches { method := .MSEARCH } got) ∧
    (Built false { cookies := [(bytes "id", bytes "1")] } ∧ ¬∃ fuel got sock,
      (start 0 false (List.replicate 200 0)
        ⟨[FullRequest.dump { cookies := [(bytes "id", bytes "1")] }], false, true⟩).recvRequest
          decimalValue fuel = some (.ok (got, sock)) ∧
            Matches { cookies := [(bytes "id", bytes "1")] } got) := by
  have hbuilt : ∀ m cookies, Built false { method := m, cookies } := fun m cookies =>
    ⟨.inr rfl, ⟨[], rfl, .nil, nofun⟩, .nil, .nil, nofun, nofun, .nil, rfl, rfl⟩
  refine ⟨⟨hbuilt .MSEARCH [], ?_⟩, ⟨hbuilt .GET [(bytes "id", bytes "1")], ?_⟩⟩
  · rintro ⟨fuel, got, sock, h, -⟩
    exact not_received (hbuilt ..) (by decide) (by decide +kernel) (by decide +kernel) fuel got sock h
  · rintro ⟨fuel, got, sock, h, -⟩
    exact not_received (hbuilt ..) (by decide) (by decide +kernel) (by decide +kernel) fuel got sock h

end Tigerkin.Http
