import Tigerkin.Http.RecvRequest
import Tigerkin.Http.RequestHead

/-! # The request line

The parser of requests returns for every buffer (`parserExecute_run`). After the method and after the
target the machine leaves what it has stored of them, and the version is always one that the
callback accepts. -/

namespace Tigerkin.Http

open Machine CString

variable {r : Bool} {buffer : List UInt8} {s s' : Bool × Bool} {x y : HttpRequestParser}
  {cs p : Nat} {e : Edge RequestAction} {a : RequestAction} {as : List RequestAction}

/-! ## Every buffer is executed -/

theorem act_total (hp : p < 2 ^ 63) (h : Marks s (p + 1) x) (ht : track s a = some s') :
    ∃ y, x.act buffer p a = some y := by
  obtain ⟨f, q⟩ := s
  have hmark : len x.mark p < 2 ^ 63 := by
    have := len_le (show x.mark ≤ p from h.mark)
    omega
  cases a with
  | writeValue =>
    have hlen : x.fieldLen < 2 ^ 63 := Nat.lt_of_le_of_lt h.fieldLen hp
    simp only [HttpRequestParser.act, HttpRequestParser.onRequestHttpField, string_total hlen,
      string_total hmark]
    split <;> exact ⟨_, rfl⟩
  | requestMethod =>
    simp only [HttpRequestParser.act, HttpRequestParser.onRequestMethod, string_total hmark]
    split <;> exact ⟨_, rfl⟩
  | queryString =>
    cases q <;> cases ht
    have hlen : len x.queryStart p < 2 ^ 63 := by
      have := len_le (show x.queryStart ≤ p from h.query rfl)
      omega
    exact ⟨_, congrArg (Option.map _) (string_total hlen)⟩
  | httpVersion =>
    simp only [HttpRequestParser.act, HttpRequestParser.onRequestHttpVersion, string_total hmark]
    split
    · exact ⟨_, rfl⟩
    · split <;> exact ⟨_, rfl⟩
  | fragment | requestPath => exact ⟨_, congrArg (Option.map _) (string_total hmark)⟩
  | done =>
    simp only [HttpRequestParser.act]
    split <;> exact ⟨_, rfl⟩
  | mark | startField | writeField | requestUri | startQuery | xml | json => exact ⟨_, rfl⟩

theorem acts_total (hp : p < 2 ^ 63) (h : Marks s (p + 1) x) (ht : as.foldlM track s = some s') :
    ∃ y, as.foldlM (HttpRequestParser.act buffer p) x = some y := by
  induction as generalizing s x with
  | nil => exact ⟨x, rfl⟩
  | cons a as ih =>
    obtain ⟨s₁, hs₁, ht⟩ := Option.bind_eq_some_iff.mp ht
    obtain ⟨y, hy⟩ : ∃ y, x.act buffer p a = some y := act_total hp h hs₁
    obtain ⟨z, hz⟩ := ih (h.step hs₁ (act_changes hy)) ht
    exact ⟨z, Option.bind_eq_some_iff.mpr ⟨y, hy, hz⟩⟩

/-- **The parser returns**: every buffer is executed, and the assertions hold. -/
theorem parserExecute_run {q : Nat} (hne : buffer ≠ []) (hbuf : buffer.length < 2 ^ 63) :
    ∃ z cs p, exec (requestRows r) (· == .done) (HttpRequestParser.act buffer) 1
        (HttpRequestParser.new q r) 0 buffer = some (z, cs, p) ∧
      (HttpRequestParser.new q r).parserExecute buffer buffer.length =
        some ({ z with cs := cs, nread := p }, p) := by
  have hpos := List.length_pos_iff.mpr hne
  obtain ⟨⟨z, cs, p⟩, hz, hp, cs', hmarks⟩ : ∃ t,
      exec (requestRows r) (· == .done) (HttpRequestParser.act buffer) 1
          (HttpRequestParser.new q r) 0 buffer = some t ∧
        t.2.2 ≤ 0 + buffer.length ∧ ∃ cs', Marks (known cs') t.2.2 t.1 := by
    refine exec_total (I := fun cs p x => Marks (known cs) p x) (N := 2 ^ 63)
      (fun {cs p x b e} hp he hI => ?_) (show 0 + buffer.length ≤ 2 ^ 63 by omega) (Marks.new q r)
    obtain ⟨s₁, hs₁, h1, h2⟩ := (request_edge he).tracked
    have hI := hI.mono (Nat.le_succ _)
    obtain ⟨y, hy⟩ : ∃ y, e.acts.foldlM (HttpRequestParser.act buffer p) x = some y :=
      acts_total hp hI hs₁
    exact ⟨y, hy, (acts_marks hI hs₁ hy).weaken h1 h2⟩
  refine ⟨z, cs, p, hz, ?_⟩
  have hn : z.nread = 0 := (exec_frame hz).nread
  have h1 := hmarks.mark
  have h2 := hmarks.fieldStart
  have h3 := hmarks.fieldLen
  have h4 := hmarks.bodyStart
  have hcs : (HttpRequestParser.new q r).cs = 1 := rfl
  have hr : (HttpRequestParser.new q r).uriRelaxed = r := rfl
  dsimp only at hp h1 h2 h3 h4
  rw [HttpRequestParser.parserExecute, if_neg (by omega), List.take_length, hcs, hr, hz]
  simp only [hn, Nat.zero_add, Option.bind_eq_bind, Option.bind_some]
  rw [if_pos ⟨by omega, by omega, by omega, by omega, by omega⟩]
  rfl

/-! ## After the method -/

/-- The states of the target. -/
def inTarget (cs : Nat) : Bool := cs = 3 || 19 ≤ cs && cs ≤ 174

/-- The states of the version and of the header lines. -/
def inHead (cs : Nat) : Bool := 4 ≤ cs && cs ≤ 18 || cs = 348

def versions : List (List UInt8) := [bytes "HTTP/1.0", bytes "HTTP/1.1"]

/-- The byte `b` at `k` in one of the versions. -/
def inVersion (k : Nat) (b : UInt8) : Bool := versions.any fun v => v[k]? == some b

/-- The states 4 to 11 are passed byte by byte. -/
def VersionEdge (cs : Nat) (e : Edge RequestAction) : Prop :=
  e.target = cs + 1 ∧ e.acts = (if cs = 4 then [.mark] else []) ∧
    e.Only fun b => inVersion (cs - 4) b = true

instance (cs : Nat) (e : Edge RequestAction) : Decidable (VersionEdge cs e) :=
  inferInstanceAs (Decidable (_ ∧ _ ∧ _))

/-- What the edges from the target on do. -/
structure TailEdge (cs : Nat) (e : Edge RequestAction) : Prop where
  target : inTarget cs = true → (inTarget e.target = true ∨ e.target = 4) ∧
    ∀ a ∈ e.acts, a ∉ [RequestAction.requestMethod, .httpVersion]
  head : inHead cs = true → (inHead e.target = true ∧ e.target ≠ 4) ∧
    ∀ a ∈ e.acts, a ∉ [RequestAction.requestMethod, .requestPath, .queryString, .fragment]
  version : inHead cs = true → .httpVersion ∈ e.acts → cs = 12 ∧ e.acts = [.httpVersion]
  text : inTarget cs = true ∨ inHead cs = true → 5 ≤ e.target → e.target ≤ 12 →
    4 ≤ cs ∧ VersionEdge cs e

instance (cs : Nat) (e : Edge RequestAction) : Decidable (TailEdge cs e) :=
  decidable_of_iff
    ((inTarget cs = true → (inTarget e.target = true ∨ e.target = 4) ∧
        ∀ a ∈ e.acts, a ∉ [RequestAction.requestMethod, .httpVersion]) ∧
      (inHead cs = true → (inHead e.target = true ∧ e.target ≠ 4) ∧
        ∀ a ∈ e.acts, a ∉ [RequestAction.requestMethod, .requestPath, .queryString, .fragment]) ∧
      (inHead cs = true → .httpVersion ∈ e.acts → cs = 12 ∧ e.acts = [.httpVersion]) ∧
      (inTarget cs = true ∨ inHead cs = true → 5 ≤ e.target → e.target ≤ 12 →
        4 ≤ cs ∧ VersionEdge cs e))
    ⟨fun ⟨h1, h2, h3, h4⟩ => ⟨h1, h2, h3, h4⟩, fun h => ⟨h.target, h.head, h.version, h.text⟩⟩

theorem requestRows_tail (r : Bool) :
    ∀ p ∈ (requestRows r).zipIdx, ∀ e ∈ p.1, TailEdge p.2 e := by
  cases r <;> decide +kernel

theorem versions_length : ∀ {v}, v ∈ versions → v.length = 8 := by
  decide

theorem versions_take {k : Nat} {b : UInt8} (h : inVersion k b = true) {v : List UInt8}
    (hv : v ∈ versions) : ∃ v' ∈ versions, v'.take (k + 1) = v.take k ++ [b] := by
  have hall : ∀ v ∈ versions, ∀ w ∈ versions, ∀ k < 8, ∃ v' ∈ versions,
      v'.take (k + 1) = v.take k ++ (w.drop k).take 1 := by decide
  obtain ⟨w, hw, hb⟩ := List.any_eq_true.mp h
  obtain ⟨hk, hb⟩ := List.getElem?_eq_some_iff.mp (beq_iff_eq.mp hb)
  have hlen := versions_length hw
  obtain ⟨v', hv', htake⟩ := hall v hv w hw k (hlen ▸ hk)
  refine ⟨v', hv', ?_⟩
  rw [htake, List.drop_eq_getElem_cons hk, hb]
  rfl

theorem onRequestHttpVersion_error {start : Nat} {v : List UInt8} (hv : v ∈ versions)
    (h : v <+: buffer.drop start) (hy : x.onRequestHttpVersion buffer start 8 = some y) :
    y.error = x.error := by
  have hall : ∀ v ∈ versions, 0 ∉ v ∧ v.length = 8 ∧
      (v = bytes "HTTP/1.1" ∨ v = bytes "HTTP/1.0") := by decide
  obtain ⟨h0, hlen, hv⟩ := hall v hv
  have heq := (strncmpEq_length h0).mpr h
  rw [hlen] at heq
  rw [HttpRequestParser.onRequestHttpVersion] at hy
  split at hy
  · cases hy
    rfl
  · rename_i hne
    obtain rfl := hv.resolve_left fun hv => hne (hv ▸ heq)
    rw [if_pos heq] at hy
    cases hy
    rfl

/-- The method and the error after the method has been stored. -/
structure Stored (buffer : List UInt8) (x : HttpRequestParser) (cs p : Nat)
    (y : HttpRequestParser) : Prop where
  state : inTarget cs = true ∨ inHead cs = true
  method : y.data.method = x.data.method
  error : y.error = x.error
  version : 5 ≤ cs → cs ≤ 12 →
    y.mark + (cs - 4) = p ∧ ∃ v ∈ versions, v.take (cs - 4) <+: buffer.drop y.mark

/-- One more byte of the version. -/
theorem VersionEdge.step {b : UInt8} {z : HttpRequestParser} (h : VersionEdge cs e) (hcs : 4 ≤ cs)
    (hcs' : cs ≤ 11)
    (hy : 5 ≤ cs → y.mark + (cs - 4) = p ∧ ∃ v ∈ versions, v.take (cs - 4) <+: buffer.drop y.mark)
    (hb : buffer[p]? = some b) (hcovers : e.covers b = true)
    (hz : e.acts.foldlM (HttpRequestParser.act buffer p) y = some z) :
    z.mark + (e.target - 4) = p + 1 ∧
      ∃ v ∈ versions, v.take (e.target - 4) <+: buffer.drop z.mark := by
  obtain ⟨htarget, hacts, hon⟩ := h
  obtain ⟨hpos, v, hv, hpre⟩ : z.mark + (cs - 4) = p ∧
      ∃ v ∈ versions, v.take (cs - 4) <+: buffer.drop z.mark := by
    rw [hacts] at hz
    split at hz
    · cases hz
      rename_i h4
      rw [h4]
      exact ⟨rfl, bytes "HTTP/1.0", by decide, List.nil_prefix⟩
    · cases hz
      exact hy (by omega)
  obtain ⟨v', hv', htake⟩ :=
    versions_take (e.of_covers (C := (inVersion (cs - 4) · = true)) hon hcovers) hv
  have hk : e.target - 4 = cs - 4 + 1 := by omega
  have hlen : (v.take (cs - 4)).length = cs - 4 := by
    have hv := versions_length hv
    rw [List.length_take]
    omega
  rw [hk]
  refine ⟨by omega, v', hv', htake ▸ ?_⟩
  obtain ⟨l, hl⟩ := hpre
  have hhead : (buffer.drop z.mark)[cs - 4]? = some b := by
    rw [List.getElem?_drop, hpos, hb]
  rw [← hl, List.getElem?_append_right (by omega), hlen, Nat.sub_self] at hhead
  cases l with
  | nil => cases hhead
  | cons c l =>
    obtain rfl := Option.some.inj hhead
    exact ⟨l, by rw [← hl, List.append_assoc]; rfl⟩

theorem Stored.step {b : UInt8} {z : HttpRequestParser} (h : Stored buffer x cs p y)
    (hb : buffer[p]? = some b) (he : edge (requestRows r) cs b = some e)
    (hz : e.acts.foldlM (HttpRequestParser.act buffer p) y = some z) :
    Stored buffer x e.target (p + 1) z := by
  obtain ⟨htail, hcovers⟩ := of_edge (requestRows_tail r) he
  have hmethod : .requestMethod ∉ e.acts := by
    rcases h.state with hcs | hcs
    · exact fun hmem => (htail.target hcs).2 _ hmem (by simp)
    · exact fun hmem => (htail.head hcs).2 _ hmem (by simp)
  refine ⟨?_, ?_, ?_, fun h5 h12 => ?_⟩
  · rcases h.state with hcs | hcs
    · rcases (htail.target hcs).1 with htarget | htarget
      · exact .inl htarget
      · exact .inr (by rw [htarget]; rfl)
    · exact .inr (htail.head hcs).1.1
  · refine foldlM_inv (I := fun y => y.data.method = x.data.method) (fun a ha hy hI => ?_) hz
      h.method
    exact ((act_changes hy).method fun heq => hmethod (heq ▸ ha)).trans hI
  · by_cases hversion : .httpVersion ∈ e.acts
    · have hcs : inHead cs = true := h.state.resolve_left fun hcs =>
        (htail.target hcs).2 _ hversion (by simp)
      obtain ⟨rfl, hacts⟩ := htail.version hcs hversion
      obtain ⟨rfl, v, hv, hpre⟩ := h.version (by decide) (by decide)
      rw [List.take_of_length_le (by rw [versions_length hv])] at hpre
      rw [hacts, List.foldlM_cons] at hz
      obtain ⟨z, hy, hz⟩ := Option.bind_eq_some_iff.mp hz
      cases hz
      simp only [HttpRequestParser.act, len_add y.mark (show 12 - 4 < 2 ^ 64 by decide)] at hy
      exact (onRequestHttpVersion_error hv hpre hy).trans h.error
    · refine foldlM_inv (I := fun y => y.error = x.error) (fun a ha hy hI => ?_) hz h.error
      exact ((act_changes hy).error (fun heq => hmethod (heq ▸ ha))
        fun heq => hversion (heq ▸ ha)).trans hI
  · obtain ⟨h4, hedge⟩ := htail.text h.state h5 h12
    have htarget := hedge.1
    exact hedge.step h4 (by omega) (fun h5 => h.version h5 (by omega)) hb hcovers hz

/-- **The method stays**: from the target on the machine changes neither method nor error. -/
theorem exec_stored {z : HttpRequestParser} {c n : Nat}
    (h : exec (requestRows r) (· == .done) (HttpRequestParser.act buffer) 3 x p (buffer.drop p) =
      some (z, c, n)) : z.data.method = x.data.method ∧ z.error = x.error := by
  obtain ⟨cs, -, hs⟩ := exec_edges (I := fun cs p y => Stored buffer x cs p y)
    (fun hb he hs hz => hs.step hb he hz) h ⟨.inl rfl, rfl, rfl, by omega⟩
  exact ⟨hs.method, hs.error⟩

/-! ## After the target -/

/-- The parts of the target that are stored. -/
structure SameTarget (x y : HttpRequestParser) : Prop where
  path : y.data.path = x.data.path
  query : y.data.query = x.data.query
  fragment : y.data.fragment = x.data.fragment

theorem SameTarget.refl (x : HttpRequestParser) : SameTarget x x := ⟨rfl, rfl, rfl⟩

theorem exec_target {z : HttpRequestParser} {c n : Nat}
    (h : exec (requestRows r) (· == .done) (HttpRequestParser.act buffer) 4 x p (buffer.drop p) =
      some (z, c, n)) : SameTarget x z := by
  obtain ⟨cs, -, -, hs⟩ := exec_edges (I := fun cs _ y => inHead cs = true ∧ SameTarget x y)
    (fun _ he hI hz => by
      obtain ⟨htarget, hacts⟩ := (of_edge (requestRows_tail r) he).1.head hI.1
      refine ⟨htarget.1, foldlM_inv (I := SameTarget x) (fun a ha hy hx => ?_) hz hI.2⟩
      have hc := act_changes hy
      have hne := hacts a ha
      simp only [List.mem_cons, List.not_mem_nil, or_false, not_or] at hne
      exact ⟨(hc.path hne.2.1).trans hx.path, (hc.query hne.2.2.1).trans hx.query,
        (hc.fragment hne.2.2.2).trans hx.fragment⟩) h ⟨rfl, .refl x⟩
  exact hs

/-! ## The method -/

/-- The state after `k` bytes of the method. -/
def methodState (k : Nat) : Nat := if k = 1 then 2 else 173 + k

theorem method_edge : ∀ b : UInt8, ∀ r, methodChar.has b →
    Goes r 1 b [.mark] 2 ∧ ∀ k < 19, Goes r (methodState (k + 1)) b [] (methodState (k + 2)) :=
  forall_byte (by decide +kernel)

theorem methodEnd_edge : ∀ r, ∀ k < 20, Goes r (methodState (k + 1)) 32 [.requestMethod] 3 := by
  decide +kernel

/-- **Every method is passed** up to 20 characters. -/
theorem trace_method {token : List UInt8} (hne : token ≠ []) (hlen : token.length ≤ 20)
    (hchars : ∀ b ∈ token, methodChar.has b) :
    requestTrace r 1 0 (token ++ [32]) = some ([(0, .mark), (token.length, .requestMethod)], 3) := by
  have hrest : ∀ (l : List UInt8) (k p : Nat), k + 1 + l.length ≤ 20 →
      (∀ b ∈ l, methodChar.has b) →
      requestTrace r (methodState (k + 1)) p (l ++ [32]) =
        some ([(p + l.length, .requestMethod)], 3) := by
    intro l
    induction l with
    | nil =>
      intro k p hk _
      exact trace_goes (methodEnd_edge r k hk) (by simp) rfl
    | cons b l ih =>
      intro k p hk hl
      rw [List.length_cons] at hk
      have h := ih (k + 1) (p + 1) (by omega) fun b hb => hl b (List.mem_cons_of_mem _ hb)
      have hgo := (method_edge b r (hl b List.mem_cons_self)).2 k (by omega)
      rw [List.cons_append, trace_goes hgo (by simp) h, List.length_cons, Nat.add_comm l.length,
        ← Nat.add_assoc]
      rfl
  obtain ⟨b, l, rfl⟩ := List.exists_cons_of_ne_nil hne
  have h := hrest l 0 1 (by rw [List.length_cons] at hlen; omega)
    fun b hb => hchars b (List.mem_cons_of_mem _ hb)
  rw [List.cons_append, trace_goes (method_edge b r (hchars b List.mem_cons_self)).1 (by simp) h,
    List.length_cons, Nat.add_comm]
  rfl

/-- The execution from the target on. -/
theorem exec_method {q : Nat} {token rest : List UInt8} {res : HttpRequestParser × Nat × Nat}
    (hne : token ≠ []) (hlen : token.length ≤ 20) (hchars : ∀ b ∈ token, methodChar.has b)
    (h : exec (requestRows r) (· == .done) (HttpRequestParser.act buffer) 1
      (HttpRequestParser.new q r) 0 (token ++ [32] ++ rest) = some res) :
    ∃ y, (HttpRequestParser.new q r).onRequestMethod buffer 0 (len 0 token.length) = some y ∧
      exec (requestRows r) (· == .done) (HttpRequestParser.act buffer) 3 y
        (token ++ [32]).length rest = some res := by
  rw [exec_trace (trace_method hne hlen hchars), Nat.zero_add] at h
  obtain ⟨y, hy, h⟩ := Option.bind_eq_some_iff.mp h
  -- the mark is 0 already
  rw [perform_cons (y := HttpRequestParser.new q r) rfl] at hy
  obtain ⟨y, hy, hnil⟩ := Option.bind_eq_some_iff.mp hy
  cases hnil
  exact ⟨y, hy, h⟩

end Tigerkin.Http
