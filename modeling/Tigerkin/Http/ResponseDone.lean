import Mathlib.Data.List.Forall2
import Tigerkin.Http.ResponseHead

/-! # When a response is finished

The machine has four final states, and `is_finished` compares the state with the first of them. The
other three are those after an empty line that follows a `Connection`, `Transfer-Encoding` or
`Content-Length` without a value: there the machine could still go on to the value in the next
lines (`finished_iff`). -/

namespace Tigerkin.Http

open Machine CString

/-- What the grammar accepts, as the machine decides it. -/
def Accepted (block : List UInt8) : Prop := ∃ cs ∈ evalFrom responseRows 1 block, 120 ≤ cs

instance (block : List UInt8) : Decidable (Accepted block) :=
  inferInstanceAs (Decidable (∃ cs ∈ evalFrom responseRows 1 block, _))

def lineEnds : List (List UInt8) := [[10], [13, 10]]

/-- The headers whose values the grammar has of its own. -/
def specialNames : List (List UInt8) :=
  ["connection", "transfer-encoding", "content-length"].map bytes

/-- The text ends with one of these headers, without a value, and an empty line. -/
def EndsBlank (text : List UInt8) : Prop :=
  ∃ before name blank eol eol', text = before ++ [10] ++ name ++ [58] ++ blank ++ eol ++ eol' ∧
    name.map toLower ∈ specialNames ∧ (∀ b ∈ blank, b ∈ [9, 11, 12, 32]) ∧ eol ∈ lineEnds ∧
    eol' ∈ lineEnds

def HasBlank (block : List UInt8) : Prop := ∃ text, text <+: block ∧ EndsBlank text

/-- The actions of the parser, with the positions of `done`. -/
def actDones (buffer : List UInt8) (p : Nat) (s : HttpResponseParser × List Nat)
    (a : ResponseAction) : Option (HttpResponseParser × List Nat) :=
  (s.1.act buffer p a).map fun y => (y, if a = .done then s.2 ++ [p] else s.2)

/-- The positions at which `execute` runs `done`. -/
def HttpResponseParser.dones (x : HttpResponseParser) (buffer : List UInt8) : Option (List Nat) :=
  (exec responseRows (· == .done) (actDones buffer) x.cs (x, []) 0 buffer).map fun r => r.1.2

/-! ## The states of the special headers -/

/-- The states of a header without a value. -/
structure Special where
  name : List UInt8
  /-- The states after `k` bytes of the name. -/
  spelled : Nat → List Nat
  colon : Nat
  colonCr : Nat
  line : Nat
  lineCr : Nat
  final : Nat

/-- The states between two lines. -/
def lineStates : List Nat := [20, 36, 43, 62, 113]

def specials : List Special :=
  [{ name := bytes "connection"
     spelled := fun k => if k = 0 then lineStates else if k = 1 then [25, 73, 90] else [24 + k]
     colon := 35, colonCr := 95, line := 36, lineCr := 89, final := 122 },
   { name := bytes "transfer-encoding"
     spelled := fun k => if k = 0 then lineStates else [43 + k]
     colon := 61, colonCr := 80, line := 62, lineCr := 72, final := 121 },
   { name := bytes "content-length"
     spelled := fun k => if k = 0 then lineStates else if k = 1 then [25, 73, 90]
       else if k < 4 then [24 + k] else [97 + k]
     colon := 112, colonCr := 118, line := 113, lineCr := 116, final := 123 }]

def Special.named (S : Special) : List Nat := S.spelled S.name.length

/-- The states after the value, each with those before it and the byte that leads there. -/
def Special.lineEnds (S : Special) : List (Nat × List Nat × UInt8) :=
  [(S.colonCr, [S.colon], 13), (S.line, [S.colon, S.colonCr], 10), (S.lineCr, [S.line], 13),
    (S.final, [S.line, S.lineCr], 10)]

/-- How the machine gets to the states of a special header. -/
structure SpecialEdge (S : Special) (cs : Nat) (e : Edge ResponseAction) : Prop where
  spelled : ∀ k < S.name.length, e.target ∈ S.spelled (k + 1) →
    cs ∈ S.spelled k ∧ e.Only fun b => S.name[k]? = some (toLower b)
  colon : e.target = S.colon → cs ∈ S.named ∧ e.on = [(58, 58)] ∨ cs = S.colon
  lineEnds : ∀ t ∈ S.lineEnds, e.target = t.1 → cs ∈ t.2.1 ∧ e.on = [(t.2.2, t.2.2)]

instance (S : Special) (cs : Nat) (e : Edge ResponseAction) : Decidable (SpecialEdge S cs e) :=
  decidable_of_iff
    ((∀ k < S.name.length, e.target ∈ S.spelled (k + 1) →
      cs ∈ S.spelled k ∧ e.Only fun b => S.name[k]? = some (toLower b)) ∧
      (e.target = S.colon → cs ∈ S.named ∧ e.on = [(58, 58)] ∨ cs = S.colon) ∧
      (∀ t ∈ S.lineEnds, e.target = t.1 → cs ∈ t.2.1 ∧ e.on = [(t.2.2, t.2.2)]))
    ⟨fun ⟨h1, h2, h3⟩ => ⟨h1, h2, h3⟩, fun h => ⟨h.spelled, h.colon, h.lineEnds⟩⟩

theorem responseRows_special :
    ∀ p ∈ responseRows.zipIdx, ∀ e ∈ p.1, ∀ S ∈ specials, SpecialEdge S p.2 e := by
  decide +kernel

/-- What holds of all edges. -/
structure DoneEdge (e : Edge ResponseAction) : Prop where
  target : e.target < 124
  stops : e.stops (· == .done) = true ↔ 120 ≤ e.target
  count : e.acts.count .done = if 120 ≤ e.target then 1 else 0
  line : e.target ∈ lineStates → e.on = [(10, 10)]

instance (e : Edge ResponseAction) : Decidable (DoneEdge e) :=
  decidable_of_iff
    (e.target < 124 ∧ (e.stops (· == .done) = true ↔ 120 ≤ e.target) ∧
      e.acts.count .done = (if 120 ≤ e.target then 1 else 0) ∧
      (e.target ∈ lineStates → e.on = [(10, 10)]))
    ⟨fun ⟨h1, h2, h3, h4⟩ => ⟨h1, h2, h3, h4⟩, fun h => ⟨h.target, h.stops, h.count, h.line⟩⟩

theorem responseRows_done : ∀ p ∈ responseRows.zipIdx, ∀ e ∈ p.1, DoneEdge e := by
  decide +kernel

theorem done_edge {cs : Nat} {b : UInt8} {e : Edge ResponseAction}
    (h : edge responseRows cs b = some e) : DoneEdge e ∧ e.covers b = true :=
  of_edge (P := fun _ e => DoneEdge e) responseRows_done h

theorem special_edge {S : Special} (hS : S ∈ specials) {cs : Nat} {b : UInt8}
    {e : Edge ResponseAction} (h : edge responseRows cs b = some e) :
    SpecialEdge S cs e ∧ e.covers b = true := by
  obtain ⟨hedge, hcovers⟩ := of_edge (P := fun cs e => ∀ S ∈ specials, SpecialEdge S cs e)
    responseRows_special h
  exact ⟨hedge S hS, hcovers⟩

theorem blank_edge : ∀ b : UInt8, ∀ S ∈ specials, ∀ e ∈ edge responseRows S.colon b,
    e.target = S.colon → b ∈ [9, 11, 12, 32] :=
  forall_byte (by decide +kernel)

/-! ## What has been read in the states of a special header -/

variable {S : Special} {text block : List UInt8} {cs : Nat} {b : UInt8}
  {e : Edge ResponseAction}

/-- The last byte before a state. -/
theorem of_evalFrom_one (h : evalFrom responseRows 1 text = some cs) (hcs : cs ≠ 1) :
    ∃ before b c e, text = before ++ [b] ∧ evalFrom responseRows 1 before = some c ∧
      edge responseRows c b = some e ∧ e.target = cs := by
  rcases List.eq_nil_or_concat text with rfl | ⟨before, b, htext⟩
  · exact absurd (Option.some.inj h).symm hcs
  · rw [List.concat_eq_append] at htext
    subst htext
    obtain ⟨c, e, hc, he, ht⟩ := of_evalFrom_concat h
    exact ⟨before, b, c, e, rfl, hc, he, ht⟩

theorem Special.spelled_zero (hS : S ∈ specials) : S.spelled 0 = lineStates := by
  revert S
  simp [specials]

theorem Special.one_notMem (hS : S ∈ specials) (k : Nat) : 1 ∉ S.spelled k := by
  simp only [specials, List.mem_cons, List.not_mem_nil, or_false] at hS
  rcases hS with rfl | rfl | rfl <;> dsimp only [lineStates] <;> split_ifs <;> simp
  all_goals omega

theorem spelled_text (hS : S ∈ specials) {k : Nat} (hk : k ≤ S.name.length)
    (h : evalFrom responseRows 1 text = some cs) (hcs : cs ∈ S.spelled k) :
    ∃ before name, text = before ++ [10] ++ name ∧ name.map toLower = S.name.take k := by
  induction k generalizing text cs with
  | zero =>
    obtain ⟨before, b, c, e, rfl, -, he, rfl⟩ := of_evalFrom_one h fun h1 =>
      S.one_notMem hS _ (h1 ▸ hcs)
    obtain ⟨hedge, hcovers⟩ := done_edge he
    rw [S.spelled_zero hS] at hcs
    rw [e.eq_of_covers (hedge.line hcs) hcovers]
    exact ⟨before, [], by simp, rfl⟩
  | succ k ih =>
    obtain ⟨before, b, c, e, rfl, hbefore, he, rfl⟩ := of_evalFrom_one h fun h1 =>
      S.one_notMem hS _ (h1 ▸ hcs)
    obtain ⟨hedge, hcovers⟩ := special_edge hS he
    obtain ⟨hc, hon⟩ := hedge.spelled k hk hcs
    have hb : S.name[k]? = some (toLower b) := Edge.of_covers hon hcovers
    obtain ⟨start, name, rfl, hname⟩ := ih (Nat.le_of_succ_le hk) hbefore hc
    refine ⟨start, name ++ [b], by simp, ?_⟩
    rw [List.map_append, hname, List.take_add_one, hb]
    rfl

theorem colon_text (hS : S ∈ specials) (h : evalFrom responseRows 1 text = some S.colon) :
    ∃ before name blank, text = before ++ [10] ++ name ++ [58] ++ blank ∧
      name.map toLower = S.name ∧ ∀ b ∈ blank, b ∈ [9, 11, 12, 32] := by
  have hone : ∀ S ∈ specials, S.colon ≠ 1 := by decide
  induction hn : text.length generalizing text with
  | zero =>
    rw [List.length_eq_zero_iff] at hn
    subst hn
    exact absurd (Option.some.inj h).symm (hone S hS)
  | succ n ih =>
    obtain ⟨before, b, c, e, rfl, hbefore, he, ht⟩ := of_evalFrom_one h (hone S hS)
    obtain ⟨hedge, hcovers⟩ := special_edge hS he
    rcases hedge.colon ht with ⟨hc, hon⟩ | rfl
    · obtain ⟨start, name, rfl, hname⟩ := spelled_text hS (Nat.le_refl _) hbefore hc
      rw [e.eq_of_covers hon hcovers]
      rw [List.take_length] at hname
      exact ⟨start, name, [], by simp, hname, by simp⟩
    · obtain ⟨start, name, blank, rfl, hname, hblank⟩ := ih hbefore (by simpa using hn)
      refine ⟨start, name, blank ++ [b], by simp, hname, ?_⟩
      rw [List.forall_mem_append, List.forall_mem_singleton]
      exact ⟨hblank, blank_edge b S hS e he ht⟩

/-- The text before a line end. -/
theorem lineEnd_text (hS : S ∈ specials) (before cr after : Nat) (h1 : after ≠ 1) (h1' : cr ≠ 1)
    (hlf : (after, [before, cr], 10) ∈ S.lineEnds) (hcr : (cr, [before], 13) ∈ S.lineEnds)
    (h : evalFrom responseRows 1 text = some after) :
    ∃ line eol, text = line ++ eol ∧ eol ∈ lineEnds ∧
      evalFrom responseRows 1 line = some before := by
  obtain ⟨line, b, c, e, rfl, hline, he, ht⟩ := of_evalFrom_one h h1
  obtain ⟨hedge, hcovers⟩ := special_edge hS he
  obtain ⟨hc, hon⟩ := hedge.lineEnds _ hlf ht
  obtain rfl := e.eq_of_covers hon hcovers
  rcases List.mem_pair.mp hc with rfl | rfl
  · exact ⟨line, [10], rfl, by decide, hline⟩
  · obtain ⟨text, b, c', e', rfl, htext, he', ht'⟩ := of_evalFrom_one hline h1'
    obtain ⟨hedge', hcovers'⟩ := special_edge hS he'
    obtain ⟨hc', hon'⟩ := hedge'.lineEnds _ hcr ht'
    obtain rfl := e'.eq_of_covers hon' hcovers'
    obtain rfl := List.mem_singleton.mp hc'
    exact ⟨text, [13, 10], by simp, by decide, htext⟩

theorem final_text (hS : S ∈ specials) (h : evalFrom responseRows 1 text = some S.final) :
    EndsBlank text := by
  have hone : ∀ S ∈ specials, S.final ≠ 1 ∧ S.lineCr ≠ 1 ∧ S.line ≠ 1 ∧ S.colonCr ≠ 1 ∧
      S.name ∈ specialNames := by decide
  obtain ⟨h1, h2, h3, h4, hname'⟩ := hone S hS
  obtain ⟨text, eol', rfl, heol', h⟩ := lineEnd_text hS S.line S.lineCr S.final h1 h2
    (by simp [Special.lineEnds]) (by simp [Special.lineEnds]) h
  obtain ⟨text, eol, rfl, heol, h⟩ := lineEnd_text hS S.colon S.colonCr S.line h3 h4
    (by simp [Special.lineEnds]) (by simp [Special.lineEnds]) h
  obtain ⟨before, name, blank, rfl, hname, hblank⟩ := colon_text hS h
  exact ⟨before, name, blank, eol, eol', rfl, hname ▸ hname', hblank, heol, heol'⟩

/-! ## The state after a special header without a value -/

/-- A letter in both cases. -/
def variants (b : UInt8) : List UInt8 := [b, b - 32]

theorem mem_variants (b : UInt8) : b ∈ variants (toLower b) := by
  rw [variants, toLower]
  split <;> simp

/-- The state that a special header without a value leads to, part by part. -/
theorem special_image : ∀ S ∈ specials,
    (∀ t ∈ ([[10]] ++ S.name.map variants ++ [[58]]).foldl (image responseRows) (List.range 124),
      t = S.colon) ∧
    (∀ t ∈ image responseRows [S.colon] [9, 11, 12, 32], t = S.colon) ∧
    ∀ eol ∈ lineEnds, ∀ eol' ∈ lineEnds,
      ∀ t ∈ ((eol ++ eol').map fun b => [b]).foldl (image responseRows) [S.colon],
        t = S.final := by
  decide +kernel

theorem final_of_endsBlank (ht : EndsBlank text) (h : evalFrom responseRows 1 text = some cs) :
    ∃ S ∈ specials, cs = S.final := by
  obtain ⟨before, name, blank, eol, eol', rfl, hname, hblank, heol, heol'⟩ := ht
  obtain ⟨S, hS, hname⟩ : ∃ S ∈ specials, name.map toLower = S.name := by
    simp only [specialNames, List.map_cons, List.map_nil, List.mem_cons, List.not_mem_nil,
      or_false] at hname
    simpa [specials] using hname
  refine ⟨S, hS, ?_⟩
  obtain ⟨hnames, hblanks, hends'⟩ := special_image S hS
  rw [List.append_assoc _ eol] at h
  obtain ⟨c, h, hends⟩ := of_evalFrom_append h
  obtain ⟨c', h, hloop⟩ := of_evalFrom_append h
  have hsplit : before ++ [10] ++ name ++ [58] = before ++ ([10] ++ name ++ [58]) := by simp
  rw [hsplit] at h
  obtain ⟨s, hs, h⟩ := of_evalFrom_append h
  have hlt : s ∈ List.range 124 := by
    by_cases hone : s = 1
    · rw [hone]
      decide
    · obtain ⟨-, b, c, e, -, -, he, rfl⟩ := of_evalFrom_one hs hone
      exact List.mem_range.mpr (done_edge he).1.target
  have hword : List.Forall₂ (fun b bytes => b ∈ bytes) ([10] ++ name ++ [58])
      ([[10]] ++ S.name.map variants ++ [[58]]) := by
    refine List.rel_append (List.rel_append ?_ ?_) ?_
    · exact .cons (by decide) .nil
    · rw [← hname, List.map_map, List.forall₂_map_right_iff, List.forall₂_same]
      exact fun b _ => mem_variants b
    · exact .cons (by decide) .nil
  obtain rfl := hnames _ (evalFrom_mem hword hlt h)
  obtain rfl := evalFrom_loop hblanks hblank hloop
  refine hends' eol heol eol' heol' _
    (evalFrom_mem ?_ (List.mem_singleton_self _) hends)
  rw [List.forall₂_map_right_iff, List.forall₂_same]
  exact fun b _ => List.mem_singleton_self b

/-! ## Every buffer is executed -/

namespace HttpResponseParser

/-- The positions in a parser whose machine has come to the position `p`. -/
structure Within (p : Nat) (x : HttpResponseParser) : Prop where
  mark : x.mark ≤ p
  fieldStart : x.fieldStart ≤ p
  fieldLen : x.fieldLen ≤ p
  bodyStart : x.bodyStart ≤ p + 1
  nread : x.nread = 0

variable {buffer : List UInt8} {p : Nat} {x : HttpResponseParser}

theorem Within.mono {q : Nat} (h : Within p x) (hpq : p ≤ q) : Within q x :=
  ⟨Nat.le_trans h.mark hpq, Nat.le_trans h.fieldStart hpq, Nat.le_trans h.fieldLen hpq,
    Nat.le_trans h.bodyStart (Nat.succ_le_succ hpq), h.nread⟩

theorem act_total (hp : p < 2 ^ 63) (a : ResponseAction) (h : Within p x) :
    ∃ y, act buffer p x a = some y ∧ Within p y := by
  have hmark : len x.mark p < 2 ^ 63 := by
    have := len_le h.mark
    omega
  have hlen : x.fieldLen < 2 ^ 63 := Nat.lt_of_le_of_lt h.fieldLen hp
  cases a with
  | mark => exact ⟨_, rfl, { h with mark := Nat.le_refl p }⟩
  | startField => exact ⟨_, rfl, { h with fieldStart := Nat.le_refl p }⟩
  | writeField =>
    exact ⟨_, rfl, { h with fieldLen := Nat.le_trans (len_le h.fieldStart) (Nat.sub_le ..) }⟩
  | writeValue =>
    simp only [act, onResponseHttpField, string_total hlen, string_total hmark]
    split
    · exact ⟨x, rfl, h⟩
    · exact ⟨_, rfl, h.1, h.2, h.3, h.4, h.5⟩
  | reasonPhrase =>
    exact ⟨_, congrArg (Option.map _) (string_total hmark), h.1, h.2, h.3, h.4, h.5⟩
  | httpVersion =>
    simp only [act, onResponseHttpVersion, string_total hmark]
    split
    · exact ⟨_, rfl, h.1, h.2, h.3, h.4, h.5⟩
    · split <;> exact ⟨_, rfl, h.1, h.2, h.3, h.4, h.5⟩
  | done => exact ⟨_, rfl, { h with bodyStart := Nat.le_refl (p + 1) }⟩
  | writeContentLen | writeConnectionClose | statusCode | chunkSize | transChunked =>
    exact ⟨_, rfl, h.1, h.2, h.3, h.4, h.5⟩

/-- **The parser returns**: every buffer is executed, and the assertions hold. -/
theorem parserExecute_run (hx : Within 0 x) (hcs : x.cs = 1) (hne : buffer ≠ [])
    (hbuf : buffer.length < 2 ^ 63) :
    ∃ z cs p, exec responseRows (· == .done) (act buffer) 1 x 0 buffer = some (z, cs, p) ∧
      x.parserExecute buffer = some ({ z with cs := cs, nread := p }, p) := by
  have hpos := List.length_pos_iff.mpr hne
  obtain ⟨⟨z, cs, p⟩, hz, hp, -, hw⟩ : ∃ r,
      exec responseRows (· == .done) (act buffer) 1 x 0 buffer = some r ∧
        r.2.2 ≤ 0 + buffer.length ∧ ∃ _ : Nat, Within (r.2.2 - 1) r.1 :=
    exec_total (I := fun _ p x => Within (p - 1) x) (N := 2 ^ 63) (fun hp _ hI =>
        foldlM_total (fun a _ => act_total hp a) (hI.mono (Nat.sub_le ..)))
      (show 0 + buffer.length ≤ 2 ^ 63 by omega) hx
  obtain ⟨h1, h2, h3, h4, h5⟩ := hw
  refine ⟨z, cs, p, hz, ?_⟩
  dsimp only at hp h1 h2 h3 h4 h5
  have hcheck : p ≤ buffer.length ∧ z.bodyStart ≤ buffer.length ∧ z.mark < buffer.length ∧
      z.fieldLen ≤ buffer.length ∧ z.fieldStart < buffer.length :=
    ⟨by omega, by omega, by omega, by omega, by omega⟩
  simp only [parserExecute, hcs, hz, h5, Nat.zero_add, Option.bind_eq_bind, Option.bind_some,
    if_pos hcheck]

theorem execute_run (hne : buffer ≠ []) (hbuf : buffer.length < 2 ^ 63) :
    ∃ z cs p, exec responseRows (· == .done) (act buffer) 1 {} 0 buffer = some (z, cs, p) ∧
      execute {} buffer false = some ({ z with cs := cs, nread := p }, buffer.drop p) := by
  obtain ⟨z, cs, p, hz, hy⟩ := parserExecute_run (x := {})
    ⟨Nat.zero_le _, Nat.zero_le _, Nat.zero_le _, Nat.zero_le _, rfl⟩ rfl hne hbuf
  refine ⟨z, cs, p, hz, ?_⟩
  rw [execute, if_neg Bool.false_ne_true, hy]
  rfl

end HttpResponseParser

/-! ## The runs of `done` -/

variable {buffer : List UInt8} {x y : HttpResponseParser} {log log' : List Nat} {p c n : Nat}

theorem foldlM_actDones {acts : List ResponseAction}
    (h : acts.foldlM (actDones buffer p) (x, log) = some (y, log')) :
    log' = log ++ List.replicate (acts.count .done) p := by
  induction acts generalizing x log with
  | nil =>
    cases h
    exact (List.append_nil log').symm
  | cons a acts ih =>
    obtain ⟨z, hz, h⟩ := Option.bind_eq_some_iff.mp h
    obtain ⟨z', -, rfl⟩ := Option.map_eq_some_iff.mp hz
    rw [ih h]
    by_cases ha : a = .done
    · rw [if_pos ha, ha, List.count_cons_self, List.append_assoc, List.replicate_succ]
      rfl
    · rw [if_neg ha, List.count_cons_of_ne ha]

/-- The execution halts after `first`, its first bytes that lead to a final state. -/
structure Halts (cs : Nat) (first : List UInt8) (c : Nat) : Prop where
  ne_nil : first ≠ []
  reached : evalFrom responseRows cs first = some c
  final : 120 ≤ c
  first : ∀ u, u <+: first → u ≠ [] → ∀ c ∈ evalFrom responseRows cs u, 120 ≤ c → u = first

/-- No bytes of the block lead to a final state. -/
def Passes (cs : Nat) (block : List UInt8) : Prop :=
  ∀ u, u <+: block → u ≠ [] → ∀ c ∈ evalFrom responseRows cs u, c < 120

theorem Passes.cons (he : edge responseRows cs b = some e) (hlt : e.target < 120)
    (h : Passes e.target block) : Passes cs (b :: block) := by
  rintro u hu hne c hc
  obtain ⟨a, u, rfl⟩ := List.exists_cons_of_ne_nil hne
  obtain ⟨rfl, hu'⟩ := List.cons_prefix_cons.mp hu
  rw [evalFrom_cons he] at hc
  by_cases hnil : u = []
  · subst hnil
    cases hc
    exact hlt
  · exact h u hu' hnil c hc

theorem Halts.cons (he : edge responseRows cs b = some e) (hlt : e.target < 120)
    (h : Halts e.target block c) : Halts cs (b :: block) c := by
  refine ⟨List.cons_ne_nil b block, (evalFrom_cons he block).trans h.reached, h.final, ?_⟩
  rintro u hu hne c hc hfinal
  obtain ⟨a, u, rfl⟩ := List.exists_cons_of_ne_nil hne
  obtain ⟨rfl, hu'⟩ := List.cons_prefix_cons.mp hu
  rw [evalFrom_cons he] at hc
  by_cases hnil : u = []
  · subst hnil
    cases hc
    omega
  · rw [h.first u hu' hnil c hc hfinal]

/-- **When `done` runs**: once, at the last byte before the machine halts, or never. -/
theorem exec_dones
    (h : exec responseRows (· == .done) (actDones buffer) cs (x, log) p block =
      some ((y, log'), c, n)) :
    log' = log ∧ (c < 120 ∨ block = []) ∧ Passes cs block ∨
      ∃ first rest, block = first ++ rest ∧ Halts cs first c ∧ n = p + first.length ∧
        log' = log ++ [n - 1] := by
  induction block generalizing cs x p log with
  | nil =>
    cases h
    exact .inl ⟨rfl, .inr rfl, fun u hu hne => absurd (List.prefix_nil.mp hu) hne⟩
  | cons b block ih =>
    rcases of_exec_cons h with ⟨hnone, hr⟩ | ⟨e, ⟨z, log₁⟩, he, hz, hrest⟩
    · cases hr
      refine .inl ⟨rfl, .inl (by decide), ?_⟩
      rintro u hu hne c hc
      obtain ⟨a, u, rfl⟩ := List.exists_cons_of_ne_nil hne
      obtain ⟨rfl, -⟩ := List.cons_prefix_cons.mp hu
      obtain ⟨e, he, -⟩ := of_evalFrom_cons hc
      rw [hnone] at he
      cases he
    · have hedge := (done_edge he).1
      have hlog := foldlM_actDones hz
      rw [hedge.count] at hlog
      rcases hrest with ⟨hs, hr⟩ | ⟨hs, hr⟩
      · cases hr
        have hfinal := hedge.stops.mp hs
        rw [if_pos hfinal] at hlog
        refine .inr ⟨[b], block, rfl, ⟨by simp, evalFrom_cons he [], hfinal, ?_⟩, rfl, hlog⟩
        intro u hu hne _ _ _
        exact hu.eq_of_length_le (List.length_pos_iff.mpr hne)
      · have hlt : e.target < 120 := by
          by_contra hge
          rw [hedge.stops.mpr (Nat.le_of_not_lt hge)] at hs
          cases hs
        rw [if_neg (Nat.not_le_of_lt hlt)] at hlog
        obtain rfl : log₁ = log := hlog.trans (List.append_nil log)
        rcases ih hr with ⟨rfl, hc, hpass⟩ | ⟨first, rest, rfl, hhalts, rfl, hlog'⟩
        · refine .inl ⟨rfl, .inl ?_, hpass.cons he hlt⟩
          rcases hc with hc | rfl
          · exact hc
          · cases hr
            exact hlt
        · refine .inr ⟨b :: first, rest, rfl, hhalts.cons he hlt, ?_, hlog'⟩
          rw [List.length_cons]
          omega

/-- The execution with the positions of `done`. -/
theorem exec_actDones {r : HttpResponseParser × Nat × Nat}
    (h : exec responseRows (· == .done) (HttpResponseParser.act buffer) cs x 0 block = some r) :
    ∃ l, exec responseRows (· == .done) (actDones buffer) cs (x, []) 0 block =
      some ((r.1, l), r.2) := by
  have hmap : (exec responseRows (· == .done) (actDones buffer) cs (x, []) 0 block).map
      (fun r => (r.1.1, r.2)) =
        exec responseRows (· == .done) (HttpResponseParser.act buffer) cs x 0 block :=
    exec_map (f := Prod.fst)
      (fun p x a => by rw [actDones, Option.map_map]; exact congrFun Option.map_id _) cs (x, []) 0
      block
  obtain ⟨⟨⟨z, l⟩, t⟩, hrun, heq⟩ := Option.map_eq_some_iff.mp (hmap.trans h)
  cases heq
  exact ⟨l, hrun⟩

theorem edge_final (b : UInt8) : edge responseRows 120 b = none := rfl

/-- The states of the special headers without a value are the final states that `is_finished`
does not know. -/
theorem eq_final (hlt : cs < 124) (hfinal : 120 ≤ cs) (hne : cs ≠ 120) :
    ∃ S ∈ specials, cs = S.final := by
  have : cs = 121 ∨ cs = 122 ∨ cs = 123 := by omega
  simp only [specials, List.exists_mem_cons_iff]
  tauto

/-- **Where a response is finished**: `is_finished` knows the end of a block exactly when no special
header without a value comes before an empty line. -/
theorem Halts.final_iff {first rest : List UInt8} (h : Halts 1 first c)
    (hacc : Accepted (first ++ rest)) :
    (first = first ++ rest ∧ c = 120) ↔ ¬ HasBlank (first ++ rest) := by
  obtain ⟨t, ht, -⟩ := hacc
  constructor
  · rintro ⟨hrest, rfl⟩ ⟨text, hpre, hblank⟩
    rw [← hrest] at hpre
    obtain ⟨tail, rfl⟩ := hpre
    obtain ⟨c', hc', htail⟩ := of_evalFrom_append h.reached
    obtain ⟨S, hS, rfl⟩ := final_of_endsBlank hblank hc'
    have hfinal : ∀ S ∈ specials, S.final ≠ 120 ∧ 120 ≤ S.final := by decide
    have hne : text ≠ [] := by
      obtain ⟨before, name, blank, eol, eol', rfl, -⟩ := hblank
      simp
    obtain rfl := List.append_right_eq_self.mp
      (h.first text (List.prefix_append ..) hne _ hc' (hfinal S hS).2).symm
    exact (hfinal S hS).1 (Option.some.inj htail)
  · intro hblank
    have hc : c = 120 := by
      by_contra hne
      obtain ⟨before, b, c', e, -, -, he, rfl⟩ := of_evalFrom_one h.reached (by
        have := h.final
        omega)
      obtain ⟨S, hS, htarget⟩ := eq_final (done_edge he).1.target h.final hne
      refine hblank ⟨first, List.prefix_append .., final_text hS ?_⟩
      rw [← htarget]
      exact h.reached
    subst hc
    refine ⟨?_, rfl⟩
    -- the machine has no edge from there
    obtain ⟨c', hc', hrest⟩ := of_evalFrom_append ht
    obtain rfl := Option.some.inj (h.reached.symm.trans hc')
    cases rest with
    | nil => exact (List.append_nil first).symm
    | cons b rest =>
      obtain ⟨e, he, -⟩ := of_evalFrom_cons hrest
      rw [edge_final] at he
      cases he

/-- A parser is finished only when `done` has run. -/
theorem dones_of_isFinished {chunck : Bool} {left : List UInt8}
    (h : x.execute buffer chunck = some (y, left)) (hfin : y.isFinished = true) :
    ∃ p, (if chunck then x.init else x).dones buffer = some [p] := by
  rw [HttpResponseParser.execute] at h
  generalize (if chunck = true then x.init else x) = x at h ⊢
  obtain ⟨⟨y', n⟩, hy, h⟩ := Option.bind_eq_some_iff.mp h
  cases h
  obtain ⟨⟨z, cs, p⟩, hz, hy⟩ := Option.bind_eq_some_iff.mp hy
  dsimp only at hy
  split at hy
  · rename_i hcheck
    cases hy
    obtain ⟨l, hl⟩ := exec_actDones hz
    have hdones : x.dones buffer = some l := by
      rw [HttpResponseParser.dones, hl]
      rfl
    rw [HttpResponseParser.isFinished, beq_iff_eq] at hfin
    obtain rfl : cs = 120 := hfin
    rcases exec_dones hl with ⟨-, hc, -⟩ | ⟨first, rest, -, -, -, rfl⟩
    · rcases hc with hc | rfl
      · exact absurd hc (by decide)
      · exact absurd hcheck.2.2.1 (Nat.not_lt_zero _)
    · exact ⟨_, hdones⟩
  · cases hy

/-- The parser of an accepted block runs `done` once, and this at its end, with the parser finished,
exactly when no special header without a value comes before an empty line. -/
theorem finished_iff {rest : List UInt8} (hacc : Accepted block)
    (hbuf : (block ++ rest).length < 2 ^ 31) :
    (∃ y left p, HttpResponseParser.execute {} (block ++ rest) false = some (y, left) ∧
      HttpResponseParser.dones {} (block ++ rest) = some [p] ∧
      (p + 1 = block.length ∧ y.isFinished = true ↔ ¬ HasBlank block)) ∧
    ∀ (x : HttpResponseParser) (buffer : List UInt8) (chunck : Bool) (y : HttpResponseParser)
      (left : List UInt8), x.execute buffer chunck = some (y, left) → y.isFinished = true →
        ∃ p, (if chunck then x.init else x).dones buffer = some [p] := by
  have hne : block ≠ [] := by
    rintro rfl
    revert hacc
    decide
  obtain ⟨z, cs, p, hz, hy⟩ := HttpResponseParser.execute_run
    (List.append_ne_nil_of_left_ne_nil hne rest) (Nat.lt_trans hbuf (by decide))
  obtain ⟨l, hl⟩ := exec_actDones hz
  rcases exec_dones hl with ⟨-, -, hpass⟩ | ⟨first, tail, hsplit, hhalts, rfl, rfl⟩
  · obtain ⟨c, hc, hfinal⟩ := hacc
    exact absurd (hpass block (List.prefix_append ..) hne c hc) (Nat.not_lt_of_le hfinal)
  obtain ⟨rest', rfl⟩ : first <+: block := by
    have hpre : first <+: block ++ rest := ⟨tail, hsplit.symm⟩
    rcases List.prefix_or_prefix_of_prefix hpre (List.prefix_append block rest) with h | h
    · exact h
    · obtain ⟨c, hc, hfinal⟩ := hacc
      exact hhalts.first block h hne c hc hfinal ▸ List.prefix_rfl
  have hpos := List.length_pos_iff.mpr hhalts.ne_nil
  refine ⟨⟨_, _, 0 + first.length - 1, hy, ?_, ?_⟩, fun _ _ _ _ _ => dones_of_isFinished⟩
  · rw [HttpResponseParser.dones, hl]
    rfl
  · rw [← hhalts.final_iff hacc]
    refine and_congr ⟨fun h => ?_, fun h => ?_⟩ ?_
    · have hrest : rest' = [] := by
        rw [List.length_append] at h
        exact List.length_eq_zero_iff.mp (by omega)
      rw [hrest, List.append_nil]
    · rw [← h]
      omega
    · exact beq_iff_eq

def closeHead : List UInt8 :=
  bytes "HTTP/1.1 200 OK\r\nConnection: close\r\nContent-Length: 2\r\n\r\n"

theorem finished_iff_close :
    ∃ y left, HttpResponseParser.execute {} (closeHead ++ bytes "ok") false = some (y, left) ∧
      HttpResponseParser.dones {} (closeHead ++ bytes "ok") = some [56] ∧ y.isFinished = true ∧
      ¬ HasBlank closeHead := by
  obtain ⟨⟨y, left, p, hy, hdones, hiff⟩, -⟩ := @finished_iff closeHead (bytes "ok")
    (by decide +kernel) (by decide +kernel)
  have hrun : (HttpResponseParser.execute {} (closeHead ++ bytes "ok") false).map
        (·.1.isFinished) = some true ∧
      HttpResponseParser.dones {} (closeHead ++ bytes "ok") = some [56] := by
    decide +kernel
  rw [hy, hdones] at hrun
  have hfin : y.isFinished = true := Option.some.inj hrun.1
  obtain rfl : p = 56 := (List.cons.inj (Option.some.inj hrun.2)).1
  exact ⟨y, left, hy, hdones, hfin, hiff.mp ⟨by decide +kernel, hfin⟩⟩

/-- The parser has read the whole block and run `done` at its end, and is not finished. -/
theorem blank_connection :
    Accepted (bytes "HTTP/1.1 200 OK\r\nConnection:\r\n\r\n") ∧
      HttpResponseParser.dones {} (bytes "HTTP/1.1 200 OK\r\nConnection:\r\n\r\n") = some [31] ∧
      (HttpResponseParser.execute {} (bytes "HTTP/1.1 200 OK\r\nConnection:\r\n\r\n") false).map
        (fun y => (y.1.isFinished, y.2)) = some (false, []) := by
  decide +kernel

end Tigerkin.Http
