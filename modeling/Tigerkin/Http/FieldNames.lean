import Tigerkin.Http.RecvRequest
import Tigerkin.Http.RequestHead
import Tigerkin.Std.Lines

/-! # The names of header fields

`HTTP_CTL = (0 - 31) | 127` is the set of the bytes 0 and 127, because `-` takes the byte 31 from the
set of the byte 0. So the bytes 1 to 31 may be in a name, the line breaks among them: a line without
a colon becomes the beginning of the next name, and so does an empty line after it
(`fieldNames_iff`). -/

namespace Tigerkin.Http

open Machine CString

def separators : List UInt8 := bytes "()<>@,;:/[]?= \t" ++ [34, 92, 123, 125]

/-- An HTTP token. -/
structure IsHttpToken (name : List UInt8) : Prop where
  ne_nil : name ≠ []
  noControl : ∀ b ∈ name, 31 < b ∧ b < 127
  noSeparator : ∀ b ∈ name, b ∉ separators

/-- The lines up to the first empty one begin with a token and a colon. -/
inductive WellNamed : List UInt8 → Prop
  | empty {line rest : List UInt8} : line = [] ∨ line = [13] → WellNamed (line ++ 10 :: rest)
  | field {name value rest : List UInt8} : IsHttpToken name → 10 ∉ value → WellNamed rest →
    WellNamed (name ++ 58 :: value ++ 10 :: rest)

/-- A message to a socket, in XML or JSON. It has no request line and no headers. -/
def IsSocketMessage (buffer : List UInt8) : Prop := buffer.head? = some 60 ∨ buffer.head? = some 64

instance (buffer : List UInt8) : Decidable (IsSocketMessage buffer) :=
  inferInstanceAs (Decidable (_ ∨ _))

/-- The first `n` bytes end with the first empty line after the first line. -/
def EndsAtEmptyLine (buffer : List UInt8) (n : Nat) : Prop :=
  ∃ (first : List UInt8) (lines : List (List UInt8)) (last : List UInt8),
    buffer.take n = first ++ 10 :: (lines.flatMap (· ++ [10]) ++ last ++ [10]) ∧ 10 ∉ first ∧
      (∀ line ∈ lines, 10 ∉ line ∧ line ≠ [] ∧ line ≠ [13]) ∧ (last = [] ∨ last = [13])

/-- The actions of the parser, with the names that they pass to `http_field`. -/
def actNames (buffer : List UInt8) (p : Nat) (s : HttpRequestParser × List (List UInt8))
    (a : RequestAction) : Option (HttpRequestParser × List (List UInt8)) :=
  (s.1.act buffer p a).map fun y =>
    (y, if a = .writeValue then s.2 ++ [(buffer.drop s.1.fieldStart).take s.1.fieldLen] else s.2)

/-- The names that `execute` passes to `http_field`. -/
def HttpRequestParser.fieldNames (x : HttpRequestParser) (buffer : List UInt8) :
    Option (List (List UInt8)) :=
  (exec (requestRows x.uriRelaxed) (· == .done) (actNames buffer) x.cs (x, []) 0 buffer).map
    fun r => r.1.2

/-! ## The edges of the header states -/

/-- At the start of a line, in a name, and behind a carriage return there. -/
theorem name_does :
    (∀ b : UInt8, ∀ r, Does r 13 b
      (if b = 10 then [([.startField, .done], 348)] else if b = 13 then [([.startField], 18)]
        else if b = 58 then [] else [([.startField], 14)])) ∧
    (∀ b : UInt8, ∀ r, Does r 14 b (if b = 58 then [([.writeField], 15)] else [([], 14)])) ∧
    ∀ b : UInt8, ∀ r, Does r 18 b
      (if b = 10 then [([.done], 348)] else if b = 58 then [([.writeField], 15)]
        else [([], 14)]) :=
  ⟨forall_byte (by decide +kernel), forall_byte (by decide +kernel),
    forall_byte (by decide +kernel)⟩

/-- In a value, and between the two bytes that end its line. -/
theorem value_does :
    (∀ b : UInt8, ∀ r, ∀ cs ∈ [15, 16], Does r cs b
      (if b = 10 then [([.mark, .writeValue], 13), ([.writeValue], 13)]
        else if b = 13 then [([.mark, .writeValue], 17), ([.writeValue], 17)]
        else [([.mark], 15), ([.mark], 16), ([], 16)])) ∧
    ∀ b : UInt8, ∀ r, Does r 17 b (if b = 10 then [([], 13)] else []) :=
  ⟨forall_byte (by decide +kernel), forall_byte (by decide +kernel)⟩

/-! ## Header lines -/

abbrev runNames (r : Bool) (buffer : List UInt8) :=
  exec (requestRows r) (· == .done) (actNames buffer)

variable {r : Bool} {buffer bs : List UInt8} {cs q c n : Nat} {x y : HttpRequestParser}
  {log names : List (List UInt8)}

/-- A byte of a run that ends in a final state. -/
theorem runNames_cons {b : UInt8} {l : List (List RequestAction × Nat)}
    {s t : HttpRequestParser × List (List UInt8)} (hd : Does r cs b l)
    (h : runNames r buffer cs s q (b :: bs) = some (t, c, n)) (hc : 348 ≤ c) :
    ∃ d ∈ l, ∃ z, d.1.foldlM (actNames buffer q) s = some z ∧
      (.done ∈ d.1 ∧ t = z ∧ n = q + 1 ∨
        .done ∉ d.1 ∧ runNames r buffer d.2 z (q + 1) bs = some (t, c, n)) := by
  rcases of_exec_cons h with ⟨-, hr⟩ | ⟨e, z, he, hz, hrest⟩
  · obtain ⟨-, hr⟩ := Prod.mk.inj hr
    obtain ⟨rfl, -⟩ := Prod.mk.inj hr
    omega
  · have hdone : e.stops (· == .done) = true ↔ .done ∈ e.acts := by
      simp [Edge.stops]
    refine ⟨_, hd e he, z, hz, ?_⟩
    rcases hrest with ⟨hs, hr⟩ | ⟨hs, hr⟩
    · cases hr
      exact .inl ⟨hdone.mp hs, rfl, rfl⟩
    · refine .inr ⟨fun hmem => ?_, hr⟩
      rw [hdone.mpr hmem] at hs
      cases hs

/-- The name that an edge with `write_value` passes on. -/
theorem foldlM_writeValue {acts : List RequestAction} {p : Nat} {z : HttpRequestParser}
    (hacts : acts = [.mark, .writeValue] ∨ acts = [.writeValue])
    (h : acts.foldlM (actNames buffer p) (x, log) = some (z, names)) :
    names = log ++ [(buffer.drop x.fieldStart).take x.fieldLen] := by
  have hwrite {x : HttpRequestParser}
      (h : List.foldlM (actNames buffer p) (x, log) [RequestAction.writeValue] = some (z, names)) :
      names = log ++ [(buffer.drop x.fieldStart).take x.fieldLen] := by
    obtain ⟨t, ht, h⟩ := Option.bind_eq_some_iff.mp h
    obtain ⟨y, -, rfl⟩ := Option.map_eq_some_iff.mp ht
    cases h
    rfl
  rcases hacts with rfl | rfl
  · exact hwrite (x := { x with mark := p }) h
  · exact hwrite h

/-- The other actions pass no name on. -/
theorem foldlM_quiet {acts : List RequestAction} {p : Nat} {z : HttpRequestParser}
    (hacts : .writeValue ∉ acts)
    (h : acts.foldlM (actNames buffer p) (x, log) = some (z, names)) : names = log := by
  induction acts generalizing x with
  | nil =>
    cases h
    rfl
  | cons a acts ih =>
    obtain ⟨ha, hacts⟩ := not_or.mp (mt List.mem_cons.mpr hacts)
    obtain ⟨t, ht, h⟩ := Option.bind_eq_some_iff.mp h
    obtain ⟨y, -, rfl⟩ := Option.map_eq_some_iff.mp ht
    rw [if_neg (Ne.symm ha)] at h
    exact ih hacts h

/-- The value of a field and the end of its line. -/
theorem runNames_value (hcs : cs ∈ [15, 16])
    (h : runNames r buffer cs (x, log) q bs = some ((y, names), c, n)) (hc : 348 ≤ c) :
    ∃ value eol rest z, bs = value ++ (eol ++ rest) ∧ 10 ∉ value ∧ (eol = [10] ∨ eol = [13, 10]) ∧
      runNames r buffer 13 (z, log ++ [(buffer.drop x.fieldStart).take x.fieldLen])
        (q + value.length + eol.length) rest = some ((y, names), c, n) := by
  induction bs generalizing cs x q with
  | nil =>
    cases h
    simp only [List.mem_cons, List.not_mem_nil, or_false] at hcs
    omega
  | cons b bs ih =>
    obtain ⟨d, hd, ⟨z, log'⟩, hz, hrest⟩ := runNames_cons (value_does.1 b r cs hcs) h hc
    split at hd
    · rename_i hb
      have hacts : d.2 = 13 ∧ .done ∉ d.1 ∧ (d.1 = [.mark, .writeValue] ∨ d.1 = [.writeValue]) := by
        rcases List.mem_pair.mp hd with rfl | rfl <;> simp
      obtain rfl := foldlM_writeValue hacts.2.2 hz
      obtain ⟨-, hrest⟩ := hrest.resolve_left fun h => hacts.2.1 h.1
      rw [hacts.1] at hrest
      exact ⟨[], [10], bs, z, by rw [hb]; rfl, List.not_mem_nil, .inl rfl, hrest⟩
    split at hd
    · rename_i hb
      have hacts : d.2 = 17 ∧ .done ∉ d.1 ∧ (d.1 = [.mark, .writeValue] ∨ d.1 = [.writeValue]) := by
        rcases List.mem_pair.mp hd with rfl | rfl <;> simp
      obtain rfl := foldlM_writeValue hacts.2.2 hz
      obtain ⟨-, hrest⟩ := hrest.resolve_left fun h => hacts.2.1 h.1
      rw [hacts.1] at hrest
      cases bs with
      | nil =>
        cases hrest
        omega
      | cons b' bs =>
        obtain ⟨d', hd', z', hz', hrest⟩ := runNames_cons (value_does.2 b' r) hrest hc
        split at hd'
        · rename_i hb'
          obtain rfl := List.mem_singleton.mp hd'
          cases hz'
          obtain ⟨-, hrest⟩ := hrest.resolve_left fun h => List.not_mem_nil h.1
          exact ⟨[], [13, 10], bs, z, by rw [hb, hb']; rfl, List.not_mem_nil, .inr rfl, hrest⟩
        · cases hd'
    · rename_i hb _
      have hacts : d.2 ∈ [15, 16] ∧ .done ∉ d.1 ∧ log' = log ∧ z.fieldStart = x.fieldStart ∧
          z.fieldLen = x.fieldLen := by
        simp only [List.mem_cons, List.not_mem_nil, or_false] at hd
        rcases hd with rfl | rfl | rfl <;> cases hz <;> simp
      obtain ⟨hcs', hdone, rfl, hs, hl⟩ := hacts
      obtain ⟨-, hrest⟩ := hrest.resolve_left fun h => hdone h.1
      obtain ⟨value, eol, rest, z', rfl, hv, he, hrest⟩ := ih hcs' hrest
      rw [hs, hl] at hrest
      refine ⟨b :: value, eol, rest, z', rfl, ?_, he, ?_⟩
      · exact List.not_mem_cons_of_ne_of_not_mem (Ne.symm hb) hv
      · rw [List.length_cons, Nat.add_comm value.length, ← Nat.add_assoc]
        exact hrest

/-- What is left of a name, or the line break after a carriage return. -/
theorem runNames_name (hcs : cs = 14 ∨ cs = 18)
    (h : runNames r buffer cs (x, log) q bs = some ((y, names), c, n)) (hc : 348 ≤ c) :
    (cs = 18 ∧ ∃ rest, bs = 10 :: rest ∧ names = log ∧ n = q + 1) ∨
      ∃ more rest z, bs = more ++ 58 :: rest ∧ 58 ∉ more ∧ (cs = 18 → more.head? ≠ some 10) ∧
        z.fieldStart = x.fieldStart ∧ z.fieldLen = len x.fieldStart (q + more.length) ∧
        runNames r buffer 15 (z, log) (q + more.length + 1) rest = some ((y, names), c, n) := by
  induction bs generalizing cs x q with
  | nil =>
    cases h
    omega
  | cons b bs ih =>
    have hcolon {z : HttpRequestParser × List (List UInt8)}
        (hz : List.foldlM (actNames buffer q) (x, log) [RequestAction.writeField] = some z)
        (hrest : runNames r buffer 15 z (q + 1) bs = some ((y, names), c, n)) (hb : b = 58) :
        ∃ more rest z, b :: bs = more ++ 58 :: rest ∧ 58 ∉ more ∧
          (cs = 18 → more.head? ≠ some 10) ∧ z.fieldStart = x.fieldStart ∧
          z.fieldLen = len x.fieldStart (q + more.length) ∧
          runNames r buffer 15 (z, log) (q + more.length + 1) rest = some ((y, names), c, n) := by
      cases hz
      exact ⟨[], bs, { x with fieldLen := len x.fieldStart q }, by rw [hb]; rfl, List.not_mem_nil,
        by simp, rfl, rfl, hrest⟩
    have hmore {z : HttpRequestParser × List (List UInt8)}
        (hz : List.foldlM (actNames buffer q) (x, log) [] = some z)
        (hrest : runNames r buffer 14 z (q + 1) bs = some ((y, names), c, n)) (hb : b ≠ 58)
        (hcr : cs = 18 → b ≠ 10) :
        ∃ more rest z, b :: bs = more ++ 58 :: rest ∧ 58 ∉ more ∧
          (cs = 18 → more.head? ≠ some 10) ∧ z.fieldStart = x.fieldStart ∧
          z.fieldLen = len x.fieldStart (q + more.length) ∧
          runNames r buffer 15 (z, log) (q + more.length + 1) rest = some ((y, names), c, n) := by
      cases hz
      rcases ih (.inl rfl) hrest with ⟨h0, -⟩ | ⟨more, rest, z, rfl, hm, -, hs, hl, hrest⟩
      · omega
      · have hlen : q + 1 + more.length = q + (b :: more).length := by
          rw [List.length_cons, Nat.add_assoc, Nat.add_comm 1]
        rw [hlen] at hl hrest
        exact ⟨b :: more, rest, z, rfl, List.not_mem_cons_of_ne_of_not_mem (Ne.symm hb) hm,
          fun h18 => by simpa using hcr h18, hs, hl, hrest⟩
    rcases hcs with rfl | rfl
    · obtain ⟨d, hd, z, hz, hrest⟩ := runNames_cons (name_does.2.1 b r) h hc
      split at hd
      · obtain rfl := List.mem_singleton.mp hd
        obtain ⟨-, hrest⟩ := hrest.resolve_left (by simp)
        exact .inr (hcolon hz hrest ‹_›)
      · obtain rfl := List.mem_singleton.mp hd
        obtain ⟨-, hrest⟩ := hrest.resolve_left (by simp)
        exact .inr (hmore hz hrest ‹_› (by simp))
    · obtain ⟨d, hd, z, hz, hrest⟩ := runNames_cons (name_does.2.2 b r) h hc
      split at hd
      · obtain rfl := List.mem_singleton.mp hd
        obtain ⟨-, rfl, hn⟩ := hrest.resolve_right (by simp)
        exact .inl ⟨rfl, bs, by rw [‹b = 10›], foldlM_quiet (by simp) hz, hn⟩
      split at hd
      · obtain rfl := List.mem_singleton.mp hd
        obtain ⟨-, hrest⟩ := hrest.resolve_left (by simp)
        exact .inr (hcolon hz hrest ‹_›)
      · obtain rfl := List.mem_singleton.mp hd
        obtain ⟨-, hrest⟩ := hrest.resolve_left (by simp)
        exact .inr (hmore hz hrest ‹_› fun _ => ‹_›)

/-- A header block as the machine reads it: a name goes up to the next colon. -/
inductive Block : List (List UInt8) → List UInt8 → Prop
  | close {eol : List UInt8} : eol = [10] ∨ eol = [13, 10] → Block [] eol
  | field {name value eol rest : List UInt8} {names : List (List UInt8)} : name ≠ [] → 58 ∉ name →
    name.head? ≠ some 10 → ¬ [13, 10] <+: name → 10 ∉ value → (eol = [10] ∨ eol = [13, 10]) →
    Block names rest → Block (name :: names) (name ++ 58 :: (value ++ (eol ++ rest)))

/-- **What the machine makes of the header lines.** -/
theorem runNames_block (hbuf : buffer.length < 2 ^ 64) (hbs : buffer.drop q = bs)
    (h : runNames r buffer 13 (x, log) q bs = some ((y, names), c, n)) (hc : 348 ≤ c) :
    ∃ blk tail names', bs = blk ++ tail ∧ n = q + blk.length ∧ Block names' blk ∧
      names = log ++ names' := by
  induction hm : bs.length using Nat.strong_induction_on generalizing bs q x log with
  | _ m ih =>
  subst hm
  cases bs with
  | nil =>
    cases h
    omega
  | cons b bs =>
    -- the rest of a field whose name begins with `b`
    have hfield {more rest : List UInt8} {z : HttpRequestParser} (hb : b ∉ [10, 58])
        (hcr : ¬ [13, 10] <+: b :: more) (hsplit : bs = more ++ 58 :: rest) (hmore : 58 ∉ more)
        (hs : z.fieldStart = q) (hl : z.fieldLen = len q (q + 1 + more.length))
        (hrest : runNames r buffer 15 (z, log) (q + 1 + more.length + 1) rest =
          some ((y, names), c, n)) :
        ∃ blk tail names', b :: bs = blk ++ tail ∧ n = q + blk.length ∧ Block names' blk ∧
          names = log ++ names' := by
      obtain ⟨value, eol, rest, z', rfl, hv, he, hrest⟩ := runNames_value (by simp) hrest hc
      have hname : (buffer.drop z.fieldStart).take z.fieldLen = b :: more := by
        have hlen := congrArg List.length hbs
        rw [List.length_drop, hsplit, List.length_cons, List.length_append] at hlen
        rw [hs, hl, hbs, Nat.add_assoc, len_add q (by omega), hsplit, Nat.add_comm]
        simp
      rw [hname] at hrest
      have hpos : q + (b :: (more ++ 58 :: (value ++ eol))).length =
          q + 1 + more.length + 1 + value.length + eol.length := by
        simp only [List.length_cons, List.length_append]
        omega
      have hcat : b :: bs = b :: (more ++ 58 :: (value ++ eol)) ++ rest := by
        simp [hsplit]
      have hrest' : buffer.drop (q + (b :: (more ++ 58 :: (value ++ eol))).length) = rest := by
        rw [← List.drop_drop, hbs, hcat, List.drop_left]
      rw [← hpos] at hrest
      obtain ⟨blk, tail, names', rfl, rfl, hblk, rfl⟩ := ih rest.length (by
        rw [hcat, List.length_append]
        simp) hrest' hrest rfl
      refine ⟨(b :: more) ++ 58 :: (value ++ (eol ++ blk)), tail, (b :: more) :: names', ?_, ?_,
        .field (List.cons_ne_nil b more) ?_ ?_ hcr hv he hblk, by simp⟩
      · simp [hcat]
      · simp only [List.length_cons, List.length_append]
        omega
      · exact List.not_mem_cons_of_ne_of_not_mem (fun h => hb (by simp [← h])) hmore
      · simpa using fun h => hb (by simp [h])
    obtain ⟨d, hd, z, hz, hrest⟩ := runNames_cons (name_does.1 b r) h hc
    split at hd
    · obtain rfl := List.mem_singleton.mp hd
      obtain ⟨-, rfl, rfl⟩ := hrest.resolve_right (by simp)
      obtain rfl := foldlM_quiet (by simp) hz
      exact ⟨[10], bs, [], by rw [‹b = 10›]; rfl, rfl, .close (.inl rfl), by simp⟩
    split at hd
    · obtain rfl := List.mem_singleton.mp hd
      obtain ⟨-, hrest⟩ := hrest.resolve_left (by simp)
      cases hz
      rcases runNames_name (.inr rfl) hrest hc with
        ⟨-, rest, rfl, rfl, rfl⟩ | ⟨more, rest, z, hsplit, hmore, hcr, hs, hl, hrest⟩
      · exact ⟨[13, 10], rest, [], by rw [‹b = 13›]; rfl, rfl, .close (.inr rfl), by simp⟩
      · refine hfield (by rw [‹b = 13›]; decide) ?_ hsplit hmore hs hl hrest
        rw [List.cons_prefix_cons]
        rintro ⟨-, l, rfl⟩
        exact hcr rfl rfl
    split at hd
    · cases hd
    · obtain rfl := List.mem_singleton.mp hd
      obtain ⟨-, hrest⟩ := hrest.resolve_left (by simp)
      cases hz
      rcases runNames_name (.inl rfl) hrest hc with
        ⟨h0, -⟩ | ⟨more, rest, z, hsplit, hmore, -, hs, hl, hrest⟩
      · omega
      · refine hfield (by simp [*]) ?_ hsplit hmore hs hl hrest
        rw [List.cons_prefix_cons]
        exact fun h => ‹¬ b = 13› h.1.symm

/-! ## The request line -/

/-- The states before the header lines. -/
def inRequestLine (cs : Nat) : Bool := cs - 2 ≤ 10 && 2 ≤ cs || cs = 17 || 19 ≤ cs && cs ≤ 193

/-- The states of messages to a socket. -/
def inSocketMessage (cs : Nat) : Bool := 194 ≤ cs && cs ≤ 347

/-- What the edges of these states do. -/
structure LineEdge (cs : Nat) (e : Edge RequestAction) : Prop where
  line : inRequestLine cs = true → .done ∉ e.acts ∧ .writeValue ∉ e.acts ∧
    (e.target = 13 ∧ e.on = [ch '\n'] ∨ inRequestLine e.target = true ∧ e.covers 10 = false)
  socket : inSocketMessage cs = true → .writeValue ∉ e.acts ∧
    (inSocketMessage e.target = true ∨ .done ∈ e.acts)

instance (cs : Nat) (e : Edge RequestAction) : Decidable (LineEdge cs e) :=
  decidable_of_iff
    ((inRequestLine cs = true → .done ∉ e.acts ∧ .writeValue ∉ e.acts ∧
      (e.target = 13 ∧ e.on = [ch '\n'] ∨ inRequestLine e.target = true ∧ e.covers 10 = false)) ∧
      (inSocketMessage cs = true → .writeValue ∉ e.acts ∧
        (inSocketMessage e.target = true ∨ .done ∈ e.acts)))
    ⟨fun ⟨h1, h2⟩ => ⟨h1, h2⟩, fun h => ⟨h.line, h.socket⟩⟩

theorem requestRows_line (r : Bool) : ∀ p ∈ (requestRows r).zipIdx, ∀ e ∈ p.1, LineEdge p.2 e := by
  cases r <;> decide +kernel

/-- What is left of the request line. -/
theorem runNames_line (hcs : inRequestLine cs = true)
    (h : runNames r buffer cs (x, log) q bs = some ((y, names), c, n)) (hc : 348 ≤ c) :
    ∃ line rest z, bs = line ++ 10 :: rest ∧ 10 ∉ line ∧
      runNames r buffer 13 (z, log) (q + line.length + 1) rest = some ((y, names), c, n) := by
  induction bs generalizing cs x q with
  | nil =>
    cases h
    simp only [inRequestLine, Bool.or_eq_true, Bool.and_eq_true, decide_eq_true_eq] at hcs
    omega
  | cons b bs ih =>
    rcases of_exec_cons h with ⟨-, hr⟩ | ⟨e, ⟨z, log'⟩, he, hz, hrest⟩
    · cases hr
      omega
    obtain ⟨hline, hcovers⟩ := of_edge (requestRows_line r) he
    obtain ⟨hdone, hwrite, htarget⟩ := hline.line hcs
    obtain rfl := foldlM_quiet hwrite hz
    obtain ⟨-, hrest⟩ := hrest.resolve_left fun h => hdone (by simpa [Edge.stops] using h.1)
    rcases htarget with ⟨ht, hon⟩ | ⟨ht, hon⟩
    · have hb : b = 10 := e.eq_of_covers hon hcovers
      rw [ht] at hrest
      exact ⟨[], bs, z, by rw [hb]; rfl, List.not_mem_nil, hrest⟩
    · have hb : b ≠ 10 := by
        rintro rfl
        rw [hon] at hcovers
        cases hcovers
      obtain ⟨line, rest, z', rfl, hline, hrest⟩ := ih ht hrest
      refine ⟨b :: line, rest, z', rfl, List.not_mem_cons_of_ne_of_not_mem hb.symm hline, ?_⟩
      rw [List.length_cons, Nat.add_comm line.length, ← Nat.add_assoc]
      exact hrest

/-- A message to a socket has no names. -/
theorem runNames_socket (hcs : inSocketMessage cs = true)
    (h : runNames r buffer cs (x, log) q bs = some ((y, names), c, n)) : names = log := by
  induction bs generalizing cs x q with
  | nil =>
    cases h
    rfl
  | cons b bs ih =>
    rcases of_exec_cons h with ⟨-, hr⟩ | ⟨e, ⟨z, log'⟩, he, hz, hrest⟩
    · cases hr
      rfl
    obtain ⟨hwrite, htarget⟩ := (of_edge (requestRows_line r) he).1.socket hcs
    obtain rfl := foldlM_quiet hwrite hz
    rcases hrest with ⟨-, hr⟩ | ⟨hs, hrest⟩
    · cases hr
      rfl
    · refine ih (htarget.resolve_right fun h => ?_) hrest
      simp only [Edge.stops, List.any_eq_false] at hs
      exact hs _ h rfl

theorem start_does : ∀ b : UInt8, ∀ r, Does r 1 b
    (if b = 60 then [([.mark], 194)] else if b = 64 then [([.mark], 198)]
      else if b = 10 then [] else [([.mark], 2)]) :=
  forall_byte (by decide +kernel)

/-! ## Blocks -/

theorem IsHttpToken.not_mem {name : List UInt8} (h : IsHttpToken name) {b : UInt8}
    (hb : b = 10 ∨ b = 58) : b ∉ name := by
  intro hmem
  rcases hb with rfl | rfl
  · exact absurd (h.noControl 10 hmem).1 (by decide)
  · exact h.noSeparator 58 hmem (by decide)

/-- A line break with the carriage return before it, which belongs to the line. -/
theorem eol_split {eol : List UInt8} (h : eol = [10] ∨ eol = [13, 10]) :
    ∃ cr, eol = cr ++ [10] ∧ (cr = [] ∨ cr = [13]) := by
  rcases h with rfl | rfl
  · exact ⟨[], rfl, .inl rfl⟩
  · exact ⟨[13], rfl, .inr rfl⟩

theorem not_mem_append_cr {value cr : List UInt8} (hv : 10 ∉ value) (hcr : cr = [] ∨ cr = [13]) :
    10 ∉ value ++ cr := by
  rcases hcr with rfl | rfl <;> simp [hv]

theorem Block.endsAtEmptyLine {names : List (List UInt8)} {blk : List UInt8} (h : Block names blk)
    (hnames : ∀ name ∈ names, IsHttpToken name) :
    ∃ (lines : List (List UInt8)) (last : List UInt8),
      blk = lines.flatMap (· ++ [10]) ++ last ++ [10] ∧
        (∀ line ∈ lines, 10 ∉ line ∧ line ≠ [] ∧ line ≠ [13]) ∧ (last = [] ∨ last = [13]) := by
  induction h with
  | close he =>
    obtain ⟨cr, rfl, hcr⟩ := eol_split he
    exact ⟨[], cr, rfl, by simp, hcr⟩
  | @field name value eol rest names hne hcolon _ _ hv he _ ih =>
    obtain ⟨hname, hnames⟩ := List.forall_mem_cons.mp hnames
    obtain ⟨cr, rfl, hcr⟩ := eol_split he
    obtain ⟨lines, last, rfl, hlines, hlast⟩ := ih hnames
    refine ⟨(name ++ 58 :: (value ++ cr)) :: lines, last, by simp, ?_, hlast⟩
    have hline : 10 ∉ name ++ 58 :: (value ++ cr) := by
      rw [List.mem_append, List.mem_cons, not_or, not_or]
      exact ⟨hname.not_mem (.inl rfl), by decide, not_mem_append_cr hv hcr⟩
    refine List.forall_mem_cons.mpr ⟨⟨hline, by simp, fun h => ?_⟩, hlines⟩
    have hmem : (58 : UInt8) ∈ name ++ 58 :: (value ++ cr) := by simp
    rw [h] at hmem
    exact absurd (List.mem_singleton.mp hmem) (by decide)

theorem Block.wellNamed_iff {names : List (List UInt8)} {blk : List UInt8} (h : Block names blk)
    (tail : List UInt8) : WellNamed (blk ++ tail) ↔ ∀ name ∈ names, IsHttpToken name := by
  induction h with
  | close he =>
    obtain ⟨cr, rfl, hcr⟩ := eol_split he
    rw [List.append_assoc]
    exact ⟨by simp, fun _ => .empty hcr⟩
  | @field name value eol rest names hne hcolon hlf hcr hv he _ ih =>
    obtain ⟨cr, rfl, hcr'⟩ := eol_split he
    have hsplit : name ++ 58 :: (value ++ (cr ++ [10] ++ rest)) ++ tail =
        name ++ 58 :: ((value ++ cr) ++ 10 :: (rest ++ tail)) := by simp
    rw [hsplit, List.forall_mem_cons, ← ih]
    constructor
    · intro hw
      generalize hl : name ++ 58 :: ((value ++ cr) ++ 10 :: (rest ++ tail)) = l at hw
      cases hw with
      | @empty line rest' hline =>
        obtain ⟨b, more, rfl⟩ := List.exists_cons_of_ne_nil hne
        rcases hline with rfl | rfl
        · exact absurd (List.cons.inj hl).1 fun hb => hlf (by rw [hb]; rfl)
        · obtain ⟨rfl, htail⟩ := List.cons.inj hl
          cases more with
          | nil => exact absurd (List.cons.inj htail).1 (by decide)
          | cons c more =>
            obtain ⟨rfl, -⟩ := List.cons.inj htail
            exact absurd ⟨more, rfl⟩ hcr
      | @field name' value' rest' htoken hv' hrest =>
        rw [List.append_assoc name', List.cons_append] at hl
        obtain ⟨rfl, hvalue⟩ := append_cons_inj hcolon (htoken.not_mem (.inr rfl)) hl
        obtain ⟨-, rfl⟩ := append_cons_inj (not_mem_append_cr hv hcr') hv' hvalue
        exact ⟨htoken, hrest⟩
    · rintro ⟨htoken, hrest⟩
      have hfield := WellNamed.field htoken (not_mem_append_cr hv hcr') hrest
      rwa [List.append_assoc, List.cons_append] at hfield

theorem le_of_isFinished {x : HttpRequestParser} (h : x.isFinished = 1) : 348 ≤ x.cs := by
  rw [HttpRequestParser.isFinished] at h
  split at h
  · cases h
  split at h
  · assumption
  · cases h

/-- A request that ends in a final state: its names are those of its header block. -/
theorem runNames_request {b : UInt8} (hbuf : buffer.length < 2 ^ 64) (hbs : buffer = b :: bs)
    (h : runNames r buffer 1 (x, []) 0 (b :: bs) = some ((y, names), c, n)) (hc : 348 ≤ c) :
    IsSocketMessage buffer ∧ names = [] ∨ ¬ IsSocketMessage buffer ∧
      ∃ first blk tail, buffer = first ++ 10 :: (blk ++ tail) ∧ 10 ∉ first ∧ Block names blk ∧
        n = (first ++ 10 :: blk).length := by
  subst hbs
  obtain ⟨d, hd, z, hz, hrest⟩ := runNames_cons (start_does b r) h hc
  split at hd
  · obtain rfl := List.mem_singleton.mp hd
    obtain ⟨-, hrest⟩ := hrest.resolve_left (by simp)
    cases hz
    exact .inl ⟨.inl (by rw [‹b = 60›]; rfl), runNames_socket (by decide) hrest⟩
  split at hd
  · obtain rfl := List.mem_singleton.mp hd
    obtain ⟨-, hrest⟩ := hrest.resolve_left (by simp)
    cases hz
    exact .inl ⟨.inr (by rw [‹b = 64›]; rfl), runNames_socket (by decide) hrest⟩
  split at hd
  · cases hd
  · obtain rfl := List.mem_singleton.mp hd
    obtain ⟨-, hrest⟩ := hrest.resolve_left (by simp)
    cases hz
    obtain ⟨line, rest, z, rfl, hline, hrest⟩ := runNames_line (by decide) hrest hc
    have hdrop : (b :: (line ++ 10 :: rest)).drop (0 + 1 + line.length + 1) = rest := by
      rw [Nat.zero_add, Nat.add_comm 1, List.drop_succ_cons, ← List.drop_drop, List.drop_left]
      rfl
    obtain ⟨blk, tail, names', rfl, rfl, hblk, rfl⟩ := runNames_block hbuf hdrop hrest hc
    refine .inr ⟨by simp [IsSocketMessage, *], b :: line, blk, tail, rfl,
      List.not_mem_cons_of_ne_of_not_mem (Ne.symm ‹_›) hline, hblk, ?_⟩
    simp only [List.length_append, List.length_cons]
    omega

/-- **Header names are tokens** exactly when every line up to the first empty one begins with a token
and a colon. -/
theorem fieldNames_iff {queryStart : Nat} {relaxed : Bool} {buffer : List UInt8}
    (hbuf : buffer.length < 2 ^ 64) {y : HttpRequestParser} {n : Nat}
    (hy : (HttpRequestParser.new queryStart relaxed).parserExecute buffer buffer.length =
      some (y, n)) (hfin : y.isFinished = 1) :
    ∃ names, (HttpRequestParser.new queryStart relaxed).fieldNames buffer = some names ∧
      ((∀ name ∈ names, IsHttpToken name) ∧ (¬ IsSocketMessage buffer → EndsAtEmptyLine buffer n) ↔
        IsSocketMessage buffer ∨
          ∃ first rest, buffer = first ++ 10 :: rest ∧ 10 ∉ first ∧ WellNamed rest) := by
  cases buffer with
  | nil =>
    cases hy
    cases hfin
  | cons b bs =>
  obtain ⟨z, cs, p, hz, rfl, rfl, -⟩ :=
    HttpRequestParser.parserExecute_exec hy (Nat.succ_ne_zero _) Nat.one_ne_zero
  have hmap : (runNames relaxed (b :: bs) 1 (HttpRequestParser.new queryStart relaxed, []) 0
      (b :: bs)).map (fun r => (r.1.1, r.2)) = exec (requestRows relaxed) (· == .done)
        (HttpRequestParser.act (b :: bs)) 1 (HttpRequestParser.new queryStart relaxed) 0
        (b :: bs) :=
    exec_map (f := Prod.fst)
      (fun p x a => by rw [actNames, Option.map_map]; exact congrFun Option.map_id _) 1
      (HttpRequestParser.new queryStart relaxed, []) 0 (b :: bs)
  rw [List.take_length] at hz
  obtain ⟨⟨⟨z, names⟩, cs, p⟩, hrun, heq⟩ := Option.map_eq_some_iff.mp (hmap.trans hz)
  cases heq
  have hn : (HttpRequestParser.new queryStart relaxed).nread + p = p := Nat.zero_add p
  refine ⟨names, ?_, ?_⟩
  · exact congrArg (Option.map fun r : (_ × List (List UInt8)) × Nat × Nat => r.1.2) hrun
  rw [hn]
  rcases runNames_request hbuf rfl hrun (le_of_isFinished hfin) with
    ⟨hsocket, rfl⟩ | ⟨hsocket, first, blk, tail, hsplit, hfirst, hblk, rfl⟩
  · simp [hsocket]
  · simp only [hsocket, not_false_eq_true, true_imp_iff, false_or]
    constructor
    · rintro ⟨hnames, -⟩
      exact ⟨first, blk ++ tail, hsplit, hfirst, (hblk.wellNamed_iff tail).mpr hnames⟩
    · rintro ⟨first', rest, hsplit', hfirst', hw⟩
      obtain ⟨rfl, rfl⟩ := append_cons_inj hfirst hfirst' (hsplit.symm.trans hsplit')
      have hnames := (hblk.wellNamed_iff tail).mp hw
      obtain ⟨lines, last, rfl, hlines, hlast⟩ := hblk.endsAtEmptyLine hnames
      refine ⟨hnames, first, lines, last, ?_, hfirst, hlines, hlast⟩
      rw [hsplit, show ∀ l : List UInt8, first ++ 10 :: (l ++ tail) = (first ++ 10 :: l) ++ tail by
        simp, List.take_left]

theorem fieldNames_iff_host : ∃ y n names,
    (HttpRequestParser.new 0 false).parserExecute (bytes "GET / HTTP/1.1\r\nHost: h\r\n\r\n") 27 =
      some (y, n) ∧
    (HttpRequestParser.new 0 false).fieldNames (bytes "GET / HTTP/1.1\r\nHost: h\r\n\r\n") =
      some names ∧
    ∀ name ∈ names, IsHttpToken name := by
  obtain ⟨⟨y, n⟩, hy, hfin⟩ : ∃ o ∈ (HttpRequestParser.new 0 false).parserExecute
      (bytes "GET / HTTP/1.1\r\nHost: h\r\n\r\n")
      (bytes "GET / HTTP/1.1\r\nHost: h\r\n\r\n").length, o.1.isFinished = 1 := by
    decide +kernel
  obtain ⟨names, hnames, hiff⟩ := fieldNames_iff (by decide) hy hfin
  refine ⟨y, n, names, hy, hnames, (hiff.mpr (.inr ⟨bytes "GET / HTTP/1.1\r",
    bytes "Host: h\r\n\r\n", by decide, by decide, ?_⟩)).1⟩
  have htoken : IsHttpToken (bytes "Host") := ⟨by decide, by decide +kernel, by decide +kernel⟩
  have hempty : WellNamed ([13] ++ 10 :: []) := .empty (.inr rfl)
  exact .field htoken (by decide +kernel : 10 ∉ bytes " h\r") hempty

/-- A line without a colon is taken into the next name. -/
theorem joined_names :
    ((HttpRequestParser.new 0 false).parserExecute
      (bytes "GET / HTTP/1.1\r\nFoo\r\nBar: x\r\n\r\n") 33).map
        (fun y => (y.1.isFinished, y.1.hasError)) = some (1, false) ∧
    (HttpRequestParser.new 0 false).fieldNames
      (bytes "GET / HTTP/1.1\r\nFoo\r\nBar: x\r\n\r\n") = some [bytes "Foo\r\nBar"] ∧
    ¬ IsHttpToken (bytes "Foo\r\nBar") := by
  refine ⟨by decide +kernel, by decide +kernel, fun h => ?_⟩
  exact absurd (h.noControl 13 (by decide)).1 (by decide)

end Tigerkin.Http
