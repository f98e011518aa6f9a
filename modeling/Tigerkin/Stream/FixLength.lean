import Mathlib.Algebra.Group.Int.Defs
import Mathlib.Algebra.Group.Nat.Defs
import Mathlib.Data.List.Basic
import Tigerkin.Std.Loop

/-! # Fixed-length transfers

The four loops of `stream.cpp`: `readFixLength` and `writeFixLength`, over a buffer and over a
`ByteArray`. They differ in the call that they repeat, so they are one loop over a `Transfer`. The
underlying `read` and `write` are virtual; a `Reader` and a `Writer` answer as they like, within the
contract that an answer is at most what was asked for and counts the bytes transferred.

The loops end at a negative answer only. An answer 0 changes neither `left` nor `offset`, and the
same call is made again, while the callers compare the result with 0 (`completesOrStops_iff`). -/

namespace Tigerkin.Stream

open Loop

variable {σ : Type}

/-- The result of an underlying call, the bytes that it transferred and what it leaves behind. -/
structure Answer (σ : Type) where
  len : Int64
  bytes : List UInt8
  state : σ

/-- The call that a loop repeats: `ask offset left s` is asked for `left` bytes from `offset` on.
`inOrder s bytes s'` says that between the states `s` and `s'` just `bytes` were moved, in this
order. -/
structure Transfer (σ : Type) where
  ask : (offset left : UInt64) → σ → Answer σ
  inOrder : σ → List UInt8 → σ → Prop
  le : ∀ offset left s, (ask offset left s).len.toInt ≤ left.toNat
  length_bytes : ∀ offset left s,
    (ask offset left s).bytes.length = (ask offset left s).len.toInt.toNat
  inOrder_nil : ∀ s, inOrder s [] s
  inOrder_ask : ∀ {s s' bytes offset} left, inOrder s bytes s' → offset.toNat = bytes.length →
    inOrder s (bytes ++ (ask offset left s').bytes) (ask offset left s').state

/-- The variables of the loop, and the calls made so far. -/
structure Progress (σ : Type) where
  left : UInt64
  offset : UInt64 := 0
  calls : List (Int64 × List UInt8) := []
  state : σ

/-- A round of the loop. -/
def fixLength (t : Transfer σ) (length : UInt64) (p : Progress σ) :
    Progress σ ⊕ Int64 × Progress σ :=
  if 0 < p.left then
    let a := t.ask p.offset p.left p.state
    let p := { p with calls := p.calls ++ [(a.len, a.bytes)], state := a.state }
    if a.len < 0 then .inr (-1, p)
    else .inl { p with left := p.left - a.len.toUInt64, offset := p.offset + a.len.toUInt64 }
  else .inr (length.toInt64, p)

/-- The bytes that the calls have transferred. -/
def moved (calls : List (Int64 × List UInt8)) : List UInt8 := (calls.map Prod.snd).flatten

/-! ## The four functions -/

/-- The virtual `read`: it stores the bytes at the pointer, or puts them into the array. -/
structure Reader (σ : Type) where
  read : (length : UInt64) → σ → Answer σ
  le : ∀ length s, (read length s).len.toInt ≤ length.toNat
  length_bytes : ∀ length s, (read length s).bytes.length = (read length s).len.toInt.toNat

/-- The virtual `write`: it takes the first bytes of those it is given. -/
structure Writer (σ : Type) where
  write : (data : List UInt8) → σ → Int64 × σ
  le : ∀ data s, (write data s).1.toInt ≤ data.length

def store (buffer : List UInt8) (offset : Nat) (bytes : List UInt8) : List UInt8 :=
  buffer.take offset ++ bytes ++ buffer.drop (offset + bytes.length)

/-- `read((char *)buffer + offset, left)` -/
def Reader.toBuffer (r : Reader σ) : Transfer (List UInt8 × σ) where
  ask offset left s :=
    let a := r.read left s.2
    { len := a.len, bytes := a.bytes, state := (store s.1 offset.toNat a.bytes, a.state) }
  inOrder s bytes s' := s'.1 = bytes ++ s.1.drop bytes.length
  le _ left s := r.le left s.2
  length_bytes _ left s := r.length_bytes left s.2
  inOrder_nil _ := rfl
  inOrder_ask {s s' bytes offset} left h hoff := by
    dsimp only
    rw [h, store, hoff, List.take_left, List.drop_append, List.drop_of_length_le (by omega),
      List.nil_append, List.drop_drop, List.length_append]
    congr 2
    omega

/-- `read(ba, left)`, where the array is the bytes in front of its position. -/
def Reader.toByteArray (r : Reader σ) : Transfer (List UInt8 × σ) where
  ask _ left s :=
    let a := r.read left s.2
    { len := a.len, bytes := a.bytes, state := (s.1 ++ a.bytes, a.state) }
  inOrder s bytes s' := s'.1 = s.1 ++ bytes
  le _ left s := r.le left s.2
  length_bytes _ left s := r.length_bytes left s.2
  inOrder_nil s := (List.append_nil s.1).symm
  inOrder_ask left h _ := by
    dsimp only
    rw [h, List.append_assoc]

theorem Writer.length_taken (w : Writer σ) (data : List UInt8) (s : σ) :
    (data.take (w.write data s).1.toInt.toNat).length = (w.write data s).1.toInt.toNat := by
  have h := w.le data s
  rw [List.length_take]
  omega

/-- `write((const char *)buffer + offset, left)` -/
def Writer.ofBuffer (w : Writer σ) : Transfer (List UInt8 × σ) where
  ask offset left s :=
    let data := (s.1.drop offset.toNat).take left.toNat
    let a := w.write data s.2
    { len := a.1, bytes := data.take a.1.toInt.toNat, state := (s.1, a.2) }
  inOrder s bytes s' := s.1.take bytes.length = bytes ∧ s'.1 = s.1
  le _ _ _ := Int.le_trans (w.le ..) (Int.ofNat_le.mpr (List.length_take_le ..))
  length_bytes _ _ _ := w.length_taken ..
  inOrder_nil _ := ⟨rfl, rfl⟩
  inOrder_ask {s s' bytes offset} left h hoff := by
    obtain ⟨hbytes, hbuffer⟩ := h
    dsimp only
    refine ⟨?_, hbuffer⟩
    rw [hbuffer, hoff]
    generalize (w.write ((s.1.drop bytes.length).take left.toNat) s'.2).1.toInt.toNat = n
    have hpre : ((s.1.drop bytes.length).take left.toNat).take n <+: s.1.drop bytes.length :=
      (List.take_prefix n _).trans (List.take_prefix left.toNat _)
    rw [List.length_append, List.take_add, hbytes, ← List.prefix_iff_eq_take.mp hpre]

/-- `write(ba, left)`, where the array is the bytes from its position on. -/
def Writer.ofByteArray (w : Writer σ) : Transfer (List UInt8 × σ) where
  ask _ left s :=
    let data := s.1.take left.toNat
    let a := w.write data s.2
    { len := a.1, bytes := data.take a.1.toInt.toNat, state := (s.1.drop a.1.toInt.toNat, a.2) }
  inOrder s bytes s' := s.1 = bytes ++ s'.1
  le _ _ _ := Int.le_trans (w.le ..) (Int.ofNat_le.mpr (List.length_take_le ..))
  length_bytes _ _ _ := w.length_taken ..
  inOrder_nil _ := rfl
  inOrder_ask {s s' bytes offset} left h _ := by
    have hle := w.le (s'.1.take left.toNat) s'.2
    rw [List.length_take] at hle
    dsimp only
    rw [h, List.take_take, Nat.min_eq_left (by omega), List.append_assoc, List.take_append_drop]

/-- `Stream::readFixLength(void *, size_t)` -/
def readFixLength (r : Reader σ) := fixLength r.toBuffer

/-- `Stream::readFixLength(ByteArray::ptr, size_t)` -/
def readFixLengthByteArray (r : Reader σ) := fixLength r.toByteArray

/-- `Stream::writeFixLength(const void *, size_t)` -/
def writeFixLength (w : Writer σ) := fixLength w.ofBuffer

/-- `Stream::writeFixLength(ByteArray::ptr, size_t)` -/
def writeFixLengthByteArray (w : Writer σ) := fixLength w.ofByteArray

/-! ## Completing or stopping -/

/-- The loop returns; the result is `length` if and only if `length` bytes were moved in order; and
a call that answers 0 or an error is the last one, with a result of at most 0. -/
structure CompletesOrStops (body : Progress σ → Progress σ ⊕ Int64 × Progress σ)
    (inOrder : σ → List UInt8 → σ → Prop) (length : UInt64) (s : σ) : Prop where
  returns : ∃ r, Returns body { left := length, state := s } r
  completes : ∀ {r p}, Returns body { left := length, state := s } (r, p) →
    (r.toInt = length.toNat ↔
      (moved p.calls).length = length.toNat ∧ inOrder s (moved p.calls) p.state)
  stops : ∀ {r p before call after}, Returns body { left := length, state := s } (r, p) →
    p.calls = before ++ call :: after → call.1 ≤ 0 → after = [] ∧ r ≤ 0

/-- The calls that follow on positive answers, as long as bytes are left. -/
inductive Asked (t : Transfer σ) (length : UInt64) (s : σ) : UInt64 → UInt64 → σ → Prop
  | first : Asked t length s 0 length s
  | next {offset left u} : Asked t length s offset left u → 0 < left →
    0 < (t.ask offset left u).len →
    Asked t length s (offset + (t.ask offset left u).len.toUInt64)
      (left - (t.ask offset left u).len.toUInt64) (t.ask offset left u).state

/-- One of these calls fails. -/
def Fails (t : Transfer σ) (length : UInt64) (s : σ) : Prop :=
  ∃ offset left u, Asked t length s offset left u ∧ 0 < left ∧ (t.ask offset left u).len < 0

/-- None of these calls answers 0, and a `length` that is transferred fits into an `ssize_t`. -/
structure NeverZero (t : Transfer σ) (length : UInt64) (s : σ) : Prop where
  ne_zero : ∀ {offset left u}, Asked t length s offset left u → 0 < left →
    (t.ask offset left u).len ≠ 0
  fits : length.toNat < 2 ^ 63 ∨ Fails t length s

variable {t : Transfer σ} {length offset left : UInt64} {s u : σ} {p q : Progress σ}

/-- What holds at each of these calls. -/
structure Progress.Sound (t : Transfer σ) (length : UInt64) (s : σ) (p : Progress σ) : Prop where
  length_moved : (moved p.calls).length = p.offset.toNat
  total : p.offset.toNat + p.left.toNat = length.toNat
  inOrder : t.inOrder s (moved p.calls) p.state
  positive : ∀ call ∈ p.calls, 0 < call.1

theorem moved_append (calls : List (Int64 × List UInt8)) (len : Int64) (bytes : List UInt8) :
    moved (calls ++ [(len, bytes)]) = moved calls ++ bytes := by
  simp [moved]

theorem toNat_toUInt64 {len : Int64} (h : 0 < len) : len.toUInt64.toNat = len.toInt.toNat :=
  Int64.toNat_toUInt64_of_le (Int64.le_of_lt h)

/-- The position after a positive answer. -/
theorem Transfer.next_toNat (t : Transfer σ) {offset left : UInt64} {u : σ}
    (htotal : offset.toNat + left.toNat = length.toNat) (h : 0 < (t.ask offset left u).len) :
    (offset + (t.ask offset left u).len.toUInt64).toNat =
        offset.toNat + (t.ask offset left u).bytes.length ∧
      (left - (t.ask offset left u).len.toUInt64).toNat =
        left.toNat - (t.ask offset left u).bytes.length ∧
      0 < (t.ask offset left u).bytes.length ∧
      (t.ask offset left u).bytes.length ≤ left.toNat := by
  have hle := t.le offset left u
  have hbytes := t.length_bytes offset left u
  have hpos := Int64.lt_iff_toInt_lt.mp h
  have hlt := length.toNat_lt
  have hnat := toNat_toUInt64 h
  rw [Int64.toInt_zero] at hpos
  rw [← hbytes] at hnat
  have hleft : (t.ask offset left u).len.toUInt64 ≤ left := by
    rw [UInt64.le_iff_toNat_le]
    omega
  rw [UInt64.toNat_add, UInt64.toNat_sub_of_le _ _ hleft, hnat]
  omega

theorem fixLength_next (t : Transfer σ) (length : UInt64) {p : Progress σ} (hleft : 0 < p.left)
    (h : ¬(t.ask p.offset p.left p.state).len < 0) :
    fixLength t length p = .inl
      { left := p.left - (t.ask p.offset p.left p.state).len.toUInt64
        offset := p.offset + (t.ask p.offset p.left p.state).len.toUInt64
        calls := p.calls ++ [((t.ask p.offset p.left p.state).len,
          (t.ask p.offset p.left p.state).bytes)]
        state := (t.ask p.offset p.left p.state).state } := by
  simp only [fixLength, if_pos hleft, if_neg h]

theorem fixLength_fail (t : Transfer σ) (length : UInt64) {p : Progress σ} (hleft : 0 < p.left)
    (h : (t.ask p.offset p.left p.state).len < 0) :
    fixLength t length p = .inr (-1,
      { p with
        calls := p.calls ++ [((t.ask p.offset p.left p.state).len,
          (t.ask p.offset p.left p.state).bytes)]
        state := (t.ask p.offset p.left p.state).state }) := by
  simp only [fixLength, if_pos hleft, if_pos h]

theorem fixLength_done (hleft : p.left = 0) :
    fixLength t length p = .inr (length.toInt64, p) := by
  rw [fixLength, if_neg (by rw [hleft]; decide)]

/-- The loop comes to each call that follows on positive answers. -/
theorem Asked.reaches (h : Asked t length s offset left u) :
    ∃ calls, Reaches (fixLength t length) { left := length, state := s }
        { left, offset, calls, state := u } ∧
      Progress.Sound t length s { left, offset, calls, state := u } := by
  induction h with
  | first =>
    refine ⟨[], .refl, rfl, ?_, t.inOrder_nil s, fun _ h => nomatch h⟩
    exact Nat.zero_add _
  | @next offset left u _ hleft hpos ih =>
    obtain ⟨calls, hreach, hsound⟩ := ih
    have htotal : offset.toNat + left.toNat = length.toNat := hsound.total
    obtain ⟨h1, h2, h3, h4⟩ := t.next_toNat htotal hpos
    have hnext := fixLength_next t length
      (p := { left, offset, calls, state := u }) hleft (Int64.not_lt.mpr (Int64.le_of_lt hpos))
    refine ⟨_, hreach.tail hnext, ?_, ?_, ?_, ?_⟩
    · rw [moved_append, List.length_append, hsound.length_moved, h1]
    · dsimp only
      omega
    · rw [moved_append]
      exact t.inOrder_ask left hsound.inOrder hsound.length_moved.symm
    · rw [List.forall_mem_append]
      exact ⟨hsound.positive, List.forall_mem_singleton.mpr hpos⟩

/-- Where no call answers 0, the positive answers come to an end. -/
theorem Asked.ends (h : Asked t length s offset left u)
    (hne : ∀ {offset left u}, Asked t length s offset left u → 0 < left →
      (t.ask offset left u).len ≠ 0) :
    ∃ offset left u, Asked t length s offset left u ∧
      (left = 0 ∨ 0 < left ∧ (t.ask offset left u).len < 0) := by
  induction hn : left.toNat using Nat.strongRecOn generalizing offset left u with
  | ind n ih =>
    by_cases hleft : 0 < left
    · by_cases hneg : (t.ask offset left u).len < 0
      · exact ⟨offset, left, u, h, .inr ⟨hleft, hneg⟩⟩
      · have hpos : 0 < (t.ask offset left u).len :=
          Int64.lt_of_le_of_ne (Int64.not_lt.mp hneg) (hne h hleft).symm
        obtain ⟨calls, -, hsound⟩ := h.reaches
        have htotal : offset.toNat + left.toNat = length.toNat := hsound.total
        obtain ⟨-, h2, h3, h4⟩ := t.next_toNat htotal hpos
        exact ih _ (by omega) (h.next hleft hpos) rfl
    · have hzero : left = 0 := by
        rw [UInt64.lt_iff_toNat_lt, Nat.not_lt, UInt64.toNat_zero, Nat.le_zero] at hleft
        exact UInt64.toNat_inj.mp hleft
      exact ⟨offset, left, u, h, .inl hzero⟩

/-- The calls made before a state are the first of all calls, and further ones follow as long as
bytes are left. -/
theorem calls_of_returns {r : Int64} (h : Returns (fixLength t length) p (r, q)) :
    ∃ after, q.calls = p.calls ++ after ∧ (0 < p.left → after ≠ []) := by
  obtain ⟨fuel, h⟩ := h
  induction fuel generalizing p with
  | zero => cases h
  | succ fuel ih =>
    by_cases hleft : 0 < p.left
    · by_cases hneg : (t.ask p.offset p.left p.state).len < 0
      · rw [run_succ_done (fixLength_fail t length hleft hneg)] at h
        cases h
        exact ⟨_, rfl, fun _ => List.cons_ne_nil _ _⟩
      · rw [run_succ_next (fixLength_next t length hleft hneg)] at h
        obtain ⟨after, hafter, -⟩ := ih h
        rw [List.append_assoc] at hafter
        exact ⟨_, hafter, fun _ => List.cons_ne_nil _ _⟩
    · have hdone : fixLength t length p = .inr (length.toInt64, p) := if_neg hleft
      rw [run_succ_done hdone] at h
      cases h
      exact ⟨[], (List.append_nil _).symm, fun h => absurd h hleft⟩

/-- The result after a failing call. -/
theorem Asked.returns_fail (h : Asked t length s offset left u) (hleft : 0 < left)
    (hneg : (t.ask offset left u).len < 0) :
    ∃ p call before, Returns (fixLength t length) { left := length, state := s } (-1, p) ∧
      p.calls = before ++ [call] ∧ (∀ c ∈ before, 0 < c.1) ∧
      (moved p.calls).length < length.toNat := by
  obtain ⟨calls, hreach, hsound⟩ := h.reaches
  have hfail := fixLength_fail t length
    (p := { left, offset, calls, state := u }) hleft hneg
  refine ⟨_, _, calls, hreach.returns_of (.done hfail), rfl, hsound.positive, ?_⟩
  have hbytes := t.length_bytes offset left u
  have hlen := Int64.lt_iff_toInt_lt.mp hneg
  rw [Int64.toInt_zero] at hlen
  have htotal : offset.toNat + left.toNat = length.toNat := hsound.total
  rw [UInt64.lt_iff_toNat_lt, UInt64.toNat_zero] at hleft
  have hmoved : (moved calls).length = offset.toNat := hsound.length_moved
  rw [moved_append, List.length_append, hmoved]
  dsimp only
  omega

/-- The result after the last byte. -/
theorem Asked.returns_done (h : Asked t length s offset 0 u) :
    ∃ p, Returns (fixLength t length) { left := length, state := s } (length.toInt64, p) ∧
      (∀ c ∈ p.calls, 0 < c.1) ∧ (moved p.calls).length = length.toNat ∧
      t.inOrder s (moved p.calls) p.state := by
  obtain ⟨calls, hreach, hsound⟩ := h.reaches
  refine ⟨_, hreach.returns_of (.done (fixLength_done rfl)), hsound.positive, ?_, hsound.inOrder⟩
  rw [hsound.length_moved]
  exact hsound.total

/-- A call that is asked after an answer 0 is one call too many. -/
theorem CompletesOrStops.ne_zero
    (H : CompletesOrStops (fixLength t length) t.inOrder length s)
    (h : Asked t length s offset left u) (hleft : 0 < left) : (t.ask offset left u).len ≠ 0 := by
  intro hzero
  obtain ⟨calls, hreach, -⟩ := h.reaches
  have hnext := fixLength_next t length
    (p := { left, offset, calls, state := u }) hleft (by dsimp only; rw [hzero]; decide)
  obtain ⟨⟨r, q⟩, hr⟩ := H.returns
  have hr' := (hreach.returns hr).of_next hnext
  obtain ⟨after, hafter, hmore⟩ := calls_of_returns hr'
  dsimp only at hafter hmore
  rw [List.append_assoc] at hafter
  have hcall : (t.ask offset left u).len ≤ 0 := by
    rw [hzero]
    decide
  refine hmore ?_ (H.stops hr hafter hcall).1
  rw [hzero]
  change 0 < left - 0
  rwa [UInt64.sub_zero]

theorem CompletesOrStops.neverZero
    (H : CompletesOrStops (fixLength t length) t.inOrder length s) : NeverZero t length s := by
  refine ⟨H.ne_zero, ?_⟩
  obtain ⟨offset, left, u, h, hend⟩ := (Asked.first : Asked t length s 0 length s).ends
    H.ne_zero
  rcases hend with rfl | ⟨hleft, hneg⟩
  · obtain ⟨p, hr, -, hmoved, horder⟩ := h.returns_done
    have hresult := (H.completes hr).mpr ⟨hmoved, horder⟩
    have hlt := length.toInt64.toInt_lt
    exact .inl (by omega)
  · exact .inr ⟨offset, left, u, h, hleft, hneg⟩

/-- The two ends of a loop none of whose calls answers 0. -/
theorem NeverZero.ends (H : NeverZero t length s) :
    (∃ p, Returns (fixLength t length) { left := length, state := s } (length.toInt64, p) ∧
      length.toNat < 2 ^ 63 ∧ (∀ c ∈ p.calls, 0 < c.1) ∧ (moved p.calls).length = length.toNat ∧
      t.inOrder s (moved p.calls) p.state) ∨
    ∃ p call before, Returns (fixLength t length) { left := length, state := s } (-1, p) ∧
      p.calls = before ++ [call] ∧ (∀ c ∈ before, 0 < c.1) ∧
      (moved p.calls).length < length.toNat := by
  by_cases hfails : Fails t length s
  · obtain ⟨offset, left, u, h, hleft, hneg⟩ := hfails
    exact .inr (h.returns_fail hleft hneg)
  · obtain ⟨offset, left, u, h, hend⟩ := (Asked.first : Asked t length s 0 length s).ends
      H.ne_zero
    rcases hend with rfl | ⟨hleft, hneg⟩
    · obtain ⟨p, hr, hpos, hmoved, horder⟩ := h.returns_done
      exact .inl ⟨p, hr, H.fits.resolve_right hfails, hpos, hmoved, horder⟩
    · exact absurd ⟨offset, left, u, h, hleft, hneg⟩ hfails

theorem NeverZero.completesOrStops (H : NeverZero t length s) :
    CompletesOrStops (fixLength t length) t.inOrder length s := by
  rcases H.ends with ⟨p, hr, hlt, hpos, hmoved, horder⟩ | ⟨p, call, before, hr, hcalls, hpos, hlt⟩
  · refine ⟨⟨_, hr⟩, fun h => ?_, fun h hsplit hcall => ?_⟩
    · cases hr.unique h
      have hint : length.toInt64.toInt = length.toNat := by
        rw [← UInt64.ofNat_toNat (x := length), UInt64.toInt64_ofNat', UInt64.ofNat_toNat]
        exact Int64.toInt_ofNat_of_lt hlt
      exact iff_of_true hint ⟨hmoved, horder⟩
    · cases hr.unique h
      rename_i call' after
      have hmem : call' ∈ p.calls := hsplit ▸ List.mem_append_right _ List.mem_cons_self
      exact absurd (hpos call' hmem) (Int64.not_lt.mpr hcall)
  · refine ⟨⟨_, hr⟩, fun h => ?_, fun h hsplit hcall => ?_⟩
    · cases hr.unique h
      refine iff_of_false (fun hint => ?_) fun hmoved => ?_
      · have hnat := Int.natCast_nonneg length.toNat
        rw [← hint] at hnat
        exact absurd hnat (by decide)
      · exact absurd hmoved.1 (Nat.ne_of_lt hlt)
    · cases hr.unique h
      refine ⟨?_, by decide⟩
      rename_i before' call' after
      rcases List.eq_nil_or_concat' after with hnil | ⟨mid, last, rfl⟩
      · exact hnil
      · rw [hcalls, ← List.cons_append, ← List.append_assoc] at hsplit
        have hbefore := (List.append_inj' hsplit rfl).1
        have hmem : call' ∈ before := hbefore ▸ List.mem_append_right _ List.mem_cons_self
        exact absurd (hpos call' hmem) (Int64.not_lt.mpr hcall)

/-- Whatever the loop has moved when it returns, it has moved in order; its result tells whether
that is everything. -/
theorem fixLength_result {r : Int64} (h : Returns (fixLength t length)
    { left := length, state := s } (r, q)) :
    t.inOrder s (moved q.calls) q.state ∧
      (r = length.toInt64 ∧ (moved q.calls).length = length.toNat ∨
        r = -1 ∧ (moved q.calls).length < length.toNat) := by
  refine h.inv (I := fun p => (moved p.calls).length = p.offset.toNat ∧
      p.offset.toNat + p.left.toNat = length.toNat ∧ t.inOrder s (moved p.calls) p.state)
    (Q := fun o => t.inOrder s (moved o.2.calls) o.2.state ∧
      (o.1 = length.toInt64 ∧ (moved o.2.calls).length = length.toNat ∨
        o.1 = -1 ∧ (moved o.2.calls).length < length.toNat)) ?_ ?_ ?_
  · exact ⟨rfl, Nat.zero_add _, t.inOrder_nil s⟩
  · intro p p' hp hb
    obtain ⟨hlen, htotal, hin⟩ := hp
    by_cases hleft : 0 < p.left
    · by_cases hneg : (t.ask p.offset p.left p.state).len < 0
      · rw [fixLength_fail t length hleft hneg] at hb
        cases hb
      · rw [fixLength_next t length hleft hneg] at hb
        cases hb
        have hmore := t.inOrder_ask p.left hin hlen.symm
        rcases Int64.lt_or_eq_of_le (Int64.not_lt.mp hneg) with hpos | hzero
        · obtain ⟨h1, h2, -, h4⟩ := t.next_toNat htotal hpos
          refine ⟨?_, ?_, ?_⟩
          · rw [moved_append, List.length_append, hlen, h1]
          · dsimp only
            omega
          · rw [moved_append]
            exact hmore
        · have hnil : (t.ask p.offset p.left p.state).bytes = [] := by
            apply List.length_eq_zero_iff.mp
            rw [t.length_bytes, ← hzero]
            rfl
          have hoff : p.offset + Int64.toUInt64 0 = p.offset := UInt64.add_zero _
          have hsub : p.left - Int64.toUInt64 0 = p.left := UInt64.sub_zero _
          rw [hnil, List.append_nil] at hmore
          rw [← hzero, hnil, moved_append, List.append_nil, hoff, hsub]
          exact ⟨hlen, htotal, hmore⟩
    · rw [fixLength, if_neg hleft] at hb
      cases hb
  · intro p o hp hb
    obtain ⟨hlen, htotal, hin⟩ := hp
    by_cases hleft : 0 < p.left
    · by_cases hneg : (t.ask p.offset p.left p.state).len < 0
      · rw [fixLength_fail t length hleft hneg] at hb
        cases hb
        have hnil : (t.ask p.offset p.left p.state).bytes = [] := by
          apply List.length_eq_zero_iff.mp
          have hint := Int64.lt_iff_toInt_lt.mp hneg
          rw [Int64.toInt_zero] at hint
          rw [t.length_bytes]
          omega
        have hmore := t.inOrder_ask p.left hin hlen.symm
        rw [UInt64.lt_iff_toNat_lt, UInt64.toNat_zero] at hleft
        rw [hnil, List.append_nil] at hmore
        rw [hnil, moved_append, List.append_nil]
        exact ⟨hmore, .inr ⟨rfl, by omega⟩⟩
      · rw [fixLength_next t length hleft hneg] at hb
        cases hb
    · rw [fixLength, if_neg hleft] at hb
      cases hb
      have hzero : p.left.toNat = 0 := by
        rw [UInt64.lt_iff_toNat_lt, UInt64.toNat_zero] at hleft
        omega
      have htotal' : (moved p.calls).length = length.toNat := by omega
      exact ⟨hin, .inl ⟨rfl, htotal'⟩⟩

theorem completesOrStops_iff : CompletesOrStops (fixLength t length) t.inOrder length s ↔
    NeverZero t length s :=
  ⟨CompletesOrStops.neverZero, NeverZero.completesOrStops⟩

/-- **Fixed-length transfers.** Each of the four functions, over any underlying `read` or `write`,
from any buffer or array and for any `length`, completes or stops if and only if no call that it
makes on the way answers 0 (and `length`, if so many bytes are transferred, is an `ssize_t`). -/
theorem fixLength_iff (r : Reader σ) (w : Writer σ) (data : List UInt8) (length : UInt64) (s : σ) :
    (CompletesOrStops (readFixLength r length) r.toBuffer.inOrder length (data, s) ↔
        NeverZero r.toBuffer length (data, s)) ∧
      (CompletesOrStops (readFixLengthByteArray r length) r.toByteArray.inOrder length (data, s) ↔
        NeverZero r.toByteArray length (data, s)) ∧
      (CompletesOrStops (writeFixLength w length) w.ofBuffer.inOrder length (data, s) ↔
        NeverZero w.ofBuffer length (data, s)) ∧
      (CompletesOrStops (writeFixLengthByteArray w length) w.ofByteArray.inOrder length (data, s) ↔
        NeverZero w.ofByteArray length (data, s)) :=
  ⟨completesOrStops_iff, completesOrStops_iff, completesOrStops_iff, completesOrStops_iff⟩

/-- A `read` at the end of its stream. -/
def endOfStream : Reader Unit where
  read _ s := { len := 0, bytes := [], state := s }
  le _ _ := Int.natCast_nonneg _
  length_bytes _ _ := rfl

/-- At the end of the stream the loop over one byte does not return. -/
theorem fixLength_endOfStream :
    ¬CompletesOrStops (readFixLength endOfStream 1) endOfStream.toBuffer.inOrder 1 ([0], ()) := by
  intro h
  obtain ⟨r, hr⟩ := h.returns
  refine not_returns (I := fun p => p.left = 1) rfl (fun p hp => ?_) hr
  have hleft : 0 < p.left := by
    rw [hp]
    decide
  have hzero : (endOfStream.toBuffer.ask p.offset p.left p.state).len = 0 := rfl
  refine ⟨_, fixLength_next _ _ hleft (by rw [hzero]; decide), ?_⟩
  dsimp only
  rw [hzero, hp]
  decide

end Tigerkin.Stream
