import Tigerkin.Http.Chunked
import Tigerkin.Http.ResponseDone

/-! # The size of a chunk

The size goes through `strtol` into an `int`, and the parser forgets at every read what it has seen
of a size line. So the size of a chunk is that of its line when it is at most 2147483645 and the
last piece of the line that a read delivers has all of it (`size_honoured_iff`). -/

namespace Tigerkin.Http

open Machine CString Loop

/-- A chunk-size line with the digits `w`. -/
structure SizeLine (w line : List UInt8) : Prop where
  ne_nil : w ≠ []
  digits : ∀ b ∈ w, IsDigit 16 b
  rest : ∃ (es : List (List UInt8 × Option (List UInt8))) (eol : List UInt8), 
    (∀ e ∈ es, IsToken e.1 ∧ ∀ v ∈ e.2, IsToken v) ∧ eol ∈ lineEnds ∧
    line = w ++ (es.flatMap extensionText ++ eol)

/-- The digits that a piece of a line starts with. -/
def sizeDigits (piece : List UInt8) : List UInt8 := piece.takeWhile fun b => IsDigit 16 b

/-- The machine, started for the piece, does not come to its error state. -/
def Readable (piece : List UInt8) : Prop := (walk responseRows (· == .done) 1 piece).1 ≠ 0

instance (piece : List UInt8) : Decidable (Readable piece) := inferInstanceAs (Decidable (_ ≠ _))

/-- If the parser reads all pieces, the number that the last one starts with is a `long` whose low
32 bits are the size of the line, and `int` has room for the size and the line ending behind the
data. -/
def SizeKept (w : List UInt8) (ps : List (List UInt8)) (p : List UInt8) : Prop :=
  (∀ q ∈ ps ++ [p], Readable q) →
    value 16 (sizeDigits p) < 2 ^ 63 ∧ value 16 (sizeDigits p) % 2 ^ 32 = value 16 w ∧
      value 16 w ≤ 2147483645

namespace HttpConnection

/-- What becomes of one chunk after a round. The flag says that it has been treated as the last. -/
def endRound : ChunkLoop × HttpConnection ⊕ Except Stop HttpConnection →
    ChunkLoop × HttpConnection ⊕ Except Stop (Bool × HttpConnection)
  | .inl (.header true, s) => .inr (.ok (false, s))
  | .inl x => .inl x
  | .inr (.ok s) => .inr (.ok (true, s))
  | .inr (.error e) => .inr (.error e)

/-- A round of the loop over the chunks, which ends with the chunk. -/
def recvOneChunk (x : ChunkLoop × HttpConnection) :
    ChunkLoop × HttpConnection ⊕ Except Stop (Bool × HttpConnection) :=
  endRound (recvChunk x)

/-- A chunk of the size `v` ends well: with `nullptr`, or with `v` more bytes in the body. It ends
with no wrapped length, and is treated as the last only if `v` is 0. -/
def EndsWell (v : Nat) (body : List UInt8) : Except Stop (Bool × HttpConnection) → Prop
  | .error e => e = .nullptr
  | .ok (last, s) => (∃ data, s.body = body ++ data ∧ data.length = v) ∧ (last = true → v = 0)

/-- However the rounds for the next chunk end, they end well for the size `v`. -/
def Honours (v : Nat) (s : HttpConnection) : Prop :=
  ∀ o, Returns recvOneChunk (.header true, s) o → EndsWell v s.body o

/-- The buffers that the parser gets when each read has room for a whole fragment. -/
def arrivals (s : HttpConnection) : List (List UInt8) :=
  if s.data.isEmpty then s.sock.frags else s.data :: s.sock.frags

/-- The line of the next chunk comes in the pieces `ps` and `p`, with `rest` behind it. -/
structure Delivers (ps : List (List UInt8)) (p rest : List UInt8) (s : HttpConnection) : Prop where
  connected : s.sock.isConnected = true
  error : s.parser.error = .OK
  room : p.length + rest.length ≤ s.bufferSize
  arrivals : ∃ more, s.arrivals = ps ++ (p ++ rest) :: more

end HttpConnection

/-! ## The machine on a piece of a line -/

/-- The states after the digits of a size. -/
def sizedStates : List Nat := [3, 4, 5, 6, 7, 120]

/-- The states in the name of the protocol. -/
def protocolStates : List Nat := [8, 9, 10, 11]

/-- The edges before the digits of a size, and those after a digit. -/
theorem digits_edges :
    (∀ b : UInt8, ∀ e ∈ edge responseRows 1 b,
      e.acts = [.mark] ∧ (e.target = 2 ∧ IsDigit 16 b ∨ e.target ∈ protocolStates)) ∧
    ∀ b : UInt8, ∀ e ∈ edge responseRows 2 b,
      e.acts = [] ∧ e.target = 2 ∧ IsDigit 16 b ∨
        (e.acts = [.chunkSize] ∨ e.acts = [.chunkSize, .done]) ∧ e.target ∈ sizedStates ∧
          ¬IsDigit 16 b ∧ b ≠ 120 ∧ b ≠ 88 :=
  ⟨forall_byte (by decide +kernel), forall_byte (by decide +kernel)⟩

/-- The edges behind the size, and those in the name of the protocol. -/
theorem sized_edges :
    (∀ b : UInt8, ∀ cs ∈ sizedStates, ∀ e ∈ edge responseRows cs b,
      e.target ∈ sizedStates ∧ ∀ a ∈ e.acts, IsHeaderAction a ∨ a = .done) ∧
    ∀ b : UInt8, b ≠ 47 → ∀ cs ∈ protocolStates, ∀ e ∈ edge responseRows cs b,
      e.target ∈ protocolStates ∧ e.acts = [] :=
  ⟨forall_byte (by decide +kernel), forall_byte (by decide +kernel)⟩

/-- An edge for another byte than a line feed does not end the machine. -/
theorem pass_edge : ∀ p ∈ responseRows.zipIdx, ∀ e ∈ p.1,
    e.on = [(10, 10)] ∨ e.stops (· == .done) = false ∧ e.target < 120 := by
  decide +kernel

def sizeLineStates : List Nat := 1 :: 2 :: (sizedStates ++ protocolStates)

theorem line_edge {b : UInt8} (h47 : b ≠ 47) {cs : Nat} (hcs : cs ∈ sizeLineStates)
    {e : Edge ResponseAction} (he : edge responseRows cs b = some e) :
    e.target ∈ sizeLineStates := by
  obtain ⟨hstart, hdigits⟩ := digits_edges
  obtain ⟨hsized, hprotocol⟩ := sized_edges
  simp only [sizeLineStates, List.mem_cons, List.mem_append] at hcs ⊢
  rcases hcs with rfl | rfl | hcs | hcs
  · exact .inr ((hstart b e he).2.imp And.left .inr)
  · exact .inr ((hdigits b e he).imp (fun h => h.2.1) fun h => .inl h.2.1)
  · exact .inr (.inr (.inl (hsized b cs hcs e he).1))
  · exact .inr (.inr (.inr (hprotocol b h47 cs hcs e he).1))

/-- The line feed ends the machine in the states of a size line. -/
theorem lf_edge : ∀ cs ∈ sizeLineStates, ∀ e ∈ edge responseRows cs 10,
    e.stops (· == .done) = true ∧ e.target = 120 := by
  decide +kernel

variable {piece : List UInt8} {cs : Nat}

theorem walk_pass (h10 : 10 ∉ piece) (hcs : cs < 120) :
    (walk responseRows (· == .done) cs piece).1 < 120 ∧
      ((walk responseRows (· == .done) cs piece).1 = 0 ∨
        (walk responseRows (· == .done) cs piece).2.2 = false) := by
  induction piece generalizing cs with
  | nil => exact ⟨hcs, .inr rfl⟩
  | cons b piece ih =>
    obtain ⟨hb, h10⟩ := not_or.mp (mt List.mem_cons.mpr h10)
    simp only [walk_step]
    cases he : edge responseRows cs b with
    | none => exact ⟨Nat.succ_pos 119, .inl rfl⟩
    | some e =>
      obtain ⟨hedge, hcovers⟩ := of_edge (P := fun _ e => e.on = [(10, 10)] ∨
        e.stops (· == .done) = false ∧ e.target < 120) pass_edge he
      obtain ⟨hs, htarget⟩ := hedge.resolve_left fun hon => hb (Edge.eq_of_covers hon hcovers).symm
      simp only [hs, Bool.false_eq_true, if_false]
      exact ih h10 htarget

theorem walk_sizeLine (h47 : 47 ∉ piece) (hcs : cs ∈ sizeLineStates) :
    (walk responseRows (· == .done) cs piece).1 = 0 ∨
      (walk responseRows (· == .done) cs piece).1 ∈ sizeLineStates := by
  induction piece generalizing cs with
  | nil => exact .inr hcs
  | cons b piece ih =>
    obtain ⟨hb, h47⟩ := not_or.mp (mt List.mem_cons.mpr h47)
    simp only [walk_step]
    cases he : edge responseRows cs b with
    | none => exact .inl rfl
    | some e =>
      have htarget := line_edge (Ne.symm hb) hcs he
      dsimp only
      split
      · exact .inr htarget
      · exact ih h47 htarget

/-- The machine ends with the line, if not before. -/
theorem walk_line (h10 : 10 ∉ piece) (h47 : 47 ∉ piece) :
    walk responseRows (· == .done) 1 (piece ++ [10]) = (120, (piece ++ [10]).length, true) ∨
      (walk responseRows (· == .done) 1 (piece ++ [10])).1 = 0 ∧
        (walk responseRows (· == .done) 1 (piece ++ [10])).2.2 = true := by
  by_cases hhalt : (walk responseRows (· == .done) 1 piece).2.2 = true
  · obtain ⟨-, h | h⟩ := walk_pass h10 (show 1 < 120 by decide)
    · rw [walk_append_halted [10] hhalt]
      exact .inr ⟨h, hhalt⟩
    · rw [hhalt] at h
      cases h
  · rw [walk_append [10] (eq_false_of_ne_true hhalt)]
    rcases walk_sizeLine h47 (show 1 ∈ sizeLineStates by decide) with h | h
    · exact .inr ⟨by rw [h]; rfl, by rw [h]; rfl⟩
    · simp only [walk_step]
      cases he : edge responseRows (walk responseRows (· == .done) 1 piece).1 10 with
      | none => exact .inr ⟨rfl, rfl⟩
      | some e =>
        obtain ⟨hs, htarget⟩ := lf_edge _ h e he
        simp only [hs, if_true, htarget, List.length_append]
        exact .inl rfl

/-! ## The parser on a piece of a line -/

/-- What is left in an `int` of a number that `strtol` has read. -/
def sizeInt (v : Nat) : Int := toInt (min v (2 ^ 63 - 1))

namespace HttpResponseParser

variable {piece rest : List UInt8} {err : HttpParserError} {x y : HttpResponseParser} {p : Nat}

/-- The machine in a piece of a line, of which it has read the first `p` bytes. -/
inductive AtSize (piece : List UInt8) (x : HttpResponseParser) : Nat → Nat → Prop where
  | start : AtSize piece x 1 0
  | protocol {cs p : Nat} (h : cs ∈ protocolStates) : AtSize piece x cs p
  | digits {p : Nat} (hmark : x.mark = 0) (hp : 0 < p) (h : ∀ b ∈ piece.take p, IsDigit 16 b) :
    AtSize piece x 2 p
  | sized {cs p : Nat} (h : cs ∈ sizedStates)
    (hlen : x.contentLen = sizeInt (value 16 (sizeDigits piece)))
    (hdone : x.chunksDone = decide (x.contentLen ≤ 0)) : AtSize piece x cs p

theorem act_headerAction {buffer : List UInt8} {a : ResponseAction}
    (ha : IsHeaderAction a ∨ a = .done) (h : act buffer p x a = some y) :
    y.error = x.error ∧ y.contentLen = x.contentLen ∧ y.chunksDone = x.chunksDone := by
  simp only [IsHeaderAction, List.mem_cons, List.not_mem_nil, or_false] at ha
  rcases ha with (rfl | rfl | rfl | rfl) | rfl
  case inl.inr.inr.inr =>
    simp only [act, onResponseHttpField] at h
    split at h
    · cases h
      exact ⟨rfl, rfl, rfl⟩
    · simp only [Option.bind_eq_bind, Option.bind_eq_some_iff] at h
      obtain ⟨_, -, _, -, h⟩ := h
      cases h
      exact ⟨rfl, rfl, rfl⟩
  all_goals
    cases h
    exact ⟨rfl, rfl, rfl⟩

variable (rest) in
/-- The size that `strtol` finds when the digits have been read. -/
theorem act_chunkSize_digits {b : UInt8} (hp : 0 < p) (hmark : x.mark = 0)
    (hdig : ∀ c ∈ piece.take p, IsDigit 16 c) (hb : piece[p]? = some b)
    (hend : ¬IsDigit 16 b ∧ b ≠ 120 ∧ b ≠ 88) :
    ∃ y, act (piece ++ rest) p x .chunkSize = some y ∧ y.error = x.error ∧
      y.contentLen = sizeInt (value 16 (sizeDigits piece)) ∧
      y.chunksDone = decide (y.contentLen ≤ 0) := by
  obtain ⟨hlt, hget⟩ := List.getElem?_eq_some_iff.mp hb
  have hsplit : piece = piece.take p ++ b :: piece.drop (p + 1) := by
    rw [← hget, List.getElem_cons_drop, List.take_append_drop]
  have hne : piece.take p ≠ [] := by
    refine List.length_pos_iff.mp ?_
    rw [List.length_take]
    omega
  have hdigits : sizeDigits piece = piece.take p := by
    conv_lhs => rw [sizeDigits, hsplit]
    rw [List.takeWhile_append_of_pos (by simpa using hdig),
      List.takeWhile_cons_of_neg (by simpa using hend.1), List.append_nil]
  have hstr : strtol ((piece ++ rest).drop x.mark) 16 =
      min (value 16 (sizeDigits piece) : Int) (2 ^ 63 - 1) := by
    rw [hmark, List.drop_zero, hdigits]
    conv_lhs => rw [hsplit, List.append_assoc]
    refine strtol_digits hdig hne ?_
    rintro c hc
    cases hc
    exact hend
  refine ⟨_, rfl, rfl, ?_, rfl⟩
  rw [hstr]
  rfl

/-- The machine goes on in a piece of a line. -/
theorem AtSize.step {cs : Nat} {b : UInt8} {e : Edge ResponseAction} (h47 : 47 ∉ piece)
    (hb : piece[p]? = some b) (he : edge responseRows cs b = some e) (h : AtSize piece x cs p)
    (hy : e.acts.foldlM (act (piece ++ rest) p) x = some y) :
    y.error = x.error ∧ AtSize piece y e.target (p + 1) := by
  have hmem := List.mem_of_getElem? hb
  cases h with
  | start =>
    obtain ⟨hacts, htarget⟩ := digits_edges.1 b e he
    rw [hacts] at hy
    cases hy
    refine ⟨rfl, ?_⟩
    rcases htarget with ⟨htarget, hdig⟩ | hprot
    · rw [htarget]
      refine .digits rfl Nat.one_pos fun c hc => ?_
      cases piece with
      | nil => cases hmem
      | cons d piece =>
        cases hb
        cases List.mem_singleton.mp hc
        exact hdig
    · exact .protocol hprot
  | protocol hcs =>
    obtain ⟨htarget, hacts⟩ := sized_edges.2 b (fun h => h47 (h ▸ hmem)) cs hcs e he
    rw [hacts] at hy
    cases hy
    exact ⟨rfl, .protocol htarget⟩
  | digits hmark hp hdig =>
    rcases digits_edges.2 b e he with ⟨hacts, htarget, hb'⟩ | ⟨hacts, htarget, hend⟩
    · rw [hacts] at hy
      cases hy
      rw [htarget]
      refine ⟨rfl, .digits hmark (Nat.succ_pos p) fun c hc => ?_⟩
      rw [List.take_add_one, hb, List.mem_append] at hc
      rcases hc with hc | hc
      · exact hdig c hc
      · cases List.mem_singleton.mp hc
        exact hb'
    · obtain ⟨z, hz, herr, hlen, hdone⟩ := act_chunkSize_digits rest hp hmark hdig hb hend
      rcases hacts with hacts | hacts
      all_goals
        rw [hacts, List.foldlM_cons, hz] at hy
        cases hy
        exact ⟨herr, .sized htarget hlen hdone⟩
  | sized hcs hlen hdone =>
    obtain ⟨htarget, hacts⟩ := sized_edges.1 b cs hcs e he
    obtain ⟨herr, hlen', hdone'⟩ := foldlM_inv (I := fun z => z.error = x.error ∧
      z.contentLen = x.contentLen ∧ z.chunksDone = x.chunksDone) (fun a ha hact hz => by
        obtain ⟨h1, h2, h3⟩ := act_headerAction (hacts a ha) hact
        exact ⟨h1.trans hz.1, h2.trans hz.2.1, h3.trans hz.2.2⟩) hy ⟨rfl, rfl, rfl⟩
    exact ⟨herr, .sized htarget (hlen'.trans hlen) (by rw [hdone', hlen', hdone])⟩

theorem exec_piece (h47 : 47 ∉ piece) {z : HttpResponseParser} {cs : Nat}
    (h : exec responseRows (· == .done) (act (piece ++ rest)) 1 x 0 piece = some (z, cs, p)) :
    z.error = x.error ∧ (cs = 0 ∨ AtSize piece z cs p) := by
  obtain ⟨cs', hcs, herr, hat⟩ := exec_edges (p := 0)
    (I := fun cs p z => z.error = x.error ∧ AtSize piece z cs p) (fun hb he hI hy => by
      obtain ⟨h1, h2⟩ := hI.2.step h47 hb he hy
      exact ⟨h1.trans hI.1, h2⟩) h ⟨rfl, .start⟩
  refine ⟨herr, hcs.imp_right fun h => ?_⟩
  dsimp only at h
  rwa [h]

theorem within_init (x : HttpResponseParser) : Within 0 x.init :=
  ⟨Nat.zero_le _, Nat.zero_le _, Nat.zero_le _, Nat.zero_le _, rfl⟩

/-- A piece before the end of its line. -/
theorem execute_pass (hne : piece ≠ []) (h10 : 10 ∉ piece) (h47 : 47 ∉ piece)
    (hlen : piece.length < 2 ^ 63) :
    ∃ y data, x.execute piece true = some (y, data) ∧ y.error = x.error ∧
      (¬Readable piece ∧ y.cs = 0 ∨
        Readable piece ∧ y.cs ≠ 0 ∧ y.cs ≠ 120 ∧ data = []) := by
  obtain ⟨z, cs, p, hz, hy⟩ := parserExecute_run (within_init x) rfl hne hlen
  obtain ⟨hcs, hp⟩ := exec_walk hz
  obtain ⟨hlt, hpass⟩ := walk_pass h10 (show 1 < 120 by decide)
  rw [hcs] at hlt hpass
  rw [← List.append_nil piece] at hz
  have herr := (exec_piece h47 (by rwa [List.append_nil] at hz ⊢)).1
  refine ⟨{ z with cs, nread := p }, piece.drop p, by rw [execute, if_pos rfl, hy]; rfl, herr, ?_⟩
  by_cases h0 : cs = 0
  · exact .inl ⟨fun hr => hr (hcs.trans h0), h0⟩
  · refine .inr ⟨fun hr => h0 (hcs.symm.trans hr), h0, Nat.ne_of_lt hlt, ?_⟩
    rw [hp, Nat.zero_add, walk_length (hpass.resolve_left h0)]
    exact List.drop_length

variable (x rest) in
/-- The piece that ends the line. -/
theorem execute_last (h10 : 10 ∉ piece) (h47 : 47 ∉ piece)
    (hlen : (piece ++ [10] ++ rest).length < 2 ^ 63) :
    ∃ y data, x.execute (piece ++ [10] ++ rest) true = some (y, data) ∧ y.error = x.error ∧
      (¬Readable (piece ++ [10]) ∧ y.cs = 0 ∨
        Readable (piece ++ [10]) ∧ y.cs = 120 ∧ data = rest ∧
          y.contentLen = sizeInt (value 16 (sizeDigits (piece ++ [10]))) ∧
          y.chunksDone = decide (y.contentLen ≤ 0)) := by
  have h47' : 47 ∉ piece ++ [10] := by simp [h47]
  obtain ⟨z, cs, p, hz, hy⟩ := parserExecute_run (within_init x) rfl (by simp) hlen
  have hline := walk_line h10 h47
  have hhalt : (walk responseRows (· == .done) 1 (piece ++ [10])).2.2 = true := by
    rcases hline with h | h
    · rw [h]
    · exact h.2
  rw [exec_append_halted rest hhalt] at hz
  obtain ⟨hcs, hp⟩ := exec_walk hz
  obtain ⟨herr, hat⟩ := exec_piece h47' hz
  refine ⟨{ z with cs, nread := p }, (piece ++ [10] ++ rest).drop p,
    by rw [execute, if_pos rfl, hy]; rfl, herr, ?_⟩
  rcases hline with h | ⟨h, -⟩
  · rw [h] at hcs hp
    dsimp only at hcs hp
    subst hcs
    refine .inr ⟨by rw [Readable, h]; exact Nat.succ_ne_zero 119, rfl, ?_, ?_⟩
    · rw [hp, Nat.zero_add, List.drop_left]
    · obtain - | hprot | - | ⟨-, hlen, hdone⟩ := hat.resolve_left (by decide)
      · exact absurd hprot (by decide)
      · exact ⟨hlen, hdone⟩
  · exact .inl ⟨fun hr => hr h, hcs.symm.trans h⟩

end HttpResponseParser

theorem sizeInt_bounds (u : Nat) : -2 ^ 31 ≤ sizeInt u ∧ sizeInt u < 2 ^ 31 := by
  unfold sizeInt toInt
  rw [Int.bmod_def]
  omega

theorem sizeInt_eq_iff {u v : Nat} (hv : v ≤ 2147483645) :
    sizeInt u = v ↔ u < 2 ^ 63 ∧ u % 2 ^ 32 = v := by
  unfold sizeInt toInt
  rw [Int.bmod_def]
  omega

/-! ## The rounds for one chunk -/

namespace HttpConnection

variable {s : HttpConnection} {begin : Bool} {piece rest : List UInt8} {fs ps : List (List UInt8)}

theorem endRound_endChunk (s : HttpConnection) :
    endRound (endChunk s) = .inr (.ok (s.parser.chunksDone, s)) := by
  unfold endChunk
  cases h : s.parser.chunksDone <;> rfl

/-- A round on the header has the next arrival in the buffer. -/
theorem recvChunk_arrival (hconn : s.sock.isConnected = true) (hbegin : begin = true ∨ s.data = [])
    (harr : s.arrivals = piece :: fs) (hne : piece ≠ []) (hfit : piece.length ≤ s.bufferSize) :
    recvChunk (.header begin, s) =
      parseChunkHeader { s with data := piece, sock := { s.sock with frags := fs } } := by
  obtain ⟨b, piece, rfl⟩ := List.exists_cons_of_ne_nil hne
  rw [recvChunk]
  cases hd : s.data with
  | nil =>
    have hfrags : s.sock.frags = (b :: piece) :: fs := by
      rw [arrivals, hd] at harr
      exact harr
    have hread : s.sock.read (s.bufferSize - 0) =
        (some (b :: piece), { s.sock with frags := fs }) := by
      simp only [Socket.read, hconn, hfrags, Nat.sub_zero, if_pos hfit, Bool.not_true,
        Bool.false_eq_true, if_false]
    rw [if_pos (by simp), List.length_nil, hread]
    rfl
  | cons c data =>
    rw [arrivals, hd, if_neg (by simp)] at harr
    obtain ⟨h, rfl⟩ := List.cons.inj harr
    rw [hbegin.resolve_right (by simp [hd]), if_neg (by simp), ← h, ← hd]

/-- A round on a piece that does not end the line. -/
theorem recvOneChunk_pass (hconn : s.sock.isConnected = true)
    (hbegin : begin = true ∨ s.data = []) (herr : s.parser.error = .OK)
    (harr : s.arrivals = piece :: fs) (hne : piece ≠ []) (hfit : piece.length ≤ s.bufferSize)
    (h10 : 10 ∉ piece) (h47 : 47 ∉ piece) (hsize : s.bufferSize < 2 ^ 63) :
    ¬Readable piece ∧ recvOneChunk (.header begin, s) = .inr (.error .nullptr) ∨
      Readable piece ∧ ∃ y, y.error = .OK ∧ recvOneChunk (.header begin, s) = .inl (.header false,
        { s with parser := y, data := [], sock := { s.sock with frags := fs } }) := by
  obtain ⟨y, data, hy, hyerr, hcs⟩ := HttpResponseParser.execute_pass (x := s.parser) hne h10 h47
    (Nat.lt_of_le_of_lt hfit hsize)
  rw [herr] at hyerr
  have hpos := List.length_pos_iff.mpr hne
  have hroom : ([] : List UInt8).length ≠ s.bufferSize :=
    Nat.ne_of_lt (Nat.lt_of_lt_of_le hpos hfit)
  rw [recvOneChunk, recvChunk_arrival hconn hbegin harr hne hfit, parseChunkHeader]
  rcases hcs with ⟨hread, hcs⟩ | ⟨hread, h0, h120, rfl⟩
  · have herror : y.hasError = true := by
      rw [HttpResponseParser.hasError, hcs, Bool.or_eq_true]
      exact .inr rfl
    simp only [hy, herror, if_true]
    exact .inl ⟨hread, rfl⟩
  · have herror : y.hasError = false := by
      simp [HttpResponseParser.hasError, hyerr, h0]
    have hfin : y.isFinished = false := by
      simp [HttpResponseParser.isFinished, h120]
    simp only [hy, herror, hfin, hroom, if_false, Bool.false_eq_true]
    exact .inr ⟨hread, y, hyerr, rfl⟩

/-- A round on the piece that ends the line. -/
theorem recvChunk_last (hconn : s.sock.isConnected = true)
    (hbegin : begin = true ∨ s.data = []) (herr : s.parser.error = .OK)
    (harr : s.arrivals = (piece ++ [10] ++ rest) :: fs)
    (hfit : (piece ++ [10] ++ rest).length ≤ s.bufferSize)
    (h10 : 10 ∉ piece) (h47 : 47 ∉ piece) (hsize : s.bufferSize < 2 ^ 63) :
    ¬Readable (piece ++ [10]) ∧ recvChunk (.header begin, s) = .inr (.error .nullptr) ∨
      Readable (piece ++ [10]) ∧ ∃ y : HttpResponseParser,
        y.contentLen = sizeInt (value 16 (sizeDigits (piece ++ [10]))) ∧
        y.chunksDone = decide (y.contentLen ≤ 0) ∧ recvChunk (.header begin, s) =
          recvChunkBody
            { s with parser := y, data := rest, sock := { s.sock with frags := fs } } := by
  obtain ⟨y, data, hy, hyerr, hcs⟩ := HttpResponseParser.execute_last rest s.parser h10 h47
    (Nat.lt_of_le_of_lt hfit hsize)
  rw [herr] at hyerr
  rw [recvChunk_arrival hconn hbegin harr (by simp) hfit, parseChunkHeader]
  rcases hcs with ⟨hread, hcs⟩ | ⟨hread, hcs, rfl, hlen, hdone⟩
  · have herror : y.hasError = true := by
      rw [HttpResponseParser.hasError, hcs, Bool.or_eq_true]
      exact .inr rfl
    refine .inl ⟨hread, ?_⟩
    simp only [hy, herror, if_true]
  · have herror : y.hasError = false := by
      simp [HttpResponseParser.hasError, hyerr, hcs]
    have hfin : y.isFinished = true := by
      simp [HttpResponseParser.isFinished, hcs]
    have hroom : data.length ≠ s.bufferSize := by
      rw [List.length_append, List.length_append] at hfit
      exact Nat.ne_of_lt (by simp only [List.length_singleton] at hfit; omega)
    simp only [hy, herror, hfin, hroom, if_true, if_false, Bool.false_eq_true]
    exact .inr ⟨hread, y, hlen, hdone, rfl⟩

/-- The rounds on the header: the chunk is rejected, or they come to a round that goes on to the
data with the number in the last piece. -/
theorem header_rounds (hconn : s.sock.isConnected = true) (hbegin : begin = true ∨ s.data = [])
    (herr : s.parser.error = .OK) (harr : s.arrivals = ps ++ (piece ++ [10] ++ rest) :: fs)
    (hps : ∀ q ∈ ps, q ≠ [] ∧ q.length ≤ s.bufferSize ∧ 10 ∉ q ∧ 47 ∉ q)
    (hfit : (piece ++ [10] ++ rest).length ≤ s.bufferSize) (h10 : 10 ∉ piece) (h47 : 47 ∉ piece)
    (hsize : s.bufferSize < 2 ^ 63) :
    (¬∀ q ∈ ps ++ [piece ++ [10]], Readable q) ∧
        Returns recvOneChunk (.header begin, s) (.error .nullptr) ∨
      (∀ q ∈ ps ++ [piece ++ [10]], Readable q) ∧ ∃ (y : HttpResponseParser) (x : _),
        y.contentLen = sizeInt (value 16 (sizeDigits (piece ++ [10]))) ∧
        y.chunksDone = decide (y.contentLen ≤ 0) ∧ Reaches recvOneChunk (.header begin, s) x ∧
        recvChunk x = recvChunkBody
          { s with parser := y, data := rest, sock := { s.sock with frags := fs } } := by
  induction ps generalizing s begin with
  | nil =>
    rw [List.nil_append, List.forall_mem_singleton]
    rcases recvChunk_last hconn hbegin herr harr hfit h10 h47 hsize with
      ⟨hread, hround⟩ | ⟨hread, y, hlen, hdone, hround⟩
    · exact .inl ⟨hread, .done (congrArg endRound hround)⟩
    · exact .inr ⟨hread, y, _, hlen, hdone, .refl, hround⟩
  | cons q ps ih =>
    obtain ⟨⟨hne, hq, hq10, hq47⟩, hps⟩ := List.forall_mem_cons.mp hps
    rw [List.cons_append, List.forall_mem_cons]
    rcases recvOneChunk_pass hconn hbegin herr harr hne hq hq10 hq47 hsize with
      ⟨hread, hround⟩ | ⟨hread, y, hy, hround⟩
    · exact .inl ⟨fun h => hread h.1, .done hround⟩
    · rcases ih (s := { s with
          parser := y
          data := []
          sock := { s.sock with frags := ps ++ (piece ++ [10] ++ rest) :: fs } })
        hconn (show false = true ∨ _ from .inr rfl) hy rfl hps hfit hsize with
        ⟨hread', hr⟩ | ⟨hread', y', x, hlen, hdone, hx, hr⟩
      · exact .inl ⟨fun h => hread' h.2, .next hround hr⟩
      · exact .inr ⟨⟨hread, hread'⟩, y', x, hlen, hdone, .head hround hx, hr⟩

/-- The rounds on the data of a chunk of the size `v`, of which `left` bytes are left with the line
ending. -/
structure InData (v : Nat) (body : List UInt8) (parser : HttpResponseParser)
    (x : ChunkLoop × HttpConnection) : Prop where
  parser : x.2.parser = parser
  body : ∃ left data, x.1 = .data left ∧ x.2.body = body ++ data ∧ data.length + left = v + 2

theorem InData.step {v : Nat} {body : List UInt8} {parser : HttpResponseParser}
    (hdone : parser.chunksDone = decide (v = 0)) {x : ChunkLoop × HttpConnection}
    (h : InData v body parser x) :
    (∃ x', recvOneChunk x = .inl x' ∧ InData v body parser x') ∨
      ∃ o, recvOneChunk x = .inr o ∧ EndsWell v body o := by
  obtain ⟨_, s⟩ := x
  obtain ⟨rfl, left, data, rfl, hbody, hlen⟩ := h
  dsimp only at hbody hdone
  simp only [recvOneChunk, recvChunk]
  split
  · subst left
    have htake : (body ++ data).take ((body ++ data).length - 2) = body ++ data.take v := by
      have hv : (body ++ data).length - 2 = body.length + v := by
        rw [List.length_append]
        omega
      rw [hv, List.take_length_add_append]
    have hlarge : ¬(body ++ data).length < 2 := by
      rw [List.length_append]
      omega
    rw [hbody, if_neg hlarge, htake, endRound_endChunk]
    refine .inr ⟨_, rfl, ⟨data.take v, rfl, ?_⟩, fun h => ?_⟩
    · rw [List.length_take]
      omega
    · rw [hdone] at h
      exact of_decide_eq_true h
  · rename_i hleft
    split
    · exact .inr ⟨_, rfl, rfl⟩
    · rename_i b sock hread
      have hb : b.length ≤ left := by
        have := Socket.read_le hread
        split at this <;> omega
      refine .inl ⟨_, rfl, rfl, _, data ++ b, rfl, ?_, ?_⟩
      · rw [hbody, List.append_assoc]
      · rw [List.length_append]
        omega

/-- A number that `int` has room for is the size of the chunk. -/
theorem recvChunkBody_endsWell {v : Nat} (hv : v ≤ 2147483645) (hlen : s.parser.contentLen = v)
    (hdone : s.parser.chunksDone = decide (v = 0)) {x : ChunkLoop × HttpConnection}
    (hx : recvChunk x = recvChunkBody s) {o : Except Stop (Bool × HttpConnection)}
    (ho : Returns recvOneChunk x o) : EndsWell v s.body o := by
  have hround : recvOneChunk x = endRound (recvChunkBody s) := congrArg endRound hx
  have hint : toInt ((v : Int) + 2) = v + 2 := by
    unfold toInt
    rw [Int.bmod_def]
    omega
  rw [recvChunkBody, hlen, hint] at hround
  split at hround
  · rw [if_neg (by omega), Int.toNat_natCast, endRound_endChunk] at hround
    cases ho.of_done hround
    refine ⟨⟨s.data.take v, rfl, ?_⟩, fun h => ?_⟩
    · rw [List.length_take]
      omega
    · rw [hdone] at h
      exact of_decide_eq_true h
  · refine (ho.of_next hround).inv (I := InData v s.body s.parser) (Q := EndsWell v s.body)
      ⟨rfl, _, s.data, rfl, rfl, by omega⟩ (fun hI hb => ?_) fun hI hb => ?_
    all_goals
      rcases hI.step hdone with ⟨x', hx', hI'⟩ | ⟨o', ho', hend⟩
    · cases hx'.symm.trans hb
      exact hI'
    · cases ho'.symm.trans hb
    · cases hx'.symm.trans hb
    · cases ho'.symm.trans hb
      exact hend

/-- Another number is not the size of the chunk, when what it asks for comes. -/
theorem recvChunkBody_not_endsWell {v : Nat} (hlow : -2 ^ 31 ≤ s.parser.contentLen)
    (hhigh : s.parser.contentLen < 2 ^ 31)
    (hne : s.parser.contentLen = v → 2147483645 < v) (hdata : s.data = []) (hbody : s.body = [])
    (hsize : 0 < s.bufferSize)
    (hsock : s.sock = ⟨[List.replicate (s.parser.contentLen + 2).toNat 0], false, true⟩)
    {x : ChunkLoop × HttpConnection} (hx : recvChunk x = recvChunkBody s) :
    ∃ o, Returns recvOneChunk x o ∧ ¬EndsWell v s.body o := by
  have hround : recvOneChunk x = endRound (recvChunkBody s) := congrArg endRound hx
  rw [recvChunkBody, hdata, List.length_nil] at hround
  by_cases hout : s.parser.contentLen < -1 ∨ 2147483645 < s.parser.contentLen
  · have hint : toInt (s.parser.contentLen + 2) ≤ (0 : Nat) := by
      unfold toInt
      rw [Int.bmod_def]
      omega
    rw [if_pos hint, if_pos (by omega)] at hround
    exact ⟨_, .done hround, by rintro ⟨⟩⟩
  · have hint : ¬toInt (s.parser.contentLen + 2) ≤ (0 : Nat) := by
      unfold toInt
      rw [Int.bmod_def]
      omega
    have hleft : (s.parser.contentLen - (0 : Nat) + 2).toNat = (s.parser.contentLen + 2).toNat := by
      rw [Int.natCast_zero, Int.sub_zero]
    rw [if_neg hint, hleft, hbody] at hround
    generalize hk : (s.parser.contentLen + 2).toNat = k at hround hsock
    have hopen : s.sock.Open := by
      refine ⟨by rw [hsock], fun f hf => ?_⟩
      rw [hsock] at hf
      cases List.mem_singleton.mp hf
      refine List.length_pos_iff.mp ?_
      rw [List.length_replicate]
      omega
    have hpending : s.sock.pending = List.replicate k 0 := by
      rw [hsock, Socket.pending, List.flatten_singleton]
    have hread : ∀ {o}, Returns recvOneChunk (.data 0, { s with
        data := []
        body := List.replicate k 0
        sock := s.sock.skip k }) o → Returns recvOneChunk x o := by
      intro o ho
      refine .next hround (recvData_returns
        (fun h => congrArg endRound h) (s := { s with data := [], body := [] ++ [] }) hopen
        (by rw [hpending, List.length_replicate]) hsize ?_)
      dsimp only
      rwa [hpending, List.take_of_length_le (by rw [List.length_replicate]), List.nil_append,
        List.nil_append]
    by_cases hk2 : k < 2
    · refine ⟨.error .abort, hread (.done ?_), by rintro ⟨⟩⟩
      simp only [recvOneChunk, recvChunk, if_true, List.length_replicate, if_pos hk2]
      rfl
    · have hend := endRound_endChunk { s with
        data := []
        body := (List.replicate k 0).take (k - 2)
        sock := s.sock.skip k }
      refine ⟨_, hread (.done (Eq.trans ?_ hend)), ?_⟩
      · simp only [recvOneChunk, recvChunk, if_true, List.length_replicate, if_neg hk2]
      · rintro ⟨⟨data, hcat, hlen⟩, -⟩
        rw [hbody, List.nil_append] at hcat
        rw [← hcat, List.length_take, List.length_replicate] at hlen
        omega

end HttpConnection

/-! ## Lines -/

theorem lineEnd_eq {eol : List UInt8} (h : eol ∈ lineEnds) :
    ∃ cr, eol = cr ++ [10] ∧ 10 ∉ cr ∧ 47 ∉ cr := by
  simp only [lineEnds, List.mem_cons, List.not_mem_nil, or_false] at h
  rcases h with rfl | rfl
  · exact ⟨[], rfl, by decide, by decide⟩
  · exact ⟨[13], rfl, by decide, by decide⟩

theorem lineChar_ne : ∀ b : UInt8, isFieldChar b ∨ IsDigit 16 b → b ≠ 10 ∧ b ≠ 47 :=
  forall_byte (by decide +kernel)

/-- A size line ends with its only line feed, and has no slash. -/
theorem SizeLine.split {w line : List UInt8} (h : SizeLine w line) :
    ∃ text, line = text ++ [10] ∧ ∀ b ∈ text, b ≠ 10 ∧ b ≠ 47 := by
  obtain ⟨es, eol, hes, heol, rfl⟩ := h.rest
  obtain ⟨cr, rfl, hcr⟩ := lineEnd_eq heol
  refine ⟨w ++ (es.flatMap extensionText ++ cr), by simp only [List.append_assoc], fun b hb => ?_⟩
  rcases List.mem_append.mp hb with hb | hb
  · exact lineChar_ne b (.inr (h.digits b hb))
  · rcases List.mem_append.mp hb with hb | hb
    · obtain ⟨e, he, hb⟩ := List.mem_flatMap.mp hb
      obtain ⟨hname, hval⟩ := hes e he
      simp only [extensionText, List.append_assoc, List.mem_append] at hb
      rcases hb with hb | hb | hb
      · cases List.mem_singleton.mp hb
        decide
      · exact lineChar_ne b (.inl (hname.2 b hb))
      · cases hv : e.2 with
        | none =>
          rw [hv] at hb
          cases hb
        | some v =>
          rw [hv] at hb
          rcases List.mem_append.mp hb with hb | hb
          · cases List.mem_singleton.mp hb
            decide
          · exact lineChar_ne b (.inl ((hval v hv).2 b hb))
    · exact ⟨fun h => hcr.1 (h ▸ hb), fun h => hcr.2 (h ▸ hb)⟩

/-- The pieces of a size line: only the last one has a line feed, at its end. -/
theorem SizeLine.pieces {w p : List UInt8} {ps : List (List UInt8)}
    (h : SizeLine w (ps.flatten ++ p)) (hp : p ≠ []) :
    ∃ piece, p = piece ++ [10] ∧ (10 ∉ piece ∧ 47 ∉ piece) ∧ ∀ q ∈ ps, 10 ∉ q ∧ 47 ∉ q := by
  obtain ⟨text, hcat, htext⟩ := h.split
  have hlast : p.getLast? = some 10 := by
    have := congrArg List.getLast? hcat
    rwa [List.getLast?_append_of_ne_nil _ hp, List.getLast?_concat] at this
  obtain ⟨piece, rfl⟩ := List.getLast?_eq_some_iff.mp hlast
  rw [← List.append_assoc] at hcat
  obtain rfl := List.append_cancel_right hcat
  refine ⟨piece, rfl, ?_, fun q hq => ?_⟩
  · exact ⟨fun h => (htext 10 (List.mem_append_right _ h)).1 rfl,
      fun h => (htext 47 (List.mem_append_right _ h)).2 rfl⟩
  · have hmem : ∀ b ∈ q, b ≠ 10 ∧ b ≠ 47 := fun b hb =>
      htext b (List.mem_append_left _ (List.mem_flatten_of_mem hq hb))
    exact ⟨fun h => (hmem 10 h).1 rfl, fun h => (hmem 47 h).2 rfl⟩

end Tigerkin.Http
