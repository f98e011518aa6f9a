import Tigerkin.Http.RecvRequest
import Tigerkin.Http.Response

/-! # Receiving until the peer closes

A `read` at the end of the stream returns 0. The loop over the head of a response and that over the
header of a chunk stop there; the loop over the head of a request, `readFixLength` and the loop over
the data of a chunk test for a negative result only, and go on for ever. -/

namespace Tigerkin.Http

open Machine Loop

/-- `readFixLength` returns when the stream has enough bytes, and else goes on for ever. -/
theorem readFixLength_returns_iff {s : FixRead} (ho : s.sock.Open) (hends : s.sock.fails = false) :
    (∃ r, Returns readFixLength s r) ↔ s.left ≤ s.sock.pending.length := by
  constructor
  · rintro ⟨r, hr⟩
    by_contra hlt
    refine not_returns (I := fun s => s.sock.Open ∧ s.sock.fails = false ∧
      s.sock.pending.length < s.left) ⟨ho, hends, Nat.lt_of_not_le hlt⟩ (fun s hs => ?_) hr
    obtain ⟨ho, hends, hlt⟩ := hs
    obtain ⟨b, sock, hread⟩ : ∃ b sock, s.sock.read s.left = (some b, sock) := by
      cases hf : s.sock.frags with
      | nil => exact ⟨[], s.sock, by rw [Socket.read_nil ho hf, hends]; rfl⟩
      | cons f fs => exact ⟨_, _, Socket.read_cons ho hf s.left⟩
    obtain ⟨-, rfl, hlen, -⟩ := ho.of_read hread
    refine ⟨⟨s.left - b.length, s.buffer ++ b, s.sock.skip b.length⟩, ?_, ho.skip _, hends, ?_⟩
    · rw [readFixLength, if_neg (by omega), hread]
    · dsimp only
      omega
  · exact fun hle => ⟨_, readFixLength_returns ho hle⟩

theorem readFixLength_map_ends_iff {ρ : Type} (f : Option (List UInt8) × Socket → ρ) {s : FixRead}
    (ho : s.sock.Open) (hends : s.sock.fails = false) :
    (∃ fuel o, (run readFixLength fuel s).map f = some o) ↔ s.left ≤ s.sock.pending.length := by
  rw [← readFixLength_returns_iff ho hends]
  constructor
  · rintro ⟨fuel, o, h⟩
    obtain ⟨r, hr, -⟩ := Option.map_eq_some_iff.mp h
    exact ⟨r, fuel, hr⟩
  · rintro ⟨r, fuel, hr⟩
    exact ⟨fuel, f r, congrArg (Option.map f) hr⟩

/-- A loop, and then what is done with its result. -/
def andThen {σ τ ρ : Type} (body : σ → σ ⊕ Except Stop τ) (g : Nat → τ → Option (Except Stop ρ))
    (fuel : Nat) (s : σ) : Option (Except Stop ρ) :=
  (run body fuel s).bind fun
    | .error e => some (.error e)
    | .ok t => g fuel t

theorem andThen_ends_iff {σ τ ρ : Type} {body : σ → σ ⊕ Except Stop τ}
    {g : Nat → τ → Option (Except Stop ρ)}
    (hg : ∀ {n m t o}, n ≤ m → g n t = some o → g m t = some o) (s : σ) :
    (∃ fuel o, andThen body g fuel s = some o ∧ o ≠ .error .abort) ↔
      (∃ r, Returns body s r) ∧
        (∀ t, Reaches body s t → body t ≠ .inr (.error .abort)) ∧
          ∀ t, Returns body s (.ok t) → ∃ fuel o, g fuel t = some o ∧ o ≠ .error .abort := by
  constructor
  · rintro ⟨fuel, o, hrun, hne⟩
    obtain ⟨o', ho', hrun⟩ := Option.bind_eq_some_iff.mp hrun
    have hret : Returns body s o' := ⟨fuel, ho'⟩
    refine ⟨⟨o', hret⟩, fun t ht habort => ?_, fun t ht => ?_⟩
    · obtain rfl := (ht.returns hret).of_done habort
      cases hrun
      exact hne rfl
    · obtain rfl := hret.unique ht
      exact ⟨fuel, o, hrun, hne⟩
  · rintro ⟨⟨r, hr⟩, habort, hok⟩
    cases r with
    | error e =>
      obtain ⟨t, ht, hdone⟩ := hr.last
      obtain ⟨fuel, hrun⟩ := hr
      refine ⟨fuel, .error e, by rw [andThen, hrun]; rfl, ?_⟩
      rintro ⟨⟩
      exact habort t ht hdone
    | ok t =>
      obtain ⟨n, o, ho, hne⟩ := hok t hr
      obtain ⟨m, hrun⟩ := hr
      refine ⟨max m n, o, ?_, hne⟩
      rw [andThen, run_mono (Nat.le_max_left m n) hrun]
      exact hg (Nat.le_max_right m n) ho

/-! ## Requests -/

namespace HttpSession

variable {s s' : HttpSession}

/-- A session in the loop that reads the head. -/
structure Waiting (s : HttpSession) : Prop where
  offset : s.offset = 0
  room : 0 < s.data.length
  error : s.parser.hasError = false
  unfinished : s.parser.isFinished = 0
  sock : s.sock.Open
  ends : s.sock.fails = false

/-- The parser that wants more has consumed everything. -/
theorem parserExecute_unfinished {x y : HttpRequestParser} {buffer : List UInt8} {n k : Nat}
    (h : x.parserExecute buffer n = some (y, k)) (hn : n ≤ buffer.length) (hx : x.isFinished = 0)
    (hy : y.isFinished = 0) : k = n := by
  have hcs : ∀ {z : HttpRequestParser}, z.isFinished = 0 → z.cs ≠ 0 ∧ z.cs < 348 := by
    intro z hz
    unfold HttpRequestParser.isFinished at hz
    split at hz
    · cases hz
    · split at hz
      · cases hz
      · omega
  by_cases h0 : n = 0
  · rw [HttpRequestParser.parserExecute, if_pos h0] at h
    cases h
    exact h0.symm
  obtain ⟨rfl, hk, hycs, hyn, -⟩ := HttpRequestParser.parserExecute_some h h0 (hcs hx).1
  have hrun : (walk (requestRows x.uriRelaxed) (· == .done) x.cs (buffer.take n)).2.2 = false := by
    by_contra hh
    have := walk_halted (Bool.not_eq_false _ ▸ hh)
    have := hcs hy
    omega
  rw [walk_length hrun, List.length_take_of_le hn] at hyn
  omega

/-- A round that goes on has got something, or leaves everything as it was. -/
theorem recvHead_waiting (h : s.Waiting) (hb : s.recvHead = .inl s') :
    s'.Waiting ∧ (s.sock.frags ≠ [] → s'.sock.pending.length < s.sock.pending.length) := by
  obtain ⟨hoff, hroom, herr, hun, ho, hends⟩ := h
  unfold recvHead at hb
  rw [hoff] at hb
  split at hb
  · cases hb
  rename_i b sock hread
  obtain ⟨hle, rfl, hlen, hempty⟩ := ho.of_read hread
  rw [Nat.sub_zero] at hle hempty
  simp only [List.take_zero, List.nil_append, Nat.zero_add] at hb
  split at hb
  · cases hb
  rename_i y data k hexec
  split at hb
  · cases hb
  rename_i herr'
  split at hb
  · cases hb
  split at hb
  · cases hb
  rename_i hfin
  cases hb
  have hbuf : (b ++ s.data.drop b.length).length = s.data.length := by
    rw [List.length_append, List.length_drop]
    omega
  simp only [HttpRequestParser.execute, Option.bind_eq_bind, Option.bind_eq_some_iff] at hexec
  obtain ⟨⟨y', k'⟩, hparse, hexec⟩ := hexec
  cases hexec
  have hun' := Decidable.not_not.mp hfin
  obtain rfl := parserExecute_unfinished hparse (by omega) hun hun'
  refine ⟨⟨Nat.sub_self _, ?_, by simpa using herr', hun', ho.skip _, hends⟩, fun hne => ?_⟩
  · rw [Nat.sub_self, List.drop_zero, List.length_append, List.length_drop, List.length_take]
    omega
  · have hb : b ≠ [] := fun hb => hne (hempty hb hroom)
    have := List.length_pos_iff.mpr hb
    dsimp only
    omega

/-- At the end of the stream the loop goes on and changes nothing. -/
theorem recvHead_starved (h : s.Waiting) (hf : s.sock.frags = []) : s.recvHead = .inl s := by
  obtain ⟨hoff, hroom, herr, hun, ho, hends⟩ := h
  have hread : ∀ n, s.sock.read n = (some [], s.sock) := fun n => by
    rw [Socket.read_nil ho hf, hends]
    rfl
  have hexec : s.parser.execute s.data 0 = some (s.parser, s.data, 0) := by
    simp [HttpRequestParser.execute, HttpRequestParser.parserExecute]
  have hfull : 0 ≠ s.data.length := Nat.ne_of_lt hroom
  have hself : s = ⟨s.parser, s.data, 0, s.sock⟩ := hoff ▸ rfl
  unfold recvHead
  rw [hoff, hread]
  simp only [List.take_zero, List.length_nil, Nat.add_zero, List.drop_zero, List.nil_append, hexec,
    herr, hun, hfull, Bool.false_eq_true, if_false, ne_eq, not_true_eq_false]
  exact congrArg Sum.inl hself.symm

/-- Before every read of the loop over the head there are bytes to read, and the parser throws
nothing and fails no assertion on them; and the stream has the whole body. -/
def Served (lexicalCast : List UInt8 → Option UInt64) (s : HttpSession) : Prop :=
  (∀ t, Reaches recvHead s t → t.sock.frags ≠ [] ∧ t.recvHead ≠ .inr (.error .abort)) ∧
    ∀ t, Returns recvHead s (.ok t) →
      (t.contentLength lexicalCast).toNat ≤ t.offset + t.sock.pending.length

variable {lexicalCast : List UInt8 → Option UInt64}

theorem recvHead_returns_iff (h : s.Waiting) :
    (∃ r, Returns recvHead s r) ↔ ∀ t, Reaches recvHead s t → t.sock.frags ≠ [] :=
  returns_iff (m := fun s => s.sock.pending.length) h (fun hs hb => (recvHead_waiting hs hb).1)
    (fun hs hne hb => (recvHead_waiting hs hb).2 hne)
    (fun {t} ht hf => ⟨t, recvHead_starved ht hf, hf⟩)

theorem recvHead_open (h : s.Waiting) (hb : s.recvHead = .inr (.ok s')) :
    s'.sock.Open ∧ s'.sock.fails = false := by
  unfold recvHead at hb
  split at hb
  · cases hb
  rename_i b sock hread
  obtain ⟨-, rfl, -⟩ := h.sock.of_read hread
  dsimp only at hb
  split at hb
  · cases hb
  split at hb
  · cases hb
  split at hb
  · cases hb
  split at hb
  · cases hb
    exact ⟨h.sock.skip _, h.ends⟩
  · cases hb

theorem recvBody_ends_iff (ho : s.sock.Open) (hends : s.sock.fails = false) :
    (∃ fuel o, s.recvBody lexicalCast fuel = some o) ↔
      (s.contentLength lexicalCast).toNat ≤ s.offset + s.sock.pending.length := by
  simp only [recvBody]
  split
  · exact iff_of_true ⟨0, _, rfl⟩ (by omega)
  · split
    · exact iff_of_true ⟨0, _, rfl⟩ (by omega)
    · rw [← Nat.sub_le_iff_le_add']
      exact readFixLength_map_ends_iff _ ho hends

theorem recvBody_ne_abort {fuel : Nat} {o : Except Stop (HttpRequest × Socket)}
    (h : s.recvBody lexicalCast fuel = some o) : o ≠ .error .abort := by
  simp only [recvBody] at h
  split at h
  · cases h
    rintro ⟨⟩
  · split at h
    · cases h
      rintro ⟨⟩
    · obtain ⟨⟨r, sock⟩, -, rfl⟩ := Option.map_eq_some_iff.mp h
      cases r with
      | none => rintro ⟨⟩
      | some body => rintro ⟨⟩

theorem recvRequest_ends_iff (h : s.Waiting) :
    (∃ fuel o, s.recvRequest lexicalCast fuel = some o ∧ o ≠ .error .abort) ↔
      s.Served lexicalCast := by
  have hlast : ∀ {t}, Returns recvHead s (.ok t) → t.sock.Open ∧ t.sock.fails = false := by
    intro t ht
    obtain ⟨u, hu, hdone⟩ := ht.last
    exact recvHead_open (hu.inv h fun hs hb => (recvHead_waiting hs hb).1) hdone
  have hrun : ∀ fuel, s.recvRequest lexicalCast fuel =
      andThen recvHead (recvBody lexicalCast) fuel s := fun fuel => by
    rw [recvRequest, andThen]
    congr 1
    funext o
    cases o <;> rfl
  simp only [hrun]
  rw [andThen_ends_iff (g := recvBody lexicalCast) fun hnm h => recvBody_mono hnm h,
    recvHead_returns_iff h, ← and_assoc, ← forall₂_and]
  refine and_congr_right fun _ => forall₂_congr fun t ht => ?_
  rw [← recvBody_ends_iff (hlast ht).1 (hlast ht).2]
  constructor
  · rintro ⟨fuel, o, hrun, -⟩
    exact ⟨fuel, o, hrun⟩
  · rintro ⟨fuel, o, hrun⟩
    exact ⟨fuel, o, hrun, recvBody_ne_abort hrun⟩

end HttpSession

/-! ## Responses -/

namespace HttpConnection

variable {s s' : HttpConnection} {x x' : ChunkLoop × HttpConnection}
  {lexicalCast : List UInt8 → Option UInt64}

/-- The loop over the data of a chunk is at the end of the stream. -/
def Starved (x : ChunkLoop × HttpConnection) : Prop :=
  (∃ left, x.1 = .data left ∧ left ≠ 0) ∧ x.2.sock.frags = []

/-- The parser throws nothing and fails no assertion on what is read, and no size of a chunk makes
the body's `append` or `resize` throw; the loop over the data of a chunk finds bytes in every read,
and the stream has the whole of a body that is not chunked. -/
def Served (lexicalCast : List UInt8 → Option UInt64) (s : HttpConnection) : Prop :=
  (∀ t, Reaches recvHead s t → t.recvHead ≠ .inr (.error .abort)) ∧
    ∀ t, Returns recvHead s (.ok t) →
      if t.parser.chunked then
        ∀ x, Reaches recvChunk (.header true, t) x →
          ¬Starved x ∧ recvChunk x ≠ .inr (.error .abort)
      else (t.contentLength lexicalCast).toNat ≤ t.data.length + t.sock.pending.length

/-- The socket of a connection whose peer closes. -/
def Closing (s : HttpConnection) : Prop := s.sock.Open ∧ s.sock.fails = false

/-- A round of the loop over the head that ends in no error has got something. -/
theorem recvHead_got (h : s.Closing)
    (hb : s.recvHead = .inl s' ∨ s.recvHead = .inr (.ok s')) :
    s'.Closing ∧ s'.bufferSize = s.bufferSize ∧
      s'.sock.pending.length < s.sock.pending.length := by
  unfold recvHead at hb
  split at hb
  · rcases hb with hb | hb <;> cases hb
  · rcases hb with hb | hb <;> cases hb
  rename_i b sock hne hread
  obtain ⟨-, rfl, hlen, -⟩ := h.1.of_read hread
  have hpos := List.length_pos_iff.mpr fun hb => hne hb
  split at hb
  · rcases hb with hb | hb <;> cases hb
  rename_i parser data _
  have hgot : s' = { s with parser, data, sock := s.sock.skip b.length } := by
    dsimp only at hb
    split at hb
    · rcases hb with hb | hb <;> cases hb
    split at hb
    · rcases hb with hb | hb <;> cases hb
    split at hb
    · rcases hb with hb | hb <;> cases hb
      rfl
    · rcases hb with hb | hb <;> cases hb
      rfl
  rw [hgot]
  exact ⟨⟨h.1.skip _, h.2⟩, rfl, by dsimp only; omega⟩

theorem recvHead_returns (h : s.Closing) : ∃ r, Returns recvHead s r :=
  (returns_iff (m := fun s => s.sock.pending.length) h
    (fun hs hb => (recvHead_got hs (.inl hb)).1) (fun hs _ hb => (recvHead_got hs (.inl hb)).2.2)
    (fun _ hf => hf.elim)).mpr fun _ _ hf => hf

/-- What a chunk loop has before it. The data of a chunk is read with the buffer unused. -/
def remaining : ChunkLoop × HttpConnection → Nat
  | (.header _, s) => 2 * (s.data.length + s.sock.pending.length)
  | (.data _, s) => 2 * s.sock.pending.length + 1

/-- A parser that is started again and finds no error has consumed something. -/
theorem execute_pos {y : HttpResponseParser} {data rest : List UInt8}
    (h : s.parser.execute data true = some (y, rest)) (hdata : data ≠ [])
    (herr : y.hasError = false) : rest.length < data.length := by
  simp only [HttpResponseParser.execute, if_true, HttpResponseParser.parserExecute,
    Option.bind_eq_bind, Option.bind_eq_some_iff] at h
  obtain ⟨⟨y', k⟩, ⟨⟨z, cs, p⟩, hz, h⟩, hrest⟩ := h
  dsimp only at h
  split at h
  · cases h
    cases hrest
    have hcs : cs ≠ 0 := by
      rintro rfl
      simp [HttpResponseParser.hasError] at herr
    obtain ⟨b, data, rfl⟩ := List.exists_cons_of_ne_nil hdata
    obtain ⟨hw, hp⟩ := exec_walk hz
    have hpos : 0 < p := by
      simp only [walk_step] at hw hp
      cases he : edge responseRows s.parser.init.cs b with
      | none =>
        rw [he] at hw
        exact absurd hw.symm hcs
      | some e =>
        rw [he] at hp
        dsimp only at hp
        split at hp <;> · dsimp only at hp; omega
    rw [List.length_drop, List.length_cons]
    omega
  · cases h

theorem endChunk_next (h : s.endChunk = .inl x') : x' = (.header true, s) := by
  unfold endChunk at h
  split at h
  · cases h
  · exact (Sum.inl.inj h).symm

theorem recvChunkBody_next (h : s.Closing) (hb : s.recvChunkBody = .inl x') :
    x'.2.Closing ∧ x'.2.bufferSize = s.bufferSize ∧
      remaining x' ≤ 2 * (s.data.length + s.sock.pending.length) + 1 := by
  unfold recvChunkBody at hb
  split at hb
  · split at hb
    · cases hb
    · dsimp only at hb
      obtain rfl := endChunk_next hb
      refine ⟨h, rfl, ?_⟩
      simp only [remaining, List.length_drop]
      omega
  · cases hb
    refine ⟨h, rfl, ?_⟩
    simp only [remaining]
    omega

theorem parseChunkHeader_next (h : s.Closing) (hdata : s.data ≠ [])
    (hb : s.parseChunkHeader = .inl x') :
    x'.2.Closing ∧ x'.2.bufferSize = s.bufferSize ∧
      remaining x' < 2 * (s.data.length + s.sock.pending.length) := by
  unfold parseChunkHeader at hb
  split at hb
  · cases hb
  rename_i y rest hexec
  dsimp only at hb
  split at hb
  · cases hb
  rename_i herr
  have hpos := execute_pos hexec hdata (Bool.not_eq_true _ ▸ herr)
  split at hb
  · cases hb
  split at hb
  · obtain ⟨hc, hn, hr⟩ := recvChunkBody_next (s := { s with parser := y, data := rest }) h hb
    exact ⟨hc, hn, by dsimp only at hr; omega⟩
  · cases hb
    refine ⟨h, rfl, ?_⟩
    simp only [remaining]
    omega

/-- Every round of the loop over the chunks that is not starved gets on. -/
theorem recvChunk_next (h : x.2.Closing) (hsize : 0 < x.2.bufferSize)
    (hb : recvChunk x = .inl x') :
    x'.2.Closing ∧ x'.2.bufferSize = x.2.bufferSize ∧
      (¬Starved x → remaining x' < remaining x) := by
  obtain ⟨begin | left, s⟩ := x
  · dsimp only at h hsize
    simp only [recvChunk] at hb
    split at hb
    · split at hb
      · cases hb
      · cases hb
      rename_i b sock hne hread
      obtain ⟨-, rfl, hlen, -⟩ := h.1.of_read hread
      obtain ⟨hc, hn, hr⟩ := parseChunkHeader_next (s := { s with
          data := s.data ++ b
          sock := s.sock.skip b.length }) ⟨h.1.skip _, h.2⟩
        (by simp only [ne_eq, List.append_eq_nil_iff]; exact fun hb => hne hb.2) hb
      refine ⟨hc, hn, fun _ => ?_⟩
      simp only [List.length_append] at hr
      change remaining x' < 2 * (s.data.length + s.sock.pending.length)
      omega
    · rename_i hbegin
      have hdata : s.data ≠ [] := by
        rintro hd
        simp [hd] at hbegin
      obtain ⟨hc, hn, hr⟩ := parseChunkHeader_next h hdata hb
      exact ⟨hc, hn, fun _ => hr⟩
  · dsimp only at h hsize
    simp only [recvChunk] at hb
    split at hb
    · split at hb
      · cases hb
      · obtain rfl := endChunk_next hb
        refine ⟨h, rfl, fun _ => ?_⟩
        simp only [remaining, List.length_nil]
        omega
    · rename_i hleft
      split at hb
      · cases hb
      rename_i b sock hread
      cases hb
      obtain ⟨-, rfl, hlen, hempty⟩ := h.1.of_read hread
      refine ⟨⟨h.1.skip _, h.2⟩, rfl, fun hst => ?_⟩
      have hb : b ≠ [] := fun hb =>
        hst ⟨⟨left, rfl, hleft⟩, hempty hb (by split <;> omega)⟩
      have := List.length_pos_iff.mpr hb
      simp only [remaining]
      omega

theorem recvChunk_starved (h : x.2.Closing) (hst : Starved x) :
    ∃ x', recvChunk x = .inl x' ∧ Starved x' := by
  obtain ⟨begin | left, s⟩ := x
  · obtain ⟨⟨left, hx, -⟩, -⟩ := hst
    cases hx
  · obtain ⟨⟨left', hx, hleft⟩, hf⟩ := hst
    cases hx
    refine ⟨(.data left, s), ?_, ⟨left, rfl, hleft⟩, hf⟩
    have hread : ∀ n, s.sock.read n = (some [], s.sock) := fun n => by
      rw [Socket.read_nil h.1 hf, h.2]
      rfl
    simp only [recvChunk, if_neg hleft, hread, List.length_nil, Nat.sub_zero, List.append_nil]

theorem recvChunk_returns_iff (h : x.2.Closing) (hsize : 0 < x.2.bufferSize) :
    (∃ r, Returns recvChunk x r) ↔ ∀ y, Reaches recvChunk x y → ¬Starved y :=
  returns_iff (I := fun x => x.2.Closing ∧ 0 < x.2.bufferSize) (m := remaining) ⟨h, hsize⟩
    (fun hx hb => ⟨(recvChunk_next hx.1 hx.2 hb).1, (recvChunk_next hx.1 hx.2 hb).2.1 ▸ hx.2⟩)
    (fun hx hst hb => (recvChunk_next hx.1 hx.2 hb).2.2 hst)
    (fun hx hst => recvChunk_starved hx.1 hst)

theorem recvBody_ends_iff (h : s.Closing) :
    (∃ fuel o, s.recvBody lexicalCast fuel = some o) ↔
      (s.contentLength lexicalCast).toNat ≤ s.data.length + s.sock.pending.length := by
  simp only [recvBody]
  split
  · exact iff_of_true ⟨0, _, rfl⟩ (by omega)
  · split
    · exact iff_of_true ⟨0, _, rfl⟩ (by omega)
    · rw [← Nat.sub_le_iff_le_add']
      exact readFixLength_map_ends_iff _ h.1 h.2

theorem recvBody_ne_abort {fuel : Nat} {o : Except Stop HttpConnection}
    (h : s.recvBody lexicalCast fuel = some o) : o ≠ .error .abort := by
  simp only [recvBody] at h
  split at h
  · cases h
    rintro ⟨⟩
  · split at h
    · cases h
      rintro ⟨⟩
    · obtain ⟨⟨r, sock⟩, -, rfl⟩ := Option.map_eq_some_iff.mp h
      cases r with
      | none => rintro ⟨⟩
      | some body => rintro ⟨⟩

/-- What follows the loop over the head. -/
def recvRest (lexicalCast : List UInt8 → Option UInt64) (fuel : Nat) (s : HttpConnection) :
    Option (Except Stop HttpConnection) :=
  if s.parser.chunked then Loop.run recvChunk fuel (.header true, s)
  else s.recvBody lexicalCast fuel

theorem recvRest_mono {n m : Nat} (hnm : n ≤ m) {o : Except Stop HttpConnection}
    (h : s.recvRest lexicalCast n = some o) : s.recvRest lexicalCast m = some o := by
  unfold recvRest at h ⊢
  split at h
  · rw [if_pos ‹_›]
    exact run_mono hnm h
  · rw [if_neg ‹_›]
    exact recvBody_mono hnm h

theorem recvRest_ends_iff (h : s.Closing) (hsize : 0 < s.bufferSize) :
    (∃ fuel o, s.recvRest lexicalCast fuel = some o ∧ o ≠ .error .abort) ↔
      if s.parser.chunked then
        ∀ x, Reaches recvChunk (.header true, s) x →
          ¬Starved x ∧ recvChunk x ≠ .inr (.error .abort)
      else (s.contentLength lexicalCast).toNat ≤ s.data.length + s.sock.pending.length := by
  unfold recvRest
  split
  · constructor
    · rintro ⟨fuel, o, hrun, hne⟩ x hx
      have hret : Returns recvChunk (.header true, s) o := ⟨fuel, hrun⟩
      refine ⟨(recvChunk_returns_iff h hsize).mp ⟨o, hret⟩ x hx, fun habort => ?_⟩
      obtain rfl := (hx.returns hret).of_done habort
      exact hne rfl
    · intro hall
      obtain ⟨r, hr⟩ := (recvChunk_returns_iff h hsize).mpr fun x hx => (hall x hx).1
      obtain ⟨x, hx, hdone⟩ := hr.last
      obtain ⟨fuel, hrun⟩ := hr
      exact ⟨fuel, r, hrun, fun hr => (hall x hx).2 (hr ▸ hdone)⟩
  · rw [← recvBody_ends_iff h]
    exact ⟨fun ⟨fuel, o, hrun, _⟩ => ⟨fuel, o, hrun⟩,
      fun ⟨fuel, o, hrun⟩ => ⟨fuel, o, hrun, recvBody_ne_abort hrun⟩⟩

theorem recvResponse_ends_iff (h : s.Closing) (hsize : 0 < s.bufferSize) :
    (∃ fuel o, s.recvResponse lexicalCast fuel = some o ∧ o ≠ .error .abort) ↔
      s.Served lexicalCast := by
  have hlast : ∀ {t}, Returns recvHead s (.ok t) → t.Closing ∧ 0 < t.bufferSize := by
    intro t ht
    obtain ⟨u, hu, hdone⟩ := ht.last
    have hIu := hu.inv (I := fun u => u.Closing ∧ 0 < u.bufferSize) ⟨h, hsize⟩ fun hs hb =>
      ⟨(recvHead_got hs.1 (.inl hb)).1, (recvHead_got hs.1 (.inl hb)).2.1 ▸ hs.2⟩
    obtain ⟨hc, hn, -⟩ := recvHead_got hIu.1 (.inr hdone)
    exact ⟨hc, hn ▸ hIu.2⟩
  have hrun : ∀ fuel, s.recvResponse lexicalCast fuel =
      (andThen recvHead (recvRest lexicalCast) fuel s).map (·.map response) := fun fuel => by
    rw [recvResponse, andThen, Option.map_bind]
    congr 1
    funext o
    cases o <;> rfl
  have hmap : (∃ fuel o, s.recvResponse lexicalCast fuel = some o ∧ o ≠ .error .abort) ↔
      ∃ fuel o, andThen recvHead (recvRest lexicalCast) fuel s = some o ∧ o ≠ .error .abort := by
    refine exists_congr fun fuel => ?_
    rw [hrun]
    cases andThen recvHead (recvRest lexicalCast) fuel s with
    | none => simp
    | some o => cases o <;> simp [Except.map]
  rw [hmap, andThen_ends_iff (g := recvRest lexicalCast) fun hnm h => recvRest_mono hnm h]
  simp only [recvHead_returns h, true_and]
  refine and_congr_right fun _ => forall₂_congr fun t ht => ?_
  exact recvRest_ends_iff (hlast ht).1 (hlast ht).2

end HttpConnection

theorem HttpSession.start_waiting (q : Nat) (relaxed : Bool) {data : List UInt8}
    {frags : List (List UInt8)} (hdata : 0 < data.length) (hne : ∀ f ∈ frags, f ≠ []) :
    (start q relaxed data ⟨frags, false, true⟩).Waiting :=
  ⟨rfl, hdata, rfl, rfl, ⟨rfl, hne⟩, rfl⟩

end Tigerkin.Http
