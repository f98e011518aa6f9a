import Tigerkin.ByteArray.Seek

/-! # Read buffers

`getReadBuffers` hands out pieces of the nodes as `iovec`s. The last piece is not counted, because
its length is subtracted from the counter before the counter is added to the result; past the first
node the pieces begin `m_baseSize` bytes early; and the test of the bounds adds in 64 bits. So the
call does what it should only where it returns at once (`describesRequest_iff`). -/

namespace Tigerkin.ByteArray

/-- An `iovec`, whose base is a position in a node. -/
structure IoVec where
  node : Nat
  pos : Nat
  len : Nat
  deriving DecidableEq

/-- What the memory of an `iovec` holds. -/
def memory (s : ByteArray) (v : IoVec) : List UInt8 :=
  ((s.nodes.getD v.node []).drop v.pos).take v.len

/-- The loop of `getReadBuffers` from the node `cur` on: the pieces, and the sum of the lengths that
it adds to `rst`. -/
def bufferNodes (cur : Nat) : List (List UInt8) → Nat → Nat → Except Error (List IoVec × Nat)
  | _, _, 0 => .ok ([], 0)
  | [], _, _ + 1 => .error .nullNode
  | n :: l, nodePos, len + 1 =>
    let nodeRemain := n.length - nodePos
    if len + 1 > nodeRemain then do
      let (bufs, rst) ← bufferNodes (cur + 1) l 0 (len + 1 - nodeRemain)
      return (⟨cur, nodePos, nodeRemain⟩ :: bufs, nodeRemain + rst)
    else
      -- `len` is 0 when `rst` is increased by it
      return ([⟨cur, nodePos, len + 1⟩], 0)

/-- The conversion of the `int` `rst` to the result. -/
def intResult (rst : Nat) : UInt64 := UInt64.ofInt ((rst : Int).bmod (2 ^ 32))

/-- `getReadBuffers(buffers, len, offset)` -/
def getReadBuffersAt (s : ByteArray) (buffers : List IoVec) (len offset : UInt64) :
    Except Error (List IoVec × UInt64) :=
  if (offset + len).toNat > s.size ∨ len = 0 then .ok (buffers, 0)
  else do
    let nodeCnt := offset.toNat / s.baseSize
    let cur := nodeCnt - 1
    let (bufs, rst) ←
      bufferNodes cur (s.nodes.drop cur) (offset.toNat % s.baseSize) len.toNat
    return (buffers ++ bufs, intResult rst)

def getReadBuffers (s : ByteArray) (buffers : List IoVec) (len : UInt64) :
    Except Error (List IoVec × UInt64) :=
  s.getReadBuffersAt buffers len (UInt64.ofNat s.offset)

/-- A call describes the bytes that it is asked for, and nothing if there are none. -/
def DescribesRequest (s : ByteArray) (data : List UInt8) (buffers : List IoVec)
    (len offset : UInt64) : Prop :=
  if len = 0 ∨ data.length < offset.toNat + len.toNat then
    s.getReadBuffersAt buffers len offset = .ok (buffers, 0)
  else
    ∃ bufs, s.getReadBuffersAt buffers len offset = .ok (buffers ++ bufs, len) ∧
      bufs.flatMap s.memory = (data.drop offset.toNat).take len.toNat

/-- Where the pieces begin. -/
def bufferPos (b k : Nat) : Nat := if k < b then k else k - b

variable {s : ByteArray} {f e : UInt8} {b : Nat} {data : List UInt8} {l : List (List UInt8)}
  {cur off n : Nat}

/-! ## The loop -/

theorem bufferNodes_ne_nil {bufs : List IoVec} {rst : Nat} (hn : n ≠ 0)
    (h : bufferNodes cur l off n = .ok (bufs, rst)) : bufs ≠ [] := by
  obtain ⟨n, rfl⟩ := Nat.exists_eq_succ_of_ne_zero hn
  cases l with
  | nil => cases h
  | cons a l =>
    simp only [bufferNodes] at h
    split at h
    · cases hb : bufferNodes (cur + 1) l 0 (n + 1 - (a.length - off)) with
      | error err =>
        rw [hb] at h
        cases h
      | ok p =>
        rw [hb] at h
        cases h
        simp
    · cases h
      simp

/-- **What the loop hands out**: the bytes from `off` on, and a result without the last piece. -/
theorem bufferNodes_spec (hb : 0 < b) (hl : ∀ n ∈ s.nodes, n.length = b)
    (hcur : s.nodes.drop cur = l) (hoff : off < b) (hn : 0 < n) (hlen : off + n ≤ l.length * b) :
    ∃ bufs rst, bufferNodes cur l off n = .ok (bufs, rst) ∧ rst < n ∧
      bufs.flatMap s.memory = (l.flatten.drop off).take n := by
  induction l generalizing cur off n with
  | nil =>
    simp only [List.length_nil] at hlen
    omega
  | cons a l ih =>
    have hlt : cur < s.nodes.length := by
      by_contra hge
      rw [List.drop_eq_nil_of_le (by omega)] at hcur
      cases hcur
    rw [List.drop_eq_getElem_cons hlt] at hcur
    obtain ⟨ha, hcur⟩ := List.cons.inj hcur
    have hab : a.length = b := ha ▸ hl _ (List.getElem_mem hlt)
    have hmem : ∀ k, s.memory ⟨cur, off, k⟩ = (a.drop off).take k := fun k => by
      rw [memory, List.getD_eq_getElem?_getD, List.getElem?_eq_getElem hlt, ha]
      rfl
    have hdrop : (a :: l).flatten.drop off = a.drop off ++ l.flatten := by
      rw [List.flatten_cons, List.drop_append_of_le_length (by omega)]
    have had : (a.drop off).length = b - off := by rw [List.length_drop, hab]
    obtain ⟨n, rfl⟩ := Nat.exists_eq_succ_of_ne_zero hn.ne'
    simp only [bufferNodes, hab]
    by_cases h : n + 1 > b - off
    · simp only [List.length_cons, Nat.add_mul, Nat.one_mul] at hlen
      obtain ⟨bufs, rst, hbufs, hrst, hbytes⟩ := ih hcur hb (n := n + 1 - (b - off))
        (by omega) (by omega)
      refine ⟨⟨cur, off, b - off⟩ :: bufs, b - off + rst, ?_, by omega, ?_⟩
      · rw [if_pos h, hbufs]
        rfl
      · rw [List.flatMap_cons, hmem, hbytes, hdrop, List.drop_zero, List.take_append, had]
        congr 1
        rw [List.take_of_length_le (by omega), List.take_of_length_le (by omega)]
    · refine ⟨[⟨cur, off, n + 1⟩], 0, by rw [if_neg h]; rfl, hn, ?_⟩
      rw [List.flatMap_singleton, hmem, hdrop, List.take_append_of_le_length (by omega)]

/-- The result of a smaller sum is smaller, or negative as an `int`. -/
theorem intResult_ne {rst : Nat} {len : UInt64} (h : rst < len.toNat) (hlen : len.toNat < 2 ^ 63) :
    intResult rst ≠ len := by
  rintro rfl
  have hval : (intResult rst).toNat = ((rst : Int).bmod (2 ^ 32) % 2 ^ 64).toNat := by
    rw [intResult, UInt64.ofInt, UInt64.toNat_ofNat']
    omega
  rw [Int.bmod_def] at hval
  split at hval <;> omega

/-! ## The call -/

/-- A request inside the array gets the bytes from `bufferPos` on, and a wrong result. -/
theorem Writing.getReadBuffersAt (H : Writing f e b data s) (hmem : data.length < 2 ^ 63)
    (buffers : List IoVec) {len offset : UInt64} (hlen : len ≠ 0)
    (hfit : offset.toNat + len.toNat ≤ data.length) :
    ∃ bufs rst, s.getReadBuffersAt buffers len offset = .ok (buffers ++ bufs, rst) ∧ rst ≠ len ∧
      bufs.flatMap s.memory = (data.drop (bufferPos b offset.toNat)).take len.toNat := by
  obtain rfl := H.baseSize
  have hb := s.baseSize_pos
  have hsum : (offset + len).toNat = offset.toNat + len.toNat := by
    rw [UInt64.toNat_add, Nat.mod_eq_of_lt (by omega)]
  have hpos : 0 < len.toNat := by
    rw [Nat.pos_iff_ne_zero]
    exact fun h => hlen (UInt64.toNat_inj.mp h)
  have hsfit := H.fit
  have hstart : (offset.toNat / s.baseSize - 1) * s.baseSize + offset.toNat % s.baseSize =
      bufferPos s.baseSize offset.toNat := by
    have hdiv := Nat.div_add_mod' offset.toNat s.baseSize
    unfold bufferPos
    split
    · rename_i hlt
      rw [Nat.div_eq_of_lt hlt, Nat.mod_eq_of_lt hlt]
      omega
    · have : 0 < offset.toNat / s.baseSize := Nat.div_pos (by omega) hb
      have hmul : s.baseSize ≤ offset.toNat / s.baseSize * s.baseSize :=
        Nat.le_mul_of_pos_left _ this
      rw [Nat.sub_mul, Nat.one_mul]
      omega
  have hle : bufferPos s.baseSize offset.toNat ≤ offset.toNat := by
    unfold bufferPos
    split <;> omega
  generalize hcur : offset.toNat / s.baseSize - 1 = cur at hstart
  have hdl : (s.nodes.drop cur).length * s.baseSize =
      s.nodes.length * s.baseSize - cur * s.baseSize := by
    rw [List.length_drop, Nat.sub_mul]
  have hroom : offset.toNat % s.baseSize + len.toNat ≤ (s.nodes.drop cur).length * s.baseSize := by
    rw [hdl]
    omega
  obtain ⟨bufs, rst, hbufs, hrst, hbytes⟩ := bufferNodes_spec hb H.nodes rfl
    (Nat.mod_lt offset.toNat hb) hpos hroom
  have hcontent := congrArg
    (fun d => (d.drop (bufferPos s.baseSize offset.toNat)).take len.toNat) H.content
  simp only [List.drop_take, List.take_take] at hcontent
  rw [Nat.min_eq_left (by omega)] at hcontent
  rw [flatten_drop_nodes H.nodes, List.drop_drop, hstart, hcontent] at hbytes
  have hlt : len.toNat < 2 ^ 63 := by omega
  refine ⟨bufs, intResult rst, ?_, intResult_ne hrst hlt, hbytes⟩
  unfold ByteArray.getReadBuffersAt
  rw [if_neg (not_or.mpr ⟨by rw [hsum, H.size]; omega, hlen⟩)]
  simp only [hcur, hbufs]
  rfl

/-- **Read buffers describe the request** exactly where there is nothing to describe and the test of
the bounds sees it. Otherwise the pieces hold the bytes from `bufferPos` on and the result does not
count the last one. -/
theorem describesRequest_iff (b : Nat) (hb : 0 < b) (e f : UInt8) (ws : List (List UInt8))
    (hmem : ws.flatten.length < 2 ^ 63) (buffers : List IoVec) (len offset : UInt64) :
    ∃ s, append b hb e f ws = .ok s ∧ s.size = ws.flatten.length ∧
      (DescribesRequest s ws.flatten buffers len offset ↔
        len = 0 ∨ s.size < (offset + len).toNat) ∧
      (len ≠ 0 → offset.toNat + len.toNat ≤ s.size →
        ∃ bufs rst, s.getReadBuffersAt buffers len offset = .ok (buffers ++ bufs, rst) ∧
          bufs.flatMap s.memory = (ws.flatten.drop (bufferPos b offset.toNat)).take len.toNat) := by
  obtain ⟨s, hs, H⟩ := append_writing b hb e f ws
  refine ⟨s, hs, H.size, ⟨fun h => ?_, fun h => ?_⟩, fun hlen hfit => ?_⟩
  · by_contra hearly
    obtain ⟨hlen, hsize⟩ := not_or.mp hearly
    unfold DescribesRequest at h
    split at h
    · rename_i hout
      unfold ByteArray.getReadBuffersAt at h
      rw [if_neg (by tauto)] at h
      have hpos : len.toNat ≠ 0 := fun h0 => hlen (UInt64.toNat_inj.mp h0)
      cases hloop : bufferNodes (offset.toNat / s.baseSize - 1)
          (s.nodes.drop (offset.toNat / s.baseSize - 1)) (offset.toNat % s.baseSize) len.toNat with
      | error err =>
        simp only [hloop] at h
        cases h
      | ok p =>
        simp only [hloop] at h
        have hbufs : buffers ++ p.1 = buffers := congrArg Prod.fst (Except.ok.inj h)
        exact bufferNodes_ne_nil hpos hloop (by simpa using hbufs)
    · rename_i hin
      have hfit : offset.toNat + len.toNat ≤ ws.flatten.length := by omega
      obtain ⟨bufs', rst, hcall, hne, -⟩ := H.getReadBuffersAt hmem buffers hlen hfit
      obtain ⟨bufs, hcall', -⟩ := h
      exact hne (congrArg Prod.snd (Except.ok.inj (hcall.symm.trans hcall')))
  · have hret : s.getReadBuffersAt buffers len offset = .ok (buffers, 0) := by
      unfold ByteArray.getReadBuffersAt
      rw [if_pos h.symm]
    unfold DescribesRequest
    rw [if_pos ?_]
    · exact hret
    · refine h.imp_right fun hsize => ?_
      rw [H.size, UInt64.toNat_add] at hsize
      exact hsize.trans_le (Nat.mod_le ..)
  · obtain ⟨bufs, rst, hcall, -, hbytes⟩ :=
      H.getReadBuffersAt hmem buffers hlen (by rw [← H.size]; exact hfit)
    exact ⟨bufs, rst, hcall, hbytes⟩

theorem describesRequest_outside :
    ∃ s, append 4 (by decide) TIGERKIN_LITTLE_ENDIAN 0 [[1, 2, 3], [4, 5, 6]] = .ok s ∧
      DescribesRequest s [1, 2, 3, 4, 5, 6] [] 3 4 := by
  obtain ⟨s, hs, hsize, h, -⟩ := describesRequest_iff 4 (by decide) TIGERKIN_LITTLE_ENDIAN 0
    [[1, 2, 3], [4, 5, 6]] (by decide) [] 3 4
  exact ⟨s, hs, h.mpr (.inr (by rw [hsize]; decide))⟩

/-- Of six bytes in nodes of four bytes the last two are asked for: the piece holds the first two,
and the result is 0. The bounds do not stop a request that wraps around. -/
theorem buffers_wrong :
    ∃ s, append 4 (by decide) TIGERKIN_LITTLE_ENDIAN 0 [[1, 2, 3, 4, 5, 6]] = .ok s ∧
      ¬DescribesRequest s [1, 2, 3, 4, 5, 6] [] 2 4 ∧
      s.getReadBuffersAt [] 2 4 = .ok ([⟨0, 0, 2⟩], 0) ∧
      ¬DescribesRequest s [1, 2, 3, 4, 5, 6] [] 1 (-1) ∧
      s.getReadBuffersAt [] 1 (-1) = .error .nullNode := by
  have hin : ∀ s : ByteArray, s.getReadBuffersAt [] 2 4 = .ok ([⟨0, 0, 2⟩], 0) →
      ¬DescribesRequest s [1, 2, 3, 4, 5, 6] [] 2 4 := by
    intro s hs h
    rw [DescribesRequest, if_neg (by decide)] at h
    obtain ⟨bufs, hcall, -⟩ := h
    have hrst : (0 : UInt64) = 2 := congrArg Prod.snd (Except.ok.inj (hs.symm.trans hcall))
    exact absurd hrst (by decide)
  refine ⟨_, rfl, hin _ rfl, rfl, fun h => ?_, ?_⟩
  · rw [DescribesRequest, if_pos (by decide)] at h
    revert h
    decide
  · decide

end Tigerkin.ByteArray
