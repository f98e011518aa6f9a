import Tigerkin.ByteArray.Capacity

/-! # Write buffers

`getWriteBuffers` hands out the room after the cursor, for a socket to receive into. Like
`getReadBuffers` it does not count its last piece, so that its result is never the length it was
asked for (`exposes_never`). The pieces begin in the current node: at a node boundary that is the
node before the cursor, and what arrives there replaces the bytes in it. -/

namespace Tigerkin.ByteArray

open Throw

/-- The positions in the array that an `iovec` stands for. -/
def IoVec.positions (b : Nat) (v : IoVec) : List Nat := List.range' (v.node * b + v.pos) v.len

/-- Bytes that arrive in the memory of an `iovec`. -/
def IoVec.put (v : IoVec) (buf : List UInt8) (nodes : List (List UInt8)) : List (List UInt8) :=
  nodes.modify v.node fun n => n.take v.pos ++ buf ++ n.drop (v.pos + buf.length)

/-- Bytes that arrive in the memory of several, one after the other. -/
def scatter : List IoVec → List UInt8 → List (List UInt8) → List (List UInt8)
  | [], _, nodes => nodes
  | v :: vs, buf, nodes => scatter vs (buf.drop v.len) (v.put (buf.take v.len) nodes)

/-- The pieces are the `len` positions after the cursor, in this order. -/
def Covers (s : ByteArray) (bufs : List IoVec) (len : Nat) : Prop :=
  bufs.flatMap (IoVec.positions s.baseSize) = List.range' s.offset len

instance (s : ByteArray) (bufs : List IoVec) (len : Nat) : Decidable (Covers s bufs len) :=
  inferInstanceAs (Decidable (_ = _))

/-- Whatever arrives in the pieces, `setOffset` to the end of its first `rt` bytes appends these to
`data`. -/
def AppendsReceived (s : ByteArray) (data : List UInt8) (bufs : List IoVec) (len : Nat) : Prop :=
  ∀ buf : List UInt8, buf.length = len → ∀ rt, 0 < rt → rt ≤ len →
    ∃ t, setOffset { s with nodes := scatter bufs buf s.nodes } (s.offset + rt) = .ok t ∧
      t.size = data.length + rt ∧ t.nodes.flatten.take t.size = data ++ buf.take rt

/-- A call gives the room that it is asked for and says so. -/
def Exposes (h : Heap) (s : ByteArray) (data : List UInt8) (buffers : List IoVec) (len : UInt64) :
    Prop :=
  ∃ bufs t, (Call.getWriteBuffers h buffers len).run s = .ok (buffers ++ bufs, len) t ∧
    Covers t bufs len.toNat ∧ AppendsReceived t data bufs len.toNat

/-- Where the pieces begin after `k` bytes have been written. -/
def writePos (b k : Nat) : Nat := if 0 < k ∧ b ∣ k then k - b else k

variable {h : Heap} {s t : ByteArray} {f e : UInt8} {b : Nat} {data : List UInt8}
  {l : List (List UInt8)} {cur off n : Nat} {bufs : List IoVec} {rst : Nat}

/-! ## The loop -/

/-- A round of the loop, where there is a node for it. -/
theorem bufferNodes_cons {a : List UInt8} (hn : 0 < n)
    (h : bufferNodes cur (a :: l) off n = .ok (bufs, rst)) :
    n ≤ a.length - off ∧ bufs = [⟨cur, off, n⟩] ∧ rst = 0 ∨
      a.length - off < n ∧ ∃ bufs' rst', bufs = ⟨cur, off, a.length - off⟩ :: bufs' ∧
        rst = a.length - off + rst' ∧
        bufferNodes (cur + 1) l 0 (n - (a.length - off)) = .ok (bufs', rst') := by
  obtain ⟨n, rfl⟩ := Nat.exists_eq_succ_of_ne_zero hn.ne'
  simp only [bufferNodes] at h
  split at h
  · rename_i hlt
    cases hrest : bufferNodes (cur + 1) l 0 (n + 1 - (a.length - off)) with
    | error err =>
      rw [hrest] at h
      cases h
    | ok p =>
      rw [hrest] at h
      cases h
      exact .inr ⟨hlt, p.1, p.2, rfl, rfl, rfl⟩
  · cases h
    exact .inl ⟨by omega, rfl, rfl⟩

/-- **What the loop hands out**: the positions from that of the cursor on, all of them in nodes; and
the result leaves out the last piece. -/
theorem bufferNodes_ok (hl : ∀ n ∈ l, n.length = b) (hoff : off < b) (hn : 0 < n)
    (h : bufferNodes cur l off n = .ok (bufs, rst)) :
    off + n ≤ l.length * b ∧ rst < n ∧
      bufs.flatMap (IoVec.positions b) = List.range' (cur * b + off) n := by
  induction l generalizing cur off n bufs rst with
  | nil =>
    obtain ⟨n, rfl⟩ := Nat.exists_eq_succ_of_ne_zero hn.ne'
    cases h
  | cons a l ih =>
    have ha := hl a List.mem_cons_self
    rw [List.length_cons, Nat.add_mul, Nat.one_mul]
    rcases bufferNodes_cons hn h with ⟨hle, rfl, rfl⟩ | ⟨hlt, bufs', rst', rfl, rfl, hrest⟩
    · rw [ha] at hle
      exact ⟨by omega, hn, List.flatMap_singleton ..⟩
    · rw [ha] at hlt hrest ⊢
      obtain ⟨hfit, hrst, hpos⟩ := ih (fun m hm => hl m (List.mem_cons_of_mem _ hm)) (by omega)
        (by omega) hrest
      refine ⟨by omega, by omega, ?_⟩
      have hsplit : n = (b - off) + (n - (b - off)) := by omega
      have hnext : (cur + 1) * b + 0 = cur * b + off + (b - off) := by
        rw [Nat.add_mul, Nat.one_mul]
        omega
      rw [List.flatMap_cons, hpos, hnext]
      conv_rhs => rw [hsplit]
      exact List.range'_append_1 ..

/-- What arrives in the pieces is what a write would write. -/
theorem scatter_bufferNodes (hl : ∀ n ∈ l, n.length = b) (hoff : off < b) {buf : List UInt8}
    (hbuf : buf ≠ []) (h : bufferNodes cur l off buf.length = .ok (bufs, rst))
    {front : List (List UInt8)} (hfront : front.length = cur) :
    ∃ l' k, writeNodes l off buf = .ok (l', k) ∧ scatter bufs buf (front ++ l) = front ++ l' := by
  have hn := List.length_pos_iff.mpr hbuf
  induction l generalizing cur off buf bufs rst front with
  | nil =>
    obtain ⟨n, hn⟩ := Nat.exists_eq_succ_of_ne_zero hn.ne'
    rw [hn] at h
    cases h
  | cons a l ih =>
    have ha := hl a List.mem_cons_self
    have hput : ∀ (len : Nat) (v : List UInt8), IoVec.put ⟨cur, off, len⟩ v (front ++ a :: l) =
        front ++ (a.take off ++ v ++ a.drop (off + v.length)) :: l := fun len v => by
      subst hfront
      exact List.modifyTailIdx_add _ 0 front (a :: l)
    rcases bufferNodes_cons hn h with ⟨hle, rfl, rfl⟩ | ⟨hlt, bufs', rst', rfl, rfl, hrest⟩
    · refine ⟨_, 0, by rw [writeNodes, if_neg (by omega)]; rfl, ?_⟩
      simp only [scatter, List.take_length, hput]
    · rw [ha] at hlt hrest
      have hdrop : buf.drop (b - off) ≠ [] := by simpa using hlt
      have htake : off + (buf.take (b - off)).length = a.length := by
        rw [List.length_take, ha]
        omega
      rw [← List.length_drop] at hrest
      obtain ⟨l', k, hw, hs⟩ := ih (fun m hm => hl m (List.mem_cons_of_mem _ hm)) (by omega) hdrop
        hrest (show (front ++ [a.take off ++ buf.take (b - off)]).length = cur + 1 by simp [hfront])
        (List.length_pos_iff.mpr hdrop)
      refine ⟨(a.take off ++ buf.take (b - off)) :: l', k + 1, ?_, ?_⟩
      · rw [writeNodes, if_pos (by rw [ha]; exact hlt), ha, hw]
        rfl
      · simp only [List.append_assoc, List.singleton_append] at hs
        rw [scatter, ha, hput, htake, List.drop_length, List.append_nil]
        simpa only [List.append_assoc] using hs

/-! ## The call -/

/-- The pieces `bufs` of `len` bytes begin at `pos` in the array `t`, which is `s` with more room. -/
structure Receives (b : Nat) (s t : ByteArray) (bufs : List IoVec) (pos len : Nat) : Prop where
  sized : Sized b t
  offset : t.offset = s.offset
  size : t.size = s.size
  nodes : ∃ k, t.nodes = s.nodes ++ List.replicate k s.newNode
  room : s.offset + len ≤ t.capacity
  positions : bufs.flatMap (IoVec.positions b) = List.range' pos len
  arrived : ∀ buf : List UInt8, buf.length = len → (scatter bufs buf t.nodes).flatten =
    t.nodes.flatten.take pos ++ buf ++ t.nodes.flatten.drop (pos + len)

/-- Where the pieces of an array begin: in its current node, or in the first node of a fresh one. -/
def receivePos (s : ByteArray) : Nat :=
  (if s.nodes.isEmpty then 0 else s.curNode) * s.baseSize + s.offset % s.baseSize

/-- **The call**, where it returns: a wrong result, and pieces from `receivePos` on. -/
theorem Sized.getWriteBuffers_ok (H : Sized b s) {buffers out : List IoVec} {len r : UInt64}
    (hlen : len ≠ 0) (hcall : (Call.getWriteBuffers h buffers len).run s = .ok (out, r) t) :
    ∃ bufs, out = buffers ++ bufs ∧ r ≠ len ∧ Receives b s t bufs s.receivePos len.toNat := by
  obtain rfl := H.baseSize
  have hb := s.baseSize_pos
  have hpos : 0 < len.toNat := by
    rw [Nat.pos_iff_ne_zero]
    exact fun h0 => hlen (UInt64.toNat_inj.mp h0)
  unfold Call.getWriteBuffers at hcall
  rw [if_neg hlen, EStateM.run_bind] at hcall
  simp only [EStateM.run_get, EStateM.run_bind] at hcall
  have hgrow := keeps_addCapacityTo (h := h) (UInt64.ofNat s.offset + len).toNat s H
  cases hrun : (Call.addCapacityTo h (UInt64.ofNat s.offset + len).toNat).run s with
  | error e u =>
    rw [hrun] at hcall
    cases hcall
  | ok u t' =>
    rw [hrun] at hcall hgrow
    simp only [Call.run_follow] at hcall
    obtain ⟨k, hk, hle, -⟩ := H.addCapacityTo_eq (UInt64.ofNat s.offset + len).toNat
    obtain rfl : s.addCapacityTo (UInt64.ofNat s.offset + len).toNat = t' :=
      congrArg Prod.snd (Except.ok.inj ((Call.refines_addCapacityTo _).of_ok hrun))
    rw [hk] at hgrow hcall
    cases hloop : bufferNodes (if s.nodes.isEmpty then 0 else s.curNode)
        ((s.nodes ++ List.replicate k s.newNode).drop (if s.nodes.isEmpty then 0 else s.curNode))
        (s.offset % s.baseSize) len.toNat with
    | error e =>
      simp only [hloop] at hcall
      cases hcall
    | ok p =>
      simp only [hloop] at hcall
      cases hcall
      have hoff := Nat.mod_lt s.offset hb
      have hoffset := H.offset_le.trans H.size_le
      have hcap := hgrow.capacity
      have hlt := hgrow.capacity_lt
      simp only at hcap hlt
      have hdl := fun cur => show ((s.nodes ++ List.replicate k s.newNode).drop cur).length *
          s.baseSize = (s.nodes ++ List.replicate k s.newNode).length * s.baseSize -
            cur * s.baseSize by
        rw [List.length_drop, Nat.sub_mul]
      obtain ⟨hfit, hrst, hposs⟩ := bufferNodes_ok
        (fun n hn => hgrow.nodes n (List.mem_of_mem_drop hn)) hoff hpos hloop
      rw [hdl] at hfit
      have hsum : (UInt64.ofNat s.offset + len).toNat = s.offset + len.toNat := by
        rw [UInt64.toNat_add, UInt64.toNat_ofNat']
        omega
      refine ⟨p.1, rfl, intResult_ne hrst (by omega), ?_⟩
      rw [hsum] at hle
      exact {
        sized := hgrow
        offset := rfl
        size := rfl
        nodes := ⟨k, rfl⟩
        room := hle
        positions := hposs
        arrived := by
          intro buf hbuf
          rw [← hbuf] at hloop hfit hpos
          have hne := List.length_pos_iff.mp hpos
          have hcur : (if s.nodes.isEmpty then 0 else s.curNode) ≤
              (s.nodes ++ List.replicate k s.newNode).length :=
            Nat.le_of_mul_le_mul_right (show _ * s.baseSize ≤ _ * s.baseSize by omega) hb
          obtain ⟨l', n, hw, hs⟩ := scatter_bufferNodes
            (fun n hn => hgrow.nodes n (List.mem_of_mem_drop hn)) hoff hne hloop
            (List.length_take_of_le hcur)
          rw [List.take_append_drop] at hs
          obtain ⟨l'', hw', -, -, hflat⟩ := writeNodes_drop hb hgrow.nodes hoff hne
            (q := if s.nodes.isEmpty then 0 else s.curNode) (by simp only; omega)
          obtain ⟨rfl, -⟩ := Prod.mk.inj (Except.ok.inj (hw.symm.trans hw'))
          simp only [hs, hflat, hbuf, receivePos] }

namespace Receives

variable {pos len : Nat}

theorem covers_iff (R : Receives b s t bufs pos len) (hlen : 0 < len) :
    Covers t bufs len ↔ pos = s.offset := by
  unfold Covers
  rw [R.sized.baseSize, R.positions, R.offset]
  refine ⟨fun h => ?_, fun h => by rw [h]⟩
  obtain ⟨len, rfl⟩ := Nat.exists_eq_succ_of_ne_zero hlen.ne'
  exact (List.cons.inj h).1

/-- The content after a receive of `rt` bytes. -/
theorem setOffset_eq (R : Receives b s t bufs pos len) (hs : s.offset = s.size) {rt : Nat}
    (hrt : 0 < rt) (hle : rt ≤ len) (buf : List UInt8) :
    ∃ t', setOffset { t with nodes := scatter bufs buf t.nodes } (t.offset + rt) = .ok t' ∧
      t'.size = s.size + rt ∧ t'.nodes = scatter bufs buf t.nodes := by
  have hroom := R.room
  have hoff := R.offset
  have hsize := R.size
  unfold ByteArray.setOffset
  rw [if_neg (by simp only; omega), if_pos (by simp only; omega)]
  exact ⟨_, rfl, by rw [hoff, hs], rfl⟩

/-- What arrives is appended where the pieces begin at the end of the data. -/
theorem appendsReceived_iff (R : Receives b s t bufs pos len) (hlen : 0 < len)
    (hoff : s.offset = data.length) (hsize : s.size = data.length) (hpos : pos ≤ data.length)
    (hdata : s.nodes.flatten.take data.length = data) :
    AppendsReceived t data bufs len ↔ pos = data.length := by
  have hlen_le : data.length ≤ s.nodes.flatten.length := by
    rw [← hdata, List.length_take]
    exact Nat.min_le_right ..
  have hold : t.nodes.flatten.take data.length = data := by
    obtain ⟨k, hk⟩ := R.nodes
    rw [hk, List.flatten_append, List.take_append_of_le_length hlen_le, hdata]
  constructor
  · intro happ
    by_contra hne
    have hlt : pos < data.length := by omega
    -- bytes that differ from the one they replace
    obtain ⟨t', ht', hsize', hcontent⟩ := happ (List.replicate len (data[pos] + 1))
      (List.length_replicate ..) 1 Nat.one_pos hlen
    obtain ⟨u, hu, -, hnodes⟩ := R.setOffset_eq (hoff.trans hsize.symm) Nat.one_pos hlen
      (List.replicate len (data[pos] + 1))
    obtain rfl := Except.ok.inj (ht'.symm.trans hu)
    rw [hnodes, R.arrived _ (List.length_replicate ..), hsize'] at hcontent
    have htake : (t.nodes.flatten.take pos).length = pos := by
      have := congrArg List.length hold
      rw [List.length_take] at this ⊢
      omega
    have hat := congrArg (fun l => l[pos]?) hcontent
    simp only [List.append_assoc] at hat
    rw [List.getElem?_take_of_lt (by omega), List.getElem?_append_right htake.le, htake,
      Nat.sub_self, List.getElem?_append_left (by simpa using hlen),
      List.getElem?_append_left hlt, List.getElem?_eq_getElem hlt,
      List.getElem?_replicate_of_lt hlen] at hat
    exact absurd (Option.some.inj hat) (by simp)
  · rintro rfl buf hbuf rt hrt hle
    obtain ⟨t', ht', hsize', hnodes⟩ := R.setOffset_eq (hoff.trans hsize.symm) hrt hle buf
    rw [hsize] at hsize'
    refine ⟨t', ht', hsize', ?_⟩
    rw [hnodes, R.arrived buf hbuf, hold, hsize', List.append_assoc, List.take_length_add_append,
      List.take_append_of_le_length (by omega)]

end Receives

theorem Writing.receivePos (H : Writing f e b data s) :
    s.receivePos = writePos b data.length := by
  obtain rfl := H.baseSize
  have hb := s.baseSize_pos
  have hdiv := Nat.div_add_mod' data.length s.baseSize
  obtain ⟨hm0, hm1⟩ := nodes_count H.fit H.tight
  have hcur : (if s.nodes.isEmpty then 0 else s.curNode) = s.nodes.length - 1 := by
    split
    · rename_i h
      rw [List.isEmpty_iff.mp h]
      rfl
    · rename_i h
      have := H.curNode (by simpa using h)
      omega
  unfold ByteArray.receivePos writePos
  rw [hcur, H.offset]
  by_cases hr : data.length % s.baseSize = 0
  · rw [hm0 hr, hr]
    rcases Nat.eq_zero_or_pos data.length with h0 | hpos
    · simp [h0]
    · rw [if_pos ⟨hpos, Nat.dvd_of_mod_eq_zero hr⟩, Nat.sub_mul]
      omega
  · rw [hm1 hr, if_neg fun h => hr (Nat.mod_eq_zero_of_dvd h.2), Nat.add_sub_cancel]
    omega

/-- After `setOffset`, as between two receives, the pieces begin a node early from the second node
on. -/
theorem receivePos_setOffset {k : Nat} (hs : s.nodes ≠ []) (ht : s.setOffset k = .ok t) :
    t.receivePos = bufferPos s.baseSize k := by
  have hb := s.baseSize_pos
  have hdiv := Nat.div_add_mod' k s.baseSize
  unfold ByteArray.setOffset at ht
  split at ht
  · cases ht
  cases ht
  unfold ByteArray.receivePos bufferPos
  rw [if_neg (by simpa using hs)]
  simp only
  split
  · rename_i hlt
    rw [Nat.div_eq_of_lt hlt, Nat.mod_eq_of_lt hlt]
    omega
  · have : 0 < k / s.baseSize := Nat.div_pos (by omega) hb
    have hmul : s.baseSize ≤ k / s.baseSize * s.baseSize := Nat.le_mul_of_pos_left _ this
    rw [Nat.sub_mul, Nat.one_mul]
    omega

/-! ## After writes -/

theorem run_writes {ws : List (List UInt8)} {hb : 0 < b}
    (hs : (ws.forM (Call.write h)).run { baseSize := b, baseSize_pos := hb, endian := e, fill := f } =
      .ok () s) : Sized b s ∧ Writing f e b ws.flatten s := by
  have hkeeps : Throw.Keeps (Sized b) Exit.Defined (ws.forM (Call.write h)) := by
    clear hs
    induction ws with
    | nil => exact .pure ()
    | cons w ws ih => exact (Sized.keeps_write w).bind fun _ => ih
  have hrefines : Throw.Refines Exit.toError (ws.forM (Call.write h))
      (Call.effect fun s => ws.foldlM ByteArray.write s) := by
    clear hs hkeeps
    induction ws with
    | nil => exact .pure ()
    | cons w ws ih => exact Call.refines_effect_bind (Call.refines_write w) ih
  refine ⟨hkeeps.of_ok (sized_fresh b hb e f) hs, ?_⟩
  obtain ⟨s', hs', H⟩ := append_writing b hb e f ws
  have hrun := hrefines.of_ok hs
  unfold append at hs'
  simp only [Call.effect, hs'] at hrun
  obtain rfl : s' = s := congrArg Prod.snd (Except.ok.inj hrun)
  exact H

theorem receivePos_eq_iff (b k : Nat) (hb : 0 < b) : writePos b k = k ↔ k = 0 ∨ ¬ b ∣ k := by
  unfold writePos
  split <;> rename_i hk
  · obtain ⟨hpos, hdvd⟩ := hk
    simp only [hdvd, not_true_eq_false, or_false]
    omega
  · rw [not_and_or] at hk
    refine iff_of_true rfl (hk.imp_left fun h => by omega)

/-- **Write buffers never do what they are asked**: the result leaves out the last piece. The pieces
themselves are right, and so is what arrives in them, exactly where the data does not end at a node
boundary. -/
theorem exposes_never {h : Heap} {b : Nat} {hb : 0 < b} {e f : UInt8} {ws : List (List UInt8)}
    {s : ByteArray}
    (hs : (ws.forM (Call.write h)).run { baseSize := b, baseSize_pos := hb, endian := e, fill := f } =
      .ok () s) (buffers : List IoVec) {len : UInt64} (hlen : len ≠ 0) :
    s.offset = ws.flatten.length ∧ ¬ Exposes h s ws.flatten buffers len ∧
      ∀ out r t, (Call.getWriteBuffers h buffers len).run s = .ok (out, r) t → ∃ bufs,
        out = buffers ++ bufs ∧ r ≠ len ∧
        (Covers t bufs len.toNat ↔ s.offset = 0 ∨ ¬ b ∣ s.offset) ∧
        (AppendsReceived t ws.flatten bufs len.toNat ↔ s.offset = 0 ∨ ¬ b ∣ s.offset) := by
  obtain ⟨hsized, H⟩ := run_writes hs
  have hpos : 0 < len.toNat := by
    rw [Nat.pos_iff_ne_zero]
    exact fun h0 => hlen (UInt64.toNat_inj.mp h0)
  refine ⟨H.offset, ?_, fun out r t hcall => ?_⟩
  · rintro ⟨bufs, t, hcall, -⟩
    obtain ⟨-, -, hne, -⟩ := hsized.getWriteBuffers_ok hlen hcall
    exact hne rfl
  · obtain ⟨bufs, hout, hne, R⟩ := hsized.getWriteBuffers_ok hlen hcall
    rw [H.receivePos] at R
    rw [← receivePos_eq_iff b s.offset hb, H.offset]
    refine ⟨bufs, hout, hne, ?_, ?_⟩
    · rw [R.covers_iff hpos, H.offset]
    · refine R.appendsReceived_iff hpos H.offset H.size ?_ H.content
      unfold writePos
      split <;> omega

/-- Three bytes in nodes of four, and room for two. -/
theorem exposes_never_inside :
    ∃ s t, ([[1, 2, 3]].forM (Call.write smallHeap)).run
        { baseSize := 4, baseSize_pos := by decide } = .ok () s ∧
      (Call.getWriteBuffers smallHeap [] 2).run s = .ok ([⟨0, 3, 1⟩, ⟨1, 0, 1⟩], 1) t ∧
      ¬ Exposes smallHeap s [1, 2, 3] [] 2 ∧
      AppendsReceived t [1, 2, 3] [⟨0, 3, 1⟩, ⟨1, 0, 1⟩] 2 := by
  refine ⟨_, _, rfl, rfl, ?_⟩
  obtain ⟨-, hnever, hcall⟩ := @exposes_never smallHeap 4 (by decide) 1 0 [[1, 2, 3]] _ rfl [] 2
    (by decide)
  obtain ⟨bufs, hbufs, -, -, happ⟩ := hcall [⟨0, 3, 1⟩, ⟨1, 0, 1⟩] 1 _ rfl
  rw [List.nil_append] at hbufs
  subst hbufs
  exact ⟨hnever, happ.mpr (.inr (by decide))⟩

/-- Room for two bytes after four in nodes of four: the result is 0, the piece is the beginning of
the first node, and what arrives there replaces what was written. -/
theorem writeBuffers_wrong :
    ∃ s t, ([[1, 2, 3, 4]].forM (Call.write smallHeap)).run
        { baseSize := 4, baseSize_pos := by decide } = .ok () s ∧
      (Call.getWriteBuffers smallHeap [] 2).run s = .ok ([⟨0, 0, 2⟩], 0) t ∧
      ¬ Exposes smallHeap s [1, 2, 3, 4] [] 2 ∧ ¬ Covers t [⟨0, 0, 2⟩] 2 ∧
      (scatter [⟨0, 0, 2⟩] [8, 9] t.nodes).flatten.take 4 = [8, 9, 3, 4] := by
  refine ⟨_, _, rfl, rfl, ?_, by decide, by decide⟩
  rintro ⟨bufs, t, hcall, -⟩
  have hresult : (0 : UInt64) = 2 := congrArg Prod.snd (EStateM.Result.ok.inj hcall).1
  exact absurd hresult (by decide)

end Tigerkin.ByteArray
