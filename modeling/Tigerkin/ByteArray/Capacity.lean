import Tigerkin.ByteArray.Calls
import Tigerkin.Std.Run

/-! # Size and capacity

The size, the offset, the capacity and the list of nodes are changed one by one. `Sized` says how
they fit together; every call keeps it, also one that throws half-way: a write that runs out of
memory has added some of its nodes, and a read of a string has read the length. -/

namespace Tigerkin.ByteArray

open Throw

/-- The nodes make up the capacity, which bounds the size, which bounds the offset; and `size_t` can
count them. -/
structure Sized (b : Nat) (s : ByteArray) : Prop where
  baseSize : s.baseSize = b
  nodes : ∀ n ∈ s.nodes, n.length = b
  capacity : s.capacity = s.nodes.length * b
  offset_le : s.offset ≤ s.size
  size_le : s.size ≤ s.capacity
  capacity_lt : s.capacity < 2 ^ 63

/-- The ends after which there still is an array. -/
def Exit.Defined (e : Exit) : Prop := e ≠ .undefined

instance (e : Exit) : Decidable e.Defined := inferInstanceAs (Decidable (e ≠ .undefined))

variable {h : Heap} {s t : ByteArray} {b : Nat}

theorem sized_fresh (b : Nat) (hb : 0 < b) (e f : UInt8) :
    Sized b { baseSize := b, baseSize_pos := hb, endian := e, fill := f } :=
  ⟨rfl, by simp, by simp, le_rfl, le_rfl, by simp⟩

/-- A write of any length leaves the nodes their length. -/
theorem writeNodes_length {l l' : List (List UInt8)} {off k : Nat} {buf : List UInt8}
    (hw : writeNodes l off buf = .ok (l', k)) (hl : ∀ n ∈ l, n.length = b) (hoff : off ≤ b) :
    (∀ n ∈ l', n.length = b) ∧ l'.length = l.length := by
  induction l generalizing off buf l' k with
  | nil => cases hw
  | cons n l ih =>
    have hn := hl n List.mem_cons_self
    have hl' : ∀ m ∈ l, m.length = b := fun m hm => hl m (List.mem_cons_of_mem _ hm)
    simp only [writeNodes, hn] at hw
    split at hw
    · rename_i hlt
      cases hrest : writeNodes l 0 (buf.drop (b - off)) with
      | error e =>
        rw [hrest] at hw
        cases hw
      | ok p =>
        rw [hrest] at hw
        cases hw
        obtain ⟨hp, hlen⟩ := ih hrest hl' (Nat.zero_le b)
        refine ⟨fun m hm => ?_, congrArg Nat.succ hlen⟩
        rcases List.mem_cons.mp hm with rfl | hm
        · simp only [List.length_append, List.length_take, hn]
          omega
        · exact hp m hm
    · cases hw
      refine ⟨fun m hm => ?_, rfl⟩
      rcases List.mem_cons.mp hm with rfl | hm
      · simp only [List.length_append, List.length_take, List.length_drop, hn]
        omega
      · exact hl' m hm

namespace Sized

/-! ## Growth -/

theorem addNode (H : Sized b s) (hm : s.capacity + s.baseSize ≤ h.nodes) : Sized b { s with
    nodes := s.nodes ++ [s.newNode], capacity := s.capacity + s.baseSize } where
  baseSize := H.baseSize
  nodes := by
    intro n hn
    rcases List.mem_append.mp hn with hn | hn
    · exact H.nodes n hn
    · rw [List.mem_singleton.mp hn, newNode, List.length_replicate, H.baseSize]
  capacity := by
    simp only [List.length_append, List.length_singleton, Nat.add_mul, Nat.one_mul, H.capacity,
      H.baseSize]
  offset_le := H.offset_le
  size_le := H.size_le.trans (Nat.le_add_right ..)
  capacity_lt := hm.trans_lt h.nodes_lt

theorem addRoot (H : Sized b s) (hm : s.capacity + s.baseSize ≤ h.nodes) : Sized b { s with
    nodes := [s.newNode], curNode := 0, size := 0, offset := 0, capacity := s.baseSize } where
  baseSize := H.baseSize
  nodes := by simp [newNode, H.baseSize]
  capacity := by simp [H.baseSize]
  offset_le := le_rfl
  size_le := Nat.zero_le _
  capacity_lt := (Nat.le_add_left ..).trans_lt (hm.trans_lt h.nodes_lt)

theorem size_eq_zero (H : Sized b s) (hs : s.nodes.isEmpty) : s.size = 0 ∧ s.offset = 0 := by
  have hcap := H.capacity
  have := H.size_le
  have := H.offset_le
  rw [List.isEmpty_iff.mp hs, List.length_nil, Nat.zero_mul] at hcap
  omega

theorem keeps_addNodes (capacity n : Nat) :
    Keeps (Sized b) Exit.Defined (Call.addNodes h capacity n) := by
  induction n with
  | zero => exact .pure ()
  | succ n ih =>
    refine .bind_get fun s H => ?_
    by_cases hc : s.capacity < capacity
    · by_cases hm : s.capacity + s.baseSize ≤ h.nodes
      · simpa [hc, hm] using ih _ (H.addNode hm)
      · simpa [hc, hm] using fun _ => H
    · simpa [hc] using H

theorem keeps_addCapacityTo (capacity : Nat) :
    Keeps (Sized b) Exit.Defined (Call.addCapacityTo h capacity) := by
  have hroot : Keeps (Sized b) Exit.Defined (Call.addRoot h) := by
    refine .bind_get fun s H => ?_
    by_cases hs : s.nodes.isEmpty
    · by_cases hm : s.capacity + s.baseSize ≤ h.nodes
      · simpa [hs, hm] using H.addRoot hm
      · simpa [hs, hm] using fun _ => H
    · simpa [hs] using H
  exact hroot.bind fun _ => .bind_get fun s H => keeps_addNodes _ _ s H

theorem addNodes_grow (s : ByteArray) (capacity : Nat) :
    ∃ k, s.addNodes capacity (capacity - s.capacity) = { s with
        nodes := s.nodes ++ List.replicate k s.newNode
        capacity := s.capacity + k * s.baseSize } ∧
      capacity ≤ s.capacity + k * s.baseSize := by
  by_cases hc : capacity ≤ s.capacity
  · refine ⟨0, ?_, by omega⟩
    rw [Nat.sub_eq_zero_of_le hc]
    simp [ByteArray.addNodes]
  · have hb := s.baseSize_pos
    obtain ⟨k, hk, hle, -⟩ := addNodes_eq s capacity (n := capacity - s.capacity) (by omega)
      (by omega)
    exact ⟨k, hk, hle⟩

/-- **What `addCapacityTo` adds**: nodes at the end. -/
theorem addCapacityTo_eq (H : Sized b s) (capacity : Nat) :
    ∃ k, s.addCapacityTo capacity = { s with
        nodes := s.nodes ++ List.replicate k s.newNode
        capacity := s.capacity + k * b
        curNode := if s.nodes.isEmpty then 0 else s.curNode } ∧
      capacity ≤ s.capacity + k * b ∧ 0 < s.nodes.length + k := by
  obtain rfl := H.baseSize
  unfold ByteArray.addCapacityTo
  simp only [ByteArray.addCapacityTo_eq]
  by_cases hs : s.nodes.isEmpty
  · obtain ⟨hsize, hoff⟩ := H.size_eq_zero hs
    have hcap := H.capacity
    rw [List.isEmpty_iff.mp hs, List.length_nil, Nat.zero_mul] at hcap
    simp only [hs, if_true]
    obtain ⟨k, hk, hle⟩ := addNodes_grow { s with
      nodes := [s.newNode], curNode := 0, size := 0, offset := 0, capacity := s.baseSize } capacity
    have hmul : (k + 1) * s.baseSize = s.baseSize + k * s.baseSize := by ring
    refine ⟨k + 1, ?_, by rw [hmul, hcap, Nat.zero_add]; exact hle, by omega⟩
    rw [hk, hmul, List.isEmpty_iff.mp hs]
    simp [newNode, hsize, hoff, hcap, List.replicate_succ]
  · obtain ⟨k, hk, hle⟩ := addNodes_grow s capacity
    have hpos : 0 < s.nodes.length := by simpa [List.length_pos_iff] using hs
    simp only [hs]
    exact ⟨k, hk, hle, by omega⟩

/-! ## Calls -/

/-- The copy loop of `write` in an array with room for `buf`. -/
theorem copied (H : Sized b s) {buf : List UInt8} {l : List (List UInt8)} {cur k : Nat}
    (hw : writeNodes (s.nodes.drop cur) (s.offset % s.baseSize) buf = .ok (l, k))
    (hroom : s.size + buf.length ≤ s.capacity) : Sized b { s with
      nodes := s.nodes.take cur ++ l
      curNode := cur + k
      size := if s.offset + buf.length > s.size + buf.length then s.offset + buf.length else
        s.size + buf.length
      offset := s.offset + buf.length } := by
  have hb : 0 < b := H.baseSize ▸ s.baseSize_pos
  have hle := H.offset_le
  obtain ⟨hl, hlen⟩ := writeNodes_length hw (fun n hn => H.nodes n (List.mem_of_mem_drop hn))
    (by rw [H.baseSize]; exact (Nat.mod_lt _ hb).le)
  rw [if_neg (by omega)]
  exact {
    baseSize := H.baseSize
    nodes := by
      intro n hn
      rcases List.mem_append.mp hn with hn | hn
      · exact H.nodes n (List.mem_of_mem_take hn)
      · exact hl n hn
    capacity := by
      rw [H.capacity, List.length_append, hlen, ← List.length_append, List.take_append_drop]
    offset_le := Nat.add_le_add_right hle _
    size_le := hroom
    capacity_lt := H.capacity_lt }

theorem keeps_write (buf : List UInt8) : Keeps (Sized b) Exit.Defined (Call.write h buf) := by
  unfold Call.write
  by_cases hbuf : buf.length = 0
  · simpa only [hbuf, if_true] using .pure ()
  simp only [hbuf, if_false]
  refine .bind_get fun s H => ?_
  have hgrow := keeps_addCapacityTo (h := h) (s.size + buf.length) s H
  rw [EStateM.run_bind]
  cases hrun : (Call.addCapacityTo h (s.size + buf.length)).run s with
  | error e t =>
    rw [hrun] at hgrow
    exact hgrow
  | ok u t =>
    rw [hrun] at hgrow
    have hroom : t.size + buf.length ≤ t.capacity := by
      obtain ⟨k, hk, hle, -⟩ := H.addCapacityTo_eq (s.size + buf.length)
      have ht := (Call.refines_addCapacityTo (s.size + buf.length)).of_ok hrun
      obtain rfl : s.addCapacityTo (s.size + buf.length) = t := congrArg Prod.snd (Except.ok.inj ht)
      rw [hk]
      exact hle
    simp only [EStateM.run_bind, EStateM.run_get, Call.run_follow]
    cases hw : writeNodes (t.nodes.drop t.startNode) (t.offset % t.baseSize) buf with
    | error e => exact fun hd => absurd rfl hd
    | ok p => exact hgrow.copied hw hroom

theorem keeps_read (n : Nat) : Keeps (Sized b) Exit.Defined (Call.read n) := by
  refine .bind_get fun s H => ?_
  by_cases hn : n > s.getEnableReadSize
  · rw [if_pos hn]
    exact fun _ => H
  simp only [hn, if_false, EStateM.run_bind, Call.run_follow]
  cases readNodes (s.nodes.drop s.startNode) (s.offset % s.baseSize) n with
  | error e => exact fun hd => absurd rfl hd
  | ok p =>
    have hle := H.offset_le
    unfold getEnableReadSize at hn
    exact { H with offset_le := by simp only; omega }

theorem keeps_setOffset (n : Nat) : Keeps (Sized b) Exit.Defined (Call.setOffset n) := by
  refine .bind_get fun s H => ?_
  by_cases hn : n > s.capacity
  · rw [if_pos hn]
    exact fun _ => H
  simp only [hn, if_false]
  have hle := H.size_le
  exact { H with
    offset_le := by
      simp only
      split <;> omega
    size_le := by
      simp only
      split <;> omega }

theorem keeps_clear : Keeps (Sized b) Exit.Defined (Call.clear h) := by
  refine .bind_get fun s H => ?_
  cases Call.clearNodes h false s.nodes with
  | false => exact fun hd => absurd rfl hd
  | true => exact ⟨H.baseSize, by simp, by simp, le_rfl, le_rfl, by simp⟩

theorem keeps_follow {α : Type} (x : Except Error α) :
    Keeps (Sized b) Exit.Defined (Call.follow x) := by
  cases x with
  | ok a => exact .pure a
  | error e => exact .throw _

theorem keeps_getWriteBuffers (buffers : List IoVec) (len : UInt64) :
    Keeps (Sized b) Exit.Defined (Call.getWriteBuffers h buffers len) := by
  unfold Call.getWriteBuffers
  by_cases hlen : len = 0
  · simpa only [hlen, if_true] using .pure _
  simp only [hlen, if_false]
  refine .bind_get fun s H => ?_
  refine (keeps_addCapacityTo _).bind (fun _ => .bind_get fun s H => ?_) s H
  exact (keeps_follow _).bind (fun _ => .pure _) s H

theorem keeps_readRounds (file : List UInt8) (n : Nat) :
    Keeps (Sized b) Exit.Defined (Call.readRounds h file n) := by
  induction n generalizing file with
  | zero => exact .pure ()
  | succ n ih =>
    refine .bind_get fun s H => ?_
    refine (keeps_write _).bind (fun _ => ?_) s H
    split
    · exact .pure ()
    · exact ih _

theorem keeps_readFromFile (file : Option (List UInt8)) :
    Keeps (Sized b) Exit.Defined (Call.readFromFile h file) := by
  cases file with
  | none => exact .pure false
  | some file =>
    simp only [Call.readFromFile]
    split
    · exact (keeps_readRounds _ _).bind fun _ => .pure true
    · exact .throw _

theorem keeps_writeSwapped (n value : Nat) :
    Keeps (Sized b) Exit.Defined (Call.writeSwapped h n value) :=
  .bind_get fun s H => keeps_write _ s H

theorem keeps_writeValue (v : Value) : Keeps (Sized b) Exit.Defined (Call.writeValue h v) := by
  cases v with
  | uint8 v => exact keeps_write (toBytes 1 v.toNat)
  | int8 v => exact keeps_write (toBytes 1 v.toUInt8.toNat)
  | uint16 v | uint32 v | uint64 v | float v | double v => exact keeps_writeSwapped _ v.toNat
  | int16 v => exact keeps_writeSwapped 2 v.toUInt16.toNat
  | int32 v => exact keeps_writeSwapped 4 v.toUInt32.toNat
  | int64 v => exact keeps_writeSwapped 8 v.toUInt64.toNat
  | string16 str | string32 str | string64 str | stringVint str =>
    exact (keeps_writeSwapped _ _).bind fun _ => keeps_write str

theorem keeps_readSwapped (n : Nat) : Keeps (Sized b) Exit.Defined (Call.readSwapped n) :=
  (keeps_read n).bind fun _ => .bind_get fun _ H => H

theorem keeps_resize (n : Nat) : Keeps (Sized b) Exit.Defined (Call.resize h n) := by
  unfold Call.resize
  split
  · exact .pure ()
  · exact .throw _

theorem keeps_readValue (k : Kind) : Keeps (Sized b) Exit.Defined (Call.readValue h k) := by
  cases k with
  | uint8 | int8 => exact ((keeps_read 1).bind fun _ => .pure _).bind fun _ => .pure _
  | uint16 | uint32 | uint64 | int16 | int32 | int64 | float | double =>
    exact ((keeps_readSwapped _).bind fun _ => .pure _).bind fun _ => .pure _
  | string16 | string32 | string64 | stringVint =>
    exact (((keeps_readSwapped _).bind fun _ => .pure _).bind fun _ =>
      (keeps_resize _).bind fun _ => keeps_read _).bind fun _ => .pure _

end Sized

/-! ## Runs -/

/-- The calls on a byte array that change it. -/
inductive Op where
  | write (v : Value)
  | writeString (str : List UInt8)
  | read (k : Kind)
  | setOffset (offset : Nat)
  | getWriteBuffers (len : UInt64)
  | readFromFile (file : Option (List UInt8))
  | clear

def perform (h : Heap) : Op → Call Unit
  | .write v => Call.writeValue h v
  | .writeString str => Call.writeString h str
  | .read k => do let _ ← Call.readValue h k
  | .setOffset offset => Call.setOffset offset
  | .getWriteBuffers len => do let _ ← Call.getWriteBuffers h [] len
  | .readFromFile file => do let _ ← Call.readFromFile h file
  | .clear => Call.clear h

/-- The array after a call that returns or throws, for a caller who catches what it throws. -/
def step (s : ByteArray) (a : Heap × Op) : Option ByteArray :=
  match (perform a.1 a.2).run s with
  | .ok _ t => some t
  | .error e t => if e.Defined then some t else none

theorem Sized.keeps_perform (op : Op) : Keeps (Sized b) Exit.Defined (perform h op) := by
  cases op with
  | write v => exact keeps_writeValue v
  | writeString str => exact keeps_write str
  | read k => exact (keeps_readValue k).bind fun _ => .pure ()
  | setOffset offset => exact keeps_setOffset offset
  | getWriteBuffers len => exact (keeps_getWriteBuffers [] len).bind fun _ => .pure ()
  | readFromFile file => exact (keeps_readFromFile file).bind fun _ => .pure ()
  | clear => exact keeps_clear

theorem Sized.step {a : Heap × Op} (H : Sized b s) (hs : ByteArray.step s a = some t) :
    Sized b t := by
  have hkeeps := keeps_perform (h := a.1) a.2 s H
  unfold ByteArray.step at hs
  split at hs <;> rename_i hrun
  · rw [hrun] at hkeeps
    cases hs
    exact hkeeps
  · rw [hrun] at hkeeps
    split at hs
    · cases hs
      exact hkeeps ‹_›
    · cases hs

/-- **Size and capacity** after any calls, whether they return or throw: the nodes are as many as
the capacity says, and the bytes that are left to read can be counted. -/
theorem sized_of_reach {b : Nat} {hb : 0 < b} {e f : UInt8} {s : ByteArray}
    (hs : Reach step Always { baseSize := b, baseSize_pos := hb, endian := e, fill := f } s) :
    (∀ n ∈ s.nodes, n.length = b) ∧ s.capacity = s.nodes.length * b ∧
      s.nodes.length = s.capacity / b ∧ s.offset ≤ s.size ∧ s.size ≤ s.capacity ∧
      s.offset + s.getEnableReadSize = s.size := by
  have H : Sized b s := hs.inv (sized_fresh b hb e f) fun H _ hs => H.step hs
  have hle := H.offset_le
  refine ⟨H.nodes, H.capacity, ?_, hle, H.size_le, Nat.add_sub_cancel' hle⟩
  rw [H.capacity, Nat.mul_div_cancel _ hb]

/-- A heap with room for 40 bytes in nodes and for strings of up to 100 bytes. -/
def smallHeap : Heap :=
  { nodes := 40, nodes_lt := by decide, string := fun n => n ≤ 100, buffer := true,
    keepsDeleted := true }

/-- A read that fails after the length, a seek that fails, room for a receive, a write that runs out
of memory after the length. -/
theorem sized_after_failures :
    ∃ s, Reach step Always { baseSize := 4, baseSize_pos := by decide } s ∧
      s.size = 38 ∧ s.capacity = 40 ∧ s.nodes.length = s.capacity / 4 ∧ s.offset ≤ s.size := by
  obtain ⟨s, hs, hsize⟩ := Reach.of_any step Always { baseSize := 4, baseSize_pos := by decide }
    [(smallHeap, .write (.string16 [1, 2, 3])), (smallHeap, .setOffset 2),
      (smallHeap, .read .string16), (smallHeap, .setOffset 9), (smallHeap, .getWriteBuffers 28),
      (smallHeap, .setOffset 30), (smallHeap, .write (.stringVint [1, 2, 3, 4, 5, 6, 7, 8]))]
    (fun s => s.size = 38 && s.capacity = 40) (by decide +kernel)
  simp only [Bool.and_eq_true, decide_eq_true_eq] at hsize
  obtain ⟨-, -, hnodes, hoff, -⟩ := sized_of_reach hs
  exact ⟨s, hs, hsize.1, hsize.2, hnodes, hoff⟩

end Tigerkin.ByteArray
