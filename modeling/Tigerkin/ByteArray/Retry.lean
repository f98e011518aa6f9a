import Tigerkin.ByteArray.Capacity

/-! # Reads that fail

`read` looks at what is left before it touches the array, so that a read of a fixed size that fails
can be made again. A string is read in two steps: the length is gone when its bytes turn out not to
be there (`retryable_iff`). -/

namespace Tigerkin.ByteArray

open Throw

/-- The bytes of the length in front of a string. -/
def Kind.prefixWidth : Kind → Option Nat
  | .string16 => some 2
  | .string32 => some 4
  | .string64 | .stringVint => some 8
  | _ => none

/-- The number that the next `w` bytes hold. -/
def announced (s : ByteArray) (w : Nat) : Except Error Nat := do
  let buf ← s.readAt w s.offset
  return (if s.endian ≠ TIGERKIN_BYTE_ORDER then byteswap w (ofBytes buf) else ofBytes buf) %
    2 ^ (8 * w)

/-- A read that throws because too few bytes are left has not touched the array. -/
def Retryable (h : Heap) (k : Kind) (s : ByteArray) : Prop :=
  ∀ what t, (Call.readValue h k).run s = .error (.outOfRange what) t → t = s

/-- A string whose length is there, but not all of its bytes. -/
def Cut (h : Heap) (k : Kind) (s : ByteArray) : Prop :=
  ∃ w len, k.prefixWidth = some w ∧ s.announced w = .ok len ∧ h.string len = true ∧
    s.getEnableReadSize < w + len

namespace Call

variable {s t : ByteArray}

/-! ## One read -/

theorem read_of_lt {n : Nat} (hn : s.getEnableReadSize < n) :
    (read n).run s = .error (.outOfRange "READ OUT OF RANGE") s := by
  simp only [read, EStateM.run_bind, EStateM.run_get]
  rw [if_pos hn]
  rfl

theorem read_of_le {n : Nat} (hn : n ≤ s.getEnableReadSize) :
    (read n).run s = match readNodes (s.nodes.drop s.startNode) (s.offset % s.baseSize) n with
      | .ok (buf, k) => .ok buf { s with curNode := s.startNode + k, offset := s.offset + n }
      | .error _ => .error .undefined s := by
  simp only [read, EStateM.run_bind, EStateM.run_get]
  rw [if_neg (by omega)]
  simp only [EStateM.run_bind, run_follow]
  cases readNodes (s.nodes.drop s.startNode) (s.offset % s.baseSize) n <;> rfl

/-- A read does nothing before it throws. -/
theorem read_error {n : Nat} {e : Exit} (hr : (read n).run s = .error e t) : t = s := by
  by_cases hn : s.getEnableReadSize < n
  · rw [read_of_lt hn] at hr
    cases hr
    rfl
  · rw [read_of_le (by omega)] at hr
    split at hr <;> cases hr
    rfl

theorem read_ne_outOfRange {n : Nat} (hn : n ≤ s.getEnableReadSize) (what : String) :
    (read n).run s ≠ .error (.outOfRange what) t := by
  rw [read_of_le hn]
  split <;> exact fun hr => by cases hr

/-- What is done with the result of a call has no part in its error. -/
theorem map_error {α β : Type} {c : Call α} {f : α → β} {e : Exit}
    (hr : (c >>= fun a => pure (f a)).run s = .error e t) : c.run s = .error e t := by
  rw [EStateM.run_bind] at hr
  split at hr
  · cases hr
  · rename_i hc
    rw [hc]
    cases hr
    rfl

theorem readSwapped_error {n : Nat} {e : Exit} (hr : (readSwapped n).run s = .error e t) :
    t = s := by
  simp only [readSwapped, EStateM.run_bind] at hr
  split at hr
  · cases hr
  · rename_i hread
    cases hr
    exact read_error hread

/-- The length of a string is either not there or read. -/
theorem readSwapped_cases (s : ByteArray) (w : Nat) :
    (∃ e, s.announced w = .error e) ∧ (∃ e, (readSwapped w).run s = .error e s) ∨
      ∃ v cur, s.announced w = .ok (v % 2 ^ (8 * w)) ∧ w ≤ s.getEnableReadSize ∧
        (readSwapped w).run s = .ok v { s with curNode := cur, offset := s.offset + w } := by
  simp only [readSwapped, announced, ByteArray.readAt, EStateM.run_bind]
  by_cases hw : s.getEnableReadSize < w
  · rw [if_pos hw, read_of_lt hw]
    exact .inl ⟨⟨_, rfl⟩, ⟨_, rfl⟩⟩
  · rw [if_neg hw, read_of_le (by omega)]
    cases readNodes (s.nodes.drop s.startNode) (s.offset % s.baseSize) w with
    | error e => exact .inl ⟨⟨e, rfl⟩, ⟨_, rfl⟩⟩
    | ok p => exact .inr ⟨_, _, rfl, by omega, rfl⟩

/-! ## Strings -/

/-- The reads of strings: a length of `w` bytes, the memory, the bytes. -/
def readString (h : Heap) (w : Nat) : Call (List UInt8) := do
  let v ← readSwapped w
  resize h (v % 2 ^ (8 * w))
  read (v % 2 ^ (8 * w))

theorem run_resize (h : Heap) (s : ByteArray) (n : Nat) :
    (resize h n >>= fun _ => read n).run s =
      if h.string n then (read n).run s else .error .noMemory s := by
  rw [EStateM.run_bind]
  cases hs : h.string n <;> simp [resize, hs]

theorem readString_eq {α : Type} {w : Nat} (h : Heap) (toNat : α → Nat) (ofNat : Nat → α)
    (hv : ∀ v, toNat (ofNat v) = v % 2 ^ (8 * w)) :
    (do let len ← (do return ofNat (← readSwapped w) : Call α)
        resize h (toNat len)
        read (toNat len)) = readString h w := by
  simp only [readString, bind_assoc, pure_bind, hv]

theorem readString_iff (h : Heap) (s : ByteArray) {w : Nat} (hw : 0 < w) :
    (∀ what t, (readString h w).run s = .error (.outOfRange what) t → t = s) ↔
      ¬ ∃ len, s.announced w = .ok len ∧ h.string len = true ∧ s.getEnableReadSize < w + len := by
  unfold readString
  rw [EStateM.run_bind]
  rcases readSwapped_cases s w with ⟨⟨e, he⟩, e', hr⟩ | ⟨v, cur, hv, hle, hr⟩
  · rw [hr, he]
    refine iff_of_true (fun what t hr => ?_) (fun ⟨len, hlen, _⟩ => by cases hlen)
    cases hr
    rfl
  simp only [hr, hv, run_resize]
  generalize v % 2 ^ (8 * w) = len
  cases hs : h.string len with
  | false =>
    refine iff_of_true (fun what t hr => ?_) ?_
    · cases hr
    · rintro ⟨len, hlen, hs', -⟩
      cases hlen
      rw [hs] at hs'
      cases hs'
  | true =>
    have hleft : getEnableReadSize { s with curNode := cur, offset := s.offset + w } =
        s.getEnableReadSize - w := Nat.sub_add_eq ..
    by_cases hlt : s.getEnableReadSize < w + len
    · refine iff_of_false (fun hall => ?_) (not_not.mpr ⟨len, rfl, hs, hlt⟩)
      have hoff := congrArg ByteArray.offset (hall _ _ (read_of_lt (by rw [hleft]; omega)))
      simp only at hoff
      omega
    · refine iff_of_true (fun what t hr => ?_) ?_
      · exact absurd hr (read_ne_outOfRange (by rw [hleft]; omega) what)
      · rintro ⟨len, hlen, -, hlt'⟩
        cases hlen
        exact hlt hlt'

end Call

/-! ## All reads -/

theorem retryable_string {h : Heap} {s : ByteArray} {k : Kind} {w : Nat} {f : List UInt8 → Value}
    (hk : k.prefixWidth = some w) (hw : 0 < w)
    (hcall : Call.readValue h k = Call.readString h w >>= fun str => pure (f str)) :
    Retryable h k s ↔ ¬ Cut h k s := by
  have hcut : Cut h k s ↔ ∃ len, s.announced w = .ok len ∧ h.string len = true ∧
      s.getEnableReadSize < w + len := by
    simp only [Cut, hk, Option.some.injEq, exists_and_left, exists_eq_left']
  rw [hcut, ← Call.readString_iff h s hw]
  unfold Retryable
  rw [hcall]
  refine forall₂_congr fun what t => ?_
  refine ⟨fun hall hr => hall ?_, fun hall hr => hall (Call.map_error hr)⟩
  rw [EStateM.run_bind, hr]

/-- **Failed reads can be made again** unless they are reads of strings that are cut after the
length. -/
theorem retryable_iff (h : Heap) (k : Kind) (s : ByteArray) : Retryable h k s ↔ ¬ Cut h k s := by
  have hfixed (hk : k.prefixWidth = none)
      (hr : ∀ {e t}, (Call.readValue h k).run s = .error e t → t = s) :
      Retryable h k s ↔ ¬ Cut h k s := by
    refine iff_of_true (fun _ _ => hr) ?_
    rintro ⟨w, len, hw, -⟩
    rw [hk] at hw
    cases hw
  cases k with
  | uint8 | int8 => exact hfixed rfl fun hr => Call.read_error (Call.map_error (Call.map_error hr))
  | uint16 | uint32 | uint64 | int16 | int32 | int64 | float | double =>
    exact hfixed rfl fun hr => Call.readSwapped_error (Call.map_error (Call.map_error hr))
  | string16 =>
    exact retryable_string rfl (by decide) (congrArg (· >>= fun str => pure (Value.string16 str))
      (Call.readString_eq h UInt16.toNat UInt16.ofNat fun _ => rfl))
  | string32 =>
    exact retryable_string rfl (by decide) (congrArg (· >>= fun str => pure (Value.string32 str))
      (Call.readString_eq h UInt32.toNat UInt32.ofNat fun _ => rfl))
  | string64 =>
    exact retryable_string rfl (by decide) (congrArg (· >>= fun str => pure (Value.string64 str))
      (Call.readString_eq h UInt64.toNat UInt64.ofNat fun _ => rfl))
  | stringVint =>
    exact retryable_string rfl (by decide) (congrArg (· >>= fun str => pure (Value.stringVint str))
      (Call.readString_eq h UInt64.toNat UInt64.ofNat fun _ => rfl))

/-- A string of five bytes of which one has arrived: the read throws and leaves the offset after the
length. -/
theorem cut_string_consumed :
    ∃ s t u, append 4 (by decide) TIGERKIN_LITTLE_ENDIAN 0 [[5, 0], [97]] = .ok s ∧
      s.setOffset 0 = .ok t ∧ (Call.readString16 smallHeap).run t =
        .error (.outOfRange "READ OUT OF RANGE") u ∧
      t.offset = 0 ∧ u.offset = 2 ∧ ¬ Retryable smallHeap .string16 t := by
  refine ⟨_, _, _, rfl, rfl, rfl, rfl, rfl, fun hretry => ?_⟩
  exact absurd (congrArg ByteArray.offset (hretry _ _ rfl)) (by decide)

end Tigerkin.ByteArray
