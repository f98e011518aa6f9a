import Tigerkin.ByteArray.RoundTrip

/-! # Seeking

`setOffset` takes the current node from `offset / m_baseSize`, which is rounded down before `ceil`
sees it. Past the first node, at an offset that is no node boundary, the current node is the one
before the node of the offset, and what follows begins `m_baseSize` bytes early (`seekPos`). -/

namespace Tigerkin.ByteArray

variable {s s' : ByteArray} {f e : UInt8} {b k n : Nat} {data : List UInt8}

/-- Where reads and writes begin after `setOffset(k)`. -/
def seekPos (b k : Nat) : Nat := if k < b ∨ b ∣ k then k else k - b

theorem startNode_seek (hoff : s.offset = k) (hcur : s.curNode = k / s.baseSize - 1)
    (hk : k < s.nodes.length * s.baseSize) :
    s.startNode * s.baseSize + k % s.baseSize = seekPos s.baseSize k := by
  have hb := s.baseSize_pos
  have hdiv := Nat.div_add_mod' k s.baseSize
  have hq : k / s.baseSize < s.nodes.length := Nat.div_lt_of_lt_mul (by rwa [Nat.mul_comm])
  simp only [ByteArray.startNode, seekPos, hoff, hcur]
  by_cases hlt : k < s.baseSize
  · have h0 : k / s.baseSize = 0 := Nat.div_eq_of_lt hlt
    have hr : k % s.baseSize = k := Nat.mod_eq_of_lt hlt
    rw [if_neg (by omega), if_pos (.inl hlt), h0, hr]
    omega
  have hpos : 0 < k / s.baseSize := Nat.div_pos (by omega) hb
  by_cases hdvd : s.baseSize ∣ k
  · have hr := Nat.mod_eq_zero_of_dvd hdvd
    rw [if_pos ⟨hr, by omega, by omega⟩, if_pos (.inr hdvd), Nat.sub_add_cancel hpos, hdiv]
  · have hr : k % s.baseSize ≠ 0 := fun h => hdvd (Nat.dvd_of_mod_eq_zero h)
    rw [if_neg fun h => hr h.1, if_neg (by simp [hlt, hdvd]), Nat.sub_mul, Nat.one_mul]
    have : s.baseSize ≤ k / s.baseSize * s.baseSize := Nat.le_mul_of_pos_left _ hpos
    omega

/-! ## Reading at an offset -/

theorem Writing.setOffset_eq (H : Writing f e b data s) (hk : k ≤ data.length) :
    s.setOffset k = .ok { s with curNode := k / b - 1, offset := k } := by
  obtain rfl := H.baseSize
  have hcap := H.capacity
  have hfit := H.fit
  unfold ByteArray.setOffset
  rw [if_neg (by omega), if_neg (by rw [H.size]; omega)]

/-- The bytes that the loops of `read` and `toString` copy after `setOffset(k)`. -/
theorem Writing.readNodes_seek (H : Writing f e b data s) (hn : 0 < n)
    (hk : k + n ≤ data.length) :
    ∃ m, readNodes (s.nodes.drop (ByteArray.startNode { s with curNode := k / b - 1, offset := k })) (k % b)
      n = .ok ((data.drop (seekPos b k)).take n, m) := by
  obtain rfl := H.baseSize
  have hb := s.baseSize_pos
  have hfit := H.fit
  have hpos := startNode_seek (s := { s with curNode := k / s.baseSize - 1, offset := k }) rfl rfl
    (show k < s.nodes.length * s.baseSize by omega)
  generalize ByteArray.startNode { s with curNode := k / s.baseSize - 1, offset := k } = q at *
  have hle : seekPos s.baseSize k ≤ k := by
    unfold seekPos
    split <;> omega
  simp only at hpos
  have hdl : (s.nodes.drop q).length * s.baseSize =
      s.nodes.length * s.baseSize - q * s.baseSize := by
    rw [List.length_drop, Nat.sub_mul]
  have hne : s.nodes.drop q ≠ [] := by
    intro h0
    rw [h0, List.length_nil] at hdl
    omega
  have hread : readNodes _ _ n = _ := readNodes_spec hb
    (fun n hn => H.nodes n (List.mem_of_mem_drop hn)) (Nat.mod_lt k hb) hne (by rw [hdl]; omega)
  have hcontent := congrArg (fun l => (l.drop (seekPos s.baseSize k)).take n) H.content
  simp only [List.drop_take, List.take_take] at hcontent
  rw [flatten_drop_nodes H.nodes, List.drop_drop, hpos] at hread
  rw [Nat.min_eq_left (by omega)] at hcontent
  exact ⟨_, by rw [hread, hcontent]⟩

theorem readAt_eq {buf : List UInt8} {m : Nat} (hn : n ≤ s.size - s.offset)
    (h : readNodes (s.nodes.drop (startNode { s with offset := k })) (k % s.baseSize) n =
      .ok (buf, m)) : s.readAt n k = .ok buf := by
  unfold readAt
  rw [if_neg (by simpa [getEnableReadSize] using hn)]
  simp only [h]
  rfl

/-- **What a read and `toString` give** after `setOffset(k)`. -/
theorem Writing.seek (H : Writing f e b data s) (hk : k ≤ data.length) :
    ∃ t, s.setOffset k = .ok t ∧
      (∀ n, 0 < n → k + n ≤ data.length →
        ∃ t', t.read n = .ok ((data.drop (seekPos b k)).take n, t')) ∧
      t.toString = .ok ((data.drop (seekPos b k)).take (data.length - k)) := by
  refine ⟨_, H.setOffset_eq hk, fun n hn hle => ?_, ?_⟩
  · obtain ⟨m, hr⟩ := H.readNodes_seek hn hle
    rw [← H.baseSize] at hr
    exact ⟨_, read_eq (by simp only [H.size]; omega) (by rw [← H.baseSize]; exact hr)⟩
  · unfold ByteArray.toString
    simp only [getEnableReadSize, H.size]
    by_cases h : data.length - k = 0
    · rw [if_pos h, h, List.take_zero]
    · obtain ⟨m, hr⟩ := H.readNodes_seek (k := k) (n := data.length - k) (by omega) (by omega)
      rw [← H.baseSize] at hr
      rw [if_neg h]
      exact readAt_eq (by simp only; omega) (by rw [← H.baseSize]; exact hr)

/-! ## Exact seeks -/

/-- The bytes `ws` appended to a fresh array, one write each. -/
def append (b : Nat) (hb : 0 < b) (endian fill : UInt8) (ws : List (List UInt8)) :
    Except Error ByteArray :=
  ws.foldlM ByteArray.write { baseSize := b, baseSize_pos := hb, endian, fill }

theorem Writing.writes (H : Writing f e b data s) (ws : List (List UInt8)) :
    ∃ s', ws.foldlM ByteArray.write s = .ok s' ∧ Writing f e b (data ++ ws.flatten) s' := by
  induction ws generalizing s data with
  | nil => exact ⟨s, rfl, by rwa [List.flatten_nil, List.append_nil]⟩
  | cons w ws ih =>
    obtain ⟨s₁, h₁, H₁⟩ := H.write w
    obtain ⟨s', h', H'⟩ := ih H₁
    refine ⟨s', ?_, by rwa [List.flatten_cons, ← List.append_assoc]⟩
    rw [List.foldlM_cons, h₁]
    exact h'

theorem append_writing (b : Nat) (hb : 0 < b) (e f : UInt8) (ws : List (List UInt8)) :
    ∃ s, append b hb e f ws = .ok s ∧ Writing f e b ws.flatten s :=
  (writing_fresh b hb e f).writes ws

/-- After `setOffset(k)` every read and `toString` give the bytes of `data` from `k` on. -/
def SeekExact (s : ByteArray) (data : List UInt8) (k : Nat) : Prop :=
  ∃ t, s.setOffset k = .ok t ∧
    (∀ n, 0 < n → k + n ≤ data.length → ∃ t', t.read n = .ok ((data.drop k).take n, t')) ∧
    t.toString = .ok (data.drop k)

/-- The bytes of `data` from `k` on repeat those `b` places before. -/
def Repeats (b : Nat) (data : List UInt8) (k : Nat) : Prop :=
  (data.drop (k - b)).take (data.length - k) = data.drop k

/-- **Seeking is exact** in the first node, at the node boundaries, and where the wrong bytes are
the right ones. -/
theorem seekExact_iff (b : Nat) (hb : 0 < b) (e f : UInt8) (ws : List (List UInt8)) (k : Nat) :
    ∃ s, append b hb e f ws = .ok s ∧ s.size = ws.flatten.length ∧
      (k ≤ s.size → (SeekExact s ws.flatten k ↔ k < b ∨ b ∣ k ∨ Repeats b ws.flatten k)) := by
  obtain ⟨s, hs, H⟩ := append_writing b hb e f ws
  refine ⟨s, hs, H.size, fun hk => ?_⟩
  rw [H.size] at hk
  obtain ⟨t, ht, hread, hstr⟩ := H.seek hk
  have hlen : (ws.flatten.drop k).length = ws.flatten.length - k := List.length_drop
  by_cases hc : k < b ∨ b ∣ k
  · rw [show seekPos b k = k from if_pos hc] at hread hstr
    rw [List.take_of_length_le hlen.le] at hstr
    exact ⟨fun _ => hc.imp_right .inl, fun _ => ⟨t, ht, hread, hstr⟩⟩
  rw [show seekPos b k = k - b from if_neg hc] at hread hstr
  constructor
  · rintro ⟨t', ht', -, hstr'⟩
    obtain rfl : t = t' := Except.ok.inj (ht.symm.trans ht')
    exact .inr (.inr (Except.ok.inj (hstr.symm.trans hstr')))
  · intro h
    have hrep : Repeats b ws.flatten k := (h.resolve_left fun h => hc (.inl h)).resolve_left
      fun h => hc (.inr h)
    refine ⟨t, ht, fun n hn hle => ?_, by rw [hstr]; exact congrArg _ hrep⟩
    obtain ⟨t', hr⟩ := hread n hn hle
    refine ⟨t', hr.trans ?_⟩
    rw [← hrep, List.take_take, Nat.min_eq_left (by omega)]

theorem seekExact_boundary :
    ∃ s, append 4 (by decide) TIGERKIN_LITTLE_ENDIAN 0 [[1, 2, 3], [4, 5, 6]] = .ok s ∧
      SeekExact s [1, 2, 3, 4, 5, 6] 4 := by
  obtain ⟨s, hs, hsize, h⟩ :=
    seekExact_iff 4 (by decide) TIGERKIN_LITTLE_ENDIAN 0 [[1, 2, 3], [4, 5, 6]] 4
  exact ⟨s, hs, (h (by rw [hsize]; decide)).mpr (.inr (.inl (by decide)))⟩

/-- The seek to the last byte of six in nodes of four bytes finds the second. -/
theorem seek_wrong_node :
    ∃ s, append 4 (by decide) TIGERKIN_LITTLE_ENDIAN 0 [[1, 2, 3, 4, 5, 6]] = .ok s ∧
      ¬ SeekExact s [1, 2, 3, 4, 5, 6] 5 := by
  refine ⟨_, rfl, ?_⟩
  rintro ⟨t, ht, -, hstr⟩
  obtain rfl := Except.ok.inj ht
  revert hstr
  decide

end Tigerkin.ByteArray
