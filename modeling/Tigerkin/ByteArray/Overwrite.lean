import Tigerkin.ByteArray.Seek

/-! # Writing at an offset

`write` takes its room and its new size from the end of the array and not from the offset: the size
grows by the bytes written also where they replace others. It begins at the cursor of `setOffset`,
so that only a write at the end, and there only from a cursor that `setOffset` gets right, does
what it should. -/

namespace Tigerkin.ByteArray

variable {s s' t : ByteArray} {f e : UInt8} {b k : Nat} {data w : List UInt8}

/-- `setOffset(k)` and a write of `w` put `w` in the place of the bytes of `data` from `k` on. -/
def Overwrites (s : ByteArray) (data : List UInt8) (k : Nat) (w : List UInt8) : Prop :=
  ∃ t t', s.setOffset k = .ok t ∧ t.write w = .ok t' ∧
    t'.nodes.flatten.take t'.size = data.take k ++ w ++ data.drop (k + w.length) ∧
    t'.size = max data.length (k + w.length) ∧ t'.offset = k + w.length

/-! ## At the end -/

/-- At the end of the data the cursor of `setOffset` is that of the last write. -/
theorem Writing.sought_end (H : Writing f e b data s) (hk : data.length < b ∨ b ∣ data.length) :
    Writing f e b data { s with curNode := data.length / b - 1, offset := data.length } := by
  refine ⟨H.endian, H.baseSize, rfl, H.size, H.nodes, H.capacity, H.content, H.fit, H.tight,
    fun hne => ?_, H.fill, H.slack⟩
  obtain rfl := H.baseSize
  have hpos := List.length_pos_iff.mpr hne
  obtain ⟨hm0, hm1⟩ := nodes_count H.fit H.tight
  simp only
  rcases hk with hk | hk
  · have h0 : data.length / s.baseSize = 0 := Nat.div_eq_of_lt hk
    by_cases hr : data.length % s.baseSize = 0
    · have := hm0 hr
      simp only at hpos
      omega
    · have := hm1 hr
      omega
  · have := hm0 (Nat.mod_eq_zero_of_dvd hk)
    simp only at hpos
    omega

theorem Writing.overwrites_end (H : Writing f e b data s)
    (hk : data.length < b ∨ b ∣ data.length) (w : List UInt8) :
    Overwrites s data data.length w := by
  obtain ⟨t, ht, H'⟩ := (H.sought_end hk).write w
  refine ⟨_, t, H.setOffset_eq le_rfl, ht, ?_, ?_, by rw [H'.offset, List.length_append]⟩
  · rw [H'.size, H'.content, List.take_length, List.drop_of_length_le (Nat.le_add_right ..),
      List.append_nil]
  · rw [H'.size, List.length_append, Nat.max_eq_right (Nat.le_add_right ..)]

theorem Writing.overwrites_nil (H : Writing f e b data s) (hk : k ≤ data.length) :
    Overwrites s data k [] := by
  refine ⟨_, _, H.setOffset_eq hk, if_pos rfl, ?_, ?_, rfl⟩
  · simp only [H.size, H.content, List.append_nil, List.length_nil, Nat.add_zero,
      List.take_append_drop]
  · simp only [H.size, List.length_nil, Nat.add_zero, Nat.max_eq_left hk]

/-! ## Elsewhere -/

/-- `addCapacityTo` of an array that has nodes adds fresh ones at its end. -/
theorem addCapacityTo_append (hne : s.nodes ≠ []) (hcap : s.capacity = s.nodes.length * s.baseSize)
    {n : Nat} (hn : s.capacity < n + s.baseSize) :
    ∃ m, s.addCapacityTo n = { s with
        nodes := s.nodes ++ List.replicate m s.newNode
        capacity := s.capacity + m * s.baseSize } ∧
      n ≤ (s.nodes.length + m) * s.baseSize := by
  obtain ⟨m, h, h1, -⟩ := addNodes_eq s n (n := n - s.capacity) (by omega) hn
  refine ⟨m, ?_, by rw [Nat.add_mul, ← hcap]; exact h1⟩
  unfold addCapacityTo
  simp only [ByteArray.addCapacityTo_eq]
  rw [if_neg (by simpa using hne), h]

/-- **What a write after `setOffset(k)` does**: it takes the place of the bytes from `seekPos b k`
on, and adds its length to the size. -/
theorem Writing.write_seek (H : Writing f e b data s) (hne : s.nodes ≠ []) (hk : k ≤ data.length)
    (hw : w ≠ []) :
    ∃ t t', ∃ l : List UInt8, s.setOffset k = .ok t ∧ t.write w = .ok t' ∧
      t'.size = data.length + w.length ∧
      t'.nodes.flatten = l.take (seekPos b k) ++ w ++ l.drop (seekPos b k + w.length) ∧
      data.length + w.length ≤ l.length ∧ ∀ x ∈ l.drop data.length, x = f := by
  obtain rfl := H.baseSize
  have hb := s.baseSize_pos
  have hpos := List.length_pos_iff.mpr hw
  have hcap := H.capacity
  have htight := H.tight
  obtain ⟨m, hadd, hfit⟩ := addCapacityTo_append
    (s := { s with curNode := k / s.baseSize - 1, offset := k }) hne hcap
    (n := s.size + w.length) (by simp only [hcap, H.size]; omega)
  simp only [H.size] at hfit
  have hlen := H.nodes_append m
  have hflat := length_flatten_nodes hlen
  have hl : (s.nodes ++ List.replicate m s.newNode).length = s.nodes.length + m := by simp
  have hle : seekPos s.baseSize k ≤ k := by
    unfold seekPos
    split <;> omega
  have hstart := startNode_seek (s := { s with
      nodes := s.nodes ++ List.replicate m s.newNode
      capacity := s.capacity + m * s.baseSize
      curNode := k / s.baseSize - 1
      offset := k }) rfl rfl (by simp only [hl]; omega)
  obtain ⟨l, hwrite, -, -, hflat'⟩ := writeNodes_drop hb hlen (Nat.mod_lt k hb) hw
    (by simp only at hstart; rw [hstart, hl]; omega)
  refine ⟨_, _, _, H.setOffset_eq hk, write_eq hw hadd (by simp only [H.size]; exact hk) hwrite,
    by simp only [H.size], hflat'.trans (by simp only at hstart; rw [hstart]),
    by rw [hflat, hl]; exact hfit, H.slack_append m⟩

/-- **Writing over data**, whatever the memory of fresh nodes holds. -/
theorem overwrites_iff (b : Nat) (hb : 0 < b) (e : UInt8) (ws : List (List UInt8)) (k : Nat)
    (hk : k ≤ ws.flatten.length) (w : List UInt8) :
    (∀ f, ∃ s, append b hb e f ws = .ok s ∧ s.size = ws.flatten.length ∧
        Overwrites s ws.flatten k w) ↔
      w = [] ∨ k = ws.flatten.length ∧ (k < b ∨ b ∣ k) := by
  constructor
  · intro h
    by_contra! hc
    obtain ⟨hw, hc⟩ := hc
    have hpos := List.length_pos_iff.mpr hw
    -- memory that differs from the last byte written
    obtain ⟨s, hs, -, t, t', ht, ht', hcontent, hsize, -⟩ := h (w.getLast hw + 1)
    obtain ⟨s', hs', H⟩ := append_writing b hb e (w.getLast hw + 1) ws
    obtain rfl := Except.ok.inj (hs.symm.trans hs')
    have hne : s.nodes ≠ [] := by
      intro h0
      have hfit := H.fit
      rw [h0, List.length_nil, Nat.zero_mul] at hfit
      have := hc (by omega)
      omega
    obtain ⟨t₁, t₁', l, h₁, h₁', hsize', hflat, hl, hslack⟩ := H.write_seek hne hk hw
    obtain rfl := Except.ok.inj (ht.symm.trans h₁)
    obtain rfl := Except.ok.inj (ht'.symm.trans h₁')
    have hend : k = ws.flatten.length := by omega
    obtain ⟨hlt, hdvd⟩ := hc hend
    rw [show seekPos b k = k - b from if_neg (by simp [hlt, hdvd])] at hflat
    have hlast := congrArg (fun l => l[k + w.length - 1]?) hcontent
    simp only [hsize', hflat, hend, List.take_length, List.getElem?_take] at hlast
    rw [if_pos (by omega)] at hlast
    have hpre : (l.take (ws.flatten.length - b) ++ w).length =
        ws.flatten.length - b + w.length := by
      rw [List.length_append, List.length_take, Nat.min_eq_left (by omega)]
    rw [List.getElem?_append_right (by omega), hpre, List.getElem?_drop,
      List.drop_of_length_le (Nat.le_add_right ..), List.append_nil,
      List.getElem?_append_right (by omega)] at hlast
    have hfill := hslack l[ws.flatten.length + w.length - 1] (by
      rw [List.mem_drop_iff_getElem]
      exact ⟨w.length - 1, by omega, by congr 1; omega⟩)
    have hidx : ws.flatten.length - b + w.length +
        (ws.flatten.length + w.length - 1 - (ws.flatten.length - b + w.length)) =
        ws.flatten.length + w.length - 1 := by omega
    have hidx' : ws.flatten.length + w.length - 1 - ws.flatten.length = w.length - 1 := by omega
    rw [hidx, hidx', List.getElem?_eq_getElem (by omega), hfill, ← List.getLast?_eq_getElem?,
      List.getLast?_eq_some_getLast hw] at hlast
    exact absurd (Option.some.inj hlast) (by simp)
  · rintro (rfl | ⟨rfl, hb'⟩) f
    · obtain ⟨s, hs, H⟩ := append_writing b hb e f ws
      exact ⟨s, hs, H.size, H.overwrites_nil hk⟩
    · obtain ⟨s, hs, H⟩ := append_writing b hb e f ws
      exact ⟨s, hs, H.size, H.overwrites_end hb' w⟩

theorem overwrites_boundary :
    ∃ s, append 4 (by decide) TIGERKIN_LITTLE_ENDIAN 0 [[1, 2, 3], [4]] = .ok s ∧ s.size = 4 ∧
      Overwrites s [1, 2, 3, 4] 4 [5, 6] :=
  (overwrites_iff 4 (by decide) TIGERKIN_LITTLE_ENDIAN [[1, 2, 3], [4]] 4 (by decide) [5, 6]).mpr
    (.inr ⟨rfl, .inr (by decide)⟩) 0

/-- Replacing one byte of three makes four. -/
theorem overwrite_grows :
    ∃ s, append 4 (by decide) TIGERKIN_LITTLE_ENDIAN 0 [[1, 2, 3]] = .ok s ∧
      ¬ Overwrites s [1, 2, 3] 1 [9] := by
  refine ⟨_, rfl, ?_⟩
  rintro ⟨t, t', ht, ht', -, hsize, -⟩
  obtain rfl := Except.ok.inj ht
  obtain rfl := Except.ok.inj ht'
  exact absurd hsize (by decide)

end Tigerkin.ByteArray
