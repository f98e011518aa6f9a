import Tigerkin.ByteArray.Seek

/-! # Files

`writeToFile` appends the bytes from the offset on to an empty file; `readFromFile` writes a file to
an array in rounds of `m_baseSize` bytes. The array that a file is read into may have nodes of
another size than the one it comes from. -/

namespace Tigerkin.ByteArray

variable {s : ByteArray} {f e : UInt8} {b : Nat} {data done rest : List UInt8}

theorem fileNodes_spec {l : List (List UInt8)} {off len : Nat} (hl : ∀ n ∈ l, n.length = b)
    (hoff : off < b) (hlen : off + len ≤ l.length * b) :
    fileNodes b l off len = .ok ((l.flatten.drop off).take len) := by
  induction l generalizing off len with
  | nil =>
    obtain rfl : len = 0 := by
      simp only [List.length_nil] at hlen
      omega
    simp [fileNodes]
  | cons n l ih =>
    cases len with
    | zero => simp [fileNodes]
    | succ len =>
      have hn := hl n List.mem_cons_self
      have hnd : (n.drop off).length = b - off := by rw [List.length_drop, hn]
      have hdrop : (n :: l).flatten.drop off = n.drop off ++ l.flatten := by
        rw [List.flatten_cons, List.drop_append_of_le_length (by omega)]
      simp only [fileNodes]
      by_cases h : len + 1 > b - off
      · rw [if_pos h]
        simp only [List.length_cons, Nat.add_mul, Nat.one_mul] at hlen
        have hrest : fileNodes b l 0 (len + 1 - (b - off)) = _ :=
          ih (fun m hm => hl m (List.mem_cons_of_mem _ hm)) (by omega) (by omega)
        have htake : ((n :: l).flatten.drop off).take (len + 1) =
            (n.drop off).take (b - off) ++ (l.flatten.drop 0).take (len + 1 - (b - off)) := by
          rw [hdrop, List.take_of_length_le (Nat.le_of_eq hnd), List.drop_zero,
            ← take_append_of_length hnd]
          congr 1
          omega
        rw [hrest, htake]
        rfl
      · rw [if_neg h, hdrop, List.take_append_of_le_length (by omega)]
        rfl

/-- From the beginning the whole content goes to the file. -/
theorem Reading.writeToFile (H : Reading e b [] data s) : s.writeToFile = .ok data := by
  have hb : 0 < b := H.baseSize ▸ s.baseSize_pos
  have hsize : s.size = data.length := H.size.trans (Nat.zero_add _)
  have hcur : s.curNode = 0 := by
    rcases H.curNode with h | ⟨h, -⟩
    · simpa using h
    · simpa using h
  have hstart : s.startNode = 0 := by
    unfold ByteArray.startNode
    rw [if_neg (by rw [H.offset]; simp), hcur]
  have hfile : fileNodes b s.nodes 0 data.length = _ :=
    fileNodes_spec H.nodes hb (by have := H.fit; omega)
  have hcontent := H.content
  rw [hsize, List.nil_append] at hcontent
  unfold ByteArray.writeToFile
  rw [getEnableReadSize, hstart, hsize, H.offset, H.baseSize, List.length_nil, Nat.sub_zero,
    Nat.zero_mod, List.drop_zero, hfile, List.drop_zero, hcontent]

theorem Writing.readRounds (H : Writing f e b data s) {file : List UInt8} {n : Nat}
    (hn : file.length < n) :
    ∃ s', s.readRounds file n = .ok s' ∧ Writing f e b (data ++ file) s' := by
  induction n generalizing s data file with
  | zero => omega
  | succ n ih =>
    have hb : 0 < b := H.baseSize ▸ s.baseSize_pos
    obtain ⟨s', hw, H'⟩ := H.write (file.take s.baseSize)
    simp only [ByteArray.readRounds, hw, ok_bind]
    split
    · rename_i hlt
      exact ⟨s', rfl, by rwa [List.take_of_length_le hlt.le] at H'⟩
    · rename_i hge
      have hdrop : (file.drop s.baseSize).length < n := by
        rw [List.length_drop]
        rw [H.baseSize] at *
        omega
      obtain ⟨t, ht, Ht⟩ := ih H' hdrop
      exact ⟨t, ht, by rwa [List.append_assoc, List.take_append_drop] at Ht⟩

theorem Writing.readFromFile (H : Writing f e b data s) (file : List UInt8) :
    ∃ s', s.readFromFile file = .ok s' ∧ Writing f e b (data ++ file) s' :=
  H.readRounds (Nat.lt_succ_self _)

/-- Write the values to a fresh array, go back to its beginning, save it, and load the file into a
fresh array with nodes of another size: the values read from that array, and `toString` of both at
their beginning. -/
def saveAndLoad (b₁ b₂ : Nat) (hb₁ : 0 < b₁) (hb₂ : 0 < b₂) (endian fill : UInt8)
    (vs : List Value) : Except Error (List Value × List UInt8 × List UInt8) := do
  let s ← writeValues { baseSize := b₁, baseSize_pos := hb₁, endian, fill } vs
  let s ← s.setOffset 0
  let file ← s.writeToFile
  let t ← readFromFile { baseSize := b₂, baseSize_pos := hb₂, endian, fill } file
  let t ← t.setOffset 0
  return (← t.readValues (vs.map Value.kind), ← s.toString, ← t.toString)

/-- `setOffset(0)` after the writes. -/
theorem Writing.rewind (H : Writing f e b data s) :
    ∃ s', s.setOffset 0 = .ok s' ∧ Reading e b [] data s' ∧ s'.toString = .ok data := by
  obtain ⟨t, ht, -, hstr⟩ := H.seek (Nat.zero_le _)
  obtain ⟨s', hs', H'⟩ := H.setOffset
  obtain rfl := Except.ok.inj (hs'.symm.trans ht)
  have hb : 0 < b := H.baseSize ▸ s.baseSize_pos
  refine ⟨s', hs', H', hstr.trans ?_⟩
  rw [show seekPos b 0 = 0 from if_pos (.inl hb), List.drop_zero, Nat.sub_zero, List.take_length]

theorem noEmptyAtBoundary_scalars {vs : List Value} (hv : ∀ v ∈ vs, v.str = none) (off : Nat) :
    NoEmptyAtBoundary b off vs := by
  induction vs generalizing off with
  | nil => trivial
  | cons v vs ih =>
    refine ⟨fun h => ?_, ih (fun v hm => hv v (List.mem_cons_of_mem _ hm)) _⟩
    rw [hv v List.mem_cons_self] at h
    simp at h

/-- **Scalars survive a file**, whatever the two node sizes. -/
theorem saveAndLoad_eq (b₁ b₂ : Nat) (hb₁ : 0 < b₁) (hb₂ : 0 < b₂) (e f : UInt8) (vs : List Value)
    (hv : ∀ v ∈ vs, v.str = none) :
    saveAndLoad b₁ b₂ hb₁ hb₂ e f vs =
      .ok (vs, vs.flatMap (Value.bytes e), vs.flatMap (Value.bytes e)) := by
  have hfits : ∀ v ∈ vs, v.Fits := fun v hm str hstr => by simp [hv v hm] at hstr
  obtain ⟨s, hs, H⟩ := (writing_fresh b₁ hb₁ e f).writeValues hfits
  rw [List.nil_append] at H
  obtain ⟨s', hs', H', hstr⟩ := H.rewind
  obtain ⟨t, ht, T⟩ := (writing_fresh b₂ hb₂ e f).readFromFile (vs.flatMap (Value.bytes e))
  rw [List.nil_append] at T
  obtain ⟨t', ht', T', hstr'⟩ := T.rewind
  have hread := T'.readValues hfits (noEmptyAtBoundary_scalars hv _)
  simp only [saveAndLoad, hs, hs', H'.writeToFile, ht, ht', hread, hstr, hstr', ok_bind, pure_eq_ok]

theorem saveAndLoad_across_nodes :
    saveAndLoad 1 3 (by decide) (by decide) TIGERKIN_BIG_ENDIAN 0
        [.uint8 1, .int64 (-5), .float 0x3f800000] =
      .ok ([.uint8 1, .int64 (-5), .float 0x3f800000],
        [1, 255, 255, 255, 255, 255, 255, 255, 251, 63, 128, 0, 0],
        [1, 255, 255, 255, 255, 255, 255, 255, 251, 63, 128, 0, 0]) :=
  saveAndLoad_eq 1 3 (by decide) (by decide) TIGERKIN_BIG_ENDIAN 0
    [.uint8 1, .int64 (-5), .float 0x3f800000] (by simp [Value.str])

end Tigerkin.ByteArray
