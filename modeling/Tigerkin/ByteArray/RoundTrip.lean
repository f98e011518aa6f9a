import Tigerkin.ByteArray.Basic

/-! # Typed round trips

A byte array is a stream of bytes cut into nodes of `b` bytes. While it is only written its current
node is the last one (`Writing`); when it is read from the beginning the current node is the one
that holds the last byte read (`Reading`). A read of no bytes at a node boundary moves to the next
node as well, and the read after it then moves once more: strings may be empty as long as no such
boundary has a whole node after it (`NoEmptyAtBoundary`). -/

namespace Tigerkin.ByteArray

variable {s s' : ByteArray} {f e : UInt8} {b : Nat} {data done rest : List UInt8}

/-! ## The loops over the nodes -/

theorem writeNodes_spec {l : List (List UInt8)} {off : Nat} {buf : List UInt8} (hb : 0 < b)
    (hl : ∀ n ∈ l, n.length = b) (hoff : off < b) (hbuf : buf ≠ [])
    (hlen : off + buf.length ≤ l.length * b) :
    ∃ l', writeNodes l off buf = .ok (l', (off + buf.length - 1) / b) ∧
      (∀ n ∈ l', n.length = b) ∧ l'.length = l.length ∧
      l'.flatten = l.flatten.take off ++ buf ++ l.flatten.drop (off + buf.length) := by
  induction l generalizing off buf with
  | nil =>
    have := List.length_pos_iff.mpr hbuf
    simp only [List.length_nil] at hlen
    omega
  | cons n l ih =>
    have hn := hl n List.mem_cons_self
    have hl' : ∀ m ∈ l, m.length = b := fun m hm => hl m (List.mem_cons_of_mem _ hm)
    have htake : (n :: l).flatten.take off = n.take off := by
      rw [List.flatten_cons, List.take_append_of_le_length (by omega)]
    simp only [writeNodes, hn]
    by_cases h : buf.length > b - off
    · rw [if_pos h]
      have hdrop : buf.drop (b - off) ≠ [] := by simpa using h
      have hdl : (buf.drop (b - off)).length = buf.length - (b - off) := List.length_drop
      simp only [List.length_cons, Nat.add_mul, Nat.one_mul] at hlen
      obtain ⟨l', hw, hn', hlen', ht⟩ := ih hl' hb hdrop (by omega)
      rw [Nat.zero_add] at hw ht
      rw [List.take_zero, List.nil_append] at ht
      refine ⟨(n.take off ++ buf.take (b - off)) :: l', ?_, ?_, by simp [hlen'], ?_⟩
      · have hk : (off + buf.length - 1) / b = ((buf.drop (b - off)).length - 1) / b + 1 := by
          rw [← Nat.add_div_right _ hb]
          congr 1
          omega
        simp only [hw, hk]
        rfl
      · intro m hm
        rcases List.mem_cons.mp hm with rfl | hm
        · simp only [List.length_append, List.length_take, hn]
          omega
        · exact hn' m hm
      · have hfst : (n.take off ++ buf.take (b - off)).length = b := by
          simp only [List.length_append, List.length_take, hn]
          omega
        have hsplit : off + buf.length = n.length + (buf.drop (b - off)).length := by omega
        rw [htake, List.flatten_cons, List.flatten_cons, hsplit, List.drop_length_add_append, ht,
          ← List.append_assoc, List.append_assoc (n.take off), List.take_append_drop]
    · rw [if_neg h]
      have hk : (off + buf.length - 1) / b = 0 := Nat.div_eq_of_lt (by omega)
      refine ⟨(n.take off ++ buf ++ n.drop (off + buf.length)) :: l, by simp only [hk]; rfl, ?_,
        rfl, ?_⟩
      · intro m hm
        rcases List.mem_cons.mp hm with rfl | hm
        · simp only [List.length_append, List.length_take, List.length_drop, hn]
          omega
        · exact hl' m hm
      · rw [htake, List.flatten_cons, List.flatten_cons,
          List.drop_append_of_le_length (by omega), List.append_assoc (n.take off ++ buf)]

/-- A write from node `q` on replaces bytes of the concatenated nodes. -/
theorem writeNodes_drop {l : List (List UInt8)} {q r : Nat} {buf : List UInt8} (hb : 0 < b)
    (hl : ∀ n ∈ l, n.length = b) (hr : r < b) (hbuf : buf ≠ [])
    (hfit : q * b + r + buf.length ≤ l.length * b) :
    ∃ l', writeNodes (l.drop q) r buf = .ok (l', (r + buf.length - 1) / b) ∧
      (∀ n ∈ l.take q ++ l', n.length = b) ∧ (l.take q ++ l').length = l.length ∧
      (l.take q ++ l').flatten =
        l.flatten.take (q * b + r) ++ buf ++ l.flatten.drop (q * b + r + buf.length) := by
  have hpos := List.length_pos_iff.mpr hbuf
  have hdl : (l.drop q).length * b = l.length * b - q * b := by rw [List.length_drop, Nat.sub_mul]
  obtain ⟨l', hw, hlb, hlen, hflat⟩ := writeNodes_spec hb
    (fun n hn => hl n (List.mem_of_mem_drop hn)) hr hbuf (l := l.drop q) (by rw [hdl]; omega)
  have hq : q ≤ l.length := Nat.le_of_mul_le_mul_right (show q * b ≤ _ by omega) hb
  refine ⟨l', hw, fun n hn => ?_, ?_, ?_⟩
  · rcases List.mem_append.mp hn with hn | hn
    · exact hl n (List.mem_of_mem_take hn)
    · exact hlb n hn
  · rw [List.length_append, List.length_take, hlen, List.length_drop]
    omega
  · have hsplit : l.flatten.take (q * b) ++ (l.flatten.drop (q * b)).take r =
        l.flatten.take (q * b + r) := List.take_add.symm
    rw [List.flatten_append, hflat, flatten_drop_nodes hl, flatten_take_nodes hl, List.drop_drop,
      ← hsplit, Nat.add_assoc]
    simp only [List.append_assoc]

theorem readNodes_spec {l : List (List UInt8)} {off size : Nat} (hb : 0 < b)
    (hl : ∀ n ∈ l, n.length = b) (hoff : off < b) (hne : l ≠ [])
    (hlen : off + size ≤ l.length * b) :
    readNodes l off size = .ok ((l.flatten.drop off).take size, (off + size - 1) / b) := by
  induction l generalizing off size with
  | nil => exact absurd rfl hne
  | cons n l ih =>
    have hn := hl n List.mem_cons_self
    have hl' : ∀ m ∈ l, m.length = b := fun m hm => hl m (List.mem_cons_of_mem _ hm)
    have hnd : (n.drop off).length = b - off := by rw [List.length_drop, hn]
    have hdrop : (n :: l).flatten.drop off = n.drop off ++ l.flatten := by
      rw [List.flatten_cons, List.drop_append_of_le_length (by omega)]
    simp only [readNodes, hn]
    by_cases h : size > b - off
    · rw [if_pos h]
      simp only [List.length_cons, Nat.add_mul, Nat.one_mul] at hlen
      have hne' : l ≠ [] := by
        rintro rfl
        simp only [List.length_nil] at hlen
        omega
      have hr : readNodes l 0 (size - (b - off)) = _ := ih hl' hb hne' (by omega)
      have hk : (off + size - 1) / b = (0 + (size - (b - off)) - 1) / b + 1 := by
        rw [← Nat.add_div_right _ hb]
        congr 1
        omega
      have htake : ((n :: l).flatten.drop off).take size =
          (n.drop off).take (b - off) ++ (l.flatten.drop 0).take (size - (b - off)) := by
        rw [hdrop, List.take_of_length_le (Nat.le_of_eq hnd), List.drop_zero,
          ← take_append_of_length hnd]
        congr 1
        omega
      rw [hr, hk, htake]
      rfl
    · rw [if_neg h, hdrop, List.take_append_of_le_length (by omega),
        Nat.div_eq_of_lt (by omega)]
      rfl

/-- The number `m` of nodes that `len` bytes fill, the last one perhaps in part. -/
theorem nodes_count {m len : Nat} (hfit : len ≤ m * b) (htight : m * b < len + b) :
    (len % b = 0 → m = len / b) ∧ (len % b ≠ 0 → m = len / b + 1) := by
  have hb : 0 < b := by omega
  have hdiv := Nat.div_add_mod' len b
  have hmod := Nat.mod_lt len hb
  generalize len / b = q at *
  have h1 : q ≤ m := Nat.le_of_mul_le_mul_right (show q * b ≤ m * b by omega) hb
  have h2 : m < q + 2 := by
    refine Nat.lt_of_mul_lt_mul_right (show m * b < (q + 2) * b from ?_)
    rw [Nat.add_mul]
    omega
  have h3 : m = q ∨ m = q + 1 := by omega
  rcases h3 with rfl | rfl
  · exact ⟨fun _ => rfl, fun h => by omega⟩
  · rw [Nat.add_mul] at hfit htight
    exact ⟨fun h => by omega, fun _ => rfl⟩

theorem div_add_div (len : Nat) {n : Nat} (hb : 0 < b) (hn : 0 < n) :
    len / b + (len % b + n - 1) / b = (len + n - 1) / b := by
  have hdiv := Nat.div_add_mod' len b
  have h : len + n - 1 = len / b * b + (len % b + n - 1) := by omega
  rw [h, Nat.mul_comm, Nat.mul_add_div hb]

/-! ## Writing -/

/-- What a fresh array is after `data` has been written to it. -/
structure Writing (f e : UInt8) (b : Nat) (data : List UInt8) (s : ByteArray) : Prop where
  endian : s.endian = e
  baseSize : s.baseSize = b
  offset : s.offset = data.length
  size : s.size = data.length
  nodes : ∀ n ∈ s.nodes, n.length = b
  capacity : s.capacity = s.nodes.length * b
  content : s.nodes.flatten.take data.length = data
  fit : data.length ≤ s.nodes.length * b
  tight : s.nodes.length * b < data.length + b
  curNode : s.nodes ≠ [] → s.curNode + 1 = s.nodes.length
  fill : s.fill = f
  slack : ∀ x ∈ s.nodes.flatten.drop data.length, x = f

theorem addNodes_eq (s : ByteArray) (capacity : Nat) {n : Nat} (hn : capacity ≤ s.capacity + n)
    (hlt : s.capacity < capacity + s.baseSize) :
    ∃ k, s.addNodes capacity n = { s with
        nodes := s.nodes ++ List.replicate k s.newNode
        capacity := s.capacity + k * s.baseSize } ∧
      capacity ≤ s.capacity + k * s.baseSize ∧
      s.capacity + k * s.baseSize < capacity + s.baseSize := by
  induction n generalizing s with
  | zero => exact ⟨0, by simp [addNodes], by omega, by omega⟩
  | succ n ih =>
    simp only [addNodes]
    split
    · have hb := s.baseSize_pos
      obtain ⟨k, h, h1, h2⟩ := ih { s with
        nodes := s.nodes ++ [s.newNode]
        capacity := s.capacity + s.baseSize } (by simp only; omega) (by simp only; omega)
      refine ⟨k + 1, ?_, ?_, ?_⟩
      · rw [h]
        simp only [newNode, List.append_assoc, List.singleton_append, List.replicate_succ,
          ByteArray.mk.injEq, true_and, and_true]
        ring
      · simp only at h1
        rw [Nat.add_mul]
        omega
      · simp only at h2
        rw [Nat.add_mul]
        omega
    · exact ⟨0, by simp, by omega, by omega⟩

theorem addCapacityTo_eq (s : ByteArray) (capacity : Nat) :
    (if capacity ≤ s.capacity then s else s.addNodes capacity (capacity - s.capacity)) =
      s.addNodes capacity (capacity - s.capacity) := by
  split
  · rw [Nat.sub_eq_zero_of_le ‹_›]
    rfl
  · rfl

/-- An array after `data` has been written to it, with room for `n` more bytes. -/
structure Ready (f e : UInt8) (b : Nat) (data : List UInt8) (n : Nat) (s : ByteArray) : Prop where
  endian : s.endian = e
  baseSize : s.baseSize = b
  offset : s.offset = data.length
  size : s.size = data.length
  nodes : ∀ n ∈ s.nodes, n.length = b
  capacity : s.capacity = s.nodes.length * b
  content : s.nodes.flatten.take data.length = data
  fit : data.length + n ≤ s.nodes.length * b
  tight : s.nodes.length * b < data.length + n + b
  startNode : s.startNode = data.length / b
  fill : s.fill = f
  slack : ∀ x ∈ s.nodes.flatten.drop data.length, x = f

theorem Writing.addCapacityTo_eq (H : Writing f e b data s) {n : Nat} (hn : 0 < n) :
    ∃ k, s.addCapacityTo (s.size + n) = { s with
        nodes := s.nodes ++ List.replicate k s.newNode
        capacity := (s.nodes.length + k) * b
        curNode := s.nodes.length - 1 } ∧
      data.length + n ≤ (s.nodes.length + k) * b ∧
      (s.nodes.length + k) * b < data.length + n + b := by
  have hb : 0 < b := H.baseSize ▸ s.baseSize_pos
  unfold ByteArray.addCapacityTo
  simp only [ByteArray.addCapacityTo_eq]
  cases hnodes : s.nodes with
  | nil =>
    have hdata : data.length = 0 := by simpa [hnodes] using H.fit
    obtain ⟨k, h, h1, h2⟩ := addNodes_eq { s with
      nodes := [s.newNode], curNode := 0, size := 0, offset := 0, capacity := s.baseSize }
      (s.size + n) (n := s.size + n - s.baseSize) (by simp only; omega)
      (by simp only; omega)
    simp only [H.baseSize, H.size, hdata] at h1 h2
    have hk : (0 + (k + 1)) * b = b + k * b := by ring
    refine ⟨k + 1, ?_, by simp only [List.length_nil, hk]; omega,
      by simp only [List.length_nil, hk]; omega⟩
    simp only [List.isEmpty_nil, if_true, h, List.length_nil, hk]
    simp [H.baseSize, H.size, H.offset, hdata, newNode, List.replicate_succ]
  | cons node l =>
    have hcap := H.capacity
    have htight := H.tight
    obtain ⟨k, h, h1, h2⟩ := addNodes_eq s (s.size + n) (n := s.size + n - s.capacity)
      (by omega) (by rw [hcap, H.size, H.baseSize]; omega)
    rw [hcap, H.size, H.baseSize] at h1
    rw [hcap, H.size, H.baseSize] at h2
    have hcur := H.curNode (by simp [hnodes])
    refine ⟨k, ?_, by rw [← hnodes, Nat.add_mul]; exact h1, by rw [← hnodes, Nat.add_mul]; exact h2⟩
    simp only [List.isEmpty_cons, Bool.false_eq_true, if_false, h]
    have hk : k * s.baseSize = k * b := by rw [H.baseSize]
    rw [← hnodes, Nat.add_mul, ← hcap, hk, ← hcur, Nat.add_sub_cancel]

/-- A write begins where the last one ended. -/
theorem Writing.startNode (H : Writing f e b data s) {l : List (List UInt8)} {c : Nat}
    (hl : data.length < l.length * b) :
    ByteArray.startNode { s with nodes := l, capacity := c, curNode := s.nodes.length - 1 } =
      data.length / b := by
  obtain rfl := H.baseSize
  obtain ⟨hm0, hm1⟩ := nodes_count H.fit H.tight
  have hq : data.length / s.baseSize < l.length := Nat.div_lt_of_lt_mul (by rwa [Nat.mul_comm])
  simp only [ByteArray.startNode, H.offset]
  by_cases hr : data.length % s.baseSize = 0
  · have hm := hm0 hr
    rcases Nat.eq_zero_or_pos data.length with h0 | hpos
    · rw [if_neg (by omega)]
      simp only [h0, Nat.zero_div] at hm ⊢
      omega
    · have : s.nodes.length ≠ 0 := by
        intro h0
        have := H.fit
        simp only [h0, Nat.zero_mul] at this
        omega
      rw [if_pos ⟨hr, hpos, by omega⟩]
      omega
  · have hm := hm1 hr
    rw [if_neg fun h => hr h.1, hm, Nat.add_sub_cancel]

theorem Writing.nodes_append (H : Writing f e b data s) (k : Nat) :
    ∀ n ∈ s.nodes ++ List.replicate k s.newNode, n.length = b := by
  intro n hn
  rcases List.mem_append.mp hn with hn | hn
  · exact H.nodes n hn
  · rw [(List.mem_replicate.mp hn).2, newNode, List.length_replicate, H.baseSize]

theorem Writing.slack_append (H : Writing f e b data s) (k : Nat) :
    ∀ x ∈ (s.nodes ++ List.replicate k s.newNode).flatten.drop data.length, x = f := by
  intro x hx
  rw [List.flatten_append, List.drop_append_of_le_length
    (by rw [length_flatten_nodes H.nodes]; exact H.fit)] at hx
  rcases List.mem_append.mp hx with hx | hx
  · exact H.slack x hx
  · obtain ⟨node, hnode, hx⟩ := List.mem_flatten.mp hx
    rw [(List.mem_replicate.mp hnode).2, newNode, H.fill] at hx
    exact (List.mem_replicate.mp hx).2

theorem Writing.addCapacityTo (H : Writing f e b data s) {n : Nat} (hn : 0 < n) :
    Ready f e b data n (s.addCapacityTo (s.size + n)) := by
  obtain ⟨k, h, hfit, htight⟩ := H.addCapacityTo_eq hn
  rw [h]
  have hlen : (s.nodes ++ List.replicate k s.newNode).length = s.nodes.length + k := by simp
  refine ⟨H.endian, H.baseSize, H.offset, H.size, H.nodes_append k, by simp only [hlen], ?_,
    by simpa only [hlen] using hfit, by simpa only [hlen] using htight,
    H.startNode (by rw [hlen]; omega), H.fill, H.slack_append k⟩
  rw [List.flatten_append, List.take_append_of_le_length, H.content]
  rw [length_flatten_nodes H.nodes]
  exact H.fit

theorem write_eq {buf : List UInt8} {l : List (List UInt8)} {k : Nat} (hbuf : buf ≠ [])
    (hs : s.addCapacityTo (s.size + buf.length) = s') (ho : s'.offset ≤ s'.size)
    (h : writeNodes (s'.nodes.drop s'.startNode) (s'.offset % s'.baseSize) buf = .ok (l, k)) :
    s.write buf = .ok { s' with
      nodes := s'.nodes.take s'.startNode ++ l
      curNode := s'.startNode + k
      size := s'.size + buf.length
      offset := s'.offset + buf.length } := by
  unfold ByteArray.write
  have ho' : ¬ s'.offset + buf.length > s'.size + buf.length := by omega
  rw [if_neg (by simpa using hbuf), hs]
  simp only [h, if_neg ho']
  rfl

theorem Writing.write (H : Writing f e b data s) (buf : List UInt8) :
    ∃ s', s.write buf = .ok s' ∧ Writing f e b (data ++ buf) s' := by
  by_cases hbuf : buf = []
  · subst hbuf
    exact ⟨s, by simp [ByteArray.write], by rwa [List.append_nil]⟩
  have hpos := List.length_pos_iff.mpr hbuf
  have hb : 0 < b := H.baseSize ▸ s.baseSize_pos
  have R := H.addCapacityTo hpos
  generalize hs : s.addCapacityTo (s.size + buf.length) = t at R
  have hdiv := Nat.div_add_mod' data.length b
  have hmod := Nat.mod_lt data.length hb
  have hkn := div_add_div data.length hb hpos
  have hstart := R.startNode
  have hoff : t.offset % t.baseSize = data.length % b := by rw [R.offset, R.baseSize]
  generalize data.length / b = q at *
  generalize data.length % b = r at *
  have hfit := R.fit
  have htight := R.tight
  obtain ⟨l, hw, hlb, hlen, hflat⟩ := writeNodes_drop hb R.nodes hmod hbuf (q := q) (by omega)
  rw [hdiv] at hflat
  rw [← hstart, ← hoff] at hw
  refine ⟨_, write_eq hbuf hs (R.offset.trans R.size.symm).le hw, ?_⟩
  rw [hstart]
  refine ⟨R.endian, R.baseSize, by simp [R.offset], by simp [R.size], hlb,
    by simp only [hlen, R.capacity], ?_, by simpa only [hlen, List.length_append] using hfit,
    by simpa only [hlen, List.length_append] using htight, fun _ => ?_, R.fill, fun x hx => ?_⟩
  · rw [hflat, R.content, List.take_left]
  · obtain ⟨m, hm⟩ := Nat.exists_eq_add_one_of_ne_zero (n := t.nodes.length) (by
      intro h0
      rw [h0] at hfit
      omega)
    have hlast : (data.length + buf.length - 1) / b = m := by
      rw [hm, Nat.add_mul] at hfit htight
      refine Nat.div_eq_of_lt_le (by omega) ?_
      rw [Nat.add_mul]
      omega
    simp only [hlen]
    rw [hoff, hkn, hlast, hm]
  · rw [hflat, R.content, List.drop_left, ← List.drop_drop] at hx
    exact R.slack x (List.mem_of_mem_drop hx)

/-! ## Reading -/

/-- An array that holds `done ++ rest`, after `done` has been read from its beginning. The current
node is the one with the last byte read; at the last node boundary it may also be the node after
it. -/
structure Reading (e : UInt8) (b : Nat) (done rest : List UInt8) (s : ByteArray) : Prop where
  endian : s.endian = e
  baseSize : s.baseSize = b
  offset : s.offset = done.length
  size : s.size = done.length + rest.length
  nodes : ∀ n ∈ s.nodes, n.length = b
  content : s.nodes.flatten.take s.size = done ++ rest
  fit : s.size ≤ s.nodes.length * b
  tight : s.nodes.length * b < s.size + b
  curNode : s.curNode = (done.length - 1) / b ∨
    s.curNode = done.length / b ∧ s.curNode + 1 = s.nodes.length

theorem Writing.setOffset (H : Writing f e b data s) :
    ∃ s', s.setOffset 0 = .ok s' ∧ Reading e b [] data s' := by
  refine ⟨{ s with curNode := 0, offset := 0 }, by simp [ByteArray.setOffset], H.endian, H.baseSize,
    rfl, by simp [H.size], H.nodes, ?_, ?_, ?_, .inl (by simp)⟩
  · simpa only [H.size, List.nil_append] using H.content
  · simpa only [H.size] using H.fit
  · simpa only [H.size] using H.tight

/-- A read begins in the node of its first byte, if there is one. -/
theorem Reading.startNode (H : Reading e b done rest s) (hrest : rest ≠ []) :
    s.startNode = done.length / b := by
  obtain rfl := H.baseSize
  have hb := s.baseSize_pos
  have hpos := List.length_pos_iff.mpr hrest
  have hsize := H.size
  have hfit := H.fit
  have hq : done.length / s.baseSize < s.nodes.length :=
    Nat.div_lt_of_lt_mul (by rw [Nat.mul_comm]; omega)
  simp only [ByteArray.startNode, H.offset]
  rcases H.curNode with hc | ⟨hc, hlast⟩
  · rcases Nat.eq_zero_or_pos done.length with h0 | hdone
    · rw [if_neg (by omega), hc, h0]
    · obtain ⟨len, hlen⟩ := Nat.exists_eq_add_one_of_ne_zero (Nat.ne_of_gt hdone)
      rw [hlen] at hq hc ⊢
      rw [Nat.add_sub_cancel] at hc
      by_cases hr : (len + 1) % s.baseSize = 0
      · have hc' := Nat.succ_div_of_dvd (Nat.dvd_of_mod_eq_zero hr)
        rw [if_pos ⟨hr, by omega, by omega⟩, hc', hc]
      · have hc' := Nat.succ_div_of_not_dvd fun h => hr (Nat.mod_eq_zero_of_dvd h)
        rw [if_neg fun h => hr h.1, hc', hc]
  · rw [if_neg (by omega), hc]

theorem read_eq {buf : List UInt8} {n k : Nat} (hn : n ≤ s.size - s.offset)
    (h : readNodes (s.nodes.drop s.startNode) (s.offset % s.baseSize) n = .ok (buf, k)) :
    s.read n = .ok (buf, { s with curNode := s.startNode + k, offset := s.offset + n }) := by
  unfold ByteArray.read
  rw [if_neg (by simpa [getEnableReadSize] using hn)]
  simp only [h]
  rfl

theorem Reading.read {buf : List UInt8} (H : Reading e b done (buf ++ rest) s) (hbuf : buf ≠ []) :
    ∃ s', s.read buf.length = .ok (buf, s') ∧ Reading e b (done ++ buf) rest s' := by
  have hpos := List.length_pos_iff.mpr hbuf
  have hstart := H.startNode (by simp [hbuf])
  obtain rfl := H.baseSize
  have hb := s.baseSize_pos
  have hsize := H.size
  rw [List.length_append] at hsize
  have hfit := H.fit
  have hdiv := Nat.div_add_mod' done.length s.baseSize
  have hmod := Nat.mod_lt done.length hb
  have hkn := div_add_div done.length hb hpos
  have hoff : s.offset % s.baseSize = done.length % s.baseSize := by rw [H.offset]
  have hdl : (s.nodes.drop (done.length / s.baseSize)).length * s.baseSize =
      s.nodes.length * s.baseSize - done.length / s.baseSize * s.baseSize := by
    rw [List.length_drop, Nat.sub_mul]
  have hne : s.nodes.drop (done.length / s.baseSize) ≠ [] := by
    intro h0
    rw [h0, List.length_nil] at hdl
    omega
  have hr : readNodes _ _ buf.length = _ :=
    readNodes_spec hb (fun n hn => H.nodes n (List.mem_of_mem_drop hn)) hmod hne (by rw [hdl]; omega)
  have hbytes : ((s.nodes.drop (done.length / s.baseSize)).flatten.drop
      (done.length % s.baseSize)).take buf.length = buf := by
    have hdrop := congrArg (fun l => (l.drop done.length).take buf.length) H.content
    simp only [List.drop_take, List.take_take, List.drop_left, List.take_left] at hdrop
    rwa [flatten_drop_nodes H.nodes, List.drop_drop, hdiv, ← Nat.min_eq_left (a := buf.length)
      (b := s.size - done.length) (by omega)]
  rw [hbytes, ← hoff, ← hstart] at hr
  refine ⟨_, read_eq (by rw [H.offset]; omega) hr, H.endian, rfl, by simp [H.offset],
    by simp [hsize, Nat.add_assoc], H.nodes, by rw [H.content, List.append_assoc], H.fit, H.tight,
    .inl ?_⟩
  simp only
  rw [hstart, hoff, hkn, List.length_append]

/-- A read of no bytes keeps the current node, or moves to the last node. -/
theorem Reading.startNode_zero (H : Reading e b done rest s)
    (h : done.length % b = 0 → rest.length ≤ b) (hdone : done ≠ []) :
    s.startNode < s.nodes.length ∧ (s.startNode = (done.length - 1) / b ∨
      s.startNode = done.length / b ∧ s.startNode + 1 = s.nodes.length) := by
  obtain rfl := H.baseSize
  have hb := s.baseSize_pos
  have hpos := List.length_pos_iff.mpr hdone
  have hsize := H.size
  have hfit := H.fit
  have htight := H.tight
  obtain ⟨len, hlen⟩ := Nat.exists_eq_add_one_of_ne_zero (Nat.ne_of_gt hpos)
  rcases H.curNode with hc | ⟨hc, hlast⟩
  · have hlt : s.curNode < s.nodes.length := by
      rw [hc]
      exact Nat.div_lt_of_lt_mul (by rw [Nat.mul_comm]; omega)
    unfold ByteArray.startNode
    split
    · rename_i hcond
      rw [H.offset] at hcond
      have hdiv := Nat.div_add_mod' done.length s.baseSize
      have hq : s.curNode + 1 = done.length / s.baseSize := by
        rw [hc, hlen, Nat.add_sub_cancel]
        exact (Nat.succ_div_of_dvd (Nat.dvd_of_mod_eq_zero (hlen ▸ hcond.1))).symm
      have hrest := h hcond.1
      have hm : s.nodes.length < done.length / s.baseSize + 2 := by
        refine Nat.lt_of_mul_lt_mul_right (a := s.baseSize) ?_
        rw [Nat.add_mul]
        omega
      exact ⟨hcond.2.2, .inr ⟨hq, by omega⟩⟩
    · exact ⟨hlt, .inl hc⟩
  · unfold ByteArray.startNode
    rw [if_neg (by omega)]
    exact ⟨by omega, .inr ⟨hc, hlast⟩⟩

theorem Reading.read_zero (H : Reading e b done rest s)
    (h : done.length % b = 0 → rest.length ≤ b) (hdone : done ≠ []) :
    ∃ s', s.read 0 = .ok ([], s') ∧ Reading e b done rest s' := by
  obtain ⟨hlt, hstart⟩ := H.startNode_zero h hdone
  have hr : readNodes (s.nodes.drop s.startNode) (s.offset % s.baseSize) 0 = .ok ([], 0) := by
    rw [List.drop_eq_getElem_cons hlt]
    rfl
  exact ⟨_, read_eq (Nat.zero_le _) hr, H.endian, H.baseSize, H.offset, H.size, H.nodes, H.content,
    H.fit, H.tight, hstart⟩

/-- Reads of what was written: of some bytes, or of none. -/
theorem Reading.read_append {buf : List UInt8} (H : Reading e b done (buf ++ rest) s)
    (h : buf = [] → done.length % b = 0 → rest.length ≤ b) (hdone : done ≠ []) :
    ∃ s', s.read buf.length = .ok (buf, s') ∧ Reading e b (done ++ buf) rest s' := by
  by_cases hbuf : buf = []
  · subst hbuf
    obtain ⟨s', hr, H'⟩ := H.read_zero (h rfl) hdone
    exact ⟨s', hr, by rwa [List.append_nil]⟩
  · exact H.read hbuf

/-! ## Values -/

/-- The bytes of an `n`-byte integer in an array of byte order `e`. -/
def image (e : UInt8) (n v : Nat) : List UInt8 :=
  toBytes n (if e ≠ TIGERKIN_BYTE_ORDER then byteswap n v else v)

@[simp] theorem image_length (e : UInt8) (n v : Nat) : (image e n v).length = n :=
  toBytes_length ..

theorem ofBytes_image {n v : Nat} (hv : v < 256 ^ n) :
    (if e ≠ TIGERKIN_BYTE_ORDER then byteswap n (ofBytes (image e n v)) else
      ofBytes (image e n v)) = v := by
  unfold image
  split
  · rw [ofBytes_toBytes, Nat.mod_eq_of_lt (byteswap_lt n v), byteswap_byteswap hv]
  · rw [ofBytes_toBytes, Nat.mod_eq_of_lt hv]

/-- The string of a value that is one. -/
def Value.str : Value → Option (List UInt8)
  | .string16 str | .string32 str | .string64 str | .stringVint str => some str
  | _ => none

/-- The bytes of a value before its string. -/
def Value.width : Value → Nat
  | .uint8 _ | .int8 _ => 1
  | .uint16 _ | .int16 _ | .string16 _ => 2
  | .uint32 _ | .int32 _ | .float _ | .string32 _ => 4
  | .uint64 _ | .int64 _ | .double _ | .string64 _ | .stringVint _ => 8

/-- The size of a string is a `size_t`, and fits the prefix of its type. -/
def Value.Fits (v : Value) : Prop := ∀ str ∈ v.str, str.length < 256 ^ v.width

def Value.bytes (e : UInt8) : Value → List UInt8
  | .uint8 v => toBytes 1 v.toNat
  | .uint16 v => image e 2 v.toNat
  | .uint32 v => image e 4 v.toNat
  | .uint64 v => image e 8 v.toNat
  | .int8 v => toBytes 1 v.toUInt8.toNat
  | .int16 v => image e 2 v.toUInt16.toNat
  | .int32 v => image e 4 v.toUInt32.toNat
  | .int64 v => image e 8 v.toUInt64.toNat
  | .float v => image e 4 v.toNat
  | .double v => image e 8 v.toNat
  | .string16 str => image e 2 str.length ++ str
  | .string32 str => image e 4 str.length ++ str
  | .string64 str => image e 8 str.length ++ str
  | .stringVint str => image e 8 str.length ++ str

def Value.size (v : Value) : Nat := v.width + (v.str.getD []).length

theorem Value.bytes_length (e : UInt8) (v : Value) : (v.bytes e).length = v.size := by
  cases v <;> simp [bytes, size, width, str]

def totalSize (vs : List Value) : Nat := (vs.map Value.size).sum

/-- No empty string whose prefix ends at a node boundary is followed by more than a whole node;
the first value begins at `off`. -/
def NoEmptyAtBoundary (b : Nat) : Nat → List Value → Prop
  | _, [] => True
  | off, v :: vs => (v.str = some [] → (off + v.size) % b = 0 → totalSize vs ≤ b) ∧
      NoEmptyAtBoundary b (off + v.size) vs

theorem Writing.writeSwapped (H : Writing f e b data s) (n v : Nat) :
    ∃ s', s.writeSwapped n v = .ok s' ∧ Writing f e b (data ++ image e n v) s' := by
  obtain rfl := H.endian
  exact H.write (image s.endian n v)

theorem Writing.string (H : Writing f e b data s) {n v : Nat} {str : List UInt8}
    (hv : v = str.length) : ∃ s', (do (← s.writeSwapped n v).write str) = .ok s' ∧
      Writing f e b (data ++ (image e n str.length ++ str)) s' := by
  subst hv
  obtain ⟨s₁, h₁, H₁⟩ := H.writeSwapped n str.length
  obtain ⟨s', h, H'⟩ := H₁.write str
  exact ⟨s', by rw [h₁]; exact h, by rwa [← List.append_assoc]⟩

theorem Writing.writeValue (H : Writing f e b data s) {v : Value} (hv : v.Fits) :
    ∃ s', s.writeValue v = .ok s' ∧ Writing f e b (data ++ v.bytes e) s' := by
  cases v with
  | uint8 v => exact H.write (toBytes 1 v.toNat)
  | uint16 v => exact H.writeSwapped 2 v.toNat
  | uint32 v => exact H.writeSwapped 4 v.toNat
  | uint64 v => exact H.writeSwapped 8 v.toNat
  | int8 v => exact H.write (toBytes 1 v.toUInt8.toNat)
  | int16 v => exact H.writeSwapped 2 v.toUInt16.toNat
  | int32 v => exact H.writeSwapped 4 v.toUInt32.toNat
  | int64 v => exact H.writeSwapped 8 v.toUInt64.toNat
  | float v => exact H.writeSwapped 4 v.toNat
  | double v => exact H.writeSwapped 8 v.toNat
  | string16 str => exact H.string (Nat.mod_eq_of_lt (hv str rfl))
  | string32 str => exact H.string (Nat.mod_eq_of_lt (hv str rfl))
  | string64 str => exact H.string (Nat.mod_eq_of_lt (hv str rfl))
  | stringVint str => exact H.string (Nat.mod_eq_of_lt (hv str rfl))

theorem Reading.readSwapped {n v : Nat} (H : Reading e b done (image e n v ++ rest) s)
    (hn : 0 < n) (hv : v < 256 ^ n) :
    ∃ s', s.readSwapped n = .ok (v, s') ∧ Reading e b (done ++ image e n v) rest s' := by
  obtain ⟨s', hr, H'⟩ := H.read (fun h => by simpa [h] using hn.trans_eq (image_length e n v).symm)
  rw [image_length] at hr
  refine ⟨s', ?_, H'⟩
  unfold ByteArray.readSwapped
  rw [hr]
  have h := ofBytes_image (e := e) hv
  rw [← H'.endian] at h ⊢
  exact congrArg (fun v => Except.ok (v, s')) h

/-- Reading the prefix of a string and the string. -/
theorem Reading.string {n : Nat} {str : List UInt8}
    (H : Reading e b done (image e n str.length ++ str ++ rest) s) (hn : 0 < n)
    (hv : str.length < 256 ^ n) (h : str = [] → (done.length + n) % b = 0 → rest.length ≤ b) :
    ∃ s₁ s', s.readSwapped n = .ok (str.length, s₁) ∧ s₁.read str.length = .ok (str, s') ∧
      Reading e b (done ++ (image e n str.length ++ str)) rest s' := by
  rw [List.append_assoc] at H
  obtain ⟨s₁, h₁, H₁⟩ := H.readSwapped hn hv
  obtain ⟨s', h₂, H₂⟩ := H₁.read_append (by simpa using h) (by
    intro h0
    have := congrArg List.length h0
    simp only [List.length_append, image_length, List.length_nil] at this
    omega)
  exact ⟨s₁, s', h₁, h₂, by rwa [← List.append_assoc]⟩

@[simp] theorem ok_bind {α β : Type} (a : α) (f : α → Except Error β) :
    (Except.ok a : Except Error α) >>= f = f a := rfl

@[simp] theorem pure_eq_ok {α : Type} (a : α) : (pure a : Except Error α) = .ok a := rfl

theorem Reading.readByte {v : Nat} (H : Reading e b done (toBytes 1 v ++ rest) s) (hv : v < 256) :
    ∃ buf s', s.read 1 = .ok (buf, s') ∧ ofBytes buf = v ∧
      Reading e b (done ++ toBytes 1 v) rest s' := by
  obtain ⟨s', hr, H'⟩ := H.read (fun h => by simp [toBytes] at h)
  exact ⟨_, s', hr, by rw [ofBytes_toBytes]; exact Nat.mod_eq_of_lt hv, H'⟩

theorem Reading.readValue {v : Value} (H : Reading e b done (v.bytes e ++ rest) s) (hv : v.Fits)
    (h : v.str = some [] → (done.length + v.size) % b = 0 → rest.length ≤ b) :
    ∃ s', s.readValue v.kind = .ok (v, s') ∧ Reading e b (done ++ v.bytes e) rest s' := by
  cases v with
  | uint8 v =>
    obtain ⟨buf, s', hr, hb, H'⟩ := H.readByte v.toNat_lt
    exact ⟨s', by simp only [ByteArray.readValue, Value.kind, readUint8, hr, hb, ok_bind, pure_eq_ok,
      UInt8.ofNat_toNat], H'⟩
  | uint16 v =>
    obtain ⟨s', hr, H'⟩ := H.readSwapped (by omega) v.toNat_lt
    exact ⟨s', by simp only [ByteArray.readValue, Value.kind, readUint16, hr, ok_bind, pure_eq_ok,
      UInt16.ofNat_toNat], H'⟩
  | uint32 v =>
    obtain ⟨s', hr, H'⟩ := H.readSwapped (by omega) v.toNat_lt
    exact ⟨s', by simp only [ByteArray.readValue, Value.kind, readUint32, hr, ok_bind, pure_eq_ok,
      UInt32.ofNat_toNat], H'⟩
  | uint64 v =>
    obtain ⟨s', hr, H'⟩ := H.readSwapped (by omega) v.toNat_lt
    exact ⟨s', by simp only [ByteArray.readValue, Value.kind, readUint64, hr, ok_bind, pure_eq_ok,
      UInt64.ofNat_toNat], H'⟩
  | int8 v =>
    obtain ⟨buf, s', hr, hb, H'⟩ := H.readByte v.toUInt8.toNat_lt
    exact ⟨s', by simp only [ByteArray.readValue, Value.kind, readInt8, hr, hb, ok_bind, pure_eq_ok,
      UInt8.ofNat_toNat, Int8.toInt8_toUInt8], H'⟩
  | int16 v =>
    obtain ⟨s', hr, H'⟩ := H.readSwapped (by omega) v.toUInt16.toNat_lt
    exact ⟨s', by simp only [ByteArray.readValue, Value.kind, readInt16, hr, ok_bind, pure_eq_ok,
      UInt16.ofNat_toNat, Int16.toInt16_toUInt16], H'⟩
  | int32 v =>
    obtain ⟨s', hr, H'⟩ := H.readSwapped (by omega) v.toUInt32.toNat_lt
    exact ⟨s', by simp only [ByteArray.readValue, Value.kind, readInt32, hr, ok_bind, pure_eq_ok,
      UInt32.ofNat_toNat, Int32.toInt32_toUInt32], H'⟩
  | int64 v =>
    obtain ⟨s', hr, H'⟩ := H.readSwapped (by omega) v.toUInt64.toNat_lt
    exact ⟨s', by simp only [ByteArray.readValue, Value.kind, readInt64, hr, ok_bind, pure_eq_ok,
      UInt64.ofNat_toNat, Int64.toInt64_toUInt64], H'⟩
  | float v =>
    obtain ⟨s', hr, H'⟩ := H.readSwapped (by omega) v.toNat_lt
    exact ⟨s', by simp only [ByteArray.readValue, Value.kind, readFloat, readUint32, hr, ok_bind, pure_eq_ok,
      UInt32.ofNat_toNat], H'⟩
  | double v =>
    obtain ⟨s', hr, H'⟩ := H.readSwapped (by omega) v.toNat_lt
    exact ⟨s', by simp only [ByteArray.readValue, Value.kind, readDouble, readUint64, hr, ok_bind, pure_eq_ok,
      UInt64.ofNat_toNat], H'⟩
  | string16 str =>
    obtain ⟨s₁, s', h₁, h₂, H'⟩ := H.string (by omega) (hv str rfl) fun h0 => by
      subst h0
      exact h rfl
    have hn : (UInt16.ofNat str.length).toNat = str.length := Nat.mod_eq_of_lt (hv str rfl)
    exact ⟨s', by simp only [ByteArray.readValue, Value.kind, readString16, readUint16, h₁, hn, h₂,
      ok_bind, pure_eq_ok], H'⟩
  | string32 str =>
    obtain ⟨s₁, s', h₁, h₂, H'⟩ := H.string (by omega) (hv str rfl) fun h0 => by
      subst h0
      exact h rfl
    have hn : (UInt32.ofNat str.length).toNat = str.length := Nat.mod_eq_of_lt (hv str rfl)
    exact ⟨s', by simp only [ByteArray.readValue, Value.kind, readString32, readUint32, h₁, hn, h₂,
      ok_bind, pure_eq_ok], H'⟩
  | string64 str =>
    obtain ⟨s₁, s', h₁, h₂, H'⟩ := H.string (by omega) (hv str rfl) fun h0 => by
      subst h0
      exact h rfl
    have hn : (UInt64.ofNat str.length).toNat = str.length := Nat.mod_eq_of_lt (hv str rfl)
    exact ⟨s', by simp only [ByteArray.readValue, Value.kind, readString64, readUint64, h₁, hn, h₂,
      ok_bind, pure_eq_ok], H'⟩
  | stringVint str =>
    obtain ⟨s₁, s', h₁, h₂, H'⟩ := H.string (by omega) (hv str rfl) fun h0 => by
      subst h0
      exact h rfl
    have hn : (UInt64.ofNat str.length).toNat = str.length := Nat.mod_eq_of_lt (hv str rfl)
    exact ⟨s', by simp only [ByteArray.readValue, Value.kind, readStringVint, readUint64, h₁, hn, h₂,
      ok_bind, pure_eq_ok], H'⟩

/-! ## Sequences -/

theorem Writing.writeValues (H : Writing f e b data s) {vs : List Value} (hv : ∀ v ∈ vs, v.Fits) :
    ∃ s', s.writeValues vs = .ok s' ∧ Writing f e b (data ++ vs.flatMap (Value.bytes e)) s' := by
  induction vs generalizing s data with
  | nil => exact ⟨s, rfl, by rwa [List.flatMap_nil, List.append_nil]⟩
  | cons v vs ih =>
    obtain ⟨s₁, h₁, H₁⟩ := H.writeValue (hv v List.mem_cons_self)
    obtain ⟨s', h, H'⟩ := ih H₁ fun v hm => hv v (List.mem_cons_of_mem _ hm)
    refine ⟨s', by simp [ByteArray.writeValues, h₁, h], ?_⟩
    rwa [List.flatMap_cons, ← List.append_assoc]

theorem length_flatMap_bytes (e : UInt8) (vs : List Value) :
    (vs.flatMap (Value.bytes e)).length = totalSize vs := by
  induction vs with
  | nil => rfl
  | cons v vs ih => simp [totalSize, ih, Value.bytes_length]

theorem Reading.readValues {vs : List Value} (H : Reading e b done (vs.flatMap (Value.bytes e)) s)
    (hv : ∀ v ∈ vs, v.Fits) (h : NoEmptyAtBoundary b done.length vs) :
    s.readValues (vs.map Value.kind) = .ok vs := by
  induction vs generalizing s done with
  | nil => rfl
  | cons v vs ih =>
    rw [List.flatMap_cons] at H
    obtain ⟨s', hr, H'⟩ := H.readValue (hv v List.mem_cons_self) (by
      rw [length_flatMap_bytes]
      exact h.1)
    have hvs := ih H' (fun v hm => hv v (List.mem_cons_of_mem _ hm)) (by
      rw [List.length_append, Value.bytes_length]
      exact h.2)
    simp [ByteArray.readValues, hr, hvs]

theorem writing_fresh (b : Nat) (hb : 0 < b) (e f : UInt8) :
    Writing f e b [] { baseSize := b, baseSize_pos := hb, endian := e, fill := f } :=
  ⟨rfl, rfl, rfl, rfl, by simp, by simp, rfl, by simp, by simpa using hb, by simp, rfl, by simp⟩

/-- **Typed round trip** for values whose empty strings stay clear of the node boundaries. -/
theorem writeAndRead_eq (b : Nat) (hb : 0 < b) (e : UInt8) (vs : List Value)
    (hv : ∀ v ∈ vs, v.Fits) (h : NoEmptyAtBoundary b 0 vs) : writeAndRead b hb e vs = .ok vs := by
  obtain ⟨s, hw, H⟩ := (writing_fresh b hb e 0).writeValues hv
  obtain ⟨s', ho, H'⟩ := H.setOffset
  rw [List.nil_append] at H'
  simp [writeAndRead, hw, ho, H'.readValues hv h]

/-- Values that straddle nodes of 4 bytes, and an empty string that does not end at a boundary. -/
theorem writeAndRead_straddling :
    writeAndRead 4 (by decide) TIGERKIN_BIG_ENDIAN
        [.uint8 1, .string16 [], .int64 (-5), .stringVint [97, 98]] =
      .ok [.uint8 1, .string16 [], .int64 (-5), .stringVint [97, 98]] :=
  writeAndRead_eq 4 (by decide) _ _ (by simp [Value.Fits, Value.str, Value.width])
    (by simp [NoEmptyAtBoundary, Value.str, Value.size, Value.width])

/-- An empty string whose prefix ends at a node boundary makes the next read skip a node. -/
theorem empty_string_skips_node :
    writeAndRead 4 (by decide) TIGERKIN_LITTLE_ENDIAN
        [.uint16 1, .string16 [], .uint32 7, .uint32 9] =
      .ok [.uint16 1, .string16 [], .uint32 9, .uint32 9] ∧
    [Value.uint16 1, .string16 [], .uint32 9, .uint32 9] ≠
      [.uint16 1, .string16 [], .uint32 7, .uint32 9] := by
  decide +kernel

end Tigerkin.ByteArray
