import Tigerkin.Std.Loop

/-! # Streams

`SocketStream::read` and `Stream::readFixLength` over a socket whose peer has sent its bytes in
fragments: a `recv` returns the rest of one fragment, or as much of it as the caller asks for. -/

namespace Tigerkin.Http

open Loop

structure Socket where
  frags : List (List UInt8)
  /-- What `recv` does when the fragments are used up: it fails, or returns 0 (the end). -/
  fails : Bool
  isConnected : Bool := true
  deriving DecidableEq

namespace Socket

/-- `none` is the result -1. -/
def read (s : Socket) (length : Nat) : Option (List UInt8) × Socket :=
  if !s.isConnected then (none, s)
  else
    match s.frags with
    | [] => (if s.fails then none else some [], s)
    | f :: fs =>
      if f.length ≤ length then (some f, { s with frags := fs })
      else (some (f.take length), { s with frags := f.drop length :: fs })

theorem read_le {s s' : Socket} {n : Nat} {b : List UInt8} (h : s.read n = (some b, s')) :
    b.length ≤ n := by
  unfold read at h
  split at h
  · cases h
  · split at h
    · split at h <;> cases h
      exact Nat.zero_le n
    · split at h
      · cases h
        assumption
      · cases h
        exact List.length_take_le ..

/-- The bytes that the socket still delivers. -/
def pending (s : Socket) : List UInt8 := s.frags.flatten

/-- The fragments after their first `n` bytes. -/
def dropFrags : Nat → List (List UInt8) → List (List UInt8)
  | _, [] => []
  | n, f :: fs => if n < f.length then f.drop n :: fs else dropFrags (n - f.length) fs

theorem dropFrags_zero {fs : List (List UInt8)} (h : ∀ f ∈ fs, f ≠ []) : dropFrags 0 fs = fs := by
  cases fs with
  | nil => rfl
  | cons f fs =>
    have hf := List.length_pos_iff.mpr (h f List.mem_cons_self)
    rw [dropFrags, if_pos hf, List.drop_zero]

theorem dropFrags_add (m n : Nat) (fs : List (List UInt8)) :
    dropFrags (m + n) fs = dropFrags n (dropFrags m fs) := by
  induction fs generalizing m n with
  | nil => rfl
  | cons f fs ih =>
    simp only [dropFrags]
    by_cases hm : m < f.length
    · rw [if_pos hm, dropFrags, List.length_drop]
      by_cases hmn : m + n < f.length
      · rw [if_pos hmn, if_pos (by omega), List.drop_drop]
      · rw [if_neg hmn, if_neg (by omega)]
        congr 1
        omega
    · rw [if_neg hm, if_neg (by omega), ← ih]
      congr 1
      omega

theorem flatten_dropFrags (n : Nat) (fs : List (List UInt8)) :
    (dropFrags n fs).flatten = fs.flatten.drop n := by
  induction fs generalizing n with
  | nil => simp [dropFrags]
  | cons f fs ih =>
    rw [dropFrags, List.flatten_cons, List.drop_append]
    split
    · rw [List.flatten_cons, Nat.sub_eq_zero_of_le (by omega), List.drop_zero]
    · have hf : f.drop n = [] := List.drop_eq_nil_of_le (by omega)
      rw [ih, hf, List.nil_append]

theorem dropFrags_nonempty {n : Nat} {fs : List (List UInt8)} (h : ∀ f ∈ fs, f ≠ []) :
    ∀ f ∈ dropFrags n fs, f ≠ [] := by
  induction fs generalizing n with
  | nil => exact h
  | cons f fs ih =>
    have hfs : ∀ g ∈ fs, g ≠ [] := fun g hg => h g (List.mem_cons_of_mem f hg)
    rw [dropFrags]
    split
    · rintro g (_ | ⟨_, hg⟩)
      · simpa
      · exact hfs g hg
    · exact ih hfs

/-- The socket after `n` bytes have been read. -/
def skip (s : Socket) (n : Nat) : Socket := { s with frags := dropFrags n s.frags }

structure Open (s : Socket) : Prop where
  connected : s.isConnected = true
  nonempty : ∀ f ∈ s.frags, f ≠ []

theorem Open.skip {s : Socket} (h : s.Open) (n : Nat) : (s.skip n).Open :=
  ⟨h.connected, dropFrags_nonempty h.nonempty⟩

theorem Open.skip_zero {s : Socket} (h : s.Open) : s.skip 0 = s := by
  rw [Socket.skip, dropFrags_zero h.nonempty]

theorem skip_skip (s : Socket) (m n : Nat) : (s.skip m).skip n = s.skip (m + n) := by
  simp only [skip, dropFrags_add]

@[simp] theorem pending_skip (s : Socket) (n : Nat) : (s.skip n).pending = s.pending.drop n :=
  flatten_dropFrags n s.frags

theorem frags_ne_nil {s : Socket} (hp : s.pending ≠ []) : s.frags ≠ [] := by
  rintro h
  exact hp (by rw [pending, h, List.flatten_nil])

theorem Open.frags_eq_nil {s : Socket} (h : s.Open) (hp : s.pending = []) : s.frags = [] := by
  cases hf : s.frags with
  | nil => rfl
  | cons f fs =>
    have := h.nonempty f (hf ▸ List.mem_cons_self)
    simp [pending, hf, this] at hp

theorem read_cons {s : Socket} (h : s.Open) {f : List UInt8} {fs : List (List UInt8)}
    (hf : s.frags = f :: fs) (n : Nat) :
    s.read n = (some (f.take n), s.skip (f.take n).length) := by
  have hne : ∀ g ∈ fs, g ≠ [] := fun g hg => h.nonempty g (hf ▸ List.mem_cons_of_mem f hg)
  by_cases hl : f.length ≤ n
  · have hskip : dropFrags f.length (f :: fs) = fs := by
      rw [dropFrags, if_neg (Nat.lt_irrefl _), Nat.sub_self, dropFrags_zero hne]
    simp [read, skip, h.connected, hf, hl, List.take_of_length_le hl, hskip]
  · have hskip : dropFrags n (f :: fs) = f.drop n :: fs := by
      rw [dropFrags, if_pos (by omega)]
    have hn : min n f.length = n := by omega
    simp [read, skip, h.connected, hf, hl, hn, hskip]

theorem read_nil {s : Socket} (h : s.Open) (hf : s.frags = []) (n : Nat) :
    s.read n = (if s.fails then none else some [], s) := by
  simp [read, h.connected, hf]

/-- A read that asks for something returns the next bytes, and some if there are any. -/
theorem read_some {s : Socket} (h : s.Open) (hp : s.pending ≠ []) {n : Nat} (hn : 0 < n) :
    ∃ b, s.read n = (some b, s.skip b.length) ∧ b ≠ [] ∧ b.length ≤ n ∧
      b ++ (s.skip b.length).pending = s.pending := by
  obtain ⟨f, fs, hf⟩ := List.exists_cons_of_ne_nil (frags_ne_nil hp)
  have hne : f ≠ [] := h.nonempty f (hf ▸ List.mem_cons_self ..)
  refine ⟨f.take n, read_cons h hf n, ?_, List.length_take_le .., ?_⟩
  · simpa [hne] using Nat.pos_iff_ne_zero.mp hn
  · rw [pending_skip, pending, hf, List.flatten_cons, List.drop_append, List.length_take,
      Nat.sub_eq_zero_of_le (Nat.min_le_right ..), List.drop_zero, ← List.append_assoc]
    congr 1
    by_cases hl : f.length ≤ n
    · rw [List.take_of_length_le hl, Nat.min_eq_right hl, List.drop_length, List.append_nil]
    · rw [Nat.min_eq_left (by omega), List.take_append_drop]

/-- What a read has taken from an open socket. -/
theorem Open.of_read {s sock : Socket} {b : List UInt8} {n : Nat} (h : s.Open)
    (hr : s.read n = (some b, sock)) :
    b.length ≤ n ∧ sock = s.skip b.length ∧ b.length + sock.pending.length = s.pending.length ∧
      (b = [] → 0 < n → s.frags = []) := by
  cases hf : s.frags with
  | nil =>
    rw [read_nil h hf] at hr
    cases hfl : s.fails <;> simp [hfl] at hr
    obtain ⟨rfl, rfl⟩ := hr
    exact ⟨Nat.zero_le n, h.skip_zero.symm, Nat.zero_add _, fun _ _ => rfl⟩
  | cons f fs =>
    rw [read_cons h hf] at hr
    cases hr
    have hne : f ≠ [] := h.nonempty f (hf ▸ List.mem_cons_self)
    have hpre : f.take n <+: s.pending := by
      rw [pending, hf]
      exact (List.take_prefix n f).trans (List.prefix_append f fs.flatten)
    refine ⟨List.length_take_le .., rfl, ?_, fun hb hn => ?_⟩
    · rw [pending_skip, List.length_drop, Nat.add_sub_of_le hpre.length_le]
    · simp only [List.take_eq_nil_iff, hne, or_false] at hb
      omega

end Socket

/-- A receive function that ends without a message: it returns `nullptr`, after `close()`, or an
assertion or an exception ends it. -/
inductive Stop where
  | nullptr | abort
  deriving DecidableEq

structure FixRead where
  left : Nat
  buffer : List UInt8 := []
  sock : Socket

/-- The loop of `readFixLength`; `none` is the result -1. -/
def readFixLength (s : FixRead) : FixRead ⊕ Option (List UInt8) × Socket :=
  if s.left = 0 then .inr (some s.buffer, s.sock)
  else
    match s.sock.read s.left with
    | (none, sock) => .inr (none, sock)
    | (some b, sock) => .inl ⟨s.left - b.length, s.buffer ++ b, sock⟩

theorem readFixLength_returns {s : FixRead} (h : s.sock.Open)
    (hl : s.left ≤ s.sock.pending.length) :
    Returns readFixLength s
      (some (s.buffer ++ s.sock.pending.take s.left), s.sock.skip s.left) := by
  obtain ⟨left, buffer, sock⟩ := s
  dsimp only at h hl ⊢
  induction left using Nat.strongRecOn generalizing buffer sock with
  | ind left ih =>
    by_cases h0 : left = 0
    · subst h0
      exact .done (by simp [readFixLength, h.skip_zero])
    · have hp : sock.pending ≠ [] := fun hp => h0 (by simpa [hp] using hl)
      obtain ⟨b, hr, hb, hbl, hcat⟩ := sock.read_some h hp (Nat.pos_of_ne_zero h0)
      have hb0 : 0 < b.length := List.length_pos_iff.mpr hb
      have hlen := congrArg List.length hcat
      rw [List.length_append] at hlen
      have hret := ih (left - b.length) (by omega) (buffer ++ b) _ (h.skip b.length) (by omega)
      have hnext : readFixLength ⟨left, buffer, sock⟩ =
          .inl ⟨left - b.length, buffer ++ b, sock.skip b.length⟩ := by
        simp [readFixLength, h0, hr]
      refine .next hnext ?_
      rw [Socket.skip_skip, Nat.add_sub_of_le hbl] at hret
      rwa [← hcat, List.take_append, List.take_of_length_le hbl, ← List.append_assoc]

/-- When the socket delivers too little, the loop fails or does not return. -/
theorem readFixLength_short {s : FixRead} (h : s.sock.Open) (hl : s.sock.pending.length < s.left)
    {r : Option (List UInt8) × Socket} (hr : Returns readFixLength s r) : r.1 = none := by
  refine hr.inv (I := fun s => s.sock.Open ∧ s.sock.pending.length < s.left)
    (Q := fun r => r.1 = none) ⟨h, hl⟩ (fun {s s'} hs hb => ?_) fun {s r} hs hb => ?_
  all_goals
    obtain ⟨ho, hlt⟩ := hs
    rw [readFixLength, if_neg (by omega)] at hb
  · by_cases hp : s.sock.pending = []
    · rw [Socket.read_nil ho (ho.frags_eq_nil hp)] at hb
      cases hfl : s.sock.fails <;> simp [hfl] at hb
      cases hb
      exact ⟨ho, hlt⟩
    · obtain ⟨b, hr, -, hbl, hcat⟩ := s.sock.read_some ho hp (n := s.left) (by omega)
      rw [hr] at hb
      cases hb
      refine ⟨ho.skip b.length, ?_⟩
      rw [← hcat, List.length_append] at hlt
      dsimp only
      omega
  · split at hb
    · cases hb
      rfl
    · cases hb

end Tigerkin.Http
