import Mathlib.Data.List.Flatten
import Mathlib.Tactic.Ring

/-! # Memory images of integers, and lists of equal nodes

An integer of `n` bytes is a number below `256 ^ n`; `toBytes` is its image in the memory of a
little-endian machine and `byteswap` turns the image around. The second part is about lists of
lists of one length, read through their concatenation. -/

namespace Tigerkin

def toBytes : Nat → Nat → List UInt8
  | 0, _ => []
  | n + 1, v => UInt8.ofNat v :: toBytes n (v / 256)

def ofBytes : List UInt8 → Nat
  | [] => 0
  | b :: l => b.toNat + 256 * ofBytes l

def byteswap (n v : Nat) : Nat := ofBytes (toBytes n v).reverse

@[simp] theorem toBytes_length (n v : Nat) : (toBytes n v).length = n := by
  induction n generalizing v with
  | zero => rfl
  | succ n ih => simp [toBytes, ih]

theorem ofBytes_toBytes (n v : Nat) : ofBytes (toBytes n v) = v % 256 ^ n := by
  induction n generalizing v with
  | zero => simp [toBytes, ofBytes, Nat.mod_one]
  | succ n ih =>
    simp only [toBytes, ofBytes, ih]
    have h : (UInt8.ofNat v).toNat = v % 256 := by simp
    rw [h, Nat.pow_succ, Nat.mul_comm (256 ^ n), Nat.mod_mul]

theorem ofBytes_lt (l : List UInt8) : ofBytes l < 256 ^ l.length := by
  induction l with
  | nil => simp [ofBytes]
  | cons b l ih =>
    have hb : b.toNat < 256 := b.toNat_lt
    simp only [ofBytes, List.length_cons, Nat.pow_succ]
    omega

theorem toBytes_ofBytes (l : List UInt8) : toBytes l.length (ofBytes l) = l := by
  induction l with
  | nil => rfl
  | cons b l ih =>
    have hb : b.toNat < 256 := b.toNat_lt
    have hdiv : (b.toNat + 256 * ofBytes l) / 256 = ofBytes l := by omega
    have hhead : UInt8.ofNat (b.toNat + 256 * ofBytes l) = b := by
      apply UInt8.toNat.inj
      simp
    simp only [ofBytes, List.length_cons, toBytes, hdiv, hhead, ih]

theorem byteswap_lt (n v : Nat) : byteswap n v < 256 ^ n := by
  simpa [byteswap] using ofBytes_lt (toBytes n v).reverse

theorem byteswap_byteswap {n v : Nat} (h : v < 256 ^ n) : byteswap n (byteswap n v) = v := by
  have hrev := toBytes_ofBytes (toBytes n v).reverse
  rw [List.length_reverse, toBytes_length] at hrev
  unfold byteswap
  rw [hrev, List.reverse_reverse, ofBytes_toBytes, Nat.mod_eq_of_lt h]

/-! ## Bits -/

theorem testBit_ofBytes (l : List UInt8) (i : Nat) :
    (ofBytes l).testBit i = (l.getD (i / 8) 0).toNat.testBit (i % 8) := by
  induction l generalizing i with
  | nil => simp [ofBytes]
  | cons b l ih =>
    have hsum : ofBytes (b :: l) = 2 ^ 8 * ofBytes l + b.toNat := Nat.add_comm ..
    rw [hsum, Nat.testBit_two_pow_mul_add _ b.toNat_lt]
    split
    · rename_i hlt
      rw [Nat.div_eq_of_lt hlt, Nat.mod_eq_of_lt hlt]
      rfl
    · rename_i hle
      obtain ⟨j, rfl⟩ := Nat.exists_eq_add_of_le' (Nat.le_of_not_lt hle)
      rw [Nat.add_sub_cancel, ih, Nat.add_mod_right, Nat.add_div_right j (by decide)]
      rfl

theorem testBit_toBytes {n j k : Nat} (hj : j < n) (hk : k < 8) (v : Nat) :
    ((toBytes n v).getD j 0).toNat.testBit k = v.testBit (8 * j + k) := by
  induction n generalizing v j with
  | zero => omega
  | succ n ih =>
    cases j with
    | zero =>
      have hbyte : (UInt8.ofNat v).toNat = v % 2 ^ 8 := UInt8.toNat_ofNat'
      rw [toBytes, List.getD_cons_zero, hbyte, Nat.testBit_mod_two_pow, decide_eq_true hk,
        Bool.true_and, Nat.mul_zero, Nat.zero_add]
    | succ j =>
      rw [toBytes, List.getD_cons_succ, ih (Nat.lt_of_succ_lt_succ hj),
        show 256 = 2 ^ 8 from rfl, Nat.testBit_div_two_pow]
      congr 1
      omega

/-- The bits of a byte keep their places in it. -/
theorem testBit_byteswap {n i : Nat} (hi : i < 8 * n) (v : Nat) :
    (byteswap n v).testBit i = v.testBit (8 * (n - 1 - i / 8) + i % 8) := by
  have hlt : i / 8 < (toBytes n v).length := by
    rw [toBytes_length]
    omega
  rw [byteswap, testBit_ofBytes, List.getD_eq_getElem?_getD, List.getElem?_reverse hlt,
    toBytes_length, ← List.getD_eq_getElem?_getD]
  exact testBit_toBytes (by omega) (by omega) v

/-! ## Lists of nodes -/

variable {α : Type} {b : Nat} {l : List (List α)}

theorem take_append_of_length {l l' : List α} (h : l.length = b) (i : Nat) :
    (l ++ l').take (b + i) = l ++ l'.take i := by
  subst h
  exact List.take_length_add_append i

theorem length_flatten_nodes (h : ∀ n ∈ l, n.length = b) : l.flatten.length = l.length * b := by
  induction l with
  | nil => simp
  | cons n l ih =>
    have hn := h n List.mem_cons_self
    have := ih fun m hm => h m (List.mem_cons_of_mem _ hm)
    simp only [List.flatten_cons, List.length_append, List.length_cons, hn, this]
    ring

theorem flatten_drop_nodes (h : ∀ n ∈ l, n.length = b) (k : Nat) :
    (l.drop k).flatten = l.flatten.drop (k * b) := by
  induction l generalizing k with
  | nil => simp
  | cons n l ih =>
    cases k with
    | zero => simp
    | succ k =>
      have hn := h n List.mem_cons_self
      have hk : (k + 1) * b = n.length + k * b := by rw [hn]; ring
      rw [List.drop_succ_cons, ih fun m hm => h m (List.mem_cons_of_mem _ hm),
        List.flatten_cons, hk, List.drop_append, List.drop_of_length_le (Nat.le_add_right ..),
        List.nil_append, Nat.add_sub_cancel_left]

theorem flatten_take_nodes (h : ∀ n ∈ l, n.length = b) (k : Nat) :
    (l.take k).flatten = l.flatten.take (k * b) := by
  induction l generalizing k with
  | nil => simp
  | cons n l ih =>
    cases k with
    | zero => simp
    | succ k =>
      have hn := h n List.mem_cons_self
      have hk : (k + 1) * b = n.length + k * b := by rw [hn]; ring
      rw [List.take_succ_cons, List.flatten_cons, ih fun m hm => h m (List.mem_cons_of_mem _ hm),
        List.flatten_cons, hk, List.take_length_add_append]

end Tigerkin
