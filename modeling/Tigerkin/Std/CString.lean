import Mathlib.Algebra.Group.Int.Defs
import Mathlib.Algebra.Group.Nat.Defs
import Mathlib.Data.List.Basic

/-! # C strings

The functions of `<string.h>` and `<stdlib.h>` on memory that is given as the list of its bytes.
Past the end of a list lies the terminating NUL. -/

namespace Tigerkin.CString

/-- `strncmp(s, t, n) == 0` -/
def strncmpEq : Nat → List UInt8 → List UInt8 → Bool
  | 0, _, _ => true
  | n + 1, s, t =>
    s.headD 0 == t.headD 0 && (s.headD 0 == 0 || strncmpEq n s.tail t.tail)

/-- `memcmp(s, t, n)`, as how `s` compares to `t`. -/
def memcmp : Nat → List UInt8 → List UInt8 → Ordering
  | 0, _, _ => .eq
  | n + 1, s, t => (compare (s.headD 0) (t.headD 0)).then (memcmp n s.tail t.tail)

/-- `memchr(s, c, n)` for the `n` bytes of `s`, as the offset from `s`. -/
def memchr (c : UInt8) (s : List UInt8) : Option Nat := s.idxOf? c

def toLower (b : UInt8) : UInt8 := if 65 ≤ b && b ≤ 90 then b + 32 else b

def ofMemory (s : List UInt8) : List UInt8 := s.takeWhile (· != 0)

def strcasecmp (s t : List UInt8) : Ordering :=
  compare ((ofMemory s).map toLower) ((ofMemory t).map toLower)

/-- `strcasestr(s, t) != nullptr` -/
def strcasestr (s t : List UInt8) : Bool :=
  ((ofMemory s).map toLower).tails.any fun u => ((ofMemory t).map toLower).isPrefixOf u

/-- The value of a digit in the bases up to 36. -/
def digitVal (b : UInt8) : Option Nat :=
  if 48 ≤ b && b ≤ 57 then some (b.toNat - 48)
  else if 97 ≤ toLower b && toLower b ≤ 122 then some ((toLower b).toNat - 87)
  else none

/-- The digits that a number in the given base starts with. -/
def digits (base : Nat) : List UInt8 → List Nat
  | [] => []
  | b :: s =>
    match digitVal b with
    | some d => if d < base then d :: digits base s else []
    | none => []

def ofDigits (base : Nat) (ds : List Nat) : Nat := ds.foldl (fun n d => n * base + d) 0

def isSpace (b : UInt8) : Bool := b == 32 || 9 ≤ b && b ≤ 13

/-- `strtol(s, NULL, base)` for the bases 10 and 16, with a `long` of 64 bits. -/
def strtol (s : List UInt8) (base : Nat) : Int :=
  let s := s.dropWhile isSpace
  let neg := s.head? == some 45
  let s := if neg || s.head? == some 43 then s.tail else s
  let x := s.take 2 == [48, 120] || s.take 2 == [48, 88]
  let s := if base = 16 && x && (digits 16 (s.drop 2)).length ≠ 0 then s.drop 2 else s
  let n : Int := ofDigits base (digits base s)
  if neg then max (-n) (-2 ^ 63) else min n (2 ^ 63 - 1)

/-- The digits of `n` before those of `s`, at most `fuel` of them. -/
def prependNat : Nat → Nat → List UInt8 → List UInt8
  | 0, _, s => s
  | fuel + 1, n, s =>
    let s := UInt8.ofNat (48 + n % 10) :: s
    if n < 10 then s else prependNat fuel (n / 10) s

/-- What `operator<<` prints of an unsigned integer. -/
def showNat (n : Nat) : List UInt8 := prependNat (n + 1) n []

theorem strncmpEq_succ (n : Nat) (s t : List UInt8) :
    strncmpEq (n + 1) s t =
      (s.headD 0 == t.headD 0 && (s.headD 0 == 0 || strncmpEq n s.tail t.tail)) :=
  rfl

theorem strncmpEq_take (n : Nat) (s t : List UInt8) :
    strncmpEq n s (t.take n) = strncmpEq n s t := by
  induction n generalizing s t with
  | zero => rfl
  | succ n ih =>
    cases t with
    | nil => rfl
    | cons b t =>
      simp only [strncmpEq_succ, List.take_succ_cons, List.headD_cons, List.tail_cons, ih]

/-- The comparison of `n` bytes does not see what follows them. -/
theorem strncmpEq_congr {n : Nat} (s : List UInt8) {t t' : List UInt8}
    (h : t.take n = t'.take n) : strncmpEq n s t = strncmpEq n s t' := by
  rw [← strncmpEq_take, h, strncmpEq_take]

theorem strncmpEq_mono {m n : Nat} (hmn : m ≤ n) {s t : List UInt8}
    (h : strncmpEq n s t = true) : strncmpEq m s t = true := by
  induction m generalizing n s t with
  | zero => rfl
  | succ m ih =>
    cases n with
    | zero => exact absurd hmn (Nat.not_succ_le_zero m)
    | succ n =>
      simp only [strncmpEq_succ, Bool.and_eq_true, Bool.or_eq_true] at h ⊢
      exact ⟨h.1, h.2.imp_right fun h => ih (Nat.le_of_succ_le_succ hmn) h⟩

theorem strncmpEq_length {s t : List UInt8} (h0 : 0 ∉ s) :
    strncmpEq s.length s t = true ↔ s <+: t := by
  induction s generalizing t with
  | nil => simp [strncmpEq]
  | cons b s ih =>
    obtain ⟨hb, h0⟩ := not_or.mp (mt List.mem_cons.mpr h0)
    cases t with
    | nil => simp [strncmpEq_succ, Ne.symm hb]
    | cons c t =>
      rw [List.length_cons, strncmpEq_succ, List.cons_prefix_cons, ← ih h0]
      simp [Ne.symm hb]

theorem memchr_eq_none {c : UInt8} {s : List UInt8} (h : c ∉ s) : memchr c s = none :=
  List.idxOf?_eq_none_iff.mpr h

theorem memchr_append {c : UInt8} {s : List UInt8} (h : c ∉ s) (t : List UInt8) :
    memchr c (s ++ c :: t) = some s.length := by
  induction s with
  | nil => simp [memchr, List.idxOf?_cons]
  | cons b s ih =>
    obtain ⟨hb, h⟩ := not_or.mp (mt List.mem_cons.mpr h)
    have ih := ih h
    rw [memchr] at ih ⊢
    rw [List.cons_append, List.idxOf?_cons, ih, if_neg (by simpa using Ne.symm hb)]
    rfl

theorem memcmp_cons (n : Nat) (b c : UInt8) (s t : List UInt8) :
    memcmp (n + 1) (b :: s) (c :: t) = (compare b c).then (memcmp n s t) := rfl

/-- `memcmp` on what two lists have in common, and then their lengths: the lexicographic order. -/
theorem memcmp_lex (u v s t : List UInt8) :
    (memcmp (min u.length v.length) (u ++ s) (v ++ t) = .gt ∨
      memcmp (min u.length v.length) (u ++ s) (v ++ t) = .eq ∧ v.length < u.length) ↔ v < u := by
  induction u generalizing v with
  | nil => simp [memcmp]
  | cons b u ih =>
    cases v with
    | nil => simp [memcmp]
    | cons c v =>
      rw [List.length_cons, List.length_cons, Nat.succ_min_succ, List.cons_append, List.cons_append,
        memcmp_cons, List.cons_lt_cons_iff, ← ih v, Ordering.then_eq_gt, Ordering.then_eq_eq,
        Std.compare_eq_gt, Std.compare_eq_iff_eq, Nat.succ_lt_succ_iff, and_assoc, or_assoc,
        ← and_or_left, eq_comm (a := b)]

theorem memcmp_eq_iff {n : Nat} {u v : List UInt8} (hu : u.length = n) (hv : v.length = n)
    (s t : List UInt8) : memcmp n (u ++ s) (v ++ t) = .eq ↔ u = v := by
  induction n generalizing u v with
  | zero =>
    rw [List.length_eq_zero_iff.mp hu, List.length_eq_zero_iff.mp hv]
    simp [memcmp]
  | succ n ih =>
    obtain ⟨b, u, rfl⟩ := List.exists_cons_of_length_eq_add_one hu
    obtain ⟨c, v, rfl⟩ := List.exists_cons_of_length_eq_add_one hv
    rw [List.cons_append, List.cons_append, memcmp_cons, Ordering.then_eq_eq, List.cons.injEq,
      ih (Nat.succ.inj hu) (Nat.succ.inj hv), Std.LawfulEqCmp.compare_eq_iff_eq]

/-! ## Numbers -/

theorem forall_byte {P : UInt8 → Prop} (h : ∀ n < 256, P (UInt8.ofNat n)) (b : UInt8) : P b := by
  simpa using h b.toNat b.toNat_lt

/-- A digit of a base. -/
def IsDigit (base : Nat) (b : UInt8) : Prop := ∃ d, digitVal b = some d ∧ d < base

theorem isDigit_iff {base : Nat} {b : UInt8} : IsDigit base b ↔ (digitVal b).any (· < base) := by
  simp only [IsDigit, Option.any_eq_true, decide_eq_true_eq]

instance (base : Nat) (b : UInt8) : Decidable (IsDigit base b) :=
  decidable_of_iff _ isDigit_iff.symm

theorem not_isDigit {base : Nat} {b : UInt8} (h : digitVal b = none) : ¬IsDigit base b := by
  rintro ⟨d, hd, -⟩
  rw [h] at hd
  cases hd

def value (base : Nat) (s : List UInt8) : Nat := ofDigits base (s.filterMap digitVal)

variable {base : Nat} {s t : List UInt8}

theorem digits_append (hs : ∀ b ∈ s, IsDigit base b) (ht : ∀ b ∈ t.head?, ¬IsDigit base b) :
    digits base (s ++ t) = s.filterMap digitVal := by
  induction s with
  | nil =>
    cases t with
    | nil => rfl
    | cons b t =>
      have hb := ht b rfl
      simp only [List.nil_append, digits, List.filterMap_nil]
      cases hd : digitVal b with
      | none => rfl
      | some d => exact if_neg fun h => hb ⟨d, hd, h⟩
  | cons b s ih =>
    obtain ⟨d, hd, hlt⟩ := hs b List.mem_cons_self
    simp only [List.cons_append, digits, hd, if_pos hlt, List.filterMap_cons,
      ih fun b hb => hs b (List.mem_cons_of_mem _ hb)]

/-- The first byte of a number is a digit, and so no white space and no sign. -/
theorem IsDigit.bounds {b : UInt8} (h : IsDigit base b) :
    isSpace b = false ∧ b ≠ 45 ∧ b ≠ 43 := by
  obtain ⟨d, hd, -⟩ := h
  have hall : ∀ b : UInt8, digitVal b ≠ none → isSpace b = false ∧ b ≠ 45 ∧ b ≠ 43 :=
    forall_byte (by decide +kernel)
  exact hall b (by simp [hd])

theorem IsDigit.ten {b : UInt8} (h : IsDigit 10 b) : 48 ≤ b ∧ b ≤ 57 := by
  obtain ⟨d, hd, hlt⟩ := h
  unfold digitVal at hd
  split at hd
  · rename_i hdec
    simpa only [Bool.and_eq_true, decide_eq_true_eq] using hdec
  · split at hd
    · rename_i hlet
      simp only [Bool.and_eq_true, decide_eq_true_eq, UInt8.le_iff_toNat_le] at hlet
      have hfirst : UInt8.toNat 97 = 97 := rfl
      cases hd
      omega
    · cases hd

theorem IsDigit.ne_x {b : UInt8} (h : IsDigit 16 b) : b ≠ 120 ∧ b ≠ 88 := by
  obtain ⟨d, hd, hlt⟩ := h
  have hx : digitVal 120 = some 33 ∧ digitVal 88 = some 33 := by decide
  constructor
  · rintro rfl
    rw [hx.1, Option.some.injEq] at hd
    omega
  · rintro rfl
    rw [hx.2, Option.some.injEq] at hd
    omega

theorem strtol_digits (hs : ∀ b ∈ s, IsDigit base b) (hne : s ≠ [])
    (ht : ∀ b ∈ t.head?, ¬IsDigit base b ∧ b ≠ 120 ∧ b ≠ 88) :
    strtol (s ++ t) base = min (value base s : Int) (2 ^ 63 - 1) := by
  have hdig := digits_append hs fun b hb => (ht b hb).1
  obtain ⟨b, s, rfl⟩ := List.exists_cons_of_ne_nil hne
  obtain ⟨hsp, hminus, hplus⟩ := (hs b List.mem_cons_self).bounds
  have hx : base = 16 →
      (((b :: s ++ t).take 2 == [48, 120]) || ((b :: s ++ t).take 2 == [48, 88])) = false := by
    rintro rfl
    have hc : ∀ c ∈ (s ++ t).head?, c ≠ 120 ∧ c ≠ 88 := by
      intro c hc
      cases s with
      | nil => exact (ht c hc).2
      | cons a s =>
        cases hc
        exact (hs c (by simp)).ne_x
    cases hst : s ++ t with
    | nil => simp [hst]
    | cons c l =>
      obtain ⟨h1, h2⟩ := hc c (by rw [hst]; rfl)
      simp [hst, h1, h2]
  have hdrop : (b :: s ++ t).dropWhile isSpace = b :: s ++ t := by
    simp [hsp]
  have hneg : ((b :: s ++ t).head? == some 45) = false := by simpa using hminus
  have hpos : ((b :: s ++ t).head? == some 43) = false := by simpa using hplus
  unfold strtol
  simp only [hdrop, hneg, hpos, Bool.or_self, Bool.false_eq_true, if_false]
  by_cases h16 : base = 16
  · rw [hx h16, Bool.and_false, Bool.false_and, if_neg Bool.false_ne_true, hdig]
    rfl
  · rw [decide_eq_false h16, Bool.false_and, Bool.false_and, if_neg Bool.false_ne_true, hdig]
    rfl

theorem value_append_digit (s : List UInt8) {b : UInt8} {d : Nat} (hd : digitVal b = some d) :
    value base (s ++ [b]) = value base s * base + d := by
  simp [value, ofDigits, hd]

theorem digitVal_ofNat : ∀ d < 10, digitVal (UInt8.ofNat (48 + d)) = some d := by
  decide

theorem prependNat_eq {fuel n : Nat} (hn : n < fuel) (s : List UInt8) :
    ∃ ds, prependNat fuel n s = ds ++ s ∧ ds ≠ [] ∧ (∀ b ∈ ds, IsDigit 10 b) ∧ value 10 ds = n := by
  induction fuel generalizing n s with
  | zero => omega
  | succ fuel ih =>
    have hd := digitVal_ofNat (n % 10) (Nat.mod_lt n (by decide))
    have hdig : IsDigit 10 (UInt8.ofNat (48 + n % 10)) := ⟨_, hd, Nat.mod_lt n (by decide)⟩
    simp only [prependNat]
    split
    · rename_i hlt
      refine ⟨[UInt8.ofNat (48 + n % 10)], rfl, by simp, by simpa using hdig, ?_⟩
      have : value 10 ([] ++ [UInt8.ofNat (48 + n % 10)]) = _ := value_append_digit [] hd
      rw [List.nil_append] at this
      rw [this, Nat.mod_eq_of_lt hlt]
      simp [value, ofDigits]
    · obtain ⟨ds, h, hne, hds, hval⟩ :=
        ih (n := n / 10) (by omega) (UInt8.ofNat (48 + n % 10) :: s)
      refine ⟨ds ++ [UInt8.ofNat (48 + n % 10)], by rw [h]; simp, by simp, fun b hb => ?_, ?_⟩
      · rcases List.mem_append.mp hb with hb | hb
        · exact hds b hb
        · rw [List.mem_singleton.mp hb]
          exact hdig
      · rw [value_append_digit ds hd, hval]
        omega

theorem showNat_eq (n : Nat) :
    showNat n ≠ [] ∧ (∀ b ∈ showNat n, IsDigit 10 b) ∧ value 10 (showNat n) = n := by
  obtain ⟨ds, h, hne, hds, hval⟩ := prependNat_eq (Nat.lt_succ_self n) []
  rw [showNat, h, List.append_nil]
  exact ⟨hne, hds, hval⟩

end Tigerkin.CString
