import Tigerkin.Std.CString

/-! # The order of addresses

`Address::operator<` is the reverse of the lexicographic order of the bytes, and `operator==` is
their equality. -/

namespace Tigerkin

open CString

/-- An address of any class: the memory at `getAddr()`, of which the first `getAddrLen()` bytes are
the address. -/
structure Address where
  addr : List UInt8
  addrLen : Nat
  fits : addrLen ≤ addr.length

namespace Address

def view (x : Address) : List UInt8 := x.addr.take x.addrLen

/-- `operator<` -/
def lt (x y : Address) : Bool :=
  let minLen := min x.addrLen y.addrLen
  match memcmp minLen x.addr y.addr with
  | .gt => true
  | .lt => false
  | .eq => x.addrLen > y.addrLen

/-- `operator==` -/
def eq (x y : Address) : Bool :=
  x.addrLen == y.addrLen && memcmp x.addrLen x.addr y.addr == .eq

/-- `operator!=` -/
def ne (x y : Address) : Bool := !x.eq y

theorem view_length (x : Address) : x.view.length = x.addrLen := List.length_take_of_le x.fits

theorem view_append (x : Address) : x.view ++ x.addr.drop x.addrLen = x.addr :=
  List.take_append_drop ..

theorem lt_iff (x y : Address) : x.lt y = true ↔ y.view < x.view := by
  rw [← memcmp_lex x.view y.view (x.addr.drop x.addrLen) (y.addr.drop y.addrLen), view_append,
    view_append, view_length, view_length, lt]
  cases memcmp (min x.addrLen y.addrLen) x.addr y.addr <;> simp

theorem eq_iff (x y : Address) : x.eq y = true ↔ x.view = y.view := by
  rw [eq, Bool.and_eq_true, beq_iff_eq, beq_iff_eq]
  constructor
  · rintro ⟨hlen, hcmp⟩
    exact (memcmp_eq_iff (view_length x) ((view_length y).trans hlen.symm)
      (x.addr.drop x.addrLen) (y.addr.drop y.addrLen)).mp (by rwa [view_append, view_append])
  · intro h
    have hlen : x.addrLen = y.addrLen := by rw [← view_length, h, view_length]
    refine ⟨hlen, ?_⟩
    have hcmp := (memcmp_eq_iff (view_length x) ((view_length y).trans hlen.symm)
      (x.addr.drop x.addrLen) (y.addr.drop y.addrLen)).mpr h
    rwa [view_append, view_append] at hcmp

/-- **The comparison of addresses is a strict total order**, that of their bytes. -/
theorem lt_strictTotalOrder (x y z : Address) :
    x.lt x = false ∧ (x.lt y = true → y.lt z = true → x.lt z = true) ∧
      ((x.lt y = true ∧ y.lt x = false ∧ x.eq y = false) ∨
        (x.lt y = false ∧ y.lt x = true ∧ x.eq y = false) ∨
        (x.lt y = false ∧ y.lt x = false ∧ x.eq y = true)) ∧ x.ne y = !x.eq y := by
  simp only [← Bool.not_eq_true, lt_iff, eq_iff]
  refine ⟨List.lt_irrefl _, fun hxy hyz => List.lt_trans hyz hxy, ?_, rfl⟩
  rcases Decidable.em (y.view < x.view) with hlt | hlt
  · refine .inl ⟨hlt, List.lt_asymm hlt, fun h => ?_⟩
    rw [h] at hlt
    exact List.lt_irrefl _ hlt
  · rcases Decidable.em (x.view < y.view) with hgt | hgt
    · refine .inr (.inl ⟨hlt, hgt, fun h => ?_⟩)
      rw [h] at hgt
      exact List.lt_irrefl _ hgt
    · exact .inr (.inr ⟨hlt, hgt, Std.Trichotomous.trichotomous _ _ hgt hlt⟩)

end Address

end Tigerkin
