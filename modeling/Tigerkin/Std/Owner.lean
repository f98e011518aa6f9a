import Mathlib.Logic.Basic

/-! # Resources with one owner each

Resources of type `ρ` that are handed out and given back. `Partition live owns` says that each live
resource has exactly one owner, and that only live resources are owned. -/

namespace Tigerkin.Owner

variable {ρ ω : Type}

structure Partition (live : ρ → Prop) (owns : ω → ρ → Prop) : Prop where
  live_of_owns : ∀ {o r}, owns o r → live r
  unique : ∀ {o o' r}, owns o r → owns o' r → o = o'
  covered : ∀ {r}, live r → ∃ o, owns o r

variable {live live' : ρ → Prop} {owns owns' : ω → ρ → Prop} {o a : ω} {r x : ρ}

theorem Partition.congr (h : Partition live owns) (hlive : ∀ r, live' r ↔ live r)
    (howns : ∀ o r, owns' o r ↔ owns o r) : Partition live' owns' where
  live_of_owns ho := (hlive _).mpr (h.live_of_owns ((howns _ _).mp ho))
  unique ho ho' := h.unique ((howns _ _).mp ho) ((howns _ _).mp ho')
  covered hr := by
    obtain ⟨o, ho⟩ := h.covered ((hlive _).mp hr)
    exact ⟨o, (howns _ _).mpr ho⟩

/-- A resource that is not live is handed to an owner. -/
theorem Partition.hand (h : Partition live owns) (hr : ¬live x)
    (hlive : ∀ r, live' r ↔ live r ∨ r = x)
    (howns : ∀ o r, owns' o r ↔ owns o r ∨ o = a ∧ r = x) : Partition live' owns' where
  live_of_owns ho := by
    rcases (howns _ _).mp ho with ho | ⟨-, rfl⟩
    · exact (hlive _).mpr (.inl (h.live_of_owns ho))
    · exact (hlive _).mpr (.inr rfl)
  unique ho ho' := by
    rcases (howns _ _).mp ho with ho | ⟨rfl, rfl⟩ <;>
    rcases (howns _ _).mp ho' with ho' | ⟨rfl, hr'⟩
    · exact h.unique ho ho'
    · exact absurd (h.live_of_owns (hr' ▸ ho)) hr
    · exact absurd (h.live_of_owns ho') hr
    · rfl
  covered hr' := by
    rcases (hlive _).mp hr' with hr' | rfl
    · obtain ⟨o, ho⟩ := h.covered hr'
      exact ⟨o, (howns _ _).mpr (.inl ho)⟩
    · exact ⟨a, (howns _ _).mpr (.inr ⟨rfl, rfl⟩)⟩

/-- A resource is given back. -/
theorem Partition.drop (h : Partition live owns) (hlive : ∀ r, live' r ↔ live r ∧ r ≠ x)
    (howns : ∀ o r, owns' o r ↔ owns o r ∧ r ≠ x) : Partition live' owns' where
  live_of_owns ho := (hlive _).mpr (((howns _ _).mp ho).imp_left h.live_of_owns)
  unique ho ho' := h.unique ((howns _ _).mp ho).1 ((howns _ _).mp ho').1
  covered hr := by
    obtain ⟨hr, hne⟩ := (hlive _).mp hr
    obtain ⟨o, ho⟩ := h.covered hr
    exact ⟨o, (howns _ _).mpr ⟨ho, hne⟩⟩

end Tigerkin.Owner
