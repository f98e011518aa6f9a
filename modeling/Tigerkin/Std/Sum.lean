import Mathlib.Algebra.BigOperators.Group.Finset.Basic

/-! # Sums in which one term changes -/

namespace Tigerkin

variable {κ M : Type} [DecidableEq κ] [AddCommMonoid M]

theorem sum_move {S : Finset κ} {w : κ} {f g : κ → M} (hw : w ∈ S) (h : ∀ v, v ≠ w → g v = f v) :
    ∑ v ∈ S, g v + f w = ∑ v ∈ S, f v + g w := by
  have hrest : ∑ v ∈ S.erase w, g v = ∑ v ∈ S.erase w, f v :=
    Finset.sum_congr rfl fun v hv => h v (Finset.ne_of_mem_erase hv)
  rw [← Finset.add_sum_erase S f hw, ← Finset.add_sum_erase S g hw, hrest]
  ac_rfl

theorem sum_update [Fintype κ] {ι : Type} (f : κ → ι) (g : ι → M) (w : κ) (x : ι) :
    ∑ v, g (Function.update f w x v) + g (f w) = ∑ v, g (f v) + g x := by
  have h := sum_move (f := fun v => g (f v)) (g := fun v => g (Function.update f w x v))
    (Finset.mem_univ w) fun v hv => by rw [Function.update_of_ne hv]
  simpa using h

end Tigerkin
