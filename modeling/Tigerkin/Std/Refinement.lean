/-! # Sequences of calls against a specification

`Step s a s' r` says that the call `a` in the state `s` returns `r` and leaves the state `s'`; a call
that faults or does not return has no such `s'` and `r`. The specification `spec : τ → α → τ × ρ` is
total, and `R` relates the states of the two. -/

namespace Tigerkin.Refinement

variable {σ τ α ρ : Type} (Step : σ → α → σ → ρ → Prop) (spec : τ → α → τ × ρ) (R : σ → τ → Prop)
  (Cond : σ → α → Prop)

/-- The call returns what the specification returns, in a related state. -/
def Correct (s : σ) (t : τ) (a : α) : Prop := ∃ s', Step s a s' (spec t a).2 ∧ R s' (spec t a).1

/-- Every call of the sequence is correct. -/
def AllCorrect : σ → τ → List α → Prop
  | _, _, [] => True
  | s, t, a :: as => ∃ s', Step s a s' (spec t a).2 ∧ R s' (spec t a).1 ∧
      AllCorrect s' (spec t a).1 as

/-- Every call of the sequence meets the condition in the state it is made in. -/
def AllMeet : σ → List α → Prop
  | _, [] => True
  | s, a :: as => Cond s a ∧ ∀ s' r, Step s a s' r → AllMeet s' as

variable {Step spec R Cond} {I : σ → Prop}

/-- Where the condition is exact for one call, it is exact for sequences of calls. -/
theorem allCorrect_iff (hdet : ∀ {s a s₁ r₁ s₂ r₂}, Step s a s₁ r₁ → Step s a s₂ r₂ → s₁ = s₂)
    (hstep : ∀ {s t a}, I s → R s t → (Correct Step spec R s t a ↔ Cond s a))
    (hinv : ∀ {s a s' r}, I s → Cond s a → Step s a s' r → I s') {s : σ} {t : τ}
    (hI : I s) (hR : R s t) (as : List α) :
    AllCorrect Step spec R s t as ↔ AllMeet Step Cond s as := by
  induction as generalizing s t with
  | nil => exact Iff.rfl
  | cons a as ih =>
    constructor
    · rintro ⟨s', hs, hR', has⟩
      have hc := (hstep hI hR).mp ⟨s', hs, hR'⟩
      refine ⟨hc, fun s₁ r₁ hs₁ => ?_⟩
      cases hdet hs hs₁
      exact (ih (hinv hI hc hs) hR').mp has
    · rintro ⟨hc, has⟩
      obtain ⟨s', hs, hR'⟩ := (hstep hI hR).mpr hc
      exact ⟨s', hs, hR', (ih (hinv hI hc hs) hR').mpr (has _ _ hs)⟩

end Tigerkin.Refinement
