import Mathlib.Data.List.Basic

/-! # Runs of a partial step function

A system is given by a step function `step : σ → α → Option σ`; `step s a = none` means that the
action `a` is not enabled in `s`. `Reach step G s t` says that a run leads from `s` to `t` all of
whose steps meet the guard `G` in the state they start from; `Always` is the guard that every step
meets. A property of every reached state is proved by `Reach.inv`, and a concrete run is evaluated
by `List.foldlM` and turned into a `Reach` by `Reach.of_foldlM`. -/

namespace Tigerkin

variable {σ α : Type} {step : σ → α → Option σ} {G : σ → α → Prop}

/-- States reached from `s` by steps that meet the guard `G`. -/
inductive Reach (step : σ → α → Option σ) (G : σ → α → Prop) (s : σ) : σ → Prop
  | refl : Reach step G s s
  | tail : Reach step G s t → G t a → step t a = some u → Reach step G s u

/-- The guard that every step meets. -/
def Always (_ : σ) (_ : α) : Prop := True

instance (s : σ) (a : α) : Decidable (Always s a) := inferInstanceAs (Decidable True)

namespace Reach

/-- **The invariant rule**: what holds initially and is kept by every guarded step holds in every
state of a guarded run. -/
theorem inv {I : σ → Prop} (h : Reach step G s t) (h0 : I s)
    (hstep : ∀ {t a u}, I t → G t a → step t a = some u → I u) : I t := by
  induction h with
  | refl => exact h0
  | tail _ hG hs ih => exact hstep ih hG hs

theorem trans (h : Reach step G s t) (h' : Reach step G t u) : Reach step G s u := by
  induction h' with
  | refl => exact h
  | tail _ hG hs ih => exact .tail ih hG hs

theorem single (hG : G s a) (hs : step s a = some t) : Reach step G s t :=
  .tail .refl hG hs

/-- An evaluated run whose steps all passed the guard is a guarded run. -/
theorem of_foldlM (step : σ → α → Option σ) (G : σ → α → Prop) [∀ s a, Decidable (G s a)] (s : σ)
    (as : List α) {t : σ} (h : as.foldlM (fun s a => if G s a then step s a else none) s = some t) :
    Reach step G s t := by
  induction as generalizing s with
  | nil =>
    cases h
    exact .refl
  | cons a as ih =>
    simp only [List.foldlM_cons, Option.bind_eq_bind, Option.bind_eq_some_iff] at h
    obtain ⟨u, hu, h⟩ := h
    split at hu
    · exact (single ‹_› hu).trans (ih u h)
    · cases hu

/-- A test of the end of an evaluated run gives a reached state that passes it. -/
theorem of_any (step : σ → α → Option σ) (G : σ → α → Prop) [∀ s a, Decidable (G s a)] (s : σ)
    (as : List α) (p : σ → Bool)
    (h : (as.foldlM (fun s a => if G s a then step s a else none) s).any p = true) :
    ∃ t, Reach step G s t ∧ p t = true := by
  obtain ⟨t, ht, hp⟩ := (Option.any_eq_true _ _).mp h
  exact ⟨t, of_foldlM step G s as ht, hp⟩

/-- Two evaluated runs, the second from where the first one ends. -/
theorem of_any_any (step : σ → α → Option σ) (G : σ → α → Prop) [∀ s a, Decidable (G s a)] (s : σ)
    (as bs : List α) (p q : σ → Bool)
    (h : (as.foldlM (fun s a => if G s a then step s a else none) s).any (fun t =>
      p t && (bs.foldlM (fun s a => if G s a then step s a else none) t).any q) = true) :
    ∃ t u, (Reach step G s t ∧ p t = true) ∧ Reach step G t u ∧ q u = true := by
  obtain ⟨t, ht, hp⟩ := of_any step G s as _ h
  obtain ⟨hp, hq⟩ := Bool.and_eq_true_iff.mp hp
  obtain ⟨u, hu, hq⟩ := of_any step G t bs q hq
  exact ⟨t, u, ⟨ht, hp⟩, hu, hq⟩

end Reach

end Tigerkin
