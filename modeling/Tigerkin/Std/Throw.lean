import Mathlib.Logic.Basic

/-! # Calls that throw

A call is a program of `EStateM`: what it throws leaves the state as it is at the throw. `Keeps I P c`
says that `c` keeps the invariant `I`, whether it returns or throws an error in `P`; the other errors
are ends after which there is no state to speak of. `Refines` relates a call to a function that loses
the state with an error, where `er` says which error of the function an error of the call is, if it
is one at all. -/

namespace Tigerkin.Throw

variable {ε ε' σ α β : Type} {I : σ → Prop} {P : ε → Prop} {er : ε → Option ε'}

def Keeps (I : σ → Prop) (P : ε → Prop) (c : EStateM ε σ α) : Prop :=
  ∀ s, I s → match c.run s with
    | .ok _ t => I t
    | .error e t => P e → I t

@[simp] theorem run_throw (e : ε) (s : σ) : (throw e : EStateM ε σ α).run s = .error e s := rfl

namespace Keeps

theorem of_ok {c : EStateM ε σ α} (h : Keeps I P c) {s t : σ} {a : α} (hs : I s)
    (hc : c.run s = .ok a t) : I t := by
  have := h s hs
  rwa [hc] at this

theorem of_error {c : EStateM ε σ α} (h : Keeps I P c) {s t : σ} {e : ε} (hs : I s) (he : P e)
    (hc : c.run s = .error e t) : I t := by
  have := h s hs
  rw [hc] at this
  exact this he

theorem pure (a : α) : Keeps I P (pure a : EStateM ε σ α) := fun _ hs => hs

theorem throw (e : ε) : Keeps I P (throw e : EStateM ε σ α) := fun _ hs _ => hs

theorem bind {c : EStateM ε σ α} {d : α → EStateM ε σ β} (hc : Keeps I P c)
    (hd : ∀ a, Keeps I P (d a)) : Keeps I P (c >>= d) := by
  intro s hs
  rw [EStateM.run_bind]
  have h := hc s hs
  split at h <;> rename_i hrun
  · rw [hrun]
    exact hd _ _ h
  · rw [hrun]
    exact h

/-- A call that looks at the state first. -/
theorem bind_get {d : σ → EStateM ε σ β}
    (hd : ∀ s, I s → match (d s).run s with
      | .ok _ t => I t
      | .error e t => P e → I t) : Keeps I P (get >>= d) := fun s hs => hd s hs

end Keeps

def Refines (er : ε → Option ε') (c : EStateM ε σ α) (f : σ → Except ε' (α × σ)) : Prop :=
  ∀ s, match c.run s with
    | .ok a t => f s = .ok (a, t)
    | .error e _ => ∀ e' ∈ er e, f s = .error e'

namespace Refines

theorem of_ok {c : EStateM ε σ α} {f : σ → Except ε' (α × σ)} (h : Refines er c f) {s t : σ} {a : α}
    (hc : c.run s = .ok a t) : f s = .ok (a, t) := by
  have := h s
  rwa [hc] at this

theorem pure (a : α) : Refines er (pure a : EStateM ε σ α) fun s => .ok (a, s) := fun _ => rfl

theorem bind {c : EStateM ε σ α} {f : σ → Except ε' (α × σ)} {d : α → EStateM ε σ β}
    {g : α → σ → Except ε' (β × σ)} (hc : Refines er c f) (hd : ∀ a, Refines er (d a) (g a)) :
    Refines er (c >>= d) fun s => f s >>= fun p => g p.1 p.2 := by
  intro s
  rw [EStateM.run_bind]
  have h := hc s
  split at h <;> rename_i hrun
  · rw [hrun]
    simp only [h]
    exact hd _ _
  · rw [hrun]
    intro e' he'
    simp only [h e' he']
    rfl

theorem map {c : EStateM ε σ α} {f : σ → Except ε' (α × σ)} (hc : Refines er c f) (g : α → β) :
    Refines er (c >>= fun a => Pure.pure (g a)) fun s => f s >>= fun p => Pure.pure (g p.1, p.2) :=
  hc.bind fun a => .pure (g a)

/-- A call that looks at the state first. -/
theorem bind_get {d : σ → EStateM ε σ β} {g : σ → Except ε' (β × σ)}
    (hd : ∀ s, match (d s).run s with
      | .ok a t => g s = .ok (a, t)
      | .error e _ => ∀ e' ∈ er e, g s = .error e') : Refines er (get >>= d) g := fun s => hd s

end Refines

end Tigerkin.Throw
