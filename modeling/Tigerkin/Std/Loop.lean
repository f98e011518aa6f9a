import Mathlib.Logic.Relation

/-! # Loops

A loop is given by its body `body : σ → σ ⊕ ρ`, which goes on with a new state or returns. `run`
evaluates it for a number of rounds, and `Returns` says that it returns after some number. -/

namespace Tigerkin.Loop

variable {σ ρ : Type} {body : σ → σ ⊕ ρ} {s s' : σ} {r r' : ρ}

def run (body : σ → σ ⊕ ρ) : Nat → σ → Option ρ
  | 0, _ => none
  | fuel + 1, s =>
    match body s with
    | .inl s' => run body fuel s'
    | .inr r => some r

/-- The loop returns `r` from `s`. -/
def Returns (body : σ → σ ⊕ ρ) (s : σ) (r : ρ) : Prop :=
  ∃ fuel, run body fuel s = some r

theorem returns_map {τ : Type} {f : ρ → τ} {t : τ} :
    (∃ fuel, (run body fuel s).map f = some t) ↔ ∃ r, Returns body s r ∧ f r = t := by
  simp only [Option.map_eq_some_iff, Returns]
  constructor
  · rintro ⟨fuel, r, hr, rfl⟩
    exact ⟨r, ⟨fuel, hr⟩, rfl⟩
  · rintro ⟨r, ⟨fuel, hr⟩, rfl⟩
    exact ⟨fuel, r, hr, rfl⟩

/-- What a round has come to leads to `r`. -/
def Continues (body : σ → σ ⊕ ρ) : σ ⊕ ρ → ρ → Prop
  | .inl s, r => Returns body s r
  | .inr r', r => r' = r

theorem run_succ_next (h : body s = .inl s') (fuel : Nat) :
    run body (fuel + 1) s = run body fuel s' := by
  simp only [run, h]

theorem run_succ_done (h : body s = .inr r) (fuel : Nat) : run body (fuel + 1) s = some r := by
  simp only [run, h]

theorem run_mono {n m : Nat} (hnm : n ≤ m) (h : run body n s = some r) :
    run body m s = some r := by
  induction n generalizing m s with
  | zero => cases h
  | succ n ih =>
    obtain ⟨m, rfl⟩ := Nat.exists_eq_add_of_le' (Nat.le_trans (Nat.le_add_left 1 n) hnm)
    cases hb : body s with
    | inl s' =>
      rw [run_succ_next hb] at h ⊢
      exact ih (Nat.le_of_succ_le_succ hnm) h
    | inr r' => rwa [run_succ_done hb] at h ⊢

theorem run_map_mono {τ : Type} {f : ρ → τ} {t : τ} {n m : Nat} (hnm : n ≤ m)
    (h : (run body n s).map f = some t) : (run body m s).map f = some t := by
  obtain ⟨r, hr, rfl⟩ := Option.map_eq_some_iff.mp h
  rw [run_mono hnm hr]
  rfl

namespace Returns

theorem done (h : body s = .inr r) : Returns body s r :=
  ⟨1, run_succ_done h 0⟩

theorem next (h : body s = .inl s') (hr : Returns body s' r) : Returns body s r := by
  obtain ⟨fuel, hr⟩ := hr
  exact ⟨fuel + 1, (run_succ_next h fuel).trans hr⟩

/-- What the loop returns after a round. -/
theorem of_round (h : Continues body (body s) r) : Returns body s r := by
  cases hb : body s with
  | inl s' =>
    rw [hb] at h
    exact next hb h
  | inr r' =>
    rw [hb] at h
    exact done (hb.trans (congrArg Sum.inr h))

theorem of_next (h : body s = .inl s') (hr : Returns body s r) : Returns body s' r := by
  obtain ⟨fuel, hr⟩ := hr
  cases fuel with
  | zero => cases hr
  | succ fuel => exact ⟨fuel, (run_succ_next h fuel).symm.trans hr⟩

theorem of_done (h : body s = .inr r') (hr : Returns body s r) : r = r' := by
  obtain ⟨fuel, hr⟩ := hr
  cases fuel with
  | zero => cases hr
  | succ fuel => exact Option.some.inj (hr.symm.trans (run_succ_done h fuel))

theorem unique (h : Returns body s r) (h' : Returns body s r') : r = r' := by
  obtain ⟨n, h⟩ := h
  obtain ⟨m, h'⟩ := h'
  have h1 := run_mono (Nat.le_max_left n m) h
  have h2 := run_mono (Nat.le_max_right n m) h'
  exact Option.some.inj (h1.symm.trans h2)

/-- What every round keeps holds when the loop returns. -/
theorem inv {I : σ → Prop} {Q : ρ → Prop} (hr : Returns body s r) (h0 : I s)
    (hnext : ∀ {s s'}, I s → body s = .inl s' → I s')
    (hdone : ∀ {s r}, I s → body s = .inr r → Q r) : Q r := by
  obtain ⟨fuel, hr⟩ := hr
  induction fuel generalizing s with
  | zero => cases hr
  | succ fuel ih =>
    cases hb : body s with
    | inl s' =>
      rw [run_succ_next hb] at hr
      exact ih (hnext h0 hb) hr
    | inr r' =>
      rw [run_succ_done hb] at hr
      cases hr
      exact hdone h0 hb

end Returns

/-- A loop that goes on from every state of `I` to one of `I` does not return. -/
theorem not_returns {I : σ → Prop} (h0 : I s) (hI : ∀ s, I s → ∃ s', body s = .inl s' ∧ I s') :
    ¬Returns body s r := by
  intro hr
  refine hr.inv (I := I) (Q := fun _ => False) h0 (fun hs hb => ?_) fun hs hb => ?_
  · obtain ⟨s₁, hs₁, h₁⟩ := hI _ hs
    rw [hs₁] at hb
    cases hb
    exact h₁
  · obtain ⟨s₁, hs₁, -⟩ := hI _ hs
    rw [hs₁] at hb
    cases hb

/-- The states that the loop comes to. -/
def Reaches (body : σ → σ ⊕ ρ) : σ → σ → Prop :=
  Relation.ReflTransGen fun s s' => body s = .inl s'

theorem Reaches.inv {I : σ → Prop} (h : Reaches body s s') (h0 : I s)
    (hnext : ∀ {s s'}, I s → body s = .inl s' → I s') : I s' := by
  induction h with
  | refl => exact h0
  | tail _ hb ih => exact hnext ih hb

theorem Reaches.returns (h : Reaches body s s') (hr : Returns body s r) : Returns body s' r := by
  induction h with
  | refl => exact hr
  | tail _ hb ih => exact ih.of_next hb

theorem Reaches.returns_of (h : Reaches body s s') (hr : Returns body s' r) : Returns body s r := by
  induction h with
  | refl => exact hr
  | tail _ hb ih => exact ih (.next hb hr)

/-- The last round of a loop that returns. -/
theorem Returns.last (hr : Returns body s r) : ∃ s', Reaches body s s' ∧ body s' = .inr r := by
  obtain ⟨fuel, hr⟩ := hr
  induction fuel generalizing s with
  | zero => cases hr
  | succ fuel ih =>
    cases hb : body s with
    | inl s' =>
      rw [run_succ_next hb] at hr
      obtain ⟨t, ht, hdone⟩ := ih hr
      exact ⟨t, .head hb ht, hdone⟩
    | inr r' =>
      rw [run_succ_done hb] at hr
      cases hr
      exact ⟨s, .refl, hb⟩

/-- A loop that makes progress in every round but those of stuck states, which stay stuck, returns
if and only if it comes to no stuck state. -/
theorem returns_iff {I Stuck : σ → Prop} {m : σ → Nat} (h0 : I s)
    (hnext : ∀ {s s'}, I s → body s = .inl s' → I s')
    (hdec : ∀ {s s'}, I s → ¬Stuck s → body s = .inl s' → m s' < m s)
    (hstuck : ∀ {s}, I s → Stuck s → ∃ s', body s = .inl s' ∧ Stuck s') :
    (∃ r, Returns body s r) ↔ ∀ s', Reaches body s s' → ¬Stuck s' := by
  constructor
  · rintro ⟨r, hr⟩ s' h hs'
    refine not_returns (I := fun s => I s ∧ Stuck s) ⟨h.inv h0 hnext, hs'⟩ (fun t ht => ?_)
      (h.returns hr)
    obtain ⟨t', hb, ht'⟩ := hstuck ht.1 ht.2
    exact ⟨t', hb, hnext ht.1 hb, ht'⟩
  · intro h
    induction hm : m s using Nat.strongRecOn generalizing s with
    | ind k ih =>
      cases hb : body s with
      | inl s' =>
        obtain ⟨r, hr⟩ := ih (m s') (hm ▸ hdec h0 (h s .refl) hb) (hnext h0 hb)
          (fun t ht => h t (.head hb ht)) rfl
        exact ⟨r, .next hb hr⟩
      | inr r => exact ⟨r, .done hb⟩

end Tigerkin.Loop
