import Mathlib.Algebra.BigOperators.Ring.Finset
import Tigerkin.Http.PoolConservation

/-! # The size of the pool

`m_maxSize` is stored and never read. The counter stays within it in runs in which a `getConnection`
that finds no connection to hand out has room for a new one (`total_le_maxSize`). -/

namespace Tigerkin.Http

/-- The call has found no connection to hand out, and has not counted a new one. -/
def PoolPhase.creating : PoolPhase → Nat
  | .swept _ none | .deleted _ none | .connecting | .created _ => 1
  | _ => 0

namespace HttpConnectionPool

variable {H : Type} [DecidableEq H] [Fintype H] {s s' : HttpConnectionPool H} {k : H}

/-- The calls that are about to create a connection. -/
def creators (s : HttpConnectionPool H) : Nat := ∑ k, (s.phase k).creating

/-- The call is about to search the list and will find no connection to hand out. -/
def FindsNone (s : HttpConnectionPool H) (k : H) : Bool :=
  match s.phase k with
  | .started now => (s.sweepLoop now s.conns).2.1.isNone
  | _ => false

/-- The condition on a step: a call that finds no connection in the list to hand out finds fewer
than `m_maxSize` connections counted or about to be created. -/
def HasRoom (s : HttpConnectionPool H) : PoolStep H → Prop
  | .sweep k => s.FindsNone k = true → s.total + s.creators < s.maxSize
  | _ => True

instance (s : HttpConnectionPool H) : ∀ a, Decidable (s.HasRoom a)
  | .sweep k => inferInstanceAs (Decidable (s.FindsNone k = true → _))
  | .start _ | .delete _ | .subtract _ | .fail _ | .create _ | .count _ | .release _ | .destroy _
  | .uncount _ | .pushBack _ | .close _ | .setClock _ => inferInstanceAs (Decidable True)

/-- The connections counted and those about to be created are within the bound. -/
def Bounded (s : HttpConnectionPool H) : Prop := s.total + s.creators ≤ s.maxSize

/-- A move of a holder that counts no more than it was about to create keeps the bound. -/
theorem Bounded.move (hb : s.Bounded) {ph : PoolPhase} (hmax : s'.maxSize = s.maxSize)
    (hphase : s'.phase = Function.update s.phase k ph)
    (htotal : s'.total + ph.creating ≤ s.total + (s.phase k).creating) : s'.Bounded := by
  have hsum := sum_update s.phase PoolPhase.creating k ph
  unfold Bounded creators at *
  rw [hmax, hphase]
  omega

theorem Bounded.sweep (hb : s.Bounded) (hg : s.HasRoom (.sweep k)) {now : Nat}
    (hph : s.phase k = .started now) :
    ({ s with conns := (s.sweepLoop now s.conns).2.2 }.setPhase k
      (.swept (s.sweepLoop now s.conns).1 (s.sweepLoop now s.conns).2.1)).Bounded := by
  cases hptr : (s.sweepLoop now s.conns).2.1 with
  | some ptr => exact hb.move rfl rfl (by rw [hph]; exact Int.le_refl _)
  | none =>
    have hroom := hg (by simp [FindsNone, hph, hptr])
    have hsum := sum_update s.phase PoolPhase.creating k
      (.swept (s.sweepLoop now s.conns).1 none)
    have hone : (PoolPhase.swept (s.sweepLoop now s.conns).1 none).creating = 1 := rfl
    have hzero : (PoolPhase.started now).creating = 0 := rfl
    rw [hph, hone, hzero] at hsum
    unfold Bounded creators setPhase at *
    dsimp only
    omega

theorem Bounded.step (hb : s.Bounded) {a : PoolStep H} (hg : s.HasRoom a)
    (h : s.step a = some s') : s'.Bounded := by
  cases a with
  | sweep k =>
    simp only [HttpConnectionPool.step] at h
    split at h
    · cases h
      exact hb.sweep hg ‹_›
    · cases h
  | subtract k =>
    simp only [HttpConnectionPool.step] at h
    split at h
    · cases h
      refine hb.move rfl rfl ?_
      simp [*, PoolPhase.creating, hand, setPhase, modify]
    · cases h
      refine hb.move rfl rfl ?_
      simp [*, PoolPhase.creating, setPhase]
    · cases h
  | count k =>
    simp only [HttpConnectionPool.step] at h
    split at h
    · cases h
      refine hb.move rfl rfl ?_
      simp [*, PoolPhase.creating, hand, setPhase, modify]
    · cases h
  | uncount k =>
    simp only [HttpConnectionPool.step] at h
    split at h
    · cases h
      refine hb.move rfl rfl ?_
      simp [*, PoolPhase.creating, setPhase]
    · cases h
  | release k =>
    simp only [HttpConnectionPool.step] at h
    split at h
    · cases h
      unfold releasePtr
      dsimp only
      split <;> exact hb.move rfl rfl (by simp [*, PoolPhase.creating, setPhase, modify])
    · cases h
  | delete k =>
    simp only [HttpConnectionPool.step] at h
    split at h
    · rename_i invalidConns ptr hph
      cases h
      exact hb.move rfl rfl (by rw [hph]; cases ptr <;> exact Int.le_refl _)
    · cases h
  | start k | fail k | create k | destroy k | pushBack k =>
    simp only [HttpConnectionPool.step] at h
    split at h
    · cases h
      exact hb.move rfl rfl (by simp [*, PoolPhase.creating, setPhase])
    · cases h
  | close conn | setClock now =>
    cases h
    exact hb

/-! ## What is counted -/

omit [DecidableEq H] in
/-- A live connection that is not counted yet is about to be. -/
theorem Inv.live_le (hinv : s.Inv) : (s.live.card : Int) ≤ s.total + s.creators := by
  have hphase : ∀ k, 0 ≤ (s.phase k).debt + (s.phase k).creating := by
    intro k
    cases s.phase k <;> simp [PoolPhase.debt, PoolPhase.creating]
    omega
  have hsum := Finset.sum_nonneg fun k (_ : k ∈ Finset.univ) => hphase k
  rw [Finset.sum_add_distrib] at hsum
  have htotal := hinv.total
  rw [creators, Nat.cast_sum]
  omega

omit [DecidableEq H] in
theorem Inv.conns_le (hinv : s.Inv) : s.conns.length ≤ s.live.card := by
  have hnodup : s.conns.Nodup := by
    rw [List.nodup_iff_count_le_one]
    intro c
    have := hinv.tokens c
    split at this <;> omega
  rw [← List.toFinset_card_of_nodup hnodup]
  exact Finset.card_le_card fun c hc => hinv.live_of_conns (List.mem_toFinset.mp hc)

variable {maxSize maxAliveTime maxRequest now : Nat}

/-- **The bound of the pool**: in a run in which every call that is going to create a connection has
room for it, neither the counter nor the list exceeds `m_maxSize`. -/
theorem total_le_maxSize
    (h : Reach step HasRoom (init maxSize maxAliveTime maxRequest now : HttpConnectionPool H) s) :
    s.total ≤ maxSize ∧ s.conns.length ≤ maxSize := by
  obtain ⟨hinv, rfl, -, -⟩ := reach_inv h
  have hinit : (init s.maxSize maxAliveTime maxRequest now : HttpConnectionPool H).Bounded := by
    simp [Bounded, creators, init, PoolPhase.creating]
  have hb : s.Bounded := h.inv (I := Bounded) hinit fun hb hg hs => hb.step hg hs
  have h1 := hinv.live_le
  have h2 := hinv.conns_le
  unfold Bounded at hb
  omega

/-- One connection for two calls, one after the other. -/
theorem total_le_maxSize_reuse : ∃ s : HttpConnectionPool Bool,
    Reach step HasRoom (init 1 1000 5 0) s ∧ s.phase false = .holding 0 ∧
      s.total ≤ (1 : Nat) ∧ s.conns.length ≤ 1 := by
  obtain ⟨s, hs, h⟩ := Reach.of_any step HasRoom (init 1 1000 5 0) reuse
    (fun s => s.phase false = .holding 0) (by decide)
  exact ⟨s, hs, by simpa using h, total_le_maxSize hs⟩

/-- Two calls at the same time on a pool for one connection: two connections are counted, and then
both are in the list. -/
theorem pool_outgrows_maxSize : ∃ s : HttpConnectionPool Bool,
    Reach step Always (init 1 1000 5 0) s ∧ s.total = 2 ∧ s.conns = [0, 1] := by
  obtain ⟨s, hs, h⟩ := Reach.of_any step Always (init 1 1000 5 0)
    [.start true, .sweep true, .delete true, .subtract true, .create true, .count true,
      .start false, .sweep false, .delete false, .subtract false, .create false, .count false,
      .release true, .pushBack true, .release false, .pushBack false]
    (fun s => s.total = 2 ∧ s.conns = [0, 1]) (by decide)
  exact ⟨s, hs, by simpa using h⟩

end HttpConnectionPool

end Tigerkin.Http
