import Tigerkin.Timer.Invariant

/-! # Expiry

`listExpiredCbs` computes the cut between expired and other timers with the lower bound of a probe
object and a walk over the ties. In a sorted set the cut is exact whatever the address of the probe
(`Inv.splitExpired_eq`), and the loop over the expired timers changes them and no other object
(`foldl_expireOne`). -/

namespace Tigerkin.TimerManager

variable {κ : Type} {m : TimerManager κ} {now : UInt64} {probe : Addr}

/-- The timer `a` is due at `now`. -/
def due (m : TimerManager κ) (now : UInt64) (a : Addr) : Bool := (m.heap a).next ≤ now

/-- The timers that are due, in set order. -/
def expired (m : TimerManager κ) (now : UInt64) : List Addr := m.timers.filter (m.due now)

/-- What becomes of a timer object that expires. -/
def expiredTimer (now : UInt64) (t : Timer κ) : Timer κ :=
  if t.recurring then { t with next := now + t.ms } else { t with cb := none }

private theorem beforeProbe_iff {t : Timer κ} {a : Addr} :
    Timer.comparator (some (a, t)) (some (probe, { next := now })) = true ↔
      t.next < now ∨ t.next = now ∧ a < probe := by
  simp only [Timer.comparator]
  split
  · simp [*]
  · split
    · grind
    · grind

private theorem filter_append_of_forall {p : Addr → Bool} {l l' : List Addr}
    (h : ∀ a ∈ l, p a = true) (h' : ∀ a ∈ l', p a = false) :
    (l ++ l').filter p = l ∧ (l ++ l').filter (fun a => !p a) = l' := by
  refine ⟨?_, ?_⟩
  · rw [List.filter_append, List.filter_eq_self.mpr h,
      List.filter_eq_nil_iff.mpr fun a ha => by simp [h' a ha], List.append_nil]
  · rw [List.filter_append, List.filter_eq_nil_iff.mpr fun a ha => by simp [h a ha],
      List.filter_eq_self.mpr fun a ha => by simp [h' a ha], List.nil_append]

/-- **The cut is exact**: the iterator separates the timers that are due from the others, for
every address of the probe. -/
theorem Inv.splitExpired_eq (H : m.Inv) : m.splitExpired now probe =
    (m.expired now, m.timers.filter fun a => !m.due now a) := by
  unfold splitExpired
  simp only
  generalize hbefore : (fun a => Timer.comparator (some (a, m.heap a))
    (some (probe, ({ next := now } : Timer κ)))) = before
  generalize htie : (fun a => (m.heap a).next == now) = tie
  have before_iff : ∀ a, before a = true ↔
      (m.heap a).next < now ∨ (m.heap a).next = now ∧ a < probe := by
    intro a
    rw [← hbefore]
    exact beforeProbe_iff
  have tie_iff : ∀ a, tie a = true ↔ (m.heap a).next = now := by
    intro a
    simp [← htie]
  have hit : ∀ a ∈ m.timers.dropWhile before, now ≤ (m.heap a).next := by
    intro a ha
    have := H.sorted.not_of_mem_dropWhile (q := before) (fun x _ y _ hxy hy => by
      rw [before_iff] at hy ⊢
      rw [less_iff] at hxy
      grind) ha
    rw [← Bool.not_eq_true, before_iff] at this
    grind
  have hrest : ∀ a ∈ (m.timers.dropWhile before).dropWhile tie, m.due now a = false := by
    intro a ha
    have hs := H.sorted.sublist (List.dropWhile_sublist before)
    -- among the timers that are left, a tie cannot come after a later deadline
    have hnot := OrdSet.Sorted.not_of_mem_dropWhile (q := tie) hs (fun x hx y _ hxy hy => by
      rw [tie_iff] at hy ⊢
      rw [less_iff] at hxy
      have := hit x hx
      grind) ha
    rw [← Bool.not_eq_true, tie_iff] at hnot
    have := hit a ((List.dropWhile_sublist tie).subset ha)
    simp only [due, decide_eq_false_iff_not]
    grind
  have hfirst : ∀ a ∈ m.timers.takeWhile before ++ (m.timers.dropWhile before).takeWhile tie,
      m.due now a = true := by
    intro a ha
    simp only [due, decide_eq_true_eq]
    rcases List.mem_append.mp ha with ha | ha
    · have := (before_iff a).mp (List.mem_takeWhile_imp ha)
      grind
    · have := (tie_iff a).mp (List.mem_takeWhile_imp ha)
      grind
  have hsplit : m.timers = (m.timers.takeWhile before ++ (m.timers.dropWhile before).takeWhile tie)
      ++ (m.timers.dropWhile before).dropWhile tie := by
    rw [List.append_assoc, List.takeWhile_append_dropWhile, List.takeWhile_append_dropWhile]
  obtain ⟨h1, h2⟩ := filter_append_of_forall hfirst hrest
  rw [← hsplit] at h1 h2
  exact Prod.ext h1.symm h2.symm

theorem expireOne_eq (now : UInt64) (m : TimerManager κ) (cbs : List (Option κ)) (a : Addr) :
    expireOne now (m, cbs) a =
      (if (m.heap a).recurring then (m.setTimer a (expiredTimer now (m.heap a))).insertTimer a
        else m.setTimer a (expiredTimer now (m.heap a)), cbs ++ [(m.heap a).cb]) := by
  unfold expireOne expiredTimer
  simp only
  split
  · rfl
  · rfl

/-- The loop over the expired timers, none of which is in the set when the loop starts. -/
theorem foldl_expireOne (now : UInt64) {l : List Addr} {m : TimerManager κ}
    (cbs : List (Option κ)) (H : m.Inv) (hl : l.Nodup) (hnot : ∀ a ∈ l, a ∉ m.timers)
    (hlive : ∀ a ∈ l, m.live a = true) :
    let r := l.foldl (expireOne now) (m, cbs)
    r.1.Inv ∧ r.2 = cbs ++ l.map (fun a => (m.heap a).cb) ∧
      (∀ x, r.1.heap x = if x ∈ l then expiredTimer now (m.heap x) else m.heap x) ∧
      ∀ x, x ∈ r.1.timers ↔ x ∈ m.timers ∨ x ∈ l ∧ (m.heap x).recurring = true := by
  induction l generalizing m cbs with
  | nil => simp [H]
  | cons a l ih =>
    obtain ⟨ha, hl⟩ := List.nodup_cons.mp hl
    have hset := H.setTimer_of_notMem (t := expiredTimer now (m.heap a)) (hnot a (.head _))
    rw [List.foldl_cons, expireOne_eq]
    generalize hm' : (if (m.heap a).recurring = true then
      (m.setTimer a (expiredTimer now (m.heap a))).insertTimer a
      else m.setTimer a (expiredTimer now (m.heap a))) = m'
    have H' : m'.Inv := by
      rw [← hm']
      split
      · exact hset.insertTimer (hlive a (.head _))
      · exact hset
    have hheap : m'.heap = Function.update m.heap a (expiredTimer now (m.heap a)) := by
      rw [← hm']
      split
      · rfl
      · rfl
    have hother : ∀ x, x ≠ a → m'.heap x = m.heap x := fun x hx => by
      rw [hheap, Function.update_of_ne hx]
    have hmem : ∀ x, x ∈ m'.timers ↔ x = a ∧ (m.heap a).recurring = true ∨ x ∈ m.timers := by
      intro x
      rw [← hm']
      split
      · rw [hset.mem_insertTimer]
        simp [*]
      · simp [*]
    have hlive' : m'.live = m.live := by
      rw [← hm']
      split
      · rfl
      · rfl
    have hne : ∀ x ∈ l, x ≠ a := fun x hx e => ha (e ▸ hx)
    obtain ⟨h1, h2, h3, h4⟩ := ih (m := m') (cbs ++ [(m.heap a).cb]) H' hl
      (fun x hx h => by
        rcases (hmem x).mp h with h | h
        · exact hne x hx h.1
        · exact hnot x (.tail _ hx) h)
      (fun x hx => by rw [hlive']; exact hlive x (.tail _ hx))
    refine ⟨h1, ?_, fun x => ?_, fun x => ?_⟩
    · rw [h2, List.append_assoc, List.map_cons, List.singleton_append]
      congr 2
      exact List.map_congr_left fun x hx => by rw [hother x (hne x hx)]
    · rw [h3]
      by_cases hx : x = a
      · subst hx
        rw [if_neg ha, if_pos (.head _), hheap, Function.update_self]
      · rw [hother x hx]
        simp [hx]
    · rw [h4, hmem]
      by_cases hx : x = a
      · subst hx
        have := hnot x (.head _)
        simp [ha, this]
      · rw [hother x hx]
        simp [hx]

/-- What `listExpiredCbs` does to a manager whose set is sorted. -/
theorem Inv.listExpiredCbs_spec (H : m.Inv) (cbs : List (Option κ)) (now : UInt64) (probe : Addr) :
    let r := m.listExpiredCbs cbs now probe
    r.1.Inv ∧ r.2 = cbs ++ (m.expired now).map (fun a => (m.heap a).cb) ∧
      (∀ x, r.1.heap x =
        if x ∈ m.expired now then expiredTimer now (m.heap x) else m.heap x) ∧
      ∀ x, x ∈ r.1.timers ↔
        x ∈ m.timers ∧ x ∉ m.expired now ∨ x ∈ m.expired now ∧ (m.heap x).recurring = true := by
  unfold listExpiredCbs
  split
  · rename_i he
    have he' : m.timers = [] := by simpa using he
    simp [expired, he', H]
  · rw [H.splitExpired_eq]
    have hsub : ∀ x ∈ m.expired now, x ∈ m.timers := fun x hx => (List.mem_filter.mp hx).1
    have Hrest : Inv { m with timers := m.timers.filter fun a => !m.due now a } :=
      ⟨H.sorted.sublist List.filter_sublist, fun a ha => H.live a (List.mem_filter.mp ha).1⟩
    obtain ⟨h1, h2, h3, h4⟩ := foldl_expireOne now cbs Hrest (H.nodup.filter (m.due now))
      (fun a ha h => by
        have h' := (List.mem_filter.mp h).2
        rw [(List.mem_filter.mp ha).2] at h'
        cases h')
      (fun a ha => H.live a (hsub a ha))
    refine ⟨h1, h2, h3, fun x => (h4 x).trans ?_⟩
    simp only [expired, List.mem_filter]
    cases m.due now x <;> simp

theorem Inv.getNextTime_eq_zero (H : m.Inv) : m.getNextTime now = 0 ↔ m.expired now ≠ [] := by
  have hs : OrdSet.Sorted m.less m.timers := H.sorted
  unfold getNextTime expired
  cases hl : m.timers with
  | nil => simp
  | cons a l =>
    rw [hl] at hs
    simp only
    have hdue : m.due now a = decide ((m.heap a).next ≤ now) := rfl
    split
    · rename_i h
      simp [h, hdue]
    · rename_i h
      have hall : ∀ x ∈ a :: l, m.due now x = false := by
        intro x hx
        simp only [due, decide_eq_false_iff_not]
        rcases List.mem_cons.mp hx with rfl | hx
        · exact h
        · have := less_iff.mp ((List.pairwise_cons.mp hs).1 x hx)
          grind
      have hsub : ¬ (m.heap a).next - now = 0 := by
        intro h0
        apply h
        grind
      rw [List.filter_eq_nil_iff.mpr (by simpa using hall)]
      simp [hsub]

/-! ## Reachable managers -/

theorem Inv.step (H : m.Inv) {op : Op κ} {m' : TimerManager κ} (h : m.step op = some m') :
    m'.Inv := by
  cases op with
  | addTimer a ms cb recurring now =>
    simp only [TimerManager.step] at h
    split at h
    · cases h
    · cases h
      exact H.addTimer (Bool.eq_false_iff.mpr ‹_›) ..
  | cancel a =>
    obtain ⟨-, h⟩ := Option.ite_none_right_eq_some.mp h
    cases h
    exact H.cancel a
  | refresh a now =>
    obtain ⟨-, h⟩ := Option.ite_none_right_eq_some.mp h
    cases h
    exact H.refresh a now
  | reset a ms now =>
    obtain ⟨-, h⟩ := Option.ite_none_right_eq_some.mp h
    cases h
    exact H.reset a ms now
  | cancelAllTimers =>
    cases h
    exact .cancelAllTimers m
  | listExpiredCbs now probe =>
    cases h
    exact (H.listExpiredCbs_spec [] now probe).1
  | release a =>
    simp only [TimerManager.step] at h
    split at h
    · cases h
    · rename_i ha
      cases h
      refine ⟨H.sorted, fun b hb => ?_⟩
      have hb' : b ≠ a := fun e => ha (e ▸ hb)
      simpa [Function.update_of_ne hb'] using H.live b hb

theorem Reachable.inv (h : m.Reachable) : m.Inv :=
  Reach.inv h ⟨List.Pairwise.nil, fun _ ha => nomatch ha⟩ fun H _ hs => H.step hs

/-- **Expiry is exact.** In every reachable state, at every time and for every address of the
probe: the callbacks of the due timers are appended in set order, once each; a due one-shot timer
leaves the set and loses its callback; a due recurring timer is in the set with its next deadline;
everything else is untouched; and `getNextTime` announced it. -/
theorem listExpiredCbs_exact (h : m.Reachable) (cbs : List (Option κ)) (now : UInt64)
    (probe : Addr) :
    let r := m.listExpiredCbs cbs now probe
    r.2 = cbs ++ (m.expired now).map (fun a => (m.heap a).cb) ∧ (m.expired now).Nodup ∧
      (∀ a, a ∈ m.expired now ↔ a ∈ m.timers ∧ (m.heap a).next ≤ now) ∧
      (∀ a ∈ m.expired now, (m.heap a).recurring = false →
        a ∉ r.1.timers ∧ r.1.heap a = { m.heap a with cb := none }) ∧
      (∀ a ∈ m.expired now, (m.heap a).recurring = true →
        a ∈ r.1.timers ∧ r.1.heap a = { m.heap a with next := now + (m.heap a).ms }) ∧
      (∀ a, a ∉ m.expired now →
        (a ∈ r.1.timers ↔ a ∈ m.timers) ∧ r.1.heap a = m.heap a) ∧
      (m.getNextTime now = 0 ↔ cbs.length < r.2.length) := by
  have H := h.inv
  obtain ⟨-, hcbs, hheap, hmem⟩ := H.listExpiredCbs_spec cbs now probe
  refine ⟨hcbs, H.nodup.filter _, fun a => ?_, fun a ha hr => ?_, fun a ha hr => ?_,
    fun a ha => ?_, ?_⟩
  · simp [expired, due]
  · refine ⟨fun h' => ?_, ?_⟩
    · rcases (hmem a).mp h' with h' | h'
      · exact h'.2 ha
      · rw [hr] at h'
        exact absurd h'.2 Bool.false_ne_true
    · rw [hheap, if_pos ha, expiredTimer, if_neg (by simp [hr])]
  · refine ⟨(hmem a).mpr (.inr ⟨ha, hr⟩), ?_⟩
    rw [hheap, if_pos ha, expiredTimer, if_pos hr]
  · refine ⟨(hmem a).trans ?_, by rw [hheap, if_neg ha]⟩
    simp [ha]
  · rw [H.getNextTime_eq_zero, hcbs, List.length_append, List.length_map,
      ← List.length_pos_iff]
    omega

/-- A one-shot timer and a recurring one, both due, with a third that is not. -/
theorem listExpiredCbs_exact_three :
    ∃ m : TimerManager Nat, m.Reachable ∧ m.timers = [7, 3, 5] ∧
      (m.listExpiredCbs [] 20 4).2 = [some 1, some 2] := by
  let ops : List (Op Nat) := [.addTimer 3 10 (some 2) true 10, .addTimer 5 50 (some 9) false 10,
    .addTimer 7 5 (some 1) false 10]
  obtain ⟨m, hm⟩ : ∃ m, ops.foldlM (fun s a => if Always s a then step s a else none)
      ({} : TimerManager Nat) = some m := ⟨_, rfl⟩
  have hr : m.Reachable := .of_foldlM _ _ _ _ hm
  cases hm
  refine ⟨_, hr, by decide, ?_⟩
  rw [(listExpiredCbs_exact hr [] 20 4).1]
  decide

end Tigerkin.TimerManager
