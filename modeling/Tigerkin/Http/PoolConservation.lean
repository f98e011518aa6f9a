import Mathlib.Algebra.Order.BigOperators.Group.Finset
import Mathlib.Data.List.Nodup
import Tigerkin.Http.ConnectionPool
import Tigerkin.Std.Sum

/-! # Conservation of connections

Every live connection is in `m_conns` or has one owner, and the counter differs from the number of
live connections by what the calls in progress have still to add or subtract
(`connections_conserved`). -/

namespace Tigerkin.Http

/-- The connections that a holder has taken out of the pool or created. -/
def PoolPhase.owned : PoolPhase → List Nat
  | .swept invalidConns ptr => invalidConns ++ ptr.toList
  | .deleted _ ptr => ptr.toList
  | .created ptr | .holding ptr | .retiring ptr | .returning ptr => [ptr]
  | _ => []

/-- What the call has still to subtract from the counter. -/
def PoolPhase.debt : PoolPhase → Int
  | .deleted size _ => size
  | .created _ => -1
  | .retired => 1
  | _ => 0

namespace HttpConnectionPool

variable {H : Type} [DecidableEq H] [Fintype H] {s s' : HttpConnectionPool H} {k : H} {c : Nat}

/-- A connection that waits for its next use. -/
structure Pooled (s : HttpConnectionPool H) (c : Nat) : Prop where
  handed : (s.connection c).handed = (s.connection c).request
  request : (s.connection c).request < s.maxRequest

/-- What a holder knows of its connections. -/
def PhaseOk (s : HttpConnectionPool H) : PoolPhase → Prop
  | .swept invalidConns ptr => ∀ c ∈ invalidConns ++ ptr.toList, s.Pooled c
  | .deleted _ ptr => ∀ c ∈ ptr.toList, s.Pooled c
  | .created ptr => (s.connection ptr).handed = 0 ∧ (s.connection ptr).request = 0
  | .holding ptr => (s.connection ptr).handed = (s.connection ptr).request + 1
  | .returning ptr => s.Pooled ptr
  | _ => True

structure Inv (s : HttpConnectionPool H) : Prop where
  tokens : ∀ c, s.conns.count c + ∑ k, (s.phase k).owned.count c = if c ∈ s.live then 1 else 0
  total : s.total = s.live.card + ∑ k, (s.phase k).debt
  fresh : ∀ c ∈ s.live, c < s.fresh
  handed : ∀ c, (s.connection c).handed ≤ max 1 s.maxRequest
  pooled : ∀ c ∈ s.conns, s.Pooled c
  phases : ∀ k, s.PhaseOk (s.phase k)

/-! ## Places of a connection -/

omit [DecidableEq H] in
theorem Inv.count_le (hinv : s.Inv) (k : H) (c : Nat) :
    s.conns.count c + (s.phase k).owned.count c ≤ if c ∈ s.live then 1 else 0 := by
  have h := hinv.tokens c
  have hk := Finset.single_le_sum (f := fun k => (s.phase k).owned.count c)
    (fun _ _ => Nat.zero_le _) (Finset.mem_univ k)
  omega

omit [DecidableEq H] in
theorem Inv.live_of_owned (hinv : s.Inv) (h : c ∈ (s.phase k).owned) : c ∈ s.live := by
  have := hinv.count_le k c
  have hpos := List.count_pos_iff.mpr h
  by_contra hlive
  rw [if_neg hlive] at this
  omega

omit [DecidableEq H] in
theorem Inv.live_of_conns (hinv : s.Inv) (h : c ∈ s.conns) : c ∈ s.live := by
  have := hinv.tokens c
  have hpos := List.count_pos_iff.mpr h
  by_contra hlive
  rw [if_neg hlive] at this
  omega

omit [DecidableEq H] in
theorem Inv.not_conns (hinv : s.Inv) (h : c ∈ (s.phase k).owned) : c ∉ s.conns := by
  intro hc
  have := hinv.count_le k c
  rw [if_pos (hinv.live_of_owned h)] at this
  have h1 := List.count_pos_iff.mpr h
  have h2 := List.count_pos_iff.mpr hc
  omega

omit [DecidableEq H] in
theorem Inv.owned_nodup (hinv : s.Inv) (k : H) : (s.phase k).owned.Nodup := by
  rw [List.nodup_iff_count_le_one]
  intro c
  have := hinv.count_le k c
  split at this <;> omega

theorem Inv.owner_unique (hinv : s.Inv) {j : H} (h : c ∈ (s.phase k).owned)
    (h' : c ∈ (s.phase j).owned) : j = k := by
  by_contra hjk
  have htok := hinv.tokens c
  rw [if_pos (hinv.live_of_owned h)] at htok
  have hk := Finset.add_sum_erase Finset.univ (fun k => (s.phase k).owned.count c)
    (Finset.mem_univ k)
  have hj := Finset.single_le_sum (f := fun k => (s.phase k).owned.count c)
    (fun _ _ => Nat.zero_le _) (Finset.mem_erase.mpr ⟨hjk, Finset.mem_univ j⟩)
  have h1 := List.count_pos_iff.mpr h
  have h2 := List.count_pos_iff.mpr h'
  omega

/-! ## One holder moves -/

omit [DecidableEq H] [Fintype H] in
/-- The connections of a phase have the same data in `s'`. -/
theorem PhaseOk.congr {ph : PoolPhase} (h : s.PhaseOk ph) (hmax : s'.maxRequest = s.maxRequest)
    (hdata : ∀ c ∈ ph.owned, (s'.connection c).handed = (s.connection c).handed ∧
      (s'.connection c).request = (s.connection c).request) : s'.PhaseOk ph := by
  have hpooled : ∀ c ∈ ph.owned, s.Pooled c → s'.Pooled c := by
    intro c hc hp
    obtain ⟨h1, h2⟩ := hdata c hc
    exact ⟨by rw [h1, h2, hp.handed], by rw [h2, hmax]; exact hp.request⟩
  cases ph with
  | swept invalidConns ptr => exact fun c hc => hpooled c hc (h c hc)
  | deleted size ptr => exact fun c hc => hpooled c hc (h c hc)
  | created ptr =>
    obtain ⟨h1, h2⟩ := hdata ptr List.mem_cons_self
    exact ⟨h1.trans h.1, h2.trans h.2⟩
  | holding ptr =>
    obtain ⟨h1, h2⟩ := hdata ptr List.mem_cons_self
    have : (s.connection ptr).handed = (s.connection ptr).request + 1 := h
    show (s'.connection ptr).handed = (s'.connection ptr).request + 1
    omega
  | returning ptr => exact hpooled ptr List.mem_cons_self h
  | _ => trivial

/-- `s'` is `s` after a move of the holder `k`: the tokens and the counter are balanced, and only
connections of `k` have changed. -/
structure Moved (k : H) (s s' : HttpConnectionPool H) : Prop where
  maxRequest : s'.maxRequest = s.maxRequest
  phase : ∀ j, j ≠ k → s'.phase j = s.phase j
  tokens : ∀ c, s'.conns.count c + (s'.phase k).owned.count c + (if c ∈ s.live then 1 else 0) =
    s.conns.count c + (s.phase k).owned.count c + if c ∈ s'.live then 1 else 0
  total : s'.total + s.live.card + (s.phase k).debt = s.total + s'.live.card + (s'.phase k).debt
  fresh : ∀ c ∈ s'.live, c < s'.fresh
  data : ∀ c ∈ s.live, c ∉ (s.phase k).owned →
    (s'.connection c).handed = (s.connection c).handed ∧
      (s'.connection c).request = (s.connection c).request
  handed : ∀ c, (s'.connection c).handed ≤ max 1 s.maxRequest
  pooled : ∀ c ∈ s'.conns, c ∈ s.conns ∨ s'.Pooled c
  ok : s'.PhaseOk (s'.phase k)

theorem Inv.moved (hinv : s.Inv) (M : Moved k s s') : s'.Inv where
  tokens c := by
    have hsum := sum_move (f := fun j => (s.phase j).owned.count c)
      (g := fun j => (s'.phase j).owned.count c) (Finset.mem_univ k)
      fun j hj => by rw [M.phase j hj]
    have h1 := M.tokens c
    have h2 := hinv.tokens c
    omega
  total := by
    have hsum := sum_move (f := fun j => (s.phase j).debt) (g := fun j => (s'.phase j).debt)
      (Finset.mem_univ k) fun j hj => by rw [M.phase j hj]
    have h1 := M.total
    have h2 := hinv.total
    omega
  fresh := M.fresh
  handed c := by
    rw [M.maxRequest]
    exact M.handed c
  pooled c hc := by
    refine (M.pooled c hc).elim (fun hold => ?_) id
    obtain ⟨h1, h2⟩ := M.data c (hinv.live_of_conns hold) fun h => hinv.not_conns h hold
    have hp := hinv.pooled c hold
    exact ⟨by rw [h1, h2, hp.handed], by rw [h2, M.maxRequest]; exact hp.request⟩
  phases j := by
    by_cases hj : j = k
    · exact hj ▸ M.ok
    · rw [M.phase j hj]
      refine (hinv.phases j).congr M.maxRequest fun c hc => ?_
      exact M.data c (hinv.live_of_owned hc) fun h => hj (hinv.owner_unique h hc)

/-- A move that changes neither the objects nor what they hold. -/
theorem Inv.moved_same (hinv : s.Inv) (hmax : s'.maxRequest = s.maxRequest)
    (hconn : s'.connection = s.connection) (hlive : s'.live = s.live) (hfresh : s'.fresh = s.fresh)
    (hphase : ∀ j, j ≠ k → s'.phase j = s.phase j)
    (htok : ∀ c, s'.conns.count c + (s'.phase k).owned.count c =
      s.conns.count c + (s.phase k).owned.count c)
    (htotal : s'.total + (s.phase k).debt = s.total + (s'.phase k).debt)
    (hpooled : ∀ c ∈ s'.conns, c ∈ s.conns ∨ s'.Pooled c) (hok : s'.PhaseOk (s'.phase k)) :
    s'.Inv :=
  hinv.moved (k := k) {
    maxRequest := hmax
    phase := hphase
    tokens := fun c => by rw [htok, hlive]
    total := by rw [hlive]; omega
    fresh := by rw [hlive, hfresh]; exact hinv.fresh
    data := fun c _ _ => by rw [hconn]; exact ⟨rfl, rfl⟩
    handed := fun c => by rw [hconn]; exact hinv.handed c
    pooled := hpooled
    ok := hok }

/-! ## The steps -/

section
omit [Fintype H]

@[simp] theorem setPhase_self (s : HttpConnectionPool H) (k : H) (ph : PoolPhase) :
    (s.setPhase k ph).phase k = ph := Function.update_self ..

theorem setPhase_ne (s : HttpConnectionPool H) {j k : H} (ph : PoolPhase) (h : j ≠ k) :
    (s.setPhase k ph).phase j = s.phase j := Function.update_of_ne h ..

omit [DecidableEq H]

@[simp] theorem modify_self (s : HttpConnectionPool H) (c : Nat)
    (f : PoolConnection → PoolConnection) :
    (s.modify c f).connection c = f (s.connection c) := Function.update_self ..

/-- What the loop of `getConnection` takes from the list. -/
theorem sweepLoop_spec (s : HttpConnectionPool H) (now : Nat) (conns : List Nat) :
    conns = (s.sweepLoop now conns).1 ++ (s.sweepLoop now conns).2.1.toList ++
      (s.sweepLoop now conns).2.2 ∧
    (∀ c ∈ (s.sweepLoop now conns).2.1, (s.connection c).isConnected = true ∧
      now ≤ (s.connection c).createTime + s.maxAliveTime) ∧
    ((s.sweepLoop now conns).2.1 = none → (s.sweepLoop now conns).2.2 = []) := by
  induction conns with
  | nil => simp [sweepLoop]
  | cons conn conns ih =>
    obtain ⟨h1, h2, h3⟩ := ih
    unfold sweepLoop
    split
    · exact ⟨congrArg (conn :: ·) h1, h2, h3⟩
    · split
      · exact ⟨congrArg (conn :: ·) h1, h2, h3⟩
      · refine ⟨rfl, ?_, fun h => nomatch h⟩
        rintro c ⟨⟩
        exact ⟨by simpa using ‹¬(!(s.connection conn).isConnected) = true›, by omega⟩

end

/-- A holder without connections goes to such a phase and settles the counter. -/
theorem Inv.settle (hinv : s.Inv) {ph : PoolPhase} (total : Int)
    (hown : (s.phase k).owned = []) (hown' : ph.owned = [])
    (htotal : total + (s.phase k).debt = s.total + ph.debt) (hok : s.PhaseOk ph) :
    ({ s with total }.setPhase k ph).Inv := by
  refine hinv.moved_same (k := k) rfl rfl rfl rfl (fun j hj => setPhase_ne _ _ hj) (fun c => ?_) ?_
    (fun c hc => .inl hc) ?_
  · rw [setPhase_self, hown, hown']
    rfl
  · rw [setPhase_self]
    exact htotal
  · rw [setPhase_self]
    exact hok.congr rfl fun _ _ => ⟨rfl, rfl⟩

theorem Inv.sweep (hinv : s.Inv) {now : Nat} (hph : s.phase k = .started now) :
    ({ s with conns := (s.sweepLoop now s.conns).2.2 }.setPhase k
      (.swept (s.sweepLoop now s.conns).1 (s.sweepLoop now s.conns).2.1)).Inv := by
  obtain ⟨hsplit, -, -⟩ := s.sweepLoop_spec now s.conns
  have hmem : ∀ c, c ∈ (s.sweepLoop now s.conns).1 ++ (s.sweepLoop now s.conns).2.1.toList ∨
      c ∈ (s.sweepLoop now s.conns).2.2 → c ∈ s.conns := by
    intro c hc
    rw [hsplit]
    exact List.mem_append.mpr hc
  refine hinv.moved_same (k := k) rfl rfl rfl rfl (fun j hj => setPhase_ne _ _ hj) (fun c => ?_) ?_
    (fun c hc => .inl (hmem c (.inr hc))) ?_
  · have := congrArg (List.count c) hsplit
    simp only [List.count_append] at this
    simp only [setPhase_self, hph, PoolPhase.owned, List.count_append, List.count_nil]
    simp only [setPhase]
    omega
  · simp [hph, PoolPhase.debt, setPhase]
  · rw [setPhase_self]
    intro c hc
    have hp := hinv.pooled c (hmem c (.inl hc))
    exact ⟨hp.handed, hp.request⟩

theorem Inv.delete (hinv : s.Inv) {invalidConns : List Nat} {ptr : Option Nat}
    (hph : s.phase k = .swept invalidConns ptr) :
    ({ s with live := s.live \ invalidConns.toFinset }.setPhase k
      (.deleted invalidConns.length ptr)).Inv := by
  have hnodup := hinv.owned_nodup k
  have hlive : ∀ c ∈ invalidConns, c ∈ s.live := fun c hc =>
    hinv.live_of_owned (k := k) (by rw [hph]; exact List.mem_append_left _ hc)
  rw [hph] at hnodup
  have hcard : (s.live \ invalidConns.toFinset).card + invalidConns.length = s.live.card := by
    have hsub : invalidConns.toFinset ⊆ s.live := fun c hc => hlive c (by simpa using hc)
    rw [← List.toFinset_card_of_nodup (List.Nodup.of_append_left hnodup)]
    exact Finset.card_sdiff_add_card_eq_card hsub
  refine hinv.moved (k := k) ⟨rfl, fun j hj => setPhase_ne _ _ hj, fun c => ?_, ?_, ?_,
    fun _ _ _ => ⟨rfl, rfl⟩, hinv.handed, fun _ hc => .inl hc, ?_⟩
  · have hcount := hinv.count_le k c
    rw [setPhase_self, hph]
    rw [hph] at hcount
    simp only [PoolPhase.owned, List.count_append] at hcount ⊢
    simp only [setPhase, Finset.mem_sdiff, List.mem_toFinset]
    by_cases hc : c ∈ invalidConns
    · have hpos := List.count_pos_iff.mpr hc
      rw [if_pos (hlive c hc)] at hcount
      simp only [hlive c hc, hc, not_true_eq_false, and_false, if_true, if_false]
      omega
    · simp only [List.count_eq_zero_of_not_mem hc, hc, not_false_eq_true, and_true]
      omega
  · simp only [setPhase_self, hph, PoolPhase.debt]
    simp only [setPhase]
    omega
  · exact fun c hc => hinv.fresh c (Finset.mem_sdiff.mp hc).1
  · have hok := hinv.phases k
    rw [hph] at hok
    rw [setPhase_self]
    intro c hc
    have hp := hok c (List.mem_append_right _ hc)
    exact ⟨hp.handed, hp.request⟩

/-- A connection that its holder owns before and after a move that changes it. -/
theorem Inv.moved_own (hinv : s.Inv) (hown : (s.phase k).owned = [c])
    (hmax : s'.maxRequest = s.maxRequest) (hlive : s'.live = s.live) (hfresh : s'.fresh = s.fresh)
    (hconns : s'.conns = s.conns) (hphase : ∀ j, j ≠ k → s'.phase j = s.phase j)
    (hown' : (s'.phase k).owned = [c])
    (htotal : s'.total + (s.phase k).debt = s.total + (s'.phase k).debt)
    (hconn : ∀ d, d ≠ c → s'.connection d = s.connection d)
    (hhanded : (s'.connection c).handed ≤ max 1 s.maxRequest) (hok : s'.PhaseOk (s'.phase k)) :
    s'.Inv :=
  hinv.moved (k := k) {
    maxRequest := hmax
    phase := hphase
    tokens := fun d => by rw [hconns, hlive, hown, hown']
    total := by rw [hlive]; omega
    fresh := by rw [hlive, hfresh]; exact hinv.fresh
    data := fun d _ hd => by
      rw [hown, List.mem_singleton] at hd
      rw [hconn d hd]
      exact ⟨rfl, rfl⟩
    handed := fun d => by
      by_cases hd : d = c
      · rw [hd]
        exact hhanded
      · rw [hconn d hd]
        exact hinv.handed d
    pooled := fun d hd => .inl (hconns ▸ hd)
    ok := hok }

/-- `getConnection` returns a connection that is counted, with the counter it leaves. -/
theorem Inv.hand (hinv : s.Inv) {ptr : Nat} {total : Int} (hown : (s.phase k).owned = [ptr])
    (htotal : total + (s.phase k).debt = s.total)
    (hhanded : (s.connection ptr).handed = (s.connection ptr).request)
    (hrequest : (s.connection ptr).request < max 1 s.maxRequest) :
    (HttpConnectionPool.hand { s with total } k ptr).Inv := by
  refine hinv.moved_own (k := k) (c := ptr) hown rfl rfl rfl rfl (fun j hj => setPhase_ne _ _ hj)
    ?_ ?_ (fun d hd => Function.update_of_ne hd ..) ?_ ?_
  · simp only [HttpConnectionPool.hand, setPhase_self, PoolPhase.owned]
  · have hdebt : (PoolPhase.holding ptr).debt = 0 := rfl
    rw [HttpConnectionPool.hand, setPhase_self, hdebt, Int.add_zero]
    exact htotal
  · simp only [HttpConnectionPool.hand, setPhase, modify_self]
    omega
  · simp only [HttpConnectionPool.hand, setPhase_self, PhaseOk]
    simp only [setPhase, modify_self]
    omega

theorem Inv.create (hinv : s.Inv) (hph : s.phase k = .connecting) :
    ({ s with
      connection := Function.update s.connection s.fresh { createTime := s.now }
      live := insert s.fresh s.live
      fresh := s.fresh + 1 }.setPhase k (.created s.fresh)).Inv := by
  have hnew : s.fresh ∉ s.live := fun h => Nat.lt_irrefl _ (hinv.fresh _ h)
  have hcount := hinv.count_le k s.fresh
  rw [if_neg hnew] at hcount
  refine hinv.moved (k := k) ⟨rfl, fun j hj => setPhase_ne _ _ hj, fun c => ?_, ?_, ?_, ?_, ?_,
    fun _ hc => .inl hc, ?_⟩
  · rw [setPhase_self, hph]
    simp only [PoolPhase.owned, setPhase, List.count_nil, List.count_singleton, beq_iff_eq,
      Finset.mem_insert]
    by_cases hc : c = s.fresh
    · subst hc
      simp [hnew]
    · have hc' : ¬s.fresh = c := fun h => hc h.symm
      simp [hc, hc']
  · simp only [setPhase_self, hph, PoolPhase.debt]
    simp only [setPhase, Finset.card_insert_of_notMem hnew]
    omega
  · intro c hc
    rcases Finset.mem_insert.mp hc with rfl | hc
    · exact Nat.lt_succ_self _
    · exact Nat.lt_succ_of_lt (hinv.fresh c hc)
  · intro c hc _
    have hne : c ≠ s.fresh := fun h => hnew (h ▸ hc)
    simp [setPhase, Function.update_of_ne hne]
  · intro c
    simp only [setPhase, Function.update_apply]
    split
    · exact Nat.zero_le _
    · exact hinv.handed c
  · rw [setPhase_self]
    simp [PhaseOk, setPhase]

theorem Inv.release (hinv : s.Inv) {ptr : Nat} (hph : s.phase k = .holding ptr) :
    (s.releasePtr k ptr).Inv := by
  have hok : (s.connection ptr).handed = (s.connection ptr).request + 1 := by
    have := hinv.phases k
    rwa [hph] at this
  have hhanded := hinv.handed ptr
  unfold releasePtr
  dsimp only
  split
  · refine hinv.moved_own (k := k) (c := ptr) (by rw [hph]; rfl) rfl rfl rfl rfl
      (fun j hj => setPhase_ne _ _ hj) (by rw [setPhase_self]; rfl) ?_
      (fun d hd => Function.update_of_ne hd ..) ?_ ?_
    · simp [hph, PoolPhase.debt, setPhase, modify]
    · simpa only [setPhase, modify_self] using hhanded
    · rw [setPhase_self]
      trivial
  · rename_i hkeep
    refine hinv.moved_own (k := k) (c := ptr) (by rw [hph]; rfl) rfl rfl rfl rfl
      (fun j hj => setPhase_ne _ _ hj) (by rw [setPhase_self]; rfl) ?_
      (fun d hd => Function.update_of_ne hd ..) ?_ ?_
    · simp [hph, PoolPhase.debt, setPhase, modify]
    · simpa only [setPhase, modify_self] using hhanded
    · rw [setPhase_self]
      simp only [modify_self, Bool.or_eq_true, decide_eq_true_eq, not_or] at hkeep
      refine ⟨?_, ?_⟩
      · simpa only [setPhase, modify_self] using hok
      · have := hkeep.2
        simp only [setPhase, modify_self]
        simp only [modify] at this
        simpa [modify] using this

theorem Inv.destroy (hinv : s.Inv) {ptr : Nat} (hph : s.phase k = .retiring ptr) :
    ({ s with live := s.live.erase ptr }.setPhase k .retired).Inv := by
  have hlive : ptr ∈ s.live := hinv.live_of_owned (k := k) (by rw [hph]; exact List.mem_cons_self)
  refine hinv.moved (k := k) ⟨rfl, fun j hj => setPhase_ne _ _ hj, fun c => ?_, ?_, ?_,
    fun _ _ _ => ⟨rfl, rfl⟩, hinv.handed, fun _ hc => .inl hc, by rw [setPhase_self]; trivial⟩
  · rw [setPhase_self, hph]
    simp only [PoolPhase.owned, setPhase, List.count_nil, List.count_singleton, beq_iff_eq,
      Finset.mem_erase]
    by_cases hc : c = ptr
    · subst hc
      simp [hlive]
    · have hc' : ¬ptr = c := fun h => hc h.symm
      simp [hc, hc']
  · have := Finset.card_erase_add_one hlive
    simp only [setPhase_self, hph, PoolPhase.debt]
    simp only [setPhase]
    omega
  · exact fun c hc => hinv.fresh c (Finset.mem_erase.mp hc).2

theorem Inv.pushBack (hinv : s.Inv) {ptr : Nat} (hph : s.phase k = .returning ptr) :
    ({ s with conns := s.conns ++ [ptr] }.setPhase k .idle).Inv := by
  have hok : s.Pooled ptr := by
    have := hinv.phases k
    rwa [hph] at this
  refine hinv.moved_same (k := k) rfl rfl rfl rfl (fun j hj => setPhase_ne _ _ hj) (fun c => ?_) ?_
    (fun c hc => ?_) (by rw [setPhase_self]; trivial)
  · rw [setPhase_self, hph]
    simp only [PoolPhase.owned, setPhase, List.count_append, List.count_nil, Nat.add_zero]
  · simp [hph, PoolPhase.debt, setPhase]
  · rcases List.mem_append.mp hc with hc | hc
    · exact .inl hc
    · rw [List.mem_singleton.mp hc]
      exact .inr ⟨hok.handed, hok.request⟩

omit [DecidableEq H] in
/-- The environment does not touch what the invariant speaks of. -/
theorem Inv.environment (hinv : s.Inv) (hmax : s'.maxRequest = s.maxRequest)
    (hconns : s'.conns = s.conns) (htotal : s'.total = s.total) (hphase : s'.phase = s.phase)
    (hlive : s'.live = s.live) (hfresh : s'.fresh = s.fresh)
    (hdata : ∀ c, (s'.connection c).handed = (s.connection c).handed ∧
      (s'.connection c).request = (s.connection c).request) : s'.Inv where
  tokens c := by rw [hconns, hphase, hlive, hinv.tokens]
  total := by rw [htotal, hlive, hphase, hinv.total]
  fresh := by rw [hlive, hfresh]; exact hinv.fresh
  handed c := by rw [(hdata c).1, hmax]; exact hinv.handed c
  pooled c hc := by
    obtain ⟨h1, h2⟩ := hdata c
    have hp := hinv.pooled c (hconns ▸ hc)
    exact ⟨by rw [h1, h2, hp.handed], by rw [h2, hmax]; exact hp.request⟩
  phases k := by
    rw [hphase]
    exact (hinv.phases k).congr hmax fun c _ => hdata c

theorem Inv.step (hinv : s.Inv) {a : PoolStep H} (h : s.step a = some s') : s'.Inv := by
  cases a with
  | start k =>
    simp only [HttpConnectionPool.step] at h
    split at h
    · rename_i hph
      cases h
      exact hinv.settle s.total (by rw [hph]; rfl) rfl (by rw [hph]; rfl) trivial
    · cases h
  | sweep k =>
    simp only [HttpConnectionPool.step] at h
    split at h
    · cases h
      exact hinv.sweep ‹_›
    · cases h
  | delete k =>
    simp only [HttpConnectionPool.step] at h
    split at h
    · cases h
      exact hinv.delete ‹_›
    · cases h
  | subtract k =>
    simp only [HttpConnectionPool.step] at h
    split at h
    · rename_i size ptr hph
      cases h
      have hok := hinv.phases k
      rw [hph] at hok
      have hp := hok ptr (by simp)
      exact hinv.hand (by rw [hph]; rfl) (by rw [hph]; simp [PoolPhase.debt]) hp.handed
        (lt_of_lt_of_le hp.request (Nat.le_max_right ..))
    · rename_i size hph
      cases h
      exact hinv.settle _ (by rw [hph]; rfl) rfl (by simp [hph, PoolPhase.debt]) trivial
    · cases h
  | fail k =>
    simp only [HttpConnectionPool.step] at h
    split at h
    · rename_i hph
      cases h
      exact hinv.settle s.total (by rw [hph]; rfl) rfl (by rw [hph]; rfl) trivial
    · cases h
  | create k =>
    simp only [HttpConnectionPool.step] at h
    split at h
    · cases h
      exact hinv.create ‹_›
    · cases h
  | count k =>
    simp only [HttpConnectionPool.step] at h
    split at h
    · rename_i ptr hph
      cases h
      have hok := hinv.phases k
      rw [hph] at hok
      refine hinv.hand (by rw [hph]; rfl) (by rw [hph]; simp [PoolPhase.debt])
        (hok.1.trans hok.2.symm) ?_
      rw [hok.2]
      omega
    · cases h
  | release k =>
    simp only [HttpConnectionPool.step] at h
    split at h
    · cases h
      exact hinv.release ‹_›
    · cases h
  | destroy k =>
    simp only [HttpConnectionPool.step] at h
    split at h
    · cases h
      exact hinv.destroy ‹_›
    · cases h
  | uncount k =>
    simp only [HttpConnectionPool.step] at h
    split at h
    · rename_i hph
      cases h
      exact hinv.settle _ (by rw [hph]; rfl) rfl (by simp [hph, PoolPhase.debt]) trivial
    · cases h
  | pushBack k =>
    simp only [HttpConnectionPool.step] at h
    split at h
    · cases h
      exact hinv.pushBack ‹_›
    · cases h
  | close conn =>
    cases h
    refine hinv.environment rfl rfl rfl rfl rfl rfl fun c => ?_
    simp only [modify, Function.update_apply]
    split
    · subst conn
      exact ⟨rfl, rfl⟩
    · exact ⟨rfl, rfl⟩
  | setClock now =>
    cases h
    exact hinv.environment rfl rfl rfl rfl rfl rfl fun _ => ⟨rfl, rfl⟩

omit [DecidableEq H] in
theorem init_inv (maxSize maxAliveTime maxRequest now : Nat) :
    (init maxSize maxAliveTime maxRequest now : HttpConnectionPool H).Inv where
  tokens c := by simp [init, PoolPhase.owned]
  total := by simp [init, PoolPhase.debt]
  fresh := by simp [init]
  handed c := Nat.zero_le _
  pooled := by simp [init]
  phases k := trivial

omit [Fintype H] in
theorem step_params {a : PoolStep H} (h : s.step a = some s') :
    s'.maxSize = s.maxSize ∧ s'.maxAliveTime = s.maxAliveTime ∧ s'.maxRequest = s.maxRequest := by
  cases a <;> simp only [HttpConnectionPool.step] at h <;> (try split at h) <;> cases h <;>
    (try unfold releasePtr; dsimp only; split) <;> exact ⟨rfl, rfl, rfl⟩

/-! ## Runs -/

variable {G : HttpConnectionPool H → PoolStep H → Prop} {maxSize maxAliveTime maxRequest now : Nat}

theorem reach_inv (h : Reach step G (init maxSize maxAliveTime maxRequest now) s) :
    s.Inv ∧ s.maxSize = maxSize ∧ s.maxAliveTime = maxAliveTime ∧ s.maxRequest = maxRequest := by
  refine h.inv (I := fun s => s.Inv ∧ s.maxSize = maxSize ∧ s.maxAliveTime = maxAliveTime ∧
    s.maxRequest = maxRequest) ⟨init_inv .., rfl, rfl, rfl⟩ ?_
  rintro t a u ⟨ht, rfl, rfl, rfl⟩ _ hs
  obtain ⟨h1, h2, h3⟩ := step_params hs
  exact ⟨ht.step hs, h1, h2, h3⟩

/-- A live connection is in the list once and has no owner, or is not in the list and has one. -/
theorem Inv.place (hinv : s.Inv) (h : c ∈ s.live) :
    (s.conns.count c = 1 ∧ ∀ k, c ∉ (s.phase k).owned) ∨
      (c ∉ s.conns ∧ ∃! k, c ∈ (s.phase k).owned) := by
  have htok := hinv.tokens c
  rw [if_pos h] at htok
  by_cases hown : ∃ k, c ∈ (s.phase k).owned
  · obtain ⟨k, hk⟩ := hown
    exact .inr ⟨hinv.not_conns hk, k, hk, fun j hj => hinv.owner_unique hk hj⟩
  · rw [not_exists] at hown
    have hzero : ∑ k, (s.phase k).owned.count c = 0 :=
      Finset.sum_eq_zero fun k _ => List.count_eq_zero_of_not_mem (hown k)
    exact .inl ⟨by omega, hown⟩

/-- **Conservation**: in every state of a run, the connections that are in `m_conns` or have an owner
are the live ones, each at one place; the counter is their number when no call is in progress; no
connection has been handed out too often; and one that is taken out of the list to be handed out is
connected and young enough. -/
theorem connections_conserved
    (h : Reach step Always (init maxSize maxAliveTime maxRequest now : HttpConnectionPool H) s) :
    (∀ c, c ∈ s.conns ∨ (∃ k, c ∈ (s.phase k).owned) → c ∈ s.live) ∧
    (∀ c ∈ s.live, (s.conns.count c = 1 ∧ ∀ k, c ∉ (s.phase k).owned) ∨
      (c ∉ s.conns ∧ ∃! k, c ∈ (s.phase k).owned)) ∧
    ((∀ k, s.phase k = .idle ∨ ∃ ptr, s.phase k = .holding ptr) → s.total = s.live.card) ∧
    (∀ c, (s.connection c).handed ≤ max 1 maxRequest) ∧
    ∀ k start s' invalidConns c, s.phase k = .started start → s.step (.sweep k) = some s' →
      s'.phase k = .swept invalidConns (some c) → (s.connection c).isConnected = true ∧
        ¬(s.connection c).createTime + maxAliveTime < start := by
  obtain ⟨hinv, -, halive, hreq⟩ := reach_inv h
  refine ⟨fun c hc => ?_, fun c hc => hinv.place hc, fun hquiet => ?_, fun c => ?_, ?_⟩
  · rcases hc with hc | ⟨k, hc⟩
    · exact hinv.live_of_conns hc
    · exact hinv.live_of_owned hc
  · have hzero : ∑ k, (s.phase k).debt = 0 := by
      refine Finset.sum_eq_zero fun k _ => ?_
      rcases hquiet k with hk | ⟨ptr, hk⟩ <;> rw [hk] <;> rfl
    rw [hinv.total, hzero, Int.add_zero]
  · exact hreq ▸ hinv.handed c
  · intro k start s' invalidConns c hph hs hswept
    simp only [step, hph, Option.some.injEq] at hs
    subst hs
    rw [setPhase_self] at hswept
    injection hswept with _ hptr
    obtain ⟨h1, h2⟩ := (s.sweepLoop_spec start s.conns).2.1 c hptr
    exact ⟨h1, by rw [halive] at h2; omega⟩

/-- One `getConnection` of each of two holders; the first one releases its connection before the
second one looks. -/
def reuse : List (PoolStep Bool) :=
  [.start true, .sweep true, .delete true, .subtract true, .create true, .count true, .release true,
    .pushBack true, .start false, .sweep false, .delete false, .subtract false]

theorem connections_conserved_reuse : ∃ s : HttpConnectionPool Bool,
    Reach step Always (init 1 1000 5 0) s ∧ s.phase false = .holding 0 ∧
      (s.connection 0).handed = 2 ∧ s.total = s.live.card := by
  obtain ⟨s, hs, h⟩ := Reach.of_any step Always (init 1 1000 5 0) reuse
    (fun s => s.phase false = .holding 0 ∧ (s.connection 0).handed = 2 ∧ s.phase true = .idle)
    (by decide)
  simp only [decide_eq_true_eq] at h
  refine ⟨s, hs, h.1, h.2.1, (connections_conserved hs).2.2.1 fun k => ?_⟩
  cases k with
  | true => exact .inl h.2.2
  | false => exact .inr ⟨0, h.1⟩

end HttpConnectionPool

end Tigerkin.Http
