import Tigerkin.Socket.Ownership

/-! # The remembered remote address

`getRemoteAddress` keeps the address that it finds first, and `close` does not forget it. It is
compared with the address that `getpeername` finds. -/

namespace Tigerkin.Sockets

variable {A : Type}

namespace Socket

variable {s s' : Socket A} {k k' : Kernel A} {a : Answer A} {family : Int} {b : Bool}

/-- The remote address that a connected socket remembers is the one of its peer. -/
def Current (s : Socket A) (k : Kernel A) : Prop :=
  s.isConnected = true → ∀ x ∈ s.remoteAddress, k.peername s.socket = some x

theorem Current.of_not_connected (h : s.isConnected = false) : s.Current k := by
  intro hc
  rw [h] at hc
  cases hc

theorem Current.congr (h : s.Current k) (hpeer : k'.peername s.socket = k.peername s.socket) :
    s.Current k' := by
  intro hc x hx
  rw [hpeer]
  exact h hc x hx

/-- The remembered address, else the one of the peer. -/
theorem getRemoteAddress_or (s : Socket A) (k : Kernel A) :
    (s.getRemoteAddress k).2 = s.remoteAddress.or (k.peername s.socket) ∧
      (s.getRemoteAddress k).1.remoteAddress = s.remoteAddress.or (k.peername s.socket) := by
  unfold getRemoteAddress
  split
  · rename_i hr
    simp [hr]
  · rename_i hr hp
    simp [hr, hp]
  · rename_i hr hp
    simp [hr, hp]

theorem getRemoteAddress_eq (h : s.Current k) (hc : s.isConnected = true) :
    (s.getRemoteAddress k).2 = k.peername s.socket := by
  rw [(getRemoteAddress_or s k).1]
  cases hr : s.remoteAddress with
  | none => rfl
  | some x => exact (h hc x hr).symm

theorem getRemoteAddress_current (h : s.Current k) : (s.getRemoteAddress k).1.Current k := by
  obtain ⟨hsocket, hconnected⟩ := getRemoteAddress_socket s k
  intro hc x hx
  rw [hconnected] at hc
  rw [(getRemoteAddress_or s k).2] at hx
  rw [hsocket]
  cases hr : s.remoteAddress with
  | none => rwa [hr] at hx
  | some y =>
    rw [hr] at hx
    exact h hc x (hr.trans hx)

theorem getLocalAddress_current (h : s.Current k) : (s.getLocalAddress k).1.Current k := by
  obtain ⟨hsocket, hconnected, hremote⟩ := getLocalAddress_socket s k
  intro hc x hx
  rw [hconnected] at hc
  rw [hremote] at hx
  rw [hsocket]
  exact h hc x hx

theorem close_peername (h : s.close k = (s', k')) (fd : Int) :
    k'.peername fd = k.peername fd := by
  unfold close at h
  split at h
  · cases h
    rfl
  · dsimp only at h
    split at h <;>
    · cases h
      rfl

theorem bind_current (hf : a.fd = -1 ∨ 0 ≤ a.fd ∧ k.opened a.fd = false) (hs : s.Sound)
    (h : s.bind k family a = (s', k', b)) :
    (∀ fd, k.opened fd = true → k'.peername fd = k.peername fd) ∧
      (s.Current k → s'.Current k') := by
  obtain ⟨s₁, k₁, b₁, hp, hcases⟩ := bind_cases h
  obtain ⟨-, hfields, -, hkeep, hpeer⟩ := prepare_effect hf hp
  have hcurrent : s.Current k → s₁.Current k₁ := by
    intro hcur hconnected
    have hold : s.isConnected = true := by rwa [hfields] at hconnected
    obtain ⟨rfl, rfl⟩ := hkeep (hs hold)
    exact hcur hconnected
  rcases hcases with ⟨-, rfl, rfl⟩ | hclose | ⟨rfl, rfl⟩
  · exact ⟨hpeer, hcurrent⟩
  · exact ⟨fun fd hfd => (close_peername hclose fd).trans (hpeer fd hfd),
      fun _ => .of_not_connected (close_effect hclose).2.1⟩
  · exact ⟨hpeer, fun hcur => getLocalAddress_current ((hcurrent hcur).congr rfl)⟩

theorem connect_current (hf : a.fd = -1 ∨ 0 ≤ a.fd ∧ k.opened a.fd = false)
    (h : s.connect k family a = (s', k', b)) :
    (∀ fd, k.opened fd = true → fd ≠ s.socket → k'.peername fd = k.peername fd) ∧
      (s.remoteAddress = none → s'.Current k') := by
  obtain ⟨s₁, k₁, b₁, hp, hcases⟩ := connect_cases h
  obtain ⟨-, -, -, -, hpeer⟩ := prepare_effect hf hp
  have hremote := prepare_remoteAddress hp
  have hfresh : ∀ fd, k.opened fd = true → fd ≠ s.socket → fd ≠ s₁.socket := by
    rintro fd hfd hne rfl
    rcases prepare_socket hf hp with hsame | hclosed
    · exact hne hsame
    · rw [hclosed] at hfd
      cases hfd
  rcases hcases with ⟨-, -, rfl, rfl⟩ | ⟨-, hclose⟩ | ⟨-, rfl, rfl⟩
  · refine ⟨fun fd hfd _ => hpeer fd hfd, fun hnone _ x hx => ?_⟩
    rw [hremote, hnone] at hx
    cases hx
  · exact ⟨fun fd hfd _ => (close_peername hclose fd).trans (hpeer fd hfd),
      fun _ => .of_not_connected (close_effect hclose).2.1⟩
  · refine ⟨fun fd hfd hne => ?_, fun hnone => ?_⟩
    · exact (Function.update_of_ne (hfresh fd hfd hne) _ _).trans (hpeer fd hfd)
    · refine getLocalAddress_current (getRemoteAddress_current fun _ x hx => ?_)
      rw [show s₁.remoteAddress = none from hremote.trans hnone] at hx
      cases hx

/-- After a `connect` the remembered address is the one of the peer unless another one was
remembered. -/
theorem connect_current_iff (h : s.connect k family a = (s', k', true)) :
    (s'.getRemoteAddress k').2 = k'.peername s'.socket ↔
      ∀ x ∈ s.remoteAddress, a.peername = some x := by
  obtain ⟨s₁, k₁, b₁, hp, ⟨-, hb, -⟩ | ⟨hb, -⟩ | ⟨-, rfl, rfl⟩⟩ := connect_cases h
  · cases hb
  · cases hb
  · have hpeer : (k₁.link s₁.socket a).peername s₁.socket = a.peername := Function.update_self ..
    rw [(getRemoteAddress_or _ _).1, (getLocalAddress_socket _ _).2.2, (getRemoteAddress_or _ _).2,
      addresses_socket, hpeer, prepare_remoteAddress hp]
    cases s.remoteAddress with
    | none => simp
    | some x => simp [eq_comm]

end Socket

namespace World

variable {w w' : World A} {s s' : Socket A} {k' : Kernel A} {op : Op A} {i : Nat}

/-- A `connect` is called on a socket that remembers no remote address. -/
def FirstConnect (w : World A) : Op A → Prop
  | .connect i _ _ => ∀ s ∈ w.sockets i, s.remoteAddress.isNone = true
  | _ => True

instance (w : World A) : ∀ op, Decidable (w.FirstConnect op)
  | .connect i _ _ =>
    inferInstanceAs (Decidable (∀ s ∈ w.sockets i, s.remoteAddress.isNone = true))
  | .create .. | .bind .. | .listen .. | .accept .. | .getLocalAddress .. | .getRemoteAddress ..
  | .close .. | .destroy .. | .otherOpen .. | .otherClose .. => .isTrue trivial

structure Told (w : World A) : Prop where
  inv : w.Inv
  current : ∀ {i s}, w.sockets i = some s → s.Current w.kernel

theorem Told.next (h : w.Told) (hinv : w'.Inv)
    (hw : ∀ {j t}, w'.sockets j = some t → t.Current w'.kernel ∨ w.sockets j = some t ∧
      (w.Owns (.socket j) t.socket → w'.kernel.peername t.socket = w.kernel.peername t.socket)) :
    w'.Told := by
  refine ⟨hinv, fun {j t} hj => ?_⟩
  rcases hw hj with hcurrent | ⟨hold, hpeer⟩
  · exact hcurrent
  · intro hc
    exact (h.current hold).congr (hpeer (h.inv.owns_connected hold hc)) hc

/-- A step that leaves the sockets alone, and the peers of the open descriptors. -/
theorem Told.others (h : w.Told) (hinv : w'.Inv) (hsockets : w'.sockets = w.sockets)
    (hpeer : ∀ fd, w.kernel.opened fd = true → w'.kernel.peername fd = w.kernel.peername fd) :
    w'.Told := by
  refine h.next hinv fun {j t} hj => ?_
  rw [hsockets] at hj
  exact .inr ⟨hj, fun howns => hpeer _ (h.inv.owned.partition.live_of_owns howns)⟩

/-- A step of the socket `i`. -/
theorem Told.put (h : w.Told) (hi : w.sockets i = some s) (hinv : (w.put i s' k').Inv)
    (hpeer : ∀ fd, w.kernel.opened fd = true → fd ≠ s.socket →
      k'.peername fd = w.kernel.peername fd) (hs : s'.Current k') : (w.put i s' k').Told := by
  refine h.next hinv fun {j t} hj => ?_
  have hupdate : Function.update w.sockets i (some s') j = some t := hj
  by_cases hji : j = i
  · subst hji
    rw [Function.update_self] at hupdate
    cases hupdate
    exact .inl hs
  · rw [Function.update_of_ne hji] at hupdate
    refine .inr ⟨hupdate, fun howns => hpeer _ (h.inv.owned.partition.live_of_owns howns) ?_⟩
    intro heq
    have howns' : w.Owns (.socket i) t.socket := (owns_socket hi).mpr ⟨howns.1, heq.symm⟩
    cases h.inv.owned.partition.unique howns howns'
    exact hji rfl

theorem Told.step (h : w.Told) (hg : w.FirstConnect op) (hs : w.step op = some w') : w'.Told := by
  have hinv := h.inv.step hs
  cases op with
  | create family type protocol =>
    cases hs
    refine h.next hinv fun {j t} hj => ?_
    have hupdate : Function.update w.sockets w.cnt (some { family, type, protocol }) j =
        some t := hj
    by_cases hji : j = w.cnt
    · subst hji
      rw [Function.update_self] at hupdate
      cases hupdate
      exact .inl (.of_not_connected rfl)
    · rw [Function.update_of_ne hji] at hupdate
      exact .inr ⟨hupdate, fun _ => rfl⟩
  | bind i family a =>
    simp only [World.step] at hs
    split at hs
    · rename_i hf
      obtain ⟨s, hi, rfl⟩ := Option.map_eq_some_iff.mp hs
      have hbind : s.bind w.kernel family a = _ := rfl
      obtain ⟨hpeer, hcurrent⟩ := Socket.bind_current hf (h.inv.sound hi) hbind
      exact h.put hi hinv (fun fd hfd _ => hpeer fd hfd) (hcurrent (h.current hi))
    · cases hs
  | listen i a =>
    obtain ⟨s, -, rfl⟩ := Option.map_eq_some_iff.mp hs
    exact h
  | accept i managed a =>
    rcases accept_step hs with ⟨-, rfl⟩ | ⟨hfd, -, hfresh, -, -, hpeer, hcase⟩
    · exact h
    · have hsame : ∀ fd, w.kernel.opened fd = true →
          w'.kernel.peername fd = w.kernel.peername fd := by
        intro fd hopen
        rw [hpeer]
        refine Function.update_of_ne ?_ _ _
        rintro rfl
        rw [hfresh] at hopen
        cases hopen
      rcases hcase with ⟨-, hw⟩ | ⟨-, sock, hw, hsocket, -, hremote⟩
      · exact h.others hinv (by rw [hw]) hsame
      · refine h.next hinv fun {j t} hj => ?_
        rw [hw] at hj
        have hupdate : Function.update w.sockets w.cnt (some sock) j = some t := hj
        by_cases hji : j = w.cnt
        · subst hji
          rw [Function.update_self] at hupdate
          cases hupdate
          refine .inl fun _ x hx => ?_
          rw [hpeer, hsocket, Function.update_self, ← hremote]
          exact hx
        · rw [Function.update_of_ne hji] at hupdate
          exact .inr ⟨hupdate, fun howns => hsame _ (h.inv.owned.partition.live_of_owns howns)⟩
  | connect i family a =>
    simp only [World.step] at hs
    split at hs
    · rename_i hf
      obtain ⟨s, hi, rfl⟩ := Option.map_eq_some_iff.mp hs
      have hconnect : s.connect w.kernel family a = _ := rfl
      obtain ⟨hpeer, hcurrent⟩ := Socket.connect_current hf hconnect
      exact h.put hi hinv hpeer (hcurrent (Option.isNone_iff_eq_none.mp (hg s hi)))
    · cases hs
  | getLocalAddress i =>
    obtain ⟨s, hi, rfl⟩ := Option.map_eq_some_iff.mp hs
    exact h.put hi hinv (fun _ _ _ => rfl) (Socket.getLocalAddress_current (h.current hi))
  | getRemoteAddress i =>
    obtain ⟨s, hi, rfl⟩ := Option.map_eq_some_iff.mp hs
    exact h.put hi hinv (fun _ _ _ => rfl) (Socket.getRemoteAddress_current (h.current hi))
  | close i =>
    obtain ⟨s, hi, rfl⟩ := Option.map_eq_some_iff.mp hs
    have hclose : s.close w.kernel = _ := rfl
    obtain ⟨-, hnot, -⟩ := Socket.close_effect hclose
    exact h.put hi hinv (fun fd _ _ => Socket.close_peername hclose fd)
      (.of_not_connected hnot)
  | destroy i =>
    obtain ⟨s, hi, rfl⟩ := Option.map_eq_some_iff.mp hs
    refine h.next hinv fun {j t} hj => ?_
    have hupdate : Function.update w.sockets i none j = some t := hj
    by_cases hji : j = i
    · subst hji
      rw [Function.update_self] at hupdate
      cases hupdate
    · rw [Function.update_of_ne hji] at hupdate
      have hclose : s.close w.kernel = _ := rfl
      exact .inr ⟨hupdate, fun _ => Socket.close_peername hclose _⟩
  | otherOpen fd =>
    simp only [World.step] at hs
    split at hs
    · rename_i hfresh
      cases hs
      refine h.others hinv rfl fun fd' hopen => Function.update_of_ne ?_ _ _
      rintro rfl
      rw [hfresh.2] at hopen
      cases hopen
    · cases hs
  | otherClose fd =>
    simp only [World.step] at hs
    split at hs
    · cases hs
      exact h.others hinv rfl fun _ _ => rfl
    · cases hs

/-- **The remote address of a connected socket is the one of its peer**, if no `connect` is called
on a socket that remembers a remote address already; `close` does not forget it. A `connect` of such
a socket to another peer leaves the old address. -/
theorem remoteAddress_current {k : Kernel A} (hk : ∀ fd, k.opened fd = true → 0 ≤ fd)
    (hc : k.closes = []) :
    (∀ w, Reach World.step FirstConnect { kernel := k } w → ∀ i s, w.sockets i = some s →
      s.isConnected = true → (s.getRemoteAddress w.kernel).2 = w.kernel.peername s.socket) ∧
    ∀ (s s' : Socket A) (k k' : Kernel A) family a, s.connect k family a = (s', k', true) →
      ((s'.getRemoteAddress k').2 = k'.peername s'.socket ↔
        ∀ x ∈ s.remoteAddress, a.peername = some x) := by
  refine ⟨fun w hr i s hi hconnected => ?_, fun s s' k k' family a h =>
    Socket.connect_current_iff h⟩
  have htold : w.Told := hr.inv ⟨init_inv hk hc, fun hs => by cases hs⟩ fun h hg hs => h.step hg hs
  exact Socket.getRemoteAddress_eq (htold.current hi) hconnected

/-- A socket that was connected to the peer 9. -/
def disconnected : Socket Nat where
  family := 2
  type := 1
  protocol := 0
  hasClosed := true
  remoteAddress := some 9

/-- A socket is connected to a peer, and one to another peer than before. -/
theorem remoteAddress_current_again :
    (∃ w : World Nat, ∃ s, w.sockets 0 = some s ∧ s.isConnected = true ∧
      (s.getRemoteAddress w.kernel).2 = w.kernel.peername s.socket) ∧
    ∃ (s' : Socket Nat) (k' : Kernel Nat),
      disconnected.connect standard 2 ⟨3, true, some 80, some 8⟩ = (s', k', true) ∧
        (s'.getRemoteAddress k').2 ≠ k'.peername s'.socket := by
  obtain ⟨hrun, hiff⟩ := remoteAddress_current (k := standard)
    (fun fd h => (of_decide_eq_true h).1) rfl
  constructor
  · obtain ⟨w, hr, hp⟩ := Reach.of_any World.step FirstConnect { kernel := standard }
      [.create 2 1 0, .connect 0 2 ⟨3, true, some 80, some 9⟩]
      (fun w => (w.sockets 0).any Socket.isConnected) (by decide)
    obtain ⟨s, hs, hconnected⟩ := (Option.any_eq_true _ _).mp hp
    exact ⟨w, s, hs, hconnected, hrun w hr 0 s hs hconnected⟩
  · have hconnect : disconnected.connect standard 2 ⟨3, true, some 80, some 8⟩ = (_, _, true) := rfl
    refine ⟨_, _, hconnect, fun h => ?_⟩
    have hsame := (hiff _ _ _ _ _ _ hconnect).mp h 9 rfl
    cases hsame

end World

end Tigerkin.Sockets
