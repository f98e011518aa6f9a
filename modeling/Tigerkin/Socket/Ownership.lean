import Mathlib.Data.List.Basic
import Mathlib.Logic.Function.Basic
import Tigerkin.Std.Owner
import Tigerkin.Std.Run

/-! # Sockets and their descriptors

`Socket` of `socket.cpp` over a kernel that hands out descriptors; what the kernel answers to the
calls of a member function is a parameter of it (`Answer`). The options that are set on a new
descriptor and the timeout of a `connect` are left out. `World` is all sockets of a process, between
which the rest of the process opens and closes descriptors of its own. -/

namespace Tigerkin.Sockets

structure Kernel (A : Type) where
  opened : Int → Bool
  /-- The addresses that `getsockname` and `getpeername` find. -/
  sockname : Int → Option A
  peername : Int → Option A
  /-- The calls of `::close`, with whether the descriptor was open. -/
  closes : List (Int × Bool) := []

/-- What the calls of one member function are answered. -/
structure Answer (A : Type) where
  /-- The descriptor of `::socket` or `::accept`, or -1. -/
  fd : Int
  /-- Whether `::bind`, `::listen` or `::connect` succeeds. -/
  ok : Bool
  /-- The addresses of the descriptor afterwards. -/
  sockname : Option A
  peername : Option A

structure Socket (A : Type) where
  socket : Int := -1
  family : Int
  type : Int
  protocol : Int
  isConnected : Bool := false
  hasClosed : Bool := false
  localAddress : Option A := none
  remoteAddress : Option A := none

variable {A : Type}

namespace Kernel

/-- The kernel hands out a descriptor, which has no peer. -/
def hand (k : Kernel A) (fd : Int) (sockname : Option A) : Kernel A :=
  { k with
    opened := Function.update k.opened fd true
    sockname := Function.update k.sockname fd sockname
    peername := Function.update k.peername fd none }

def bind (k : Kernel A) (fd : Int) (a : Answer A) : Kernel A :=
  { k with sockname := Function.update k.sockname fd a.sockname }

def link (k : Kernel A) (fd : Int) (a : Answer A) : Kernel A :=
  { k with
    sockname := Function.update k.sockname fd a.sockname
    peername := Function.update k.peername fd a.peername }

def close (k : Kernel A) (fd : Int) : Kernel A :=
  { k with
    opened := Function.update k.opened fd false
    closes := k.closes ++ [(fd, k.opened fd)] }

end Kernel

namespace Socket

def isValid (s : Socket A) : Bool := s.socket != -1

def close (s : Socket A) (k : Kernel A) : Socket A × Kernel A :=
  if !s.isConnected && s.socket == -1 then (s, k)
  else
    let s := { s with isConnected := false, hasClosed := true }
    if s.socket ≠ -1 then ({ s with socket := -1 }, k.close s.socket) else (s, k)

/-- A call that fails returns an `UnknowAddress`, which is not kept. -/
def getLocalAddress (s : Socket A) (k : Kernel A) : Socket A × Option A :=
  match s.localAddress, k.sockname s.socket with
  | some a, _ => (s, some a)
  | none, none => (s, none)
  | none, some a => ({ s with localAddress := some a }, some a)

def getRemoteAddress (s : Socket A) (k : Kernel A) : Socket A × Option A :=
  match s.remoteAddress, k.peername s.socket with
  | some a, _ => (s, some a)
  | none, none => (s, none)
  | none, some a => ({ s with remoteAddress := some a }, some a)

def newSocket (s : Socket A) (k : Kernel A) (a : Answer A) : Socket A × Kernel A :=
  ({ s with socket := a.fd }, if a.fd ≥ 0 then k.hand a.fd a.sockname else k)

/-- What `bind` and `connect` begin with; without a result they return false. -/
def prepare (s : Socket A) (k : Kernel A) (family : Int) (a : Answer A) :
    Socket A × Kernel A × Bool :=
  if s.isValid then (s, k, true)
  else if family ≠ s.family then (s, k, false)
  else
    let (s, k) := s.newSocket k a
    (s, k, s.isValid)

/-- `bind` of an address of the family `family`. -/
def bind (s : Socket A) (k : Kernel A) (family : Int) (a : Answer A) :
    Socket A × Kernel A × Bool :=
  match s.prepare k family a with
  | (s, k, false) => (s, k, false)
  | (s, k, true) =>
    if !a.ok then
      let (s, k) := s.close k
      (s, k, false)
    else
      let k := k.bind s.socket a
      ((s.getLocalAddress k).1, k, true)

def listen (s : Socket A) (a : Answer A) : Bool := s.isValid && a.ok

/-- `init`, where `managed` says that the descriptor manager has an open socket for the
descriptor. -/
def init (s : Socket A) (k : Kernel A) (fd : Int) (managed : Bool) : Option (Socket A) :=
  if managed then
    let s := { s with socket := fd, isConnected := true }
    let s := (s.getRemoteAddress k).1
    some (s.getLocalAddress k).1
  else none

def accept (s : Socket A) (k : Kernel A) (managed : Bool) (a : Answer A) :
    Option (Socket A) × Kernel A :=
  let sock : Socket A := { family := s.family, type := s.type, protocol := s.protocol }
  if a.fd = -1 then (none, k)
  else
    let k := (k.hand a.fd a.sockname).link a.fd a
    (sock.init k a.fd managed, k)

def connect (s : Socket A) (k : Kernel A) (family : Int) (a : Answer A) :
    Socket A × Kernel A × Bool :=
  match s.prepare k family a with
  | (s, k, false) => (s, k, false)
  | (s, k, true) =>
    if !a.ok then
      let (s, k) := s.close k
      (s, k, false)
    else
      let s := { s with isConnected := true }
      let k := k.link s.socket a
      let s := (s.getRemoteAddress k).1
      ((s.getLocalAddress k).1, k, true)

end Socket

/-! ## The process -/

structure World (A : Type) where
  kernel : Kernel A
  /-- The sockets that are not destroyed. -/
  sockets : Nat → Option (Socket A) := fun _ => none
  cnt : Nat := 0
  /-- The descriptors of the rest of the process. -/
  others : Int → Bool := kernel.opened
  /-- The accepted descriptors for which `init` failed. -/
  lost : List Int := []

inductive Op (A : Type) where
  | create (family type protocol : Int)
  | bind (i : Nat) (family : Int) (a : Answer A)
  | listen (i : Nat) (a : Answer A)
  | accept (i : Nat) (managed : Bool) (a : Answer A)
  | connect (i : Nat) (family : Int) (a : Answer A)
  | getLocalAddress (i : Nat)
  | getRemoteAddress (i : Nat)
  | close (i : Nat)
  /-- The last pointer to the socket is gone. -/
  | destroy (i : Nat)
  | otherOpen (fd : Int)
  | otherClose (fd : Int)

namespace World

def put (w : World A) (i : Nat) (s : Socket A) (k : Kernel A) : World A :=
  { w with sockets := Function.update w.sockets i (some s), kernel := k }

def add (w : World A) (s : Socket A) : World A :=
  { w with sockets := Function.update w.sockets w.cnt (some s), cnt := w.cnt + 1 }

/-- The kernel hands out descriptors that are not open. -/
def Fresh (w : World A) (fd : Int) : Prop := fd = -1 ∨ 0 ≤ fd ∧ w.kernel.opened fd = false

instance (w : World A) (fd : Int) : Decidable (w.Fresh fd) :=
  inferInstanceAs (Decidable (_ ∨ _))

def step (w : World A) : Op A → Option (World A)
  | .create family type protocol => some (w.add { family, type, protocol })
  | .bind i family a =>
    if w.Fresh a.fd then (w.sockets i).map fun s =>
      let (s, k, _) := s.bind w.kernel family a
      w.put i s k
    else none
  | .listen i _ => (w.sockets i).map fun _ => w
  | .accept i managed a =>
    if w.Fresh a.fd then (w.sockets i).map fun s =>
      match s.accept w.kernel managed a with
      | (some sock, k) => { w with kernel := k }.add sock
      | (none, k) => { w with kernel := k, lost := if a.fd = -1 then w.lost else w.lost ++ [a.fd] }
    else none
  | .connect i family a =>
    if w.Fresh a.fd then (w.sockets i).map fun s =>
      let (s, k, _) := s.connect w.kernel family a
      w.put i s k
    else none
  | .getLocalAddress i => (w.sockets i).map fun s => w.put i (s.getLocalAddress w.kernel).1 w.kernel
  | .getRemoteAddress i =>
    (w.sockets i).map fun s => w.put i (s.getRemoteAddress w.kernel).1 w.kernel
  | .close i => (w.sockets i).map fun s =>
    let (s, k) := s.close w.kernel
    w.put i s k
  | .destroy i => (w.sockets i).map fun s =>
    let (_, k) := s.close w.kernel
    { w with sockets := Function.update w.sockets i none, kernel := k }
  | .otherOpen fd =>
    if 0 ≤ fd ∧ w.kernel.opened fd = false then
      some { w with kernel := w.kernel.hand fd none, others := Function.update w.others fd true }
    else none
  | .otherClose fd =>
    if w.others fd then
      some { w with kernel := w.kernel.close fd, others := Function.update w.others fd false }
    else none

end World

/-! ## What a member function does to the descriptor -/

/-- A member function gets a descriptor, gives it up, or keeps what it holds. -/
inductive Effect : Socket A → Kernel A → Socket A → Kernel A → Prop
  | keep {s s' : Socket A} {k k' : Kernel A} (hs : s'.socket = s.socket)
      (ho : k'.opened = k.opened) (hc : k'.closes = k.closes) : Effect s k s' k'
  | acquire {s s' : Socket A} {k k' : Kernel A} (hs : s.socket = -1) (hfd : 0 ≤ s'.socket)
      (hfresh : k.opened s'.socket = false)
      (ho : k'.opened = Function.update k.opened s'.socket true) (hc : k'.closes = k.closes) :
      Effect s k s' k'
  | release {s s' : Socket A} {k k' : Kernel A} (hs : s.socket ≠ -1) (hs' : s'.socket = -1)
      (ho : k'.opened = Function.update k.opened s.socket false)
      (hc : k'.closes = k.closes ++ [(s.socket, k.opened s.socket)]) : Effect s k s' k'
  | trans {s s₁ s' : Socket A} {k k₁ k' : Kernel A} (h : Effect s k s₁ k₁)
      (h' : Effect s₁ k₁ s' k') : Effect s k s' k'

namespace Socket

variable {s s' : Socket A} {k k' : Kernel A} {a : Answer A} {family : Int} {b : Bool}

/-- A connected socket holds a descriptor. -/
def Sound (s : Socket A) : Prop := s.isConnected = true → s.isValid = true

theorem Sound.of_not_connected (h : s.isConnected = false) : s.Sound := by
  intro hc
  rw [h] at hc
  cases hc

theorem Sound.congr (h : s.Sound) (hsocket : s'.socket = s.socket)
    (hconnected : s'.isConnected = s.isConnected) : s'.Sound := by
  intro hc
  rw [hconnected] at hc
  rw [isValid, hsocket]
  exact h hc

theorem close_effect (h : s.close k = (s', k')) :
    Effect s k s' k' ∧ s'.isConnected = false ∧ s'.isValid = false ∧
      s'.remoteAddress = s.remoteAddress := by
  unfold close at h
  split at h
  · rename_i hnone
    rw [Bool.and_eq_true, Bool.not_eq_true', beq_iff_eq] at hnone
    cases h
    exact ⟨.keep rfl rfl rfl, hnone.1, by simp [isValid, hnone.2], rfl⟩
  · dsimp only at h
    split at h
    · rename_i hfd
      cases h
      exact ⟨.release hfd rfl rfl rfl, rfl, rfl, rfl⟩
    · rename_i hfd
      cases h
      exact ⟨.keep rfl rfl rfl, rfl, by simpa [isValid] using hfd, rfl⟩

theorem getLocalAddress_fields (s : Socket A) (k : Kernel A) :
    (s.getLocalAddress k).1 = { s with localAddress := (s.getLocalAddress k).1.localAddress } := by
  unfold getLocalAddress
  split <;> rfl

theorem getRemoteAddress_fields (s : Socket A) (k : Kernel A) :
    (s.getRemoteAddress k).1 =
      { s with remoteAddress := (s.getRemoteAddress k).1.remoteAddress } := by
  unfold getRemoteAddress
  split <;> rfl

theorem getLocalAddress_socket (s : Socket A) (k : Kernel A) :
    (s.getLocalAddress k).1.socket = s.socket ∧
      (s.getLocalAddress k).1.isConnected = s.isConnected ∧
      (s.getLocalAddress k).1.remoteAddress = s.remoteAddress := by
  rw [getLocalAddress_fields]
  exact ⟨rfl, rfl, rfl⟩

theorem getRemoteAddress_socket (s : Socket A) (k : Kernel A) :
    (s.getRemoteAddress k).1.socket = s.socket ∧
      (s.getRemoteAddress k).1.isConnected = s.isConnected := by
  rw [getRemoteAddress_fields]
  exact ⟨rfl, rfl⟩

/-- A socket that holds a descriptor is left alone; the result says whether one is held now. -/
theorem prepare_effect (hf : a.fd = -1 ∨ 0 ≤ a.fd ∧ k.opened a.fd = false)
    (h : s.prepare k family a = (s', k', b)) :
    Effect s k s' k' ∧ s' = { s with socket := s'.socket } ∧ b = s'.isValid ∧
      (s.isValid = true → s' = s ∧ k' = k) ∧
      ∀ fd, k.opened fd = true → k'.peername fd = k.peername fd := by
  unfold prepare at h
  split at h
  · rename_i hvalid
    cases h
    exact ⟨.keep rfl rfl rfl, rfl, hvalid.symm, fun _ => ⟨rfl, rfl⟩, fun _ _ => rfl⟩
  · rename_i hvalid
    have hsocket : s.socket = -1 := by simpa [isValid] using hvalid
    split at h
    · cases h
      exact ⟨.keep rfl rfl rfl, rfl, by simpa using hvalid, fun _ => ⟨rfl, rfl⟩, fun _ _ => rfl⟩
    · cases h
      refine ⟨?_, rfl, rfl, fun hv => absurd hv hvalid, fun fd hfd => ?_⟩
      · rcases hf with hnone | ⟨hpos, hfresh⟩
        · refine .keep (hnone.trans hsocket.symm) ?_ ?_ <;> simp [hnone]
        · refine .acquire hsocket hpos hfresh ?_ ?_ <;> simp [hpos, Kernel.hand]
      · split
        · refine Function.update_of_ne ?_ _ _
          rintro rfl
          rcases hf with hnone | ⟨-, hfresh⟩
          · omega
          · rw [hfresh] at hfd
            cases hfd
        · rfl

theorem prepare_socket (hf : a.fd = -1 ∨ 0 ≤ a.fd ∧ k.opened a.fd = false)
    (h : s.prepare k family a = (s', k', b)) :
    s'.socket = s.socket ∨ k.opened s'.socket = false := by
  unfold prepare at h
  split at h
  · cases h
    exact .inl rfl
  · rename_i hvalid
    split at h
    · cases h
      exact .inl rfl
    · cases h
      rcases hf with hnone | ⟨-, hfresh⟩
      · have hsocket : s.socket = -1 := by simpa [isValid] using hvalid
        exact .inl (hnone.trans hsocket.symm)
      · exact .inr hfresh

theorem prepare_remoteAddress (h : s.prepare k family a = (s', k', b)) :
    s'.remoteAddress = s.remoteAddress := by
  unfold prepare at h
  split at h
  · cases h
    rfl
  · split at h
    · cases h
      rfl
    · cases h
      rfl

/-- What a `bind` does. -/
theorem bind_cases (h : s.bind k family a = (s', k', b)) :
    ∃ s₁ k₁ b₁, s.prepare k family a = (s₁, k₁, b₁) ∧
      (b₁ = false ∧ s' = s₁ ∧ k' = k₁ ∨ s₁.close k₁ = (s', k') ∨
        k' = k₁.bind s₁.socket a ∧ s' = (s₁.getLocalAddress k').1) := by
  unfold bind at h
  cases hp : s.prepare k family a with
  | mk s₁ r =>
    obtain ⟨k₁, b₁⟩ := r
    refine ⟨s₁, k₁, b₁, rfl, ?_⟩
    rw [hp] at h
    cases b₁ with
    | false =>
      cases h
      exact .inl ⟨rfl, rfl, rfl⟩
    | true =>
      dsimp only at h
      split at h
      · cases h
        exact .inr (.inl rfl)
      · cases h
        exact .inr (.inr ⟨rfl, rfl⟩)

/-- What a `connect` does. -/
theorem connect_cases (h : s.connect k family a = (s', k', b)) :
    ∃ s₁ k₁ b₁, s.prepare k family a = (s₁, k₁, b₁) ∧
      (b₁ = false ∧ b = false ∧ s' = s₁ ∧ k' = k₁ ∨ b = false ∧ s₁.close k₁ = (s', k') ∨
        b₁ = true ∧ k' = k₁.link s₁.socket a ∧
          s' = (({ s₁ with isConnected := true }.getRemoteAddress k').1.getLocalAddress k').1) := by
  unfold connect at h
  cases hp : s.prepare k family a with
  | mk s₁ r =>
    obtain ⟨k₁, b₁⟩ := r
    refine ⟨s₁, k₁, b₁, rfl, ?_⟩
    rw [hp] at h
    cases b₁ with
    | false =>
      cases h
      exact .inl ⟨rfl, rfl, rfl, rfl⟩
    | true =>
      dsimp only at h
      split at h
      · cases h
        exact .inr (.inl ⟨rfl, rfl⟩)
      · cases h
        exact .inr (.inr ⟨rfl, rfl, rfl⟩)

theorem addresses_socket (s : Socket A) (k : Kernel A) :
    ((s.getRemoteAddress k).1.getLocalAddress k).1.socket = s.socket :=
  (getLocalAddress_socket _ k).1.trans (getRemoteAddress_socket s k).1

theorem bind_effect (hf : a.fd = -1 ∨ 0 ≤ a.fd ∧ k.opened a.fd = false) (hs : s.Sound)
    (h : s.bind k family a = (s', k', b)) : Effect s k s' k' ∧ s'.Sound := by
  obtain ⟨s₁, k₁, b₁, hp, hcases⟩ := bind_cases h
  obtain ⟨heffect, hfields, -, hkeep, -⟩ := prepare_effect hf hp
  have hsound : s₁.Sound := by
    intro hconnected
    rw [hfields] at hconnected
    obtain ⟨rfl, -⟩ := hkeep (hs hconnected)
    exact hs hconnected
  rcases hcases with ⟨-, rfl, rfl⟩ | hclose | ⟨rfl, rfl⟩
  · exact ⟨heffect, hsound⟩
  · obtain ⟨hrelease, hnot, -, -⟩ := close_effect hclose
    exact ⟨heffect.trans hrelease, .of_not_connected hnot⟩
  · obtain ⟨hsocket, hconnected, -⟩ := getLocalAddress_socket s₁ (k₁.bind s₁.socket a)
    exact ⟨heffect.trans (.keep hsocket rfl rfl), hsound.congr hsocket hconnected⟩

theorem connect_effect (hf : a.fd = -1 ∨ 0 ≤ a.fd ∧ k.opened a.fd = false) (hs : s.Sound)
    (h : s.connect k family a = (s', k', b)) : Effect s k s' k' ∧ s'.Sound := by
  obtain ⟨s₁, k₁, b₁, hp, hcases⟩ := connect_cases h
  obtain ⟨heffect, hfields, hb, hkeep, -⟩ := prepare_effect hf hp
  rcases hcases with ⟨-, -, rfl, rfl⟩ | ⟨-, hclose⟩ | ⟨hb₁, rfl, rfl⟩
  · refine ⟨heffect, fun hconnected => ?_⟩
    rw [hfields] at hconnected
    obtain ⟨rfl, -⟩ := hkeep (hs hconnected)
    exact hs hconnected
  · obtain ⟨hrelease, hnot, -, -⟩ := close_effect hclose
    exact ⟨heffect.trans hrelease, .of_not_connected hnot⟩
  · refine ⟨heffect.trans (.keep (addresses_socket _ _) rfl rfl), fun _ => ?_⟩
    rw [isValid, addresses_socket]
    exact hb.symm.trans hb₁

end Socket

/-! ## Ownership -/

/-- What a descriptor can belong to. -/
inductive Owner where
  | other
  | socket (i : Nat)
  /-- The descriptor was accepted, and no socket was made of it. -/
  | nobody

namespace World

variable {w w' : World A} {i j : Nat} {s s' : Socket A} {k k' : Kernel A} {fd fd' : Int} {o : Owner}

def Owns (w : World A) : Owner → Int → Prop
  | .other, fd => w.others fd = true
  | .socket i, fd => fd ≠ -1 ∧ ∃ s, w.sockets i = some s ∧ s.socket = fd
  | .nobody, fd => fd ∈ w.lost

/-- Each open descriptor has one owner, and only open descriptors were closed. -/
structure Owned (w : World A) : Prop where
  partition : Owner.Partition (fun fd => w.kernel.opened fd = true) w.Owns
  nonneg : ∀ {fd}, w.kernel.opened fd = true → 0 ≤ fd
  closes : ∀ {c}, c ∈ w.kernel.closes → c.2 = true
  bound : ∀ {i}, w.cnt ≤ i → w.sockets i = none

theorem owns_put (w : World A) (i : Nat) (s : Socket A) (k : Kernel A) (o : Owner) (fd : Int) :
    (w.put i s k).Owns o fd ↔
      o = .socket i ∧ fd ≠ -1 ∧ s.socket = fd ∨ o ≠ .socket i ∧ w.Owns o fd := by
  cases o with
  | other | nobody => simp [Owns, put]
  | socket j =>
    by_cases hj : j = i
    · subst hj
      simp [Owns, put]
    · simp [Owns, put, hj]

theorem bound_put (h : w.Owned) (hi : w.sockets i = some s) :
    ∀ {j}, (w.put i s' k').cnt ≤ j → (w.put i s' k').sockets j = none := by
  intro j hj
  have hne : j ≠ i := by
    rintro rfl
    rw [h.bound hj] at hi
    cases hi
  exact (Function.update_of_ne hne _ _).trans (h.bound hj)

theorem owns_socket (hi : w.sockets i = some s) :
    w.Owns (.socket i) fd ↔ fd ≠ -1 ∧ s.socket = fd := by
  simp [Owns, hi]

theorem Owned.put (h : w.Owned) (hi : w.sockets i = some s) (he : Effect s k s' k')
    (hk : w.kernel = k) : (w.put i s' k').Owned := by
  induction he generalizing w with
  | @keep s s' k k' hs ho hc =>
    subst hk
    refine ⟨h.partition.congr (fun fd => by rw [World.put, ho]) fun o fd => ?_, ?_, ?_,
      bound_put h hi⟩
    · rw [owns_put]
      by_cases hoi : o = .socket i
      · subst hoi
        simp [owns_socket hi, hs]
      · simp [hoi]
    · rw [World.put, ho]
      exact h.nonneg
    · rw [World.put, hc]
      exact h.closes
  | @acquire s s' k k' hs hfd hfresh ho hc =>
    subst hk
    have hne : s'.socket ≠ -1 := by omega
    refine ⟨h.partition.hand (x := s'.socket) (a := .socket i) (by simp [hfresh])
      (fun fd => ?_) fun o fd => ?_, ?_, ?_, bound_put h hi⟩
    · rw [World.put, ho, Function.update_apply]
      by_cases hr : fd = s'.socket <;> simp [hr]
    · rw [owns_put]
      by_cases hoi : o = .socket i
      · subst hoi
        simp only [owns_socket hi, hs, true_and, ne_eq, not_true_eq_false, false_and, or_false]
        constructor
        · rintro ⟨-, rfl⟩
          exact .inr rfl
        · rintro (⟨hno, rfl⟩ | rfl)
          · exact absurd rfl hno
          · exact ⟨hne, rfl⟩
      · simp [hoi]
    · intro fd hopen
      rw [World.put, ho, Function.update_apply] at hopen
      split at hopen
      · rename_i heq
        rwa [heq]
      · exact h.nonneg hopen
    · rw [World.put, hc]
      exact h.closes
  | @release s s' k k' hs hs' ho hc =>
    subst hk
    have howns : w.Owns (.socket i) s.socket := (owns_socket hi).mpr ⟨hs, rfl⟩
    refine ⟨h.partition.drop (x := s.socket) (fun fd => ?_) fun o fd => ?_, ?_, ?_,
      bound_put h hi⟩
    · rw [World.put, ho, Function.update_apply]
      by_cases hr : fd = s.socket <;> simp [hr]
    · rw [owns_put]
      by_cases hoi : o = .socket i
      · subst hoi
        simp only [owns_socket hi, hs', true_and, ne_eq, not_true_eq_false, false_and, or_false]
        constructor
        · rintro ⟨hno, rfl⟩
          exact absurd rfl hno
        · rintro ⟨⟨-, rfl⟩, hno⟩
          exact absurd rfl hno
      · simp only [hoi, false_and, false_or, ne_eq, not_false_eq_true, true_and]
        refine ⟨fun hown => ⟨hown, ?_⟩, And.left⟩
        rintro rfl
        exact hoi (h.partition.unique hown howns)
    · intro fd hopen
      rw [World.put, ho, Function.update_apply] at hopen
      split at hopen
      · cases hopen
      · exact h.nonneg hopen
    · intro c hmem
      rw [World.put, hc, List.mem_append, List.mem_singleton] at hmem
      rcases hmem with hmem | rfl
      · exact h.closes hmem
      · exact h.partition.live_of_owns howns
  | @trans s s₁ s' k k₁ k' h₁ h₂ ih₁ ih₂ =>
    have hmid := ih₁ h hi hk
    have hend := ih₂ hmid (by simp [World.put]) rfl
    simpa [World.put] using hend

theorem owns_add (hb : ∀ {i}, w.cnt ≤ i → w.sockets i = none) (k : Kernel A) (s : Socket A)
    (o : Owner) (fd : Int) : (add { w with kernel := k } s).Owns o fd ↔
      w.Owns o fd ∨ o = .socket w.cnt ∧ fd ≠ -1 ∧ s.socket = fd := by
  cases o with
  | other | nobody => simp [Owns, add]
  | socket j =>
    by_cases hj : j = w.cnt
    · subst hj
      simp [Owns, add, hb (Nat.le_refl _)]
    · simp [Owns, add, hj]

theorem bound_add (hb : ∀ {i}, w.cnt ≤ i → w.sockets i = none) (s : Socket A) :
    ∀ {j}, (w.add s).cnt ≤ j → (w.add s).sockets j = none := by
  intro j hj
  have hlt : w.cnt < j := hj
  exact (Function.update_of_ne (Nat.ne_of_gt hlt) _ _).trans (hb (Nat.le_of_lt hlt))

/-- A new descriptor goes to a new socket, or to nobody. -/
theorem Owned.hand (h : w.Owned) (hfd : 0 ≤ fd) (hfresh : w.kernel.opened fd = false)
    (ho : w'.kernel.opened = Function.update w.kernel.opened fd true)
    (hc : w'.kernel.closes = w.kernel.closes) (a : Owner)
    (howns : ∀ o fd', w'.Owns o fd' ↔ w.Owns o fd' ∨ o = a ∧ fd' = fd)
    (hbound : ∀ {j}, w'.cnt ≤ j → w'.sockets j = none) : w'.Owned := by
  refine ⟨h.partition.hand (x := fd) (a := a) (by simp [hfresh]) (fun fd' => ?_) howns, ?_, ?_,
    hbound⟩
  · rw [ho, Function.update_apply]
    by_cases hr : fd' = fd <;> simp [hr]
  · intro fd' hopen
    rw [ho, Function.update_apply] at hopen
    split at hopen
    · rename_i heq
      rwa [heq]
    · exact h.nonneg hopen
  · rw [hc]
    exact h.closes

/-- The descriptors have their owners, and a connected socket holds one. -/
structure Inv (w : World A) : Prop where
  owned : w.Owned
  sound : ∀ {i s}, w.sockets i = some s → s.Sound

theorem Inv.put (h : w.Inv) (hi : w.sockets i = some s) (he : Effect s w.kernel s' k')
    (hs : s'.Sound) : (w.put i s' k').Inv := by
  refine ⟨h.owned.put hi he rfl, fun {j t} hj => ?_⟩
  have hupdate : Function.update w.sockets i (some s') j = some t := hj
  by_cases hji : j = i
  · subst hji
    rw [Function.update_self] at hupdate
    cases hupdate
    exact hs
  · rw [Function.update_of_ne hji] at hupdate
    exact h.sound hupdate

theorem sound_add (h : ∀ {i s}, w.sockets i = some s → s.Sound) (hs : s.Sound) :
    ∀ {j t}, (w.add s).sockets j = some t → t.Sound := by
  intro j t hj
  have hupdate : Function.update w.sockets w.cnt (some s) j = some t := hj
  by_cases hji : j = w.cnt
  · subst hji
    rw [Function.update_self] at hupdate
    cases hupdate
    exact hs
  · rw [Function.update_of_ne hji] at hupdate
    exact h hupdate

theorem Inv.create (h : w.Inv) (hs : s.socket = -1) (hc : s.isConnected = false) :
    (w.add s).Inv := by
  refine ⟨⟨h.owned.partition.congr (fun _ => Iff.rfl) fun o fd => ?_, h.owned.nonneg,
    h.owned.closes, bound_add h.owned.bound s⟩, sound_add h.sound (.of_not_connected hc)⟩
  · refine (owns_add h.owned.bound w.kernel s o fd).trans (or_iff_left ?_)
    rintro ⟨-, hne, rfl⟩
    exact hne hs

/-- The destruction of a socket that was closed. -/
theorem Inv.remove (h : w.Inv) (hi : w.sockets i = some s) (hs : s.socket = -1) :
    Inv { w with sockets := Function.update w.sockets i none } := by
  refine ⟨⟨h.owned.partition.congr (fun _ => Iff.rfl) fun o fd => ?_, h.owned.nonneg,
    h.owned.closes, fun {j} hj => ?_⟩, fun {j t} hj => ?_⟩
  · cases o with
    | other | nobody => exact Iff.rfl
    | socket j =>
      by_cases hji : j = i
      · subst hji
        have hnone : ¬w.Owns (.socket j) fd := by
          rw [owns_socket hi, hs]
          exact fun hown => hown.1 hown.2.symm
        exact iff_of_false (by simp [Owns]) hnone
      · simp [Owns, hji]
  · by_cases hji : j = i
    · subst hji
      exact Function.update_self ..
    · exact (Function.update_of_ne hji _ _).trans (h.owned.bound hj)
  · have hupdate : Function.update w.sockets i none j = some t := hj
    by_cases hji : j = i
    · subst hji
      rw [Function.update_self] at hupdate
      cases hupdate
    · rw [Function.update_of_ne hji] at hupdate
      exact h.sound hupdate

/-- The rest of the process closes a descriptor of its own. -/
theorem Owned.otherClose (h : w.Owned) (hfd : w.others fd = true) :
    Owned { w with kernel := w.kernel.close fd, others := Function.update w.others fd false } := by
  have howns : w.Owns .other fd := hfd
  have hne : ∀ {o fd'}, o ≠ .other → w.Owns o fd' → fd' ≠ fd := by
    rintro o _ hother hown rfl
    exact hother (h.partition.unique hown howns)
  refine ⟨h.partition.drop (x := fd) (fun fd' => ?_) (fun o fd' => ?_), fun {fd'} hopen => ?_,
    fun {c} hmem => ?_, h.bound⟩
  · by_cases hr : fd' = fd <;> simp [Kernel.close, hr]
  · cases o with
    | other => by_cases hr : fd' = fd <;> simp [Owns, hr]
    | socket j => exact ⟨fun hown => ⟨hown, hne (o := .socket j) (by simp) hown⟩, And.left⟩
    | nobody => exact ⟨fun hown => ⟨hown, hne (o := .nobody) (by simp) hown⟩, And.left⟩
  · have hupdate : Function.update w.kernel.opened fd false fd' = true := hopen
    rw [Function.update_apply] at hupdate
    split at hupdate
    · cases hupdate
    · exact h.nonneg hupdate
  · have hmem : c ∈ w.kernel.closes ++ [(fd, w.kernel.opened fd)] := hmem
    rw [List.mem_append, List.mem_singleton] at hmem
    rcases hmem with hmem | rfl
    · exact h.closes hmem
    · exact h.partition.live_of_owns howns

end World

theorem Socket.accept_cases {s : Socket A} {k k' : Kernel A} {managed : Bool} {a : Answer A}
    {r : Option (Socket A)} (h : s.accept k managed a = (r, k')) :
    a.fd = -1 ∧ r = none ∧ k' = k ∨ a.fd ≠ -1 ∧
      k'.opened = Function.update k.opened a.fd true ∧ k'.closes = k.closes ∧
      k'.peername = Function.update k.peername a.fd a.peername ∧
      (managed = false ∧ r = none ∨ managed = true ∧ ∃ sock : Socket A, r = some sock ∧
        sock.socket = a.fd ∧ sock.isConnected = true ∧ sock.remoteAddress = a.peername) := by
  unfold accept at h
  split at h
  · rename_i hnone
    cases h
    exact .inl ⟨hnone, rfl, rfl⟩
  · rename_i hfd
    cases h
    refine .inr ⟨hfd, rfl, rfl, by simp [Kernel.link, Kernel.hand], ?_⟩
    cases managed with
    | false => exact .inl ⟨rfl, rfl⟩
    | true =>
      refine .inr ⟨rfl, _, rfl, ?_⟩
      refine ⟨(getLocalAddress_socket _ _).1.trans (getRemoteAddress_socket _ _).1,
        (getLocalAddress_socket _ _).2.1.trans (getRemoteAddress_socket _ _).2,
        (getLocalAddress_socket _ _).2.2.trans ?_⟩
      unfold getRemoteAddress
      have hpeer : ((k.hand a.fd a.sockname).link a.fd a).peername a.fd = a.peername := by
        simp [Kernel.link]
      dsimp only
      rw [hpeer]
      cases a.peername <;> rfl

/-- The descriptors that a call leaves open and to nobody. -/
def Op.leaks : Op A → List Int
  | .accept _ false a => if a.fd = -1 then [] else [a.fd]
  | _ => []

namespace World

variable {w w' : World A} {s : Socket A} {op : Op A} {ops : List (Op A)} {i : Nat} {fd : Int}

/-- What an `accept` does. -/
theorem accept_step {managed : Bool} {a : Answer A}
    (hs : w.step (.accept i managed a) = some w') :
    a.fd = -1 ∧ w' = w ∨ a.fd ≠ -1 ∧ 0 ≤ a.fd ∧ w.kernel.opened a.fd = false ∧
      w'.kernel.opened = Function.update w.kernel.opened a.fd true ∧
      w'.kernel.closes = w.kernel.closes ∧
      w'.kernel.peername = Function.update w.kernel.peername a.fd a.peername ∧
      (managed = false ∧ w' = { w with kernel := w'.kernel, lost := w.lost ++ [a.fd] } ∨
        managed = true ∧ ∃ sock : Socket A, w' = add { w with kernel := w'.kernel } sock ∧
          sock.socket = a.fd ∧ sock.isConnected = true ∧ sock.remoteAddress = a.peername) := by
  simp only [World.step] at hs
  split at hs
  · rename_i hf
    obtain ⟨s, hi, heq⟩ := Option.map_eq_some_iff.mp hs
    cases hr : s.accept w.kernel managed a with
    | mk r k₁ =>
      rw [hr] at heq
      rcases Socket.accept_cases hr with ⟨hnone, rfl, rfl⟩ | ⟨hfd, ho, hc, hpeer, hcase⟩
      · dsimp only at heq
        rw [if_pos hnone] at heq
        exact .inl ⟨hnone, heq.symm⟩
      · obtain ⟨hpos, hfresh⟩ := hf.resolve_left hfd
        rcases hcase with ⟨hmanaged, rfl⟩ | ⟨hmanaged, sock, rfl, hsock⟩
        · dsimp only at heq
          rw [if_neg hfd] at heq
          cases heq
          exact .inr ⟨hfd, hpos, hfresh, ho, hc, hpeer, .inl ⟨hmanaged, rfl⟩⟩
        · cases heq
          exact .inr ⟨hfd, hpos, hfresh, ho, hc, hpeer, .inr ⟨hmanaged, sock, rfl, hsock⟩⟩
  · cases hs

theorem Inv.accept (h : w.Inv) {managed : Bool} {a : Answer A}
    (hs : w.step (.accept i managed a) = some w') : w'.Inv := by
  rcases accept_step hs with ⟨-, rfl⟩ |
    ⟨hfd, hpos, hfresh, ho, hc, -, ⟨-, hw⟩ | ⟨-, sock, hw, hsocket, -⟩⟩
  · exact h
  · have hsockets : w'.sockets = w.sockets ∧ w'.cnt = w.cnt := by
      rw [hw]
      exact ⟨rfl, rfl⟩
    refine ⟨h.owned.hand hpos hfresh ho hc .nobody (fun o fd' => ?_) ?_, ?_⟩
    · rw [hw]
      cases o <;> simp [Owns]
    · rw [hsockets.1, hsockets.2]
      exact h.owned.bound
    · rw [hsockets.1]
      exact h.sound
  · have hvalid : sock.Sound := fun _ => by simp [Socket.isValid, hsocket, hfd]
    refine ⟨h.owned.hand hpos hfresh ho hc (.socket w.cnt) (fun o fd' => ?_) ?_, ?_⟩
    · rw [hw, owns_add h.owned.bound, hsocket]
      refine or_congr_right (and_congr_right fun _ => ⟨?_, ?_⟩)
      · rintro ⟨-, rfl⟩
        rfl
      · rintro rfl
        exact ⟨hfd, rfl⟩
    · rw [hw]
      exact bound_add (w := { w with kernel := w'.kernel }) h.owned.bound sock
    · rw [hw]
      exact sound_add (w := { w with kernel := w'.kernel }) h.sound hvalid

theorem Inv.step (h : w.Inv) (hs : w.step op = some w') : w'.Inv := by
  cases op with
  | create family type protocol =>
    cases hs
    exact h.create rfl rfl
  | bind i family a =>
    simp only [World.step] at hs
    split at hs
    · rename_i hf
      obtain ⟨s, hi, rfl⟩ := Option.map_eq_some_iff.mp hs
      have hbind : s.bind w.kernel family a = _ := rfl
      obtain ⟨he, hsound⟩ := Socket.bind_effect hf (h.sound hi) hbind
      exact h.put hi he hsound
    · cases hs
  | listen i a =>
    obtain ⟨s, -, rfl⟩ := Option.map_eq_some_iff.mp hs
    exact h
  | accept i managed a => exact h.accept hs
  | connect i family a =>
    simp only [World.step] at hs
    split at hs
    · rename_i hf
      obtain ⟨s, hi, rfl⟩ := Option.map_eq_some_iff.mp hs
      have hconnect : s.connect w.kernel family a = _ := rfl
      obtain ⟨he, hsound⟩ := Socket.connect_effect hf (h.sound hi) hconnect
      exact h.put hi he hsound
    · cases hs
  | getLocalAddress i =>
    obtain ⟨s, hi, rfl⟩ := Option.map_eq_some_iff.mp hs
    obtain ⟨hsocket, hconnected, -⟩ := Socket.getLocalAddress_socket s w.kernel
    exact h.put hi (.keep hsocket rfl rfl) ((h.sound hi).congr hsocket hconnected)
  | getRemoteAddress i =>
    obtain ⟨s, hi, rfl⟩ := Option.map_eq_some_iff.mp hs
    obtain ⟨hsocket, hconnected⟩ := Socket.getRemoteAddress_socket s w.kernel
    exact h.put hi (.keep hsocket rfl rfl) ((h.sound hi).congr hsocket hconnected)
  | close i =>
    obtain ⟨s, hi, rfl⟩ := Option.map_eq_some_iff.mp hs
    have hclose : s.close w.kernel = _ := rfl
    obtain ⟨he, hnot, -⟩ := Socket.close_effect hclose
    exact h.put hi he (.of_not_connected hnot)
  | destroy i =>
    obtain ⟨s, hi, heq⟩ := Option.map_eq_some_iff.mp hs
    cases hclose : s.close w.kernel with
    | mk s₁ k₁ =>
      rw [hclose] at heq
      cases heq
      obtain ⟨he, hnot, hinvalid, -⟩ := Socket.close_effect hclose
      have hremove := (h.put hi he (.of_not_connected hnot)).remove (i := i)
        (Function.update_self ..) (by simpa [Socket.isValid] using hinvalid)
      simpa [World.put] using hremove
  | otherOpen fd =>
    simp only [World.step] at hs
    split at hs
    · rename_i hfresh
      cases hs
      refine ⟨h.owned.hand hfresh.1 hfresh.2 rfl rfl .other (fun o fd' => ?_) h.owned.bound,
        h.sound⟩
      cases o with
      | other => by_cases hr : fd' = fd <;> simp [Owns, hr]
      | socket j => simp [Owns]
      | nobody => simp [Owns]
    · cases hs
  | otherClose fd =>
    simp only [World.step] at hs
    split at hs
    · rename_i hfd
      cases hs
      exact ⟨h.owned.otherClose hfd, h.sound⟩
    · cases hs

theorem step_lost (hs : w.step op = some w') : w'.lost = w.lost ++ op.leaks := by
  cases op with
  | accept i managed a =>
    rcases accept_step hs with ⟨hnone, rfl⟩ | ⟨hfd, -, -, -, -, -, ⟨rfl, hw⟩ | ⟨rfl, sock, hw, -⟩⟩
    · cases managed <;> simp [Op.leaks, hnone]
    · rw [hw]
      simp [Op.leaks, hfd]
    · rw [hw]
      exact (List.append_nil _).symm
  | create family type protocol =>
    cases hs
    exact (List.append_nil _).symm
  | listen | getLocalAddress | getRemoteAddress | close | destroy =>
    obtain ⟨s, -, rfl⟩ := Option.map_eq_some_iff.mp hs
    exact (List.append_nil _).symm
  | bind | connect =>
    simp only [World.step] at hs
    split at hs
    · obtain ⟨s, -, rfl⟩ := Option.map_eq_some_iff.mp hs
      exact (List.append_nil _).symm
    · cases hs
  | otherOpen | otherClose =>
    simp only [World.step] at hs
    split at hs
    · cases hs
      exact (List.append_nil _).symm
    · cases hs

theorem run_inv (h : w.Inv) (hr : ops.foldlM World.step w = some w') :
    w'.Inv ∧ w'.lost = w.lost ++ ops.flatMap Op.leaks := by
  induction ops generalizing w with
  | nil =>
    cases hr
    exact ⟨h, by simp⟩
  | cons op ops ih =>
    rw [List.foldlM_cons] at hr
    obtain ⟨w₁, hs, hr⟩ := Option.bind_eq_some_iff.mp hr
    obtain ⟨hinv, hlost⟩ := ih (h.step hs) hr
    exact ⟨hinv, by rw [hlost, step_lost hs, List.append_assoc, List.flatMap_cons]⟩

theorem Inv.owns_connected (h : w.Inv) (hi : w.sockets i = some s) (hc : s.isConnected = true) :
    w.Owns (.socket i) s.socket := by
  have hvalid : s.socket ≠ -1 := by simpa [Socket.isValid] using h.sound hi hc
  exact (owns_socket hi).mpr ⟨hvalid, rfl⟩

theorem init_inv {k : Kernel A} (hk : ∀ fd, k.opened fd = true → 0 ≤ fd) (hc : k.closes = []) :
    Inv { kernel := k } where
  owned := {
    partition := {
      live_of_owns := fun {o fd} hown => by
        cases o with
        | other => exact hown
        | socket i =>
          obtain ⟨-, s, hs, -⟩ := hown
          cases hs
        | nobody => cases hown
      unique := fun {o o' fd} hown hown' => by
        cases o with
        | other =>
          cases o' with
          | other => rfl
          | socket i =>
            obtain ⟨-, s, hs, -⟩ := hown'
            cases hs
          | nobody => cases hown'
        | socket i =>
          obtain ⟨-, s, hs, -⟩ := hown
          cases hs
        | nobody => cases hown
      covered := fun hopen => ⟨.other, hopen⟩ }
    nonneg := fun {fd} => hk fd
    closes := fun {c} hmem => by
      have hnil : c ∈ k.closes := hmem
      rw [hc] at hnil
      cases hnil
    bound := fun _ => rfl }
  sound := fun hs => by cases hs

/-- **The descriptors of a process.** After any calls on any sockets, an open descriptor has exactly
one owner: a socket, the rest of the process, or nobody if it was accepted and `init` failed. A
connected socket holds an open descriptor, and no descriptor was closed twice. -/
theorem descriptors_owned {k : Kernel A} (hk : ∀ fd, k.opened fd = true → 0 ≤ fd)
    (hc : k.closes = []) (hr : ops.foldlM World.step { kernel := k } = some w) :
    (∀ fd, w.kernel.opened fd = true ↔ ∃! o, w.Owns o fd) ∧
    (∀ fd, w.Owns .nobody fd ↔ fd ∈ ops.flatMap Op.leaks) ∧
    (∀ i s, w.sockets i = some s → s.isConnected = true → w.kernel.opened s.socket = true) ∧
    ∀ c ∈ w.kernel.closes, c.2 = true := by
  obtain ⟨hinv, hlost⟩ := run_inv (init_inv hk hc) hr
  have hpartition := hinv.owned.partition
  refine ⟨fun fd => ⟨fun hopen => ?_, ?_⟩, fun fd => ?_, fun i s hi hconnected => ?_,
    fun c hmem => hinv.owned.closes hmem⟩
  · obtain ⟨o, ho⟩ := hpartition.covered hopen
    exact ⟨o, ho, fun o' ho' => hpartition.unique ho' ho⟩
  · rintro ⟨o, ho, -⟩
    exact hpartition.live_of_owns ho
  · rw [Owns, hlost]
    rfl
  · exact hpartition.live_of_owns (hinv.owns_connected hi hconnected)

/-- The three standard descriptors are open. -/
def standard : Kernel Nat where
  opened fd := decide (0 ≤ fd ∧ fd ≤ 2)
  sockname _ := none
  peername _ := none

/-- A listener, a connection that is closed, and one whose `init` fails. -/
theorem descriptors_owned_accept : ∃ w : World Nat,
    (∀ fd, w.kernel.opened fd = true ↔ ∃! o, w.Owns o fd) ∧
    (∀ fd, w.Owns .nobody fd ↔ fd ∈ [5]) ∧
    (∀ i s, w.sockets i = some s → s.isConnected = true → w.kernel.opened s.socket = true) ∧
    ∀ c ∈ w.kernel.closes, c.2 = true := by
  have hends : ([.create 2 1 0, .bind 0 2 ⟨3, true, some 80, none⟩,
      .listen 0 ⟨-1, true, none, none⟩,
      .accept 0 true ⟨4, true, some 80, some 9⟩, .close 1, .otherOpen 4,
      .accept 0 false ⟨5, true, some 80, some 9⟩, .destroy 1, .destroy 0].foldlM World.step
        { kernel := standard }).isSome = true := by
    decide
  obtain ⟨w, hw⟩ := Option.isSome_iff_exists.mp hends
  exact ⟨w, descriptors_owned (fun fd h => (of_decide_eq_true h).1) rfl hw⟩

end World

end Tigerkin.Sockets
