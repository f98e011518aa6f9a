import Tigerkin.FdManager.PartialMap
import Tigerkin.Std.Run

/-! # Creating entities in several threads

`get(fd, true)` looks into the table in one locked section and adds an entity in another one, which
does not look again. All calls for a descriptor return one entity as long as no addition finds the
place taken (`one_entity`). -/

namespace Tigerkin

/-- The setters of an entity. -/
inductive FdEntity.Setter where
  | setSysNonblock (flag : Bool)
  | setUserNonblock (flag : Bool)
  | setRecvTimeout (timeout : UInt64)
  | setSendTimeout (timeout : UInt64)
  | setConnectTimeout (timeout : UInt64)

def FdEntity.set (e : FdEntity) : Setter → FdEntity
  | .setSysNonblock flag => { e with isSysNonblock := flag }
  | .setUserNonblock flag => { e with isUserNonblock := flag }
  | .setRecvTimeout timeout => { e with recvTimeout := timeout }
  | .setSendTimeout timeout => { e with sendTimeout := timeout }
  | .setConnectTimeout timeout => { e with connectTimeout := timeout }

/-- What a call of `get(fd, true)` has returned. -/
structure FdHandle where
  fd : Int
  entity : Nat
  deriving DecidableEq

structure FdState where
  manager : FdManager
  /-- The descriptor that a thread will add, between the two sections of `get`. -/
  adding : Nat → Option Int := fun _ => none
  handles : List FdHandle := []

inductive FdStep where
  /-- The first section of `get(fd, true)`. -/
  | get (t : Nat) (fd : Int)
  | add (t : Nat)
  | set (h : FdHandle) (f : FdEntity.Setter)

namespace FdManager

/-- The section of `get` under the read lock; `some none` if it has found nothing. -/
def find (m : FdManager) (fd : Int) : Option (Option Nat) :=
  if fd ≥ m.size then some none else m.index fd

def setEntity (m : FdManager) (p : Nat) (f : FdEntity.Setter) : FdManager :=
  { m with entities := m.entities.modify p (·.set f) }

variable {m m' : FdManager} {fd : Int} {p : Nat} {r : Option Nat}

/-- The two sections, one after the other. -/
theorem get_eq_find (m : FdManager) (fd : Int) :
    m.get fd true =
      match m.find fd with
      | none => none
      | some (some p) => some (m, some p)
      | some none => m.add fd := by
  unfold get find
  split
  · rfl
  · cases m.index fd with
    | none => rfl
    | some o => cases o <;> rfl

theorem index_eq_some {o : Option Nat} (h : m.index fd = some o) :
    0 ≤ fd ∧ fd < m.data.length ∧ m.lookup fd.toNat = o := by
  unfold index at h
  split at h
  · have hlt := (List.getElem?_eq_some_iff.mp h).1
    refine ⟨‹_›, by omega, ?_⟩
    rw [lookup, h]
    rfl
  · cases h

theorem find_some (h : m.find fd = some (some p)) : 0 ≤ fd ∧ m.lookup fd.toNat = some p := by
  unfold find at h
  split at h
  · cases h
  · obtain ⟨h0, -, hp⟩ := index_eq_some h
    exact ⟨h0, hp⟩

/-- **What an addition does**: a new entity at the place of the descriptor. -/
theorem add_eq_some (h : m.add fd = some (m', r)) :
    0 ≤ fd ∧ r = some m.entities.length ∧
      (∃ e, m'.entities = m.entities ++ [e]) ∧
      ∀ i, m'.lookup i = if i = fd.toNat then some m.entities.length else m.lookup i := by
  have hroom : ∀ m₁ : FdManager, m₁.entities = m.entities → (∀ i, m₁.lookup i = m.lookup i) →
      ∀ o, m₁.index fd = some o → m₁.place fd = m' ∧ some m.entities.length = r → 0 ≤ fd ∧ r = some m.entities.length ∧ (∃ e, m'.entities = m.entities ++ [e]) ∧
        ∀ i, m'.lookup i = if i = fd.toNat then some m.entities.length else m.lookup i := by
    rintro m₁ hent hlook o hidx ⟨rfl, rfl⟩
    obtain ⟨h0, hlt, -⟩ := index_eq_some hidx
    refine ⟨h0, rfl, ⟨_, by rw [place, hent]⟩, fun i => ?_⟩
    rw [place_lookup h0 hlt, hent, hlook]
  unfold add at h
  split at h
  · dsimp only at h
    split at h
    · cases h
    · rename_i hidx
      exact hroom (m.grow fd) rfl (grow_lookup m fd) _ hidx (Prod.mk.inj (Option.some.inj h))
  · dsimp only at h
    split at h
    · cases h
    · rename_i hidx
      exact hroom m rfl (fun _ => rfl) _ hidx (Prod.mk.inj (Option.some.inj h))

end FdManager

namespace FdState

def setAdding (s : FdState) (t : Nat) (fd : Option Int) : FdState :=
  { s with adding := Function.update s.adding t fd }

/-- A call returns an entity. -/
def hand (s : FdState) (fd : Int) (p : Nat) : FdState :=
  { s with handles := ⟨fd, p⟩ :: s.handles }

def step (s : FdState) : FdStep → Option FdState
  | .get t fd =>
    match s.adding t with
    | some _ => none
    | none =>
      match s.manager.find fd with
      | none => none
      | some (some p) => some (s.hand fd p)
      | some none => some (s.setAdding t (some fd))
  | .add t =>
    match s.adding t with
    | none => none
    | some fd =>
      match s.manager.add fd with
      | some (m, some p) => some ({ s with manager := m }.setAdding t none |>.hand fd p)
      | _ => none
  | .set h f =>
    if h ∈ s.handles then some { s with manager := s.manager.setEntity h.entity f } else none

/-- The condition on a step: an addition finds the place of its descriptor empty. -/
def PlaceFree (s : FdState) : FdStep → Prop
  | .add t => ∀ fd, s.adding t = some fd → s.manager.lookup fd.toNat = none
  | _ => True

/-- Every entity that was returned is the one in the table. -/
def Inv (s : FdState) : Prop :=
  ∀ h ∈ s.handles, 0 ≤ h.fd ∧ s.manager.lookup h.fd.toNat = some h.entity

variable {s s' : FdState} {a : FdStep}

theorem Inv.hand (H : s.Inv) {fd : Int} {p : Nat} (h0 : 0 ≤ fd)
    (hp : s.manager.lookup fd.toNat = some p) : (s.hand fd p).Inv := by
  intro h hh
  rcases List.mem_cons.mp hh with rfl | hh
  · exact ⟨h0, hp⟩
  · exact H h hh

theorem Inv.step (H : s.Inv) (hg : PlaceFree s a) (h : step s a = some s') : s'.Inv := by
  cases a with
  | get t fd =>
    simp only [FdState.step] at h
    split at h
    · cases h
    · split at h
      · cases h
      · rename_i p hp
        cases h
        obtain ⟨h0, hp⟩ := FdManager.find_some hp
        exact H.hand h0 hp
      · cases h
        exact H
  | add t =>
    simp only [FdState.step] at h
    split at h
    · cases h
    · rename_i fd hfd
      split at h
      · rename_i m p hadd
        cases h
        obtain ⟨h0, hp, -, hlook⟩ := FdManager.add_eq_some hadd
        cases hp
        have hfree := hg fd hfd
        have H' : ({ s with manager := m }.setAdding t none).Inv := by
          intro h hh
          obtain ⟨h0', hp⟩ := H h hh
          have hne : h.fd.toNat ≠ fd.toNat := fun heq => by
            rw [heq, hfree] at hp
            cases hp
          exact ⟨h0', (hlook _).trans (by rw [if_neg hne, hp])⟩
        exact H'.hand h0 ((hlook _).trans (if_pos rfl))
      · cases h
  | set h' f =>
    simp only [FdState.step] at h
    split at h
    · cases h
      exact H
    · cases h

/-- An addition that finds the place taken puts another entity there, and returns it. -/
theorem replaced_of_taken (hg : ¬PlaceFree s a) (h : step s a = some s') :
    ∃ fd p q, s.manager.lookup fd = some p ∧ s'.manager.lookup fd = some q ∧
      q = s.manager.entities.length ∧ ∃ x ∈ s'.handles, x.fd.toNat = fd ∧ x.entity = q := by
  cases a with
  | add t =>
    simp only [PlaceFree, not_forall] at hg
    obtain ⟨fd, hfd, hne⟩ := hg
    obtain ⟨p, hp⟩ := Option.ne_none_iff_exists'.mp hne
    simp only [FdState.step, hfd] at h
    split at h
    · rename_i m q hadd
      cases h
      obtain ⟨-, hq, -, hlook⟩ := FdManager.add_eq_some hadd
      cases hq
      exact ⟨fd.toNat, p, _, hp, (hlook _).trans (if_pos rfl), rfl, _, List.mem_cons_self, rfl, rfl⟩
    · cases h
  | _ => exact absurd trivial hg

/-- The state before any call, with the entities that are there already. -/
def init (m : FdManager) : FdState := { manager := m }

/-- **One entity per descriptor**: in a run in which no addition finds its place taken, all calls for
a descriptor have returned the entity in the table, and what is set through one of them is seen
through all. An addition that finds its place taken puts another entity there. -/
theorem one_entity (m : FdManager) :
    (∀ s, Reach step PlaceFree (init m) s → ∀ h ∈ s.handles, ∀ h' ∈ s.handles, h.fd = h'.fd →
      h.entity = h'.entity ∧ s.manager.lookup h.fd.toNat = some h.entity ∧
        ∀ f s', step s (.set h f) = some s' →
          s'.manager.entities[h'.entity]? = (s.manager.entities[h'.entity]?).map (·.set f)) ∧
    ∀ s a s', Reach step Always (init m) s → step s a = some s' → ¬PlaceFree s a →
      ∃ fd p q, s.manager.lookup fd = some p ∧ s'.manager.lookup fd = some q ∧
        q = s.manager.entities.length ∧ ∃ x ∈ s'.handles, x.fd.toNat = fd ∧ x.entity = q := by
  refine ⟨fun s hs h hh h' hh' hfd => ?_, fun s a s' _ h hg => replaced_of_taken hg h⟩
  have H : s.Inv := hs.inv (fun _ hh => nomatch hh) fun H hg h => H.step hg h
  have heq : h.entity = h'.entity := by
    have hp := (H h hh).2
    rw [hfd, (H h' hh').2] at hp
    exact (Option.some.inj hp).symm
  refine ⟨heq, (H h hh).2, fun f s' hset => ?_⟩
  simp only [FdState.step, if_pos hh] at hset
  cases hset
  simp [FdManager.setEntity, heq]

/-- A new manager, with the descriptor 5 open for a socket. -/
def socketManager : FdManager where
  kernel :=
    { descriptors := fun fd => if fd = 5 then some ⟨true, 0⟩ else none
      setfl := fun _ arg => some arg
      setfl_nonblock := nonblock_of_accepted
      setfl_or := isSome_accepted }

/-- Two threads look for the descriptor 5 before either of them adds it: they get two entities, and
a flag that is set through the one is not seen through the other. -/
theorem two_entities : ∃ s, Reach step Always (init socketManager) s ∧
    s.handles = [⟨5, 1⟩, ⟨5, 0⟩] ∧ s.manager.lookup 5 = some 1 ∧
    s.manager.entities.map (·.isUserNonblock) = [true, false] := by
  obtain ⟨s, hs, h⟩ := Reach.of_any step Always (init socketManager)
    [.get 0 5, .get 1 5, .add 0, .add 1, .set ⟨5, 0⟩ (.setUserNonblock true)]
    (fun s => decide (s.handles = [⟨5, 1⟩, ⟨5, 0⟩] ∧ s.manager.lookup 5 = some 1 ∧
      s.manager.entities.map (·.isUserNonblock) = [true, false])) (by decide)
  exact ⟨s, hs, of_decide_eq_true h⟩

end FdState

end Tigerkin
