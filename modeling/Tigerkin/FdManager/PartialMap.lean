import Mathlib.Logic.Function.Basic
import Mathlib.Data.Int.Basic
import Tigerkin.FdManager.Basic
import Tigerkin.Std.Refinement

/-! # The manager as a partial map

`FdMap` is what the manager stands for: a partial map from descriptors to entities. A sequence of
calls agrees with it as long as no descriptor is negative and the table has room for the descriptor
after one growth by a half (`allCorrect_iff_inRange`). -/

namespace Tigerkin

inductive FdManager.Call where
  | get (fd : Int) (autoCreate : Bool)
  | add (fd : Int)
  | del (fd : Int)

open FdManager

/-- A manager with a partial map in the place of the table. -/
structure FdMap where
  kernel : Kernel
  entities : List FdEntity := []
  map : Int → Option Nat := fun _ => none

namespace FdMap

def insert (f : FdMap) (fd : Int) : FdMap × Option Nat :=
  let (kernel, e) := FdEntity.make fd f.kernel
  let p := f.entities.length
  ({ kernel, entities := f.entities ++ [e], map := Function.update f.map fd (some p) }, some p)

def call (f : FdMap) : Call → FdMap × Option Nat
  | .get fd autoCreate =>
    match f.map fd with
    | some p => (f, some p)
    | none => if autoCreate then f.insert fd else (f, none)
  | .add fd => f.insert fd
  | .del fd => ({ f with map := Function.update f.map fd none }, none)

/-- The map leads from a descriptor to an entity for it. -/
def WF (f : FdMap) : Prop :=
  ∀ fd p, f.map fd = some p → (f.entities[p]?).map (·.fd) = some fd

end FdMap

namespace FdManager

def call (m : FdManager) : Call → Option (FdManager × Option Nat)
  | .get fd autoCreate => m.get fd autoCreate
  | .add fd => m.add fd
  | .del fd => m.del fd

def Step (m : FdManager) (c : Call) (m' : FdManager) (r : Option Nat) : Prop :=
  m.call c = some (m', r)

/-- Every lookup in the manager gives what the map has, an entity for the descriptor. -/
structure Represents (m : FdManager) (f : FdMap) : Prop where
  kernel : m.kernel = f.kernel
  entities : m.entities = f.entities
  get : ∀ fd, 0 ≤ fd → m.get fd false = some (m, f.map fd)
  wf : f.WF

/-- A descriptor that is beyond the table must be below one and a half times its size, and that must
fit an `int`. -/
def RoomFor (m : FdManager) (fd : Int) : Prop :=
  m.data.length ≤ fd → fd < (3 * m.data.length / 2 : Nat) ∧ 3 * m.data.length / 2 < 2 ^ 31

/-- The descriptor of the call is not negative, and the table has room for the one that the call
adds. -/
def InRange (m : FdManager) : Call → Prop
  | .get fd autoCreate => 0 ≤ fd ∧ (autoCreate = true → m.RoomFor fd)
  | .add fd => 0 ≤ fd ∧ m.RoomFor fd
  | .del fd => 0 ≤ fd

/-- A table size that `int` can hold. -/
def Fits (m : FdManager) : Prop := m.data.length < 2 ^ 31

variable {m m' : FdManager} {f : FdMap} {fd : Int}

/-! ## Lookups -/

def lookup (m : FdManager) (i : Nat) : Option Nat := (m.data[i]?).join

theorem Fits.size (H : m.Fits) : m.size = m.data.length := by
  have : m.data.length < 2 ^ 31 := H
  exact Int.bmod_eq_of_le (by omega) (by omega)

theorem lookup_of_le (h : m.data.length ≤ fd) : m.lookup fd.toNat = none := by
  rw [lookup, List.getElem?_eq_none (by omega)]
  rfl

theorem index_of_neg (h : fd < 0) : m.index fd = none := if_neg (by omega)

theorem index_of_lt (h0 : 0 ≤ fd) (h : fd < m.data.length) :
    m.index fd = some (m.lookup fd.toNat) := by
  rw [index, if_pos h0, lookup, List.getElem?_eq_getElem (by omega)]
  rfl

/-- Without `autoCreate`, the manager stays as it is. -/
theorem get_false (m : FdManager) (fd : Int) :
    m.get fd false = (if fd ≥ m.size then some none else m.index fd).map (m, ·) := by
  unfold get
  split
  · rfl
  · cases m.index fd with
    | none => rfl
    | some p => cases p <;> rfl

theorem Fits.get_eq (H : m.Fits) (h0 : 0 ≤ fd) (autoCreate : Bool) :
    m.get fd autoCreate = match m.lookup fd.toNat with
      | some p => some (m, some p)
      | none => if autoCreate then m.add fd else some (m, none) := by
  unfold get
  rw [H.size]
  split
  · rw [lookup_of_le ‹_›]
  · rw [index_of_lt h0 (by omega)]
    cases m.lookup fd.toNat <;> rfl

theorem Fits.get_neg (H : m.Fits) (h : fd < 0) (autoCreate : Bool) :
    m.get fd autoCreate = none := by
  unfold get
  rw [H.size, if_neg (by omega), index_of_neg h]

theorem Fits.represents_iff (H : m.Fits) : m.Represents f ↔ m.kernel = f.kernel ∧
    m.entities = f.entities ∧ (∀ fd : Int, 0 ≤ fd → m.lookup fd.toNat = f.map fd) ∧ f.WF := by
  have hget : ∀ fd, 0 ≤ fd → (m.get fd false = some (m, f.map fd) ↔
      m.lookup fd.toNat = f.map fd) := by
    intro fd h0
    rw [H.get_eq h0]
    cases m.lookup fd.toNat <;> simp
  constructor
  · intro h
    exact ⟨h.kernel, h.entities, fun fd h0 => (hget fd h0).mp (h.get fd h0), h.wf⟩
  · rintro ⟨hk, he, hl, hw⟩
    exact ⟨hk, he, fun fd h0 => (hget fd h0).mpr (hl fd h0), hw⟩

/-! ## Growing -/

@[simp] theorem grow_kernel (m : FdManager) (fd : Int) : (m.grow fd).kernel = m.kernel := rfl

@[simp] theorem grow_entities (m : FdManager) (fd : Int) : (m.grow fd).entities = m.entities := rfl

theorem grow_length (m : FdManager) (fd : Int) :
    (m.grow fd).data.length = if 2 * fd < 3 * m.data.length then 3 * m.data.length / 2
      else fd.toNat := by
  simp only [grow, List.length_append, List.length_take, List.length_replicate]
  split <;> omega

/-- Growth leaves every lookup as it was. -/
theorem grow_lookup (m : FdManager) (fd : Int) (i : Nat) :
    (m.grow fd).lookup i = m.lookup i := by
  have hle : m.data.length ≤ (m.grow fd).data.length := by
    rw [grow_length]
    split <;> omega
  obtain ⟨n, hn⟩ : ∃ n, (m.grow fd).data =
    m.data.take n ++ List.replicate (n - m.data.length) none := ⟨_, rfl⟩
  have htake : m.data.take n = m.data := by
    refine List.take_of_length_le ?_
    simp only [hn, List.length_append, List.length_take, List.length_replicate] at hle
    omega
  rw [lookup, hn, htake, lookup]
  by_cases hi : i < m.data.length
  · rw [List.getElem?_append_left hi]
  · rw [List.getElem?_append_right (by omega), List.getElem?_replicate,
      List.getElem?_eq_none (l := m.data) (by omega)]
    split <;> rfl

/-! ## Adding and deleting -/

theorem make_fd (fd : Int) (k : Kernel) : (FdEntity.make fd k).2.fd = fd := by
  unfold FdEntity.make FdEntity.init
  cases hd : k.descriptors fd with
  | none => simp [hd]
  | some d => by_cases hs : d.isSocket = true <;> simp [hd, hs]

/-- The manager with a new entity at a place of its table. -/
def place (m : FdManager) (fd : Int) : FdManager :=
  { kernel := (FdEntity.make fd m.kernel).1
    entities := m.entities ++ [(FdEntity.make fd m.kernel).2]
    data := m.data.set fd.toNat (some m.entities.length) }

theorem Fits.add_lt (H : m.Fits) (h0 : 0 ≤ fd) (h : fd < m.data.length) :
    m.add fd = some (m.place fd, some m.entities.length) := by
  unfold add
  rw [H.size, if_neg (by omega)]
  simp only [index_of_lt h0 h, place]

theorem Fits.add_ge (H : m.Fits) (h : m.data.length ≤ fd) :
    m.add fd = if fd < (3 * m.data.length / 2 : Nat) then
      some ((m.grow fd).place fd, some m.entities.length) else none := by
  have hlen := grow_length m fd
  unfold add
  rw [H.size, if_pos (by omega)]
  split
  · rw [if_pos (by omega)] at hlen
    have hidx : (m.grow fd).index fd = some ((m.grow fd).lookup (fd : Int).toNat) :=
      index_of_lt (by omega) (by omega)
    simp only [hidx, place, grow_entities]
  · have hidx : (m.grow fd).index fd = none := by
      rw [index, if_pos (by omega), List.getElem?_eq_none]
      rw [hlen]
      split <;> omega
    simp only [hidx]

theorem Fits.add_neg (H : m.Fits) (h : fd < 0) : m.add fd = none := by
  unfold add
  rw [H.size, if_neg (by omega)]
  simp only [index_of_neg h]

theorem place_lookup (h0 : 0 ≤ fd) (h : fd < m.data.length) (i : Nat) :
    (m.place fd).lookup i =
      if i = fd.toNat then some m.entities.length else m.lookup i := by
  simp only [lookup, place, List.getElem?_set]
  grind

theorem insert_wf (H : f.WF) : (f.insert fd).1.WF := by
  intro i p hp
  simp only [FdMap.insert, Function.update_apply] at hp ⊢
  split at hp
  · cases hp
    simp [make_fd, *]
  · have := H i p hp
    obtain ⟨e, he, -⟩ := Option.map_eq_some_iff.mp this
    rw [List.getElem?_append_left (List.getElem?_eq_some_iff.mp he).1]
    exact this

/-- `m'` is the manager `m` with room for a descriptor in its table. -/
structure Extends (m m' : FdManager) (fd : Int) : Prop where
  kernel : m'.kernel = m.kernel
  entities : m'.entities = m.entities
  lookup : ∀ i, m'.lookup i = m.lookup i
  lt : fd < m'.data.length
  fits : m'.Fits

theorem Fits.add_eq (hm : m.Fits) (h0 : 0 ≤ fd) (hroom : m.RoomFor fd) :
    ∃ m', m.Extends m' fd ∧ m.add fd = some (m'.place fd, some m.entities.length) := by
  by_cases hlt : fd < m.data.length
  · exact ⟨m, ⟨rfl, rfl, fun _ => rfl, hlt, hm⟩, hm.add_lt h0 hlt⟩
  · have hle : (m.data.length : Int) ≤ fd := by omega
    obtain ⟨hbelow, hsmall⟩ := hroom hle
    have hlen := grow_length m fd
    rw [if_pos (by omega)] at hlen
    refine ⟨m.grow fd, ⟨rfl, rfl, grow_lookup m fd, by omega, by rwa [Fits, hlen]⟩, ?_⟩
    rw [hm.add_ge hle, if_pos hbelow]

theorem Fits.place (hm : m.Fits) (fd : Int) : (m.place fd).Fits := by
  simpa [Fits, FdManager.place] using hm

/-- A manager that has placed a new entity represents the map with that entity. -/
theorem Represents.place (hm : m.Fits) (H : m.Represents f) (hext : m.Extends m' fd)
    (h0 : 0 ≤ fd) : (m'.place fd).Represents (f.insert fd).1 := by
  obtain ⟨hk', he', hl', hw⟩ := hm.represents_iff.mp H
  rw [(hext.fits.place fd).represents_iff]
  refine ⟨?_, ?_, fun i hi => ?_, insert_wf hw⟩
  · simp [FdManager.place, FdMap.insert, hext.kernel, hk']
  · simp [FdManager.place, FdMap.insert, hext.kernel, hk', hext.entities, he']
  · rw [place_lookup h0 hext.lt, hext.entities, hext.lookup, hl' i hi, he']
    simp only [FdMap.insert, Function.update_apply]
    by_cases hif : i = fd
    · simp [hif]
    · rw [if_neg hif, if_neg (by omega)]

/-- A table that `int` cannot hold is not looked into any more. -/
theorem get_of_overflow (h : 2 ^ 31 ≤ m.data.length) (h' : m.data.length < 2 ^ 32) (h0 : 0 ≤ fd) :
    m.get fd false = some (m, none) := by
  have hneg : m.size < 0 := by
    unfold size
    simp only [Int.bmod_def]
    split <;> omega
  unfold get
  rw [if_pos (by omega), if_neg Bool.false_ne_true]

theorem Represents.add_iff (hm : m.Fits) (H : m.Represents f) :
    (∃ m', m.add fd = some (m', (f.insert fd).2) ∧ m'.Represents (f.insert fd).1) ↔
      0 ≤ fd ∧ m.RoomFor fd := by
  have hfits : m.data.length < 2 ^ 31 := hm
  have hres : (f.insert fd).2 = some m.entities.length := by rw [H.entities]; rfl
  rw [hres]
  constructor
  · rintro ⟨m', hadd, H'⟩
    have h0 : 0 ≤ fd := by
      by_contra hneg
      exact nomatch (hm.add_neg (Int.not_le.mp hneg)).symm.trans hadd
    refine ⟨h0, fun hle => ?_⟩
    have hlen := grow_length m fd
    rw [hm.add_ge hle] at hadd
    split at hadd
    swap
    · cases hadd
    refine ⟨‹_›, ?_⟩
    rw [if_pos (by omega)] at hlen
    cases hadd
    -- a larger table could not be looked into
    by_contra hbig
    have hover := get_of_overflow (m := (m.grow fd).place fd) (by simp [FdManager.place, hlen]; omega)
      (by simp [FdManager.place, hlen]; omega) h0
    have hnew := H'.get fd h0
    rw [hover] at hnew
    simp [FdMap.insert] at hnew
  · rintro ⟨h0, hroom⟩
    obtain ⟨m', hext, hadd⟩ := hm.add_eq h0 hroom
    exact ⟨_, hadd, H.place hm hext h0⟩

theorem Represents.get_iff (hm : m.Fits) (H : m.Represents f) (autoCreate : Bool) :
    Refinement.Correct Step FdMap.call Represents m f (.get fd autoCreate) ↔
      m.InRange (.get fd autoCreate) := by
  obtain ⟨-, -, hl, -⟩ := hm.represents_iff.mp H
  unfold Refinement.Correct Step InRange
  simp only [call]
  by_cases h0 : 0 ≤ fd
  swap
  · simp [hm.get_neg (Int.not_le.mp h0), h0]
  rw [hm.get_eq h0, hl fd h0]
  simp only [FdMap.call]
  cases hf : f.map fd with
  | some p =>
    have hroom : m.RoomFor fd := by
      intro hle
      rw [← hl fd h0, lookup_of_le hle] at hf
      cases hf
    exact iff_of_true ⟨m, rfl, H⟩ ⟨h0, fun _ => hroom⟩
  | none =>
    cases autoCreate with
    | true =>
      have : (∃ m', m.add fd = some (m', (f.insert fd).2) ∧ m'.Represents (f.insert fd).1) ↔ _ :=
        H.add_iff hm
      simpa [h0] using this
    | false => exact iff_of_true ⟨m, rfl, H⟩ ⟨h0, by simp⟩

theorem Represents.del_iff (hm : m.Fits) (H : m.Represents f) :
    Refinement.Correct Step FdMap.call Represents m f (.del fd) ↔ m.InRange (.del fd) := by
  obtain ⟨hk, he, hl, hw⟩ := hm.represents_iff.mp H
  unfold Refinement.Correct Step InRange
  simp only [call, del, FdMap.call]
  by_cases h0 : 0 ≤ fd
  swap
  · rw [hm.size, if_neg (by omega), index_of_neg (by omega)]
    simp [h0]
  refine iff_of_true ?_ h0
  have hwf : FdMap.WF { f with map := Function.update f.map fd none } := by
    intro i p hp
    simp only [Function.update_apply] at hp
    split at hp
    · cases hp
    · exact hw i p hp
  rw [hm.size]
  by_cases hle : fd ≥ m.data.length
  · rw [if_pos hle]
    refine ⟨m, rfl, hm.represents_iff.mpr ⟨hk, he, fun i hi => ?_, hwf⟩⟩
    simp only [Function.update_apply]
    split
    · rw [‹i = fd›, lookup_of_le hle]
    · exact hl i hi
  · rw [if_neg hle, index_of_lt h0 (by omega)]
    refine ⟨_, rfl, (Fits.represents_iff (by simpa [Fits] using hm)).mpr
      ⟨hk, he, fun i hi => ?_, hwf⟩⟩
    simp only [lookup, List.getElem?_set, Function.update_apply]
    have := hl i hi
    simp only [lookup] at this
    grind

/-- **One call**: it does to the map what it is meant to do if and only if its descriptor is not
negative and the table has room for it. -/
theorem Represents.correct_iff (hm : m.Fits) (H : m.Represents f) (c : Call) :
    Refinement.Correct Step FdMap.call Represents m f c ↔ m.InRange c := by
  cases c with
  | get fd autoCreate => exact H.get_iff hm autoCreate
  | add fd => exact H.add_iff hm
  | del fd => exact H.del_iff hm

/-! ## Sequences of calls -/

theorem add_fits (hm : m.Fits) (h0 : 0 ≤ fd) (hroom : m.RoomFor fd)
    (h : m.add fd = some (m', r)) : m'.Fits := by
  obtain ⟨m₁, hext, hadd⟩ := hm.add_eq h0 hroom
  rw [hadd] at h
  cases h
  exact hext.fits.place fd

theorem Step.fits (hm : m.Fits) (hc : m.InRange c) (h : m.Step c m' r) : m'.Fits := by
  unfold Step at h
  cases c with
  | get fd autoCreate =>
    simp only [call] at h
    rw [hm.get_eq hc.1] at h
    cases hl : m.lookup fd.toNat with
    | some p =>
      rw [hl] at h
      cases h
      exact hm
    | none =>
      rw [hl] at h
      cases autoCreate with
      | true => exact add_fits hm hc.1 (hc.2 rfl) h
      | false =>
        cases h
        exact hm
  | add fd => exact add_fits hm hc.1 hc.2 h
  | del fd =>
    simp only [call, del] at h
    rw [hm.size] at h
    split at h
    · cases h
      exact hm
    · rw [index_of_lt hc (by omega)] at h
      cases h
      simpa [Fits] using hm

/-- `FdManager::FdManager` -/
def init (k : Kernel) : FdManager := { kernel := k }

theorem init_length (k : Kernel) : (init k).data.length = 60 := List.length_replicate

theorem init_fits (k : Kernel) : (init k).Fits := by
  simp only [Fits, init_length, Nat.reducePow, Nat.reduceLT]

theorem init_represents (k : Kernel) : (init k).Represents { kernel := k } := by
  refine (init_fits k).represents_iff.mpr ⟨rfl, rfl, fun fd h0 => ?_, fun _ _ h => nomatch h⟩
  simp only [lookup, init, List.getElem?_replicate]
  split <;> rfl

/-- **The manager is a partial map**: a sequence of calls does to the table what it does to the map
if and only if every call is in range. -/
theorem allCorrect_iff_inRange (k : Kernel) (cs : List Call) :
    Refinement.AllCorrect Step FdMap.call Represents (init k) { kernel := k } cs ↔
      Refinement.AllMeet Step InRange (init k) cs := by
  refine Refinement.allCorrect_iff (I := Fits) (fun h h' => ?_) (fun hm H => H.correct_iff hm _)
    (fun hm hc h => h.fits hm hc) (init_fits k) (init_represents k) cs
  exact congrArg Prod.fst (Option.some.inj (h.symm.trans h'))

theorem not_allCorrect_of_get (h : m.get fd autoCreate = none) :
    ¬Refinement.AllCorrect Step FdMap.call Represents m f [.get fd autoCreate] := by
  rintro ⟨m', hs, -⟩
  exact nomatch h.symm.trans hs

/-- A kernel without open descriptors, which accepts every `F_SETFL`. -/
def idle : Kernel where
  descriptors _ := none
  setfl _ arg := some arg
  setfl_nonblock := nonblock_of_accepted
  setfl_or := isSome_accepted

/-- `getSendTimeout` of a socket that was never opened reads `m_data[-1]`, and a new manager has no
room for descriptor 90. -/
theorem unopened_socket_out_of_range :
    ({} : Socket).getSendTimeout (init idle) = none ∧
    ¬Refinement.AllCorrect Step FdMap.call Represents (init idle) { kernel := idle }
      [.get ({} : Socket).socket false] ∧
    ¬Refinement.AllCorrect Step FdMap.call Represents (init idle) { kernel := idle }
      [.get 90 true] := by
  have hunopened : (init idle).get ({} : Socket).socket false = none :=
    (init_fits idle).get_neg (by decide) false
  have hbeyond : ((init idle).data.length : Int) ≤ 90 := by
    rw [init_length]
    decide
  have hlarge : (init idle).get 90 true = none := by
    rw [(init_fits idle).get_eq (by decide : (0 : Int) ≤ 90), lookup_of_le hbeyond]
    simp only [if_true]
    rw [(init_fits idle).add_ge hbeyond, init_length, if_neg (by decide)]
  refine ⟨by rw [Socket.getSendTimeout, Socket.timeout, hunopened]; rfl, ?_, ?_⟩
  · exact not_allCorrect_of_get hunopened
  · exact not_allCorrect_of_get hlarge

end FdManager

end Tigerkin
