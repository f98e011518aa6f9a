import Mathlib.Logic.Function.Basic
import Tigerkin.Config.Load
import Tigerkin.Std.Run

/-! # Looking variables up

`Config::Lookup` by several threads. It looks the name up in one locked section and inserts a new
variable in another one, and a variable of another type is the same to it as none. A registered
variable stays registered as long as no insertion finds its name taken
(`declared_variable_kept`). -/

namespace Tigerkin

/-- Where a thread is: between the two sections of `Lookup`, or between `LookupBase` and
`fromString` in `LoadFromYaml`. -/
inductive LookupPhase {ι : Type} (T : ι → Type) where
  | idle
  | pending (name : List UInt8) (type : ι) (defaultValue : T type)
  | loading (key : List UInt8) (var : Nat) (val : List UInt8)

/-- What a call of `Lookup` has returned. -/
structure Holder (ι : Type) where
  name : List UInt8
  type : ι
  var : Nat

structure LookupState {ι : Type} (T : ι → Type) where
  config : Config T
  phase : Nat → LookupPhase T := fun _ => .idle
  holders : List (Holder ι) := []

inductive LookupStep {ι : Type} (T : ι → Type) where
  /-- The first section of `Lookup<T>(name, defaultValue)`. -/
  | lookup (t : Nat) (name : List UInt8) (type : ι) (defaultValue : T type)
  | insert (t : Nat)
  /-- `Lookup<T>(name)` -/
  | find (t : Nat) (name : List UInt8) (type : ι)
  /-- `LookupBase` in `LoadFromYaml`, and the `fromString` after it. -/
  | lookupBase (t : Nat) (key : List UInt8) (val : List UInt8)
  | fromString (t : Nat)

namespace Config

variable {ι : Type} {T : ι → Type}

/-- `GetDatas()[name] = v` for a new variable. -/
def insert (c : Config T) (name : List UInt8) (type : ι) (defaultValue : T type) : Config T where
  vars := c.vars ++ [⟨name, type, defaultValue⟩]
  datas := Function.update c.datas name (some c.vars.length)
  named name' p h := by
    rw [Function.update_apply] at h
    split at h
    · cases h
      simp [*]
    · have := c.named name' p h
      obtain ⟨v, hv, -⟩ := Option.map_eq_some_iff.mp this
      rwa [List.getElem?_append_left (List.getElem?_eq_some_iff.mp hv).1]

variable [DecidableEq ι]

/-- `Lookup<T>(name)`: the variable of a name, if it has the type. -/
def lookup (c : Config T) (name : List UInt8) (type : ι) : Option Nat :=
  match c.datas name with
  | some p => if (c.vars[p]?).map (·.type) = some type then some p else none
  | none => none

end Config

namespace LookupState

variable {ι : Type} {T : ι → Type}

def setPhase (s : LookupState T) (t : Nat) (ph : LookupPhase T) : LookupState T :=
  { s with phase := Function.update s.phase t ph }

/-- A call returns a variable. -/
def hand (s : LookupState T) (name : List UInt8) (type : ι) (var : Nat) : LookupState T :=
  { s with holders := ⟨name, type, var⟩ :: s.holders }

variable [DecidableEq ι] (fromStr : ∀ i, List UInt8 → Option (T i))

def step (s : LookupState T) : LookupStep T → Option (LookupState T)
  | .lookup t name type defaultValue =>
    match s.phase t with
    | .idle =>
      match s.config.lookup name type with
      | some tmp => some (s.hand name type tmp)
      | none =>
        -- an invalid name throws
        if Config.isValidName name then some (s.setPhase t (.pending name type defaultValue))
        else some s
    | _ => none
  | .insert t =>
    match s.phase t with
    | .pending name type defaultValue =>
      let v := s.config.vars.length
      some ({ s with config := s.config.insert name type defaultValue }.setPhase t .idle
        |>.hand name type v)
    | _ => none
  | .find t name type =>
    match s.phase t with
    | .idle =>
      match s.config.lookup name type with
      | some p => some (s.hand name type p)
      | none => some s
    | _ => none
  | .lookupBase t key val =>
    match s.phase t with
    | .idle =>
      match s.config.lookupBase key with
      | some var => some (s.setPhase t (.loading key var val))
      | none => some s
    | _ => none
  | .fromString t =>
    match s.phase t with
    | .loading _ var val =>
      some ({ s with config := s.config.fromString fromStr var val }.setPhase t .idle)
    | _ => none

/-- The condition on a step: an insertion does not find its name taken. -/
def Unregistered (s : LookupState T) : LookupStep T → Prop
  | .insert t => ∀ name type defaultValue, s.phase t = .pending name type defaultValue →
      s.config.datas name = none
  | _ => True

variable {fromStr} {s s' : LookupState T} {a : LookupStep T} {c : Config T}
  {name : List UInt8} {type : ι}

/-! ## One step -/

omit [DecidableEq ι] in
theorem insert_datas (h : c.datas name = none) (x : T type) (name' : List UInt8) (p : Nat)
    (hp : c.datas name' = some p) : (c.insert name type x).datas name' = some p := by
  have hne : name' ≠ name := by
    rintro rfl
    rw [h] at hp
    cases hp
  simpa [Config.insert, Function.update_of_ne hne] using hp

theorem lookup_eq_some (h : c.lookup name type = some p) :
    c.datas name = some p ∧ (c.vars[p]?).map (·.type) = some type := by
  unfold Config.lookup at h
  split at h
  · split at h
    · cases h
      exact ⟨‹_›, ‹_›⟩
    · cases h
  · cases h

/-- The registry `c'` has what `c` has, with variables of the same types. -/
structure Kept (c c' : Config T) : Prop where
  datas : ∀ name p, c.datas name = some p → c'.datas name = some p
  types : ∀ (p : Nat) i, (c.vars[p]?).map (fun v => v.type) = some i →
    (c'.vars[p]?).map (fun v => v.type) = some i

omit [DecidableEq ι] in
theorem Kept.refl (c : Config T) : Kept c c := ⟨fun _ _ h => h, fun _ _ h => h⟩

omit [DecidableEq ι] in
theorem Kept.trans {c₁ c₂ c₃ : Config T} (h : Kept c₁ c₂) (h' : Kept c₂ c₃) : Kept c₁ c₃ :=
  ⟨fun name p hp => h'.datas name p (h.datas name p hp),
    fun p i hi => h'.types p i (h.types p i hi)⟩

omit [DecidableEq ι] in
theorem Kept.insert (h : c.datas name = none) (x : T type) : Kept c (c.insert name type x) where
  datas := insert_datas h x
  types p i hi := by
    obtain ⟨v, hv, -⟩ := Option.map_eq_some_iff.mp hi
    simp only [Config.insert]
    rwa [List.getElem?_append_left (List.getElem?_eq_some_iff.mp hv).1]

omit [DecidableEq ι] in
theorem Kept.fromString (fromStr : ∀ i, List UInt8 → Option (T i)) (c : Config T) (var : Nat)
    (val : List UInt8) :
    Kept c (c.fromString fromStr var val) where
  datas _ _ h := h
  types p i hi := by
    have htype : ∀ v : ConfigVar T, (v.fromString fromStr val).type = v.type := by
      intro v
      unfold ConfigVar.fromString
      cases fromStr v.type val <;> rfl
    simp only [Config.fromString, Config.modify, List.getElem?_modify, Option.map_eq_map,
      Option.map_map]
    rw [← hi]
    congr 1
    funext v
    by_cases hp : var = p <;> simp [hp, htype]

/-! ## The invariant -/

/-- Every variable that was handed out, or that a load is about to set, is the one that its name
leads to. -/
structure Inv (s : LookupState T) : Prop where
  holders : ∀ h ∈ s.holders, s.config.datas h.name = some h.var ∧
    (s.config.vars[h.var]?).map (fun v => v.type) = some h.type
  loading : ∀ t key var val, s.phase t = .loading key var val → s.config.datas key = some var

omit [DecidableEq ι] in
theorem Inv.config (H : s.Inv) (hc : Kept s.config c) : { s with config := c }.Inv where
  holders h hh := ⟨hc.datas _ _ (H.holders h hh).1, hc.types _ _ (H.holders h hh).2⟩
  loading t key var val ht := hc.datas _ _ (H.loading t key var val ht)

omit [DecidableEq ι] in
theorem Inv.setPhase (H : s.Inv) {t : Nat} {ph : LookupPhase T}
    (h : ∀ key var val, ph = .loading key var val → s.config.datas key = some var) :
    (s.setPhase t ph).Inv where
  holders := H.holders
  loading u key var val hu := by
    simp only [LookupState.setPhase, Function.update_apply] at hu
    split at hu
    · exact h key var val hu
    · exact H.loading u key var val hu

omit [DecidableEq ι] in
theorem Inv.hand (H : s.Inv) {p : Nat} (hp : s.config.datas name = some p)
    (ht : (s.config.vars[p]?).map (fun v => v.type) = some type) : (s.hand name type p).Inv where
  holders h hh := by
    rcases List.mem_cons.mp hh with rfl | hh
    · exact ⟨hp, ht⟩
    · exact H.holders h hh
  loading := H.loading

/-- A step that meets the condition keeps what is registered. -/
theorem Inv.step (H : s.Inv) (hg : Unregistered s a) (h : step fromStr s a = some s') :
    s'.Inv ∧ Kept s.config s'.config := by
  cases a with
  | lookup t name type x =>
    simp only [LookupState.step] at h
    split at h
    · split at h
      · cases h
        obtain ⟨hp, ht⟩ := lookup_eq_some ‹_›
        exact ⟨H.hand hp ht, .refl _⟩
      · split at h
        · cases h
          exact ⟨H.setPhase (by simp), .refl _⟩
        · cases h
          exact ⟨H, .refl _⟩
    · cases h
  | insert t =>
    simp only [LookupState.step] at h
    split at h
    · rename_i name type x hph
      cases h
      have hkept := Kept.insert (hg name type x hph) x
      refine ⟨((H.config hkept).setPhase (by simp)).hand ?_ ?_, hkept⟩
      · simp [LookupState.setPhase, Config.insert]
      · simp [LookupState.setPhase, Config.insert]
    · cases h
  | find t name type =>
    simp only [LookupState.step] at h
    split at h
    · split at h
      · cases h
        obtain ⟨hp, ht⟩ := lookup_eq_some ‹_›
        exact ⟨H.hand hp ht, .refl _⟩
      · cases h
        exact ⟨H, .refl _⟩
    · cases h
  | lookupBase t key val =>
    simp only [LookupState.step] at h
    split at h
    · split at h
      · cases h
        refine ⟨H.setPhase ?_, .refl _⟩
        intro key' var' val' hl
        cases hl
        assumption
      · cases h
        exact ⟨H, .refl _⟩
    · cases h
  | fromString t =>
    simp only [LookupState.step] at h
    split at h
    · rename_i key var val _
      cases h
      have hkept := Kept.fromString fromStr s.config var val
      exact ⟨(H.config hkept).setPhase (by simp), hkept⟩
    · cases h

/-- A step that does not meet the condition replaces a registered variable. -/
theorem replaced_of_registered (hg : ¬Unregistered s a) (h : step fromStr s a = some s') :
    ∃ name p, s.config.datas name = some p ∧ s'.config.datas name ≠ some p := by
  cases a with
  | insert t =>
    simp only [Unregistered, not_forall] at hg
    obtain ⟨name, type, x, hph, hd⟩ := hg
    simp only [LookupState.step, hph] at h
    cases h
    obtain ⟨p, hp⟩ := Option.ne_none_iff_exists'.mp hd
    obtain ⟨v, hv, -⟩ := Option.map_eq_some_iff.mp (s.config.named name p hp)
    have hlt := (List.getElem?_eq_some_iff.mp hv).1
    refine ⟨name, p, hp, ?_⟩
    simp only [hand, LookupState.setPhase, Config.insert, Function.update_self, ne_eq,
      Option.some.injEq]
    omega
  | _ => exact absurd trivial hg

/-! ## Runs -/

/-- The state before any call, with the variables that are registered already. -/
def init (c : Config T) : LookupState T := { config := c }

omit [DecidableEq ι] in
theorem init_inv (c : Config T) : (init c).Inv := ⟨by simp [init], by simp [init]⟩

theorem Inv.reach (H : s.Inv) (h : Reach (LookupState.step fromStr) Unregistered s s') :
    s'.Inv ∧ Kept s.config s'.config := by
  refine h.inv (I := fun t => t.Inv ∧ Kept s.config t.config) ⟨H, .refl _⟩ ?_
  rintro t a u ⟨Ht, hk⟩ hg hs
  obtain ⟨Hu, hk'⟩ := Ht.step hg hs
  exact ⟨Hu, hk.trans hk'⟩

/-- **A declared variable is kept**: in a run in which no insertion finds its name taken, names keep
the objects they lead to, these are the objects that the calls of `Lookup` have returned, and a
load gives its values to them. An insertion that finds its name taken replaces an object. -/
theorem declared_variable_kept (fromStr : ∀ i, List UInt8 → Option (T i)) (c : Config T) :
    (∀ s, Reach (step fromStr) Unregistered (init c) s →
      (∀ s', Reach (step fromStr) Unregistered s s' →
        ∀ name p, s.config.datas name = some p → s'.config.datas name = some p) ∧
      (∀ h ∈ s.holders, s.config.datas h.name = some h.var ∧
        (s.config.vars[h.var]?).map (fun v => v.type) = some h.type) ∧
      (∀ t key var val, s.phase t = .loading key var val → s.config.datas key = some var) ∧
      ∀ h ∈ s.holders, ∀ dump root name v, s.config.vars[h.var]? = some v →
        (s.config.loadFromYaml fromStr dump root name).vars[h.var]? = some { v with
          val := Config.lastValue fromStr dump v (Config.nodesAt name root h.name) }) ∧
    ∀ s a s', Reach (step fromStr) Always (init c) s → step fromStr s a = some s' →
      ¬Unregistered s a → ∃ name p, s.config.datas name = some p ∧ s'.config.datas name ≠ some p := by
  refine ⟨fun s hs => ?_, fun s a s' _ h hg => replaced_of_registered hg h⟩
  obtain ⟨H, -⟩ := (init_inv c).reach hs
  refine ⟨fun s' hs' => (H.reach hs').2.datas, H.holders, H.loading, ?_⟩
  intro h hh dump root name v hv
  rw [Config.loadFromYaml, Config.foldl_loadNode_var _ (H.holders h hh).1 hv,
    Config.membersAt_listAllMember]

/-- An empty registry. -/
def noVars : Config (fun _ : Bool => Nat) where
  vars := []
  datas _ := none
  named _ _ h := nomatch h

def port : List UInt8 := [112, 111, 114, 116]

/-- Two threads look up a new name at the same time, or a thread looks up a registered name with
another type: the registry gets a second variable of the name. -/
theorem variable_replaced :
    (∃ s, Reach (step fun _ _ => none) Always (init noVars) s ∧
      s.holders.map (fun h => (h.type, h.var)) = [(true, 1), (true, 0)] ∧
      s.config.datas port = some 1) ∧
    ∃ s, Reach (step fun _ _ => none) Always (init noVars) s ∧
      s.holders.map (fun h => (h.type, h.var)) = [(false, 1), (true, 0)] ∧
      s.config.datas port = some 1 := by
  refine ⟨?_, ?_⟩
  · obtain ⟨s, hs, h⟩ := Reach.of_any (step fun _ _ => none) Always (init noVars)
      [.lookup 0 port true 80, .lookup 1 port true 80, .insert 0, .insert 1]
      (fun s => s.holders.map (fun h => (h.type, h.var)) = [(true, 1), (true, 0)] ∧
        s.config.datas port = some 1) (by decide)
    exact ⟨s, hs, by simpa using h⟩
  · obtain ⟨s, hs, h⟩ := Reach.of_any (step fun _ _ => none) Always (init noVars)
      [.lookup 0 port true 80, .insert 0, .lookup 0 port false 80, .insert 0]
      (fun s => s.holders.map (fun h => (h.type, h.var)) = [(false, 1), (true, 0)] ∧
        s.config.datas port = some 1) (by decide)
    exact ⟨s, hs, by simpa using h⟩

end LookupState

end Tigerkin
