import Mathlib.Data.List.Nodup
import Mathlib.Logic.Function.Basic
import Tigerkin.Std.Loop
import Tigerkin.Std.Refinement

/-! # The dispatch table of servlets

`ServletDispatch` of `http_servlet.cpp`. Its loops over `m_globs` never advance their iterator, so
they return only when the entry they look for is the first one; `allCorrect_iff_atFront` says when
a sequence of calls returns and does to the table what it does to an ordered map. -/

namespace Tigerkin.Http

/-- `Servlet::ptr`, a pointer that may be null. -/
abbrev ServletPtr (S : Type) := Option S

structure ServletDispatch (S : Type) where
  datas : List UInt8 → Option (ServletPtr S) := fun _ => none
  globs : List (List UInt8 × ServletPtr S) := []
  defaultServlet : ServletPtr S

namespace ServletDispatch

inductive Call (S : Type) where
  | addServlet (path : List UInt8) (slt : ServletPtr S)
  | addGlobServlet (path : List UInt8) (slt : ServletPtr S)
  | delServlet (path : List UInt8)
  | delGlobServlet (path : List UInt8)
  | setDefaultServlet (slt : ServletPtr S)
  | getDefaultServlet
  | getServlet (path : List UInt8)
  | getGlobServlet (path : List UInt8)
  | getMatchedServlet (path : List UInt8)

variable {S : Type} (fnmatch : List UInt8 → List UInt8 → Int)

/-! ## The loops

The state of a loop is the position of its iterator, with the vector where the loop changes it.
`erase` leaves the iterator where the next element has moved to. -/

def addGlobLoop (path : List UInt8) :
    Nat × List (List UInt8 × ServletPtr S) →
      (Nat × List (List UInt8 × ServletPtr S)) ⊕ List (List UInt8 × ServletPtr S)
  | (it, globs) =>
    match globs[it]? with
    | none => .inr globs
    | some e => if e.1 = path then .inl (it, globs.eraseIdx it) else .inl (it, globs)

def delGlobLoop (path : List UInt8) :
    Nat × List (List UInt8 × ServletPtr S) →
      (Nat × List (List UInt8 × ServletPtr S)) ⊕ List (List UInt8 × ServletPtr S)
  | (it, globs) =>
    match globs[it]? with
    | none => .inr globs
    | some e => if e.1 = path then .inr (globs.eraseIdx it) else .inl (it, globs)

/-- The loops of the two lookups: the first entry whose path is accepted, or what the function
returns after the loop. -/
def findLoop (accept : List UInt8 → Bool) (last : ServletPtr S)
    (globs : List (List UInt8 × ServletPtr S)) (it : Nat) : Nat ⊕ ServletPtr S :=
  match globs[it]? with
  | none => .inr last
  | some e => if accept e.1 then .inr e.2 else .inl it

/-! ## The calls, for a number of rounds that a loop may take -/

def addServlet (d : ServletDispatch S) (path : List UInt8) (slt : ServletPtr S) :
    ServletDispatch S :=
  { d with datas := Function.update d.datas path (some slt) }

def addGlobServlet (fuel : Nat) (d : ServletDispatch S) (path : List UInt8) (slt : ServletPtr S) :
    Option (ServletDispatch S) :=
  (Loop.run (addGlobLoop path) fuel (0, d.globs)).map fun globs =>
    { d with globs := globs ++ [(path, slt)] }

def delServlet (d : ServletDispatch S) (path : List UInt8) : ServletDispatch S :=
  { d with datas := Function.update d.datas path none }

def delGlobServlet (fuel : Nat) (d : ServletDispatch S) (path : List UInt8) :
    Option (ServletDispatch S) :=
  (Loop.run (delGlobLoop path) fuel (0, d.globs)).map fun globs => { d with globs }

def getServlet (d : ServletDispatch S) (path : List UInt8) : ServletPtr S :=
  (d.datas path).getD none

def getGlobServlet (fuel : Nat) (d : ServletDispatch S) (path : List UInt8) :
    Option (ServletPtr S) :=
  Loop.run (findLoop (· = path) none d.globs) fuel 0

def getMatchedServlet (fuel : Nat) (d : ServletDispatch S) (path : List UInt8) :
    Option (ServletPtr S) :=
  match d.datas path with
  | some slt => some slt
  | none => Loop.run (findLoop (fnmatch · path = 0) d.defaultServlet d.globs) fuel 0

/-- A call; one without a result is taken to return null. -/
def call (fuel : Nat) (d : ServletDispatch S) : Call S → Option (ServletDispatch S × ServletPtr S)
  | .addServlet path slt => some (d.addServlet path slt, none)
  | .addGlobServlet path slt => (addGlobServlet fuel d path slt).map (·, none)
  | .delServlet path => some (d.delServlet path, none)
  | .delGlobServlet path => (delGlobServlet fuel d path).map (·, none)
  | .setDefaultServlet slt => some ({ d with defaultServlet := slt }, none)
  | .getDefaultServlet => some (d, d.defaultServlet)
  | .getServlet path => some (d, d.getServlet path)
  | .getGlobServlet path => (getGlobServlet fuel d path).map (d, ·)
  | .getMatchedServlet path => (getMatchedServlet fnmatch fuel d path).map (d, ·)

def Step (d : ServletDispatch S) (c : Call S) (d' : ServletDispatch S) (r : ServletPtr S) : Prop :=
  ∃ fuel, call fnmatch fuel d c = some (d', r)

/-! ## The ordered map -/

/-- What a call is to do, where `globs` is a map in the order of insertion. -/
def spec (d : ServletDispatch S) : Call S → ServletDispatch S × ServletPtr S
  | .addServlet path slt => (d.addServlet path slt, none)
  | .addGlobServlet path slt =>
    ({ d with globs := d.globs.filter (·.1 ≠ path) ++ [(path, slt)] }, none)
  | .delServlet path => (d.delServlet path, none)
  | .delGlobServlet path => ({ d with globs := d.globs.filter (·.1 ≠ path) }, none)
  | .setDefaultServlet slt => ({ d with defaultServlet := slt }, none)
  | .getDefaultServlet => (d, d.defaultServlet)
  | .getServlet path => (d, (d.datas path).getD none)
  | .getGlobServlet path => (d, ((d.globs.find? (·.1 = path)).map (·.2)).getD none)
  | .getMatchedServlet path =>
    (d, (d.datas path).getD
      (((d.globs.find? (fnmatch ·.1 path = 0)).map (·.2)).getD d.defaultServlet))

/-- A map has one entry for a path. -/
def UniqueKeys (d : ServletDispatch S) : Prop := (d.globs.map (·.1)).Nodup

/-- The two tables are the same, and a map. -/
def Represents (d t : ServletDispatch S) : Prop := d = t ∧ t.UniqueKeys

/-- The entry that a call looks for is the first one, if there is any entry; one that adds a glob
must find no entry but its own. -/
def AtFront (d : ServletDispatch S) : Call S → Prop
  | .addGlobServlet path _ => ∀ e ∈ d.globs, e.1 = path
  | .delGlobServlet path | .getGlobServlet path => ∀ e ∈ d.globs.head?, e.1 = path
  | .getMatchedServlet path => d.datas path = none → ∀ e ∈ d.globs.head?, fnmatch e.1 path = 0
  | _ => True

variable {fnmatch} {d d' : ServletDispatch S} {c : Call S} {r : ServletPtr S} {path : List UInt8}
  {globs globs' : List (List UInt8 × ServletPtr S)}

/-! ## When the loops return -/

theorem findLoop_returns {accept : List UInt8 → Bool} {last : ServletPtr S} :
    Loop.Returns (findLoop accept last globs) 0 r ↔
      (∀ e ∈ globs.head?, accept e.1 = true) ∧
        r = ((globs.find? (accept ·.1)).map (·.2)).getD last := by
  cases globs with
  | nil =>
    have hbody : findLoop accept last ([] : List (List UInt8 × ServletPtr S)) 0 = .inr last := rfl
    constructor
    · intro h
      exact ⟨by simp, h.of_done hbody⟩
    · rintro ⟨-, rfl⟩
      exact .done hbody
  | cons e globs =>
    by_cases he : accept e.1 = true
    · have hbody : findLoop accept last (e :: globs) 0 = .inr e.2 := if_pos he
      constructor
      · intro h
        exact ⟨by simpa using he, by simpa [he] using h.of_done hbody⟩
      · rintro ⟨-, rfl⟩
        exact .done (by simpa [he] using hbody)
    · have hbody : findLoop accept last (e :: globs) 0 = .inl 0 := if_neg he
      constructor
      · intro h
        exact absurd h (Loop.not_returns (I := (· = 0)) rfl fun it hit => ⟨0, hit ▸ hbody, rfl⟩)
      · rintro ⟨h, -⟩
        exact absurd (h e rfl) he

theorem delGlobLoop_returns :
    Loop.Returns (delGlobLoop path) (0, globs) globs' ↔
      (∀ e ∈ globs.head?, e.1 = path) ∧ globs' = globs.tail := by
  cases globs with
  | nil =>
    have hbody : delGlobLoop path (0, ([] : List (List UInt8 × ServletPtr S))) = .inr [] := rfl
    constructor
    · intro h
      exact ⟨by simp, h.of_done hbody⟩
    · rintro ⟨-, rfl⟩
      exact .done hbody
  | cons e globs =>
    by_cases he : e.1 = path
    · have hbody : delGlobLoop path (0, e :: globs) = .inr globs := if_pos he
      constructor
      · intro h
        exact ⟨by simpa using he, h.of_done hbody⟩
      · rintro ⟨-, rfl⟩
        exact .done hbody
    · have hbody : delGlobLoop path (0, e :: globs) = .inl (0, e :: globs) := if_neg he
      constructor
      · intro h
        exact absurd h (Loop.not_returns (I := (· = (0, e :: globs))) rfl
          fun s hs => ⟨_, hs ▸ hbody, rfl⟩)
      · rintro ⟨h, -⟩
        exact absurd (h e rfl) he

/-- The loop of `addGlobServlet` drops leading entries for its path, and does not get past another
entry. -/
theorem addGlobLoop_returns :
    Loop.Returns (addGlobLoop path) (0, globs) globs' ↔
      (∀ e ∈ globs, e.1 = path) ∧ globs' = [] := by
  induction globs with
  | nil =>
    have hbody : addGlobLoop path (0, ([] : List (List UInt8 × ServletPtr S))) = .inr [] := rfl
    constructor
    · intro h
      exact ⟨by simp, h.of_done hbody⟩
    · rintro ⟨-, rfl⟩
      exact .done hbody
  | cons e globs ih =>
    by_cases he : e.1 = path
    · have hbody : addGlobLoop path (0, e :: globs) = .inl (0, globs) := if_pos he
      rw [List.forall_mem_cons, and_iff_right he, ← ih]
      exact ⟨fun h => h.of_next hbody, fun h => .next hbody h⟩
    · have hbody : addGlobLoop path (0, e :: globs) = .inl (0, e :: globs) := if_neg he
      constructor
      · intro h
        exact absurd h (Loop.not_returns (I := (· = (0, e :: globs))) rfl
          fun s hs => ⟨_, hs ▸ hbody, rfl⟩)
      · rintro ⟨h, -⟩
        exact absurd (h e List.mem_cons_self) he

/-! ## One call -/

/-- In a map, the entry for a path that stands first is the only one. -/
theorem UniqueKeys.tail_eq_filter (H : d.UniqueKeys) (h : ∀ e ∈ d.globs.head?, e.1 = path) :
    d.globs.tail = d.globs.filter (·.1 ≠ path) := by
  unfold UniqueKeys at H
  cases hg : d.globs with
  | nil => rfl
  | cons e globs =>
    rw [hg] at H h
    have he : e.1 = path := h e rfl
    rw [List.map_cons, List.nodup_cons] at H
    have hrest : ∀ a ∈ globs, a.1 ≠ path := by
      rintro a ha rfl
      exact H.1 (List.mem_map.mpr ⟨a, ha, he.symm⟩)
    rw [List.tail_cons, List.filter_cons_of_neg (by simpa using he)]
    exact (List.filter_eq_self.mpr (by simpa using hrest)).symm

theorem UniqueKeys.spec (H : d.UniqueKeys) (c : Call S) : (spec fnmatch d c).1.UniqueKeys := by
  have hfilter : ∀ path, ((d.globs.filter (·.1 ≠ path)).map (·.1)).Nodup := fun path =>
    List.Nodup.sublist (List.filter_sublist.map _) H
  cases c with
  | addGlobServlet path slt =>
    have hnew : path ∉ (d.globs.filter (·.1 ≠ path)).map (·.1) := by simp
    simp only [UniqueKeys, ServletDispatch.spec, List.map_append, List.map_cons, List.map_nil]
    exact List.nodup_append.mpr ⟨hfilter path, by simp, by grind⟩
  | delGlobServlet path => exact hfilter path
  | _ => exact H

theorem UniqueKeys.correct_iff_step (H : d.UniqueKeys) :
    Refinement.Correct (Step fnmatch) (ServletDispatch.spec fnmatch) Represents d d c ↔
      Step fnmatch d c (ServletDispatch.spec fnmatch d c).1
        (ServletDispatch.spec fnmatch d c).2 := by
  constructor
  · rintro ⟨d', hs, rfl, -⟩
    exact hs
  · intro hs
    exact ⟨_, hs, rfl, H.spec c⟩

/-- **One call** returns and does what it is to do if and only if its entry stands first. -/
theorem UniqueKeys.correct_iff (H : d.UniqueKeys) :
    Refinement.Correct (Step fnmatch) (ServletDispatch.spec fnmatch) Represents d d c ↔
      AtFront fnmatch d c := by
  rw [H.correct_iff_step]
  unfold Step
  cases c with
  | addGlobServlet path slt =>
    simp only [call, addGlobServlet, Option.map_map, Loop.returns_map, addGlobLoop_returns,
      ServletDispatch.spec, AtFront]
    constructor
    · rintro ⟨_, ⟨h, -⟩, -⟩
      exact h
    · intro h
      refine ⟨[], ⟨h, rfl⟩, ?_⟩
      rw [List.filter_eq_nil_iff.mpr (by simpa using h)]
      rfl
  | delGlobServlet path =>
    simp only [call, delGlobServlet, Option.map_map, Loop.returns_map, delGlobLoop_returns,
      ServletDispatch.spec, AtFront]
    constructor
    · rintro ⟨_, ⟨h, -⟩, -⟩
      exact h
    · intro h
      refine ⟨_, ⟨h, rfl⟩, ?_⟩
      rw [← H.tail_eq_filter h]
      rfl
  | getGlobServlet path =>
    simp only [call, getGlobServlet, Loop.returns_map, findLoop_returns, ServletDispatch.spec,
      AtFront, decide_eq_true_eq]
    constructor
    · rintro ⟨_, ⟨h, -⟩, -⟩
      exact h
    · intro h
      exact ⟨_, ⟨h, rfl⟩, rfl⟩
  | getMatchedServlet path =>
    simp only [call, getMatchedServlet, ServletDispatch.spec, AtFront]
    cases hd : d.datas path with
    | some slt => exact iff_of_true ⟨0, rfl⟩ (fun h => nomatch h)
    | none =>
      simp only [Loop.returns_map, findLoop_returns, decide_eq_true_eq, true_implies]
      constructor
      · rintro ⟨_, ⟨h, -⟩, -⟩
        exact h
      · intro h
        exact ⟨_, ⟨h, rfl⟩, rfl⟩
  | _ => exact iff_of_true ⟨0, rfl⟩ trivial

/-! ## Sequences of calls -/

theorem call_mono {n m : Nat} (hnm : n ≤ m) (h : call fnmatch n d c = some (d', r)) :
    call fnmatch m d c = some (d', r) := by
  cases c with
  | addGlobServlet path slt =>
    simp only [call, addGlobServlet, Option.map_map] at h ⊢
    exact Loop.run_map_mono hnm h
  | delGlobServlet path =>
    simp only [call, delGlobServlet, Option.map_map] at h ⊢
    exact Loop.run_map_mono hnm h
  | getGlobServlet path =>
    simp only [call, getGlobServlet] at h ⊢
    exact Loop.run_map_mono hnm h
  | getMatchedServlet path =>
    simp only [call, getMatchedServlet] at h ⊢
    cases hd : d.datas path with
    | some slt => rwa [hd] at h
    | none =>
      rw [hd] at h
      exact Loop.run_map_mono hnm h
  | _ => exact h

theorem step_unique {d₁ d₂ : ServletDispatch S} {r₁ r₂ : ServletPtr S}
    (h : Step fnmatch d c d₁ r₁) (h' : Step fnmatch d c d₂ r₂) : d₁ = d₂ := by
  obtain ⟨n, h⟩ := h
  obtain ⟨m, h'⟩ := h'
  have h₁ := call_mono (Nat.le_max_left n m) h
  have h₂ := call_mono (Nat.le_max_right n m) h'
  exact congrArg Prod.fst (Option.some.inj (h₁.symm.trans h₂))

theorem find?_filter_ne (globs : List (List UInt8 × ServletPtr S)) (path path' : List UInt8) :
    (globs.filter (·.1 ≠ path)).find? (·.1 = path') =
      if path = path' then none else globs.find? (·.1 = path') := by
  induction globs with
  | nil => simp
  | cons e globs ih =>
    by_cases he : e.1 = path
    · rw [List.filter_cons_of_neg (by simpa using he), ih, List.find?_cons]
      by_cases h : path = path' <;> simp [h, he]
    · rw [List.filter_cons_of_pos (by simpa using he), List.find?_cons, ih, List.find?_cons]
      by_cases h' : e.1 = path'
      · have : path ≠ path' := fun h => he (h'.trans h.symm)
        simp [h', this]
      · simp [h']

/-- What a lookup finds in the map after a glob has been added. -/
theorem spec_add_get (d : ServletDispatch S) (path path' : List UInt8) (slt : ServletPtr S) :
    (spec fnmatch (spec fnmatch d (.addGlobServlet path slt)).1 (.getGlobServlet path')).2 =
      if path = path' then slt else (spec fnmatch d (.getGlobServlet path')).2 := by
  simp only [spec, List.find?_append, find?_filter_ne]
  by_cases h : path = path' <;> simp [h]

/-- **The dispatch table is an ordered map** for a sequence of calls if and only if every call finds
its entry at the front. -/
theorem allCorrect_iff_atFront (fnmatch : List UInt8 → List UInt8 → Int)
    (defaultServlet : ServletPtr S) (cs : List (Call S)) :
    Refinement.AllCorrect (Step fnmatch) (spec fnmatch) Represents { defaultServlet }
        { defaultServlet } cs ↔
      Refinement.AllMeet (Step fnmatch) (AtFront fnmatch) { defaultServlet } cs := by
  refine Refinement.allCorrect_iff (I := fun _ => True) ?_ ?_ ?_ trivial ⟨rfl, .nil⟩ cs
  · intro d c d₁ r₁ d₂ r₂ h h'
    exact step_unique h h'
  · rintro d t c - ⟨rfl, H⟩
    exact H.correct_iff
  · intros
    trivial

/-- After one glob, the lookup of another one does not return, and neither does a second
`addGlobServlet`. -/
theorem second_glob_hangs :
    ¬Refinement.AllCorrect (Step (S := Nat) fun _ _ => 1) (spec fun _ _ => 1) Represents
        { defaultServlet := some 0 } { defaultServlet := some 0 }
        [.addGlobServlet [97] (some 1), .getGlobServlet [98]] ∧
    ¬Refinement.AllCorrect (Step (S := Nat) fun _ _ => 1) (spec fun _ _ => 1) Represents
        { defaultServlet := some 0 } { defaultServlet := some 0 }
        [.addGlobServlet [97] (some 1), .addGlobServlet [98] (some 2)] := by
  have hadd : ∀ c, ¬AtFront (S := Nat) (fun _ _ => 1)
      { globs := [([97], some 1)], defaultServlet := some 0 } c →
      ¬Refinement.AllCorrect (Step (S := Nat) fun _ _ => 1) (spec fun _ _ => 1) Represents
        { defaultServlet := some 0 } { defaultServlet := some 0 }
        [.addGlobServlet [97] (some 1), c] := by
    rintro c hc ⟨d, -, ⟨rfl, H⟩, d', hs, hR, -⟩
    exact hc (H.correct_iff.mp ⟨d', hs, hR⟩)
  exact ⟨hadd _ (by simp [AtFront]), hadd _ (by simp [AtFront])⟩

end ServletDispatch

end Tigerkin.Http
