import Mathlib.Data.List.Dedup

/-! # State machines over bytes

Machines as Ragel generates them: in a state a byte selects an edge, whose actions are executed at
the byte's position before the machine moves on; a byte without an edge is an error and is not
consumed, and an edge with an action that `stop` marks ends the execution. `walk` is what the
machine does to its state alone. -/

namespace Tigerkin.Machine

structure Edge (α : Type) where
  /-- Inclusive ranges of bytes. -/
  on : List (UInt8 × UInt8)
  acts : List α
  target : Nat

def Edge.covers {α : Type} (e : Edge α) (b : UInt8) : Bool :=
  e.on.any fun r => r.1 ≤ b && b ≤ r.2

/-- The edge is for single bytes, of this kind. -/
def Edge.Only {α : Type} (e : Edge α) (C : UInt8 → Prop) : Prop :=
  ∀ range ∈ e.on, range.1 = range.2 ∧ C range.1

instance {α : Type} (e : Edge α) (C : UInt8 → Prop) [DecidablePred C] : Decidable (e.Only C) :=
  List.decidableBAll (fun range : UInt8 × UInt8 => range.1 = range.2 ∧ C range.1) e.on

theorem Edge.of_covers {α : Type} {e : Edge α} {b : UInt8} {C : UInt8 → Prop} (hon : e.Only C)
    (h : e.covers b = true) : C b := by
  obtain ⟨range, hmem, hb⟩ := List.any_eq_true.mp h
  simp only [Bool.and_eq_true, decide_eq_true_eq] at hb
  obtain ⟨heq, hc⟩ := hon range hmem
  rwa [UInt8.le_antisymm hb.1 (heq ▸ hb.2)] at hc

theorem Edge.eq_of_covers {α : Type} {e : Edge α} {b c : UInt8} (hon : e.on = [(c, c)])
    (h : e.covers b = true) : b = c :=
  Edge.of_covers (C := (· = c)) (by simp [Edge.Only, hon]) h

variable {α σ : Type} (rows : List (List (Edge α))) (stop : α → Bool)

/-- The edge of the state `cs` for a byte; row `cs` lists the edges of the state. -/
def edge (cs : Nat) (b : UInt8) : Option (Edge α) :=
  (rows.getD cs []).find? (·.covers b)

def Edge.stops (e : Edge α) : Bool :=
  e.acts.any stop

/-- The machine executes from the state `cs` at the position `p`. The actions can fail. The error
state is 0. -/
def exec (act : Nat → σ → α → Option σ) : Nat → σ → Nat → List UInt8 → Option (σ × Nat × Nat)
  | cs, x, p, [] => some (x, cs, p)
  | cs, x, p, b :: bs =>
    match edge rows cs b with
    | none => some (x, 0, p)
    | some e =>
      (e.acts.foldlM (act p) x).bind fun x =>
        if e.stops stop then some (x, e.target, p + 1) else exec act e.target x (p + 1) bs

/-- The state that the machine reaches, how many bytes it consumes and whether it halts before it
has seen the end of the bytes. -/
def walk : Nat → List UInt8 → Nat × Nat × Bool
  | cs, [] => (cs, 0, false)
  | cs, b :: bs =>
    match edge rows cs b with
    | none => (0, 0, true)
    | some e =>
      if e.stops stop then (e.target, 1, true)
      else
        let (cs, n, halted) := walk e.target bs
        (cs, n + 1, halted)

variable {rows stop}

theorem exec_step (act : Nat → σ → α → Option σ) (cs : Nat) (x : σ) (p : Nat) (b : UInt8)
    (bs : List UInt8) :
    exec rows stop act cs x p (b :: bs) =
      match edge rows cs b with
      | none => some (x, 0, p)
      | some e =>
        (e.acts.foldlM (act p) x).bind fun x =>
          if e.stops stop then some (x, e.target, p + 1)
          else exec rows stop act e.target x (p + 1) bs :=
  rfl

theorem walk_step (cs : Nat) (b : UInt8) (bs : List UInt8) :
    walk rows stop cs (b :: bs) =
      match edge rows cs b with
      | none => (0, 0, true)
      | some e =>
        if e.stops stop then (e.target, 1, true)
        else ((walk rows stop e.target bs).1, (walk rows stop e.target bs).2.1 + 1,
          (walk rows stop e.target bs).2.2) :=
  rfl

theorem exec_walk {act : Nat → σ → α → Option σ} {cs : Nat} {x : σ} {p : Nat} {bs : List UInt8}
    {x' : σ} {cs' p' : Nat} (h : exec rows stop act cs x p bs = some (x', cs', p')) :
    (walk rows stop cs bs).1 = cs' ∧ p' = p + (walk rows stop cs bs).2.1 := by
  induction bs generalizing cs x p with
  | nil =>
    cases h
    exact ⟨rfl, rfl⟩
  | cons b bs ih =>
    simp only [exec_step] at h
    simp only [walk_step]
    cases he : edge rows cs b with
    | none =>
      rw [he] at h
      cases h
      exact ⟨rfl, rfl⟩
    | some e =>
      rw [he] at h
      obtain ⟨y, -, h⟩ := Option.bind_eq_some_iff.mp h
      dsimp only
      split at h
      · rename_i hs
        cases h
        rw [if_pos hs]
        exact ⟨rfl, rfl⟩
      · rename_i hs
        rw [if_neg hs]
        obtain ⟨h1, h2⟩ := ih h
        exact ⟨h1, h2.trans (Nat.add_right_comm ..)⟩

theorem walk_le (cs : Nat) (bs : List UInt8) : (walk rows stop cs bs).2.1 ≤ bs.length := by
  induction bs generalizing cs with
  | nil => exact Nat.le_refl 0
  | cons b bs ih =>
    simp only [walk_step]
    cases edge rows cs b with
    | none => exact Nat.zero_le _
    | some e =>
      dsimp only
      split
      · exact Nat.le_add_left ..
      · exact Nat.succ_le_succ (ih e.target)

/-- A machine that sees the end of the bytes has gone on from the first of them. -/
theorem walk_cons {cs : Nat} {b : UInt8} {bs : List UInt8}
    (h : (walk rows stop cs (b :: bs)).2.2 = false) :
    ∃ e, edge rows cs b = some e ∧ e.stops stop = false ∧
      (walk rows stop e.target bs).2.2 = false ∧
      ∀ as, walk rows stop cs (b :: as) = ((walk rows stop e.target as).1,
        (walk rows stop e.target as).2.1 + 1, (walk rows stop e.target as).2.2) := by
  simp only [walk_step] at h ⊢
  cases he : edge rows cs b with
  | none =>
    rw [he] at h
    cases h
  | some e =>
    rw [he] at h
    dsimp only at h ⊢
    split at h
    · cases h
    · rename_i hs
      exact ⟨e, rfl, eq_false_of_ne_true hs, h, fun as => if_neg hs⟩

theorem walk_length {cs : Nat} {bs : List UInt8} (h : (walk rows stop cs bs).2.2 = false) :
    (walk rows stop cs bs).2.1 = bs.length := by
  induction bs generalizing cs with
  | nil => rfl
  | cons b bs ih =>
    obtain ⟨e, -, -, hrest, hw⟩ := walk_cons h
    rw [hw, ih hrest, List.length_cons]

/-- A machine that has halted has not seen what follows. -/
theorem walk_append_halted {cs : Nat} {as : List UInt8} (bs : List UInt8)
    (h : (walk rows stop cs as).2.2 = true) :
    walk rows stop cs (as ++ bs) = walk rows stop cs as := by
  induction as generalizing cs with
  | nil => cases h
  | cons a as ih =>
    simp only [walk_step, List.cons_append] at h ⊢
    cases he : edge rows cs a with
    | none => rfl
    | some e =>
      rw [he] at h
      dsimp only at h ⊢
      split
      · rfl
      · rename_i hs
        rw [if_neg hs] at h
        rw [ih h]

theorem walk_append {cs : Nat} {as : List UInt8} (bs : List UInt8)
    (h : (walk rows stop cs as).2.2 = false) :
    walk rows stop cs (as ++ bs) =
      ((walk rows stop (walk rows stop cs as).1 bs).1,
        as.length + (walk rows stop (walk rows stop cs as).1 bs).2.1,
        (walk rows stop (walk rows stop cs as).1 bs).2.2) := by
  induction as generalizing cs with
  | nil => simp [walk]
  | cons a as ih =>
    obtain ⟨e, -, -, hrest, hw⟩ := walk_cons h
    rw [List.cons_append, hw, hw, ih hrest, List.length_cons]
    simp only [Prod.mk.injEq, true_and, and_true]
    omega

theorem exec_append_halted {act : Nat → σ → α → Option σ} {cs : Nat} {as : List UInt8}
    (bs : List UInt8) (h : (walk rows stop cs as).2.2 = true) (x : σ) (p : Nat) :
    exec rows stop act cs x p (as ++ bs) = exec rows stop act cs x p as := by
  induction as generalizing cs x p with
  | nil => cases h
  | cons a as ih =>
    simp only [walk_step, exec_step, List.cons_append] at h ⊢
    cases he : edge rows cs a with
    | none => rfl
    | some e =>
      rw [he] at h
      dsimp only at h ⊢
      congr 1
      funext y
      split
      · rfl
      · rename_i hs
        rw [if_neg hs] at h
        exact ih h y (p + 1)

/-- What every action of a list keeps, the list keeps. -/
theorem foldlM_inv {act : σ → α → Option σ} {I : σ → Prop} {as : List α}
    (hact : ∀ {x y}, ∀ a ∈ as, act x a = some y → I x → I y) {x y : σ}
    (h : as.foldlM act x = some y) (hI : I x) : I y := by
  induction as generalizing x with
  | nil =>
    cases h
    exact hI
  | cons a as ih =>
    obtain ⟨z, hz, h⟩ := Option.bind_eq_some_iff.mp h
    exact ih (fun a ha => hact a (List.mem_cons_of_mem _ ha)) h (hact a List.mem_cons_self hz hI)

/-- Actions that can all be executed. -/
theorem foldlM_total {act : σ → α → Option σ} {I : σ → Prop} {as : List α}
    (hact : ∀ {x}, ∀ a ∈ as, I x → ∃ y, act x a = some y ∧ I y) {x : σ} (hI : I x) :
    ∃ y, as.foldlM act x = some y ∧ I y := by
  induction as generalizing x with
  | nil => exact ⟨x, rfl, hI⟩
  | cons a as ih =>
    obtain ⟨y, hy, hIy⟩ := hact a List.mem_cons_self hI
    obtain ⟨z, hz, hIz⟩ := ih (fun a ha => hact a (List.mem_cons_of_mem _ ha)) hIy
    exact ⟨z, Option.bind_eq_some_iff.mpr ⟨y, hy, hz⟩, hIz⟩

/-- What every action keeps, the execution keeps. -/
theorem exec_inv {act : Nat → σ → α → Option σ} {I : σ → Prop}
    (hact : ∀ {p x a y}, act p x a = some y → I x → I y) {cs p : Nat} {x : σ} {bs : List UInt8}
    {r : σ × Nat × Nat} (h : exec rows stop act cs x p bs = some r) (hI : I x) : I r.1 := by
  induction bs generalizing cs x p with
  | nil =>
    cases h
    exact hI
  | cons b bs ih =>
    simp only [exec_step] at h
    cases he : edge rows cs b with
    | none =>
      rw [he] at h
      cases h
      exact hI
    | some e =>
      rw [he] at h
      obtain ⟨y, hy, h⟩ := Option.bind_eq_some_iff.mp h
      have hIy := foldlM_inv (fun _ _ => hact) hy hI
      split at h
      · cases h
        exact hIy
      · exact ih h hIy

/-- What holds of all edges of all rows. -/
theorem of_edge {P : Nat → Edge α → Prop} (hP : ∀ p ∈ rows.zipIdx, ∀ e ∈ p.1, P p.2 e) {cs : Nat}
    {b : UInt8} {e : Edge α} (h : edge rows cs b = some e) : P cs e ∧ e.covers b = true := by
  have hmem := List.mem_of_find?_eq_some h
  rw [List.getD_eq_getElem?_getD] at hmem
  cases hrow : rows[cs]? with
  | none =>
    rw [hrow] at hmem
    cases hmem
  | some row =>
    rw [hrow] at hmem
    have hcovers := List.find?_some (show (rows.getD cs []).find? (·.covers b) = some e from h)
    exact ⟨hP (row, cs) (List.mem_zipIdx_iff_getElem?.mpr hrow) e hmem, hcovers⟩

/-- The first byte of an execution. -/
theorem of_exec_cons {act : Nat → σ → α → Option σ} {cs p : Nat} {x : σ} {b : UInt8}
    {bs : List UInt8} {r : σ × Nat × Nat} (h : exec rows stop act cs x p (b :: bs) = some r) :
    edge rows cs b = none ∧ r = (x, 0, p) ∨
      ∃ e y, edge rows cs b = some e ∧ e.acts.foldlM (act p) x = some y ∧
        (e.stops stop = true ∧ r = (y, e.target, p + 1) ∨
          e.stops stop = false ∧ exec rows stop act e.target y (p + 1) bs = some r) := by
  simp only [exec_step] at h
  cases he : edge rows cs b with
  | none =>
    rw [he] at h
    cases h
    exact .inl ⟨rfl, rfl⟩
  | some e =>
    rw [he] at h
    obtain ⟨y, hy, h⟩ := Option.bind_eq_some_iff.mp h
    split at h
    · cases h
      exact .inr ⟨e, y, rfl, hy, .inl ⟨‹_›, rfl⟩⟩
    · exact .inr ⟨e, y, rfl, hy, .inr ⟨eq_false_of_ne_true ‹_›, h⟩⟩

/-- What every edge keeps, the execution keeps: it ends where it has come to or in error. -/
theorem exec_edges {act : Nat → σ → α → Option σ} {I : Nat → Nat → σ → Prop}
    {buffer : List UInt8}
    (hedge : ∀ {cs p x b e y}, buffer[p]? = some b → edge rows cs b = some e → I cs p x →
      e.acts.foldlM (act p) x = some y → I e.target (p + 1) y)
    {cs p : Nat} {x : σ} {r : σ × Nat × Nat}
    (h : exec rows stop act cs x p (buffer.drop p) = some r) (hI : I cs p x) :
    ∃ cs', (r.2.1 = 0 ∨ r.2.1 = cs') ∧ I cs' r.2.2 r.1 := by
  generalize hbs : buffer.drop p = bs at h
  induction bs generalizing cs x p with
  | nil =>
    cases h
    exact ⟨cs, .inr rfl, hI⟩
  | cons b bs ih =>
    have hb : buffer[p]? = some b := by
      rw [← List.head?_drop, hbs]
      rfl
    have hrest : buffer.drop (p + 1) = bs := by
      rw [← List.drop_drop, hbs]
      rfl
    rcases of_exec_cons h with ⟨-, rfl⟩ | ⟨e, y, he, hy, ⟨-, rfl⟩ | ⟨-, h⟩⟩
    · exact ⟨cs, .inl rfl, hI⟩
    · exact ⟨e.target, .inr rfl, hedge hb he hI hy⟩
    · exact ih (hedge hb he hI hy) hrest h

/-- An execution whose actions can be executed. -/
theorem exec_total {act : Nat → σ → α → Option σ} {I : Nat → Nat → σ → Prop} {N : Nat}
    (hedge : ∀ {cs p x b e}, p < N → edge rows cs b = some e → I cs p x →
      ∃ y, e.acts.foldlM (act p) x = some y ∧ I e.target (p + 1) y)
    {cs p : Nat} {x : σ} {bs : List UInt8} (hN : p + bs.length ≤ N) (hI : I cs p x) :
    ∃ r, exec rows stop act cs x p bs = some r ∧ r.2.2 ≤ p + bs.length ∧
      ∃ cs', I cs' r.2.2 r.1 := by
  induction bs generalizing cs x p with
  | nil => exact ⟨_, rfl, Nat.le_refl _, cs, hI⟩
  | cons b bs ih =>
    rw [List.length_cons] at hN ⊢
    simp only [exec_step]
    cases he : edge rows cs b with
    | none => exact ⟨_, rfl, Nat.le_add_right .., cs, hI⟩
    | some e =>
      obtain ⟨y, hy, hIy⟩ := hedge (by omega) he hI
      simp only [hy, Option.bind_some]
      split
      · exact ⟨_, rfl, by dsimp only; omega, e.target, hIy⟩
      · obtain ⟨r, hr, hle, hIr⟩ := ih (by omega) hIy
        exact ⟨r, hr, by omega, hIr⟩

/-- An execution up to a place that the machine passes. The invariant is about the bytes before a
state. -/
theorem exec_prefix {act : Nat → σ → α → Option σ} {I : List UInt8 → Nat → σ → Prop} {p : Nat}
    {as bs : List UInt8}
    (hedge : ∀ {done b cs x e y}, done ++ [b] <+: as → edge rows cs b = some e → I done cs x →
      e.acts.foldlM (act (p + done.length)) x = some y → I (done ++ [b]) e.target y)
    {cs cs' : Nat} {x : σ} {r : σ × Nat × Nat} (hw : walk rows stop cs as = (cs', as.length, false))
    (h : exec rows stop act cs x p (as ++ bs) = some r) (hI : I [] cs x) :
    ∃ y, I as cs' y ∧ exec rows stop act cs' y (p + as.length) bs = some r := by
  suffices ∀ tail done cs x, as = done ++ tail → walk rows stop cs tail = (cs', tail.length, false) →
      exec rows stop act cs x (p + done.length) (tail ++ bs) = some r → I done cs x →
      ∃ y, I as cs' y ∧ exec rows stop act cs' y (p + as.length) bs = some r from
    this as [] cs x rfl hw h hI
  intro tail
  induction tail with
  | nil =>
    rintro done cs x has hw h hI
    cases hw
    rw [List.append_nil] at has
    exact ⟨x, has ▸ hI, has ▸ h⟩
  | cons b tail ih =>
    rintro done cs x has hw h hI
    have hcat : as = done ++ [b] ++ tail := by simp [has]
    obtain ⟨e, he, hs, -, hwalk⟩ := walk_cons (congrArg (fun w => w.2.2) hw)
    rw [hwalk, List.length_cons] at hw
    simp only [Prod.mk.injEq, Nat.add_right_cancel_iff] at hw
    have hrun := of_exec_cons h
    rw [he] at hrun
    obtain ⟨hnone, -⟩ | ⟨e', y, he', hy, hrest⟩ := hrun
    · cases hnone
    · cases he'
      rw [hs] at hrest
      obtain ⟨-, hrest⟩ := hrest.resolve_left (by simp)
      refine ih (done ++ [b]) e.target y hcat (Prod.ext hw.1 (Prod.ext hw.2.1 hw.2.2)) ?_
        (hedge (hcat ▸ List.prefix_append ..) he hI hy)
      rw [List.length_append]
      exact hrest

/-- Actions on a state with more in it. -/
theorem exec_map {σ' : Type} {act : Nat → σ → α → Option σ} {act' : Nat → σ' → α → Option σ'}
    {f : σ' → σ} (hact : ∀ p x a, (act' p x a).map f = act p (f x) a) (cs : Nat) (x : σ') (p : Nat)
    (bs : List UInt8) :
    (exec rows stop act' cs x p bs).map (fun r => (f r.1, r.2)) =
      exec rows stop act cs (f x) p bs := by
  have hfold : ∀ (as : List α) (p : Nat) (x : σ'),
      (as.foldlM (act' p) x).map f = as.foldlM (act p) (f x) := by
    intro as p x
    induction as generalizing x with
    | nil => rfl
    | cons a as ih =>
      rw [List.foldlM_cons, List.foldlM_cons, ← hact]
      cases act' p x a with
      | none => rfl
      | some y => exact ih y
  induction bs generalizing cs x p with
  | nil => rfl
  | cons b bs ih =>
    simp only [exec_step]
    cases edge rows cs b with
    | none => rfl
    | some e =>
      simp only [← hfold]
      cases e.acts.foldlM (act' p) x with
      | none => rfl
      | some y =>
        simp only [Option.bind_some, Option.map_some]
        split
        · rfl
        · exact ih e.target y (p + 1)

/-- Two interpretations of the actions that keep a relation on every edge keep it on the whole
execution. -/
theorem exec_similar {σ' : Type} {act : Nat → σ → α → Option σ} {act' : Nat → σ' → α → Option σ'}
    {R : Nat → σ → σ' → Prop}
    (hact : ∀ {cs b e p x x'}, edge rows cs b = some e → R cs x x' →
      Option.Rel (R e.target) (e.acts.foldlM (act p) x) (e.acts.foldlM (act' p) x'))
    {cs : Nat} {x : σ} {x' : σ'} (hR : R cs x x') (p : Nat) (bs : List UInt8) :
    Option.Rel (fun y y' => y.2 = y'.2 ∧ ∃ c, R c y.1 y'.1)
      (exec rows stop act cs x p bs) (exec rows stop act' cs x' p bs) := by
  induction bs generalizing cs x x' p with
  | nil => exact .some ⟨rfl, cs, hR⟩
  | cons b bs ih =>
    simp only [exec_step]
    cases he : edge rows cs b with
    | none => exact .some ⟨rfl, cs, hR⟩
    | some e =>
      have hfold := hact (p := p) he hR
      revert hfold
      dsimp only
      generalize e.acts.foldlM (act p) x = o
      generalize e.acts.foldlM (act' p) x' = o'
      rintro (hy | _)
      · simp only [Option.bind_some]
        split
        · exact .some ⟨rfl, e.target, hy⟩
        · exact ih hy (p + 1)
      · exact .none

/-- Two interpretations of the actions that keep a relation on every edge of a walk that halts at
the end of the bytes keep it on the whole execution. `n` bytes are left after the edge. -/
theorem exec_rel {σ' : Type} {act : Nat → σ → α → Option σ} {act' : Nat → σ' → α → Option σ'}
    {R : Nat → Nat → σ → σ' → Prop} {t N : Nat}
    (hact : ∀ {cs b e q x x'} {rest : List UInt8}, edge rows cs b = some e → R cs q x x' →
      q + 1 + rest.length = N → walk rows stop cs (b :: rest) = (t, rest.length + 1, true) →
      Option.Rel (R e.target (q + 1)) (e.acts.foldlM (act q) x) (e.acts.foldlM (act' q) x'))
    {cs p : Nat} {x : σ} {x' : σ'} {bs : List UInt8}
    (hw : walk rows stop cs bs = (t, bs.length, true)) (hN : p + bs.length = N)
    (hR : R cs p x x') :
    Option.Rel (fun y y' => y.2 = y'.2 ∧ R y.2.1 y.2.2 y.1 y'.1)
      (exec rows stop act cs x p bs) (exec rows stop act' cs x' p bs) := by
  induction bs generalizing cs x x' p with
  | nil => cases hw
  | cons b bs ih =>
    rw [List.length_cons] at hw hN
    have hw' := hw
    simp only [walk_step] at hw
    cases he : edge rows cs b with
    | none =>
      rw [he] at hw
      cases hw
    | some e =>
      rw [he] at hw
      dsimp only at hw
      simp only [exec_step, he]
      have hfold := hact he hR (by omega) hw'
      revert hfold
      generalize e.acts.foldlM (act p) x = o
      generalize e.acts.foldlM (act' p) x' = o'
      rintro (hy | _)
      · simp only [Option.bind_some]
        split
        · exact .some ⟨rfl, hy⟩
        · rename_i hs
          rw [if_neg hs] at hw
          simp only [Prod.mk.injEq, Nat.add_right_cancel_iff] at hw
          exact ih (by rw [← hw.1, ← hw.2.1, ← hw.2.2]) (by omega) hy
      · exact .none

/-! ## Two machines -/

/-- What an edge does, whatever bytes it is for. -/
def Edge.effect (e : Edge α) : List α × Nat := (e.acts, e.target)

variable (rows stop) in
/-- On the way of the machine through the bytes the edges of `rows'` do what its own do. -/
def Follows (rows' : List (List (Edge α))) (cs : Nat) (bs : List UInt8) : Prop :=
  ∀ part b rest, bs = part ++ b :: rest → ∀ c, walk rows stop cs part = (c, part.length, false) →
    (edge rows' c b).map Edge.effect = (edge rows c b).map Edge.effect

variable {rows' : List (List (Edge α))}

theorem Follows.head {cs : Nat} {b : UInt8} {bs : List UInt8}
    (h : Follows rows stop rows' cs (b :: bs)) :
    (edge rows' cs b).map Edge.effect = (edge rows cs b).map Edge.effect :=
  h [] b bs rfl cs rfl

theorem Follows.tail {cs : Nat} {b : UInt8} {bs : List UInt8} {e : Edge α}
    (h : Follows rows stop rows' cs (b :: bs)) (he : edge rows cs b = some e)
    (hs : e.stops stop = false) : Follows rows stop rows' e.target bs := by
  rintro part b' rest rfl c hw
  refine h (b :: part) b' rest rfl c ?_
  simp only [walk_step, he, hs, hw]
  rfl

variable (stop) in
/-- An edge of the one machine, with that of the other. -/
theorem Edge.of_effect {e : Edge α} {o : Option (Edge α)}
    (h : o.map Edge.effect = (some e).map Edge.effect) :
    ∃ e', o = some e' ∧ e'.acts = e.acts ∧ e'.target = e.target ∧
      e'.stops stop = e.stops stop := by
  obtain ⟨e', rfl, he'⟩ := Option.map_eq_some_iff.mp h
  obtain ⟨hacts, htarget⟩ := Prod.mk.inj he'
  exact ⟨e', rfl, hacts, htarget, by rw [stops, hacts, stops]⟩

theorem exec_follows {act : Nat → σ → α → Option σ} {cs : Nat} {bs : List UInt8}
    (h : Follows rows stop rows' cs bs) (x : σ) (p : Nat) :
    exec rows' stop act cs x p bs = exec rows stop act cs x p bs := by
  induction bs generalizing cs x p with
  | nil => rfl
  | cons b bs ih =>
    have hhead := h.head
    simp only [exec_step]
    cases he : edge rows cs b with
    | none =>
      rw [he] at hhead
      rw [Option.map_eq_none_iff.mp hhead]
    | some e =>
      rw [he] at hhead
      obtain ⟨e', he', hacts, htarget, hstops⟩ := Edge.of_effect stop hhead
      simp only [he', hacts, htarget, hstops]
      congr 1
      funext y
      by_cases hs : e.stops stop = true
      · rw [if_pos hs, if_pos hs]
      · rw [if_neg hs, if_neg hs]
        exact ih (h.tail he (eq_false_of_ne_true hs)) y (p + 1)

theorem walk_follows {cs : Nat} {bs : List UInt8} (h : Follows rows stop rows' cs bs) :
    walk rows' stop cs bs = walk rows stop cs bs := by
  induction bs generalizing cs with
  | nil => rfl
  | cons b bs ih =>
    have hhead := h.head
    simp only [walk_step]
    cases he : edge rows cs b with
    | none =>
      rw [he] at hhead
      rw [Option.map_eq_none_iff.mp hhead]
    | some e =>
      rw [he] at hhead
      obtain ⟨e', he', -, htarget, hstops⟩ := Edge.of_effect stop hhead
      simp only [he', htarget, hstops]
      by_cases hs : e.stops stop = true
      · rw [if_pos hs, if_pos hs]
      · rw [if_neg hs, if_neg hs, ih (h.tail he (eq_false_of_ne_true hs))]

/-! ## States -/

variable (rows) in
/-- The state that the bytes lead to, whatever the actions do. -/
def evalFrom (cs : Nat) (bs : List UInt8) : Option Nat :=
  bs.foldlM (fun cs b => (edge rows cs b).map Edge.target) cs

theorem evalFrom_cons {cs : Nat} {b : UInt8} {e : Edge α} (he : edge rows cs b = some e)
    (bs : List UInt8) : evalFrom rows cs (b :: bs) = evalFrom rows e.target bs := by
  rw [evalFrom, List.foldlM_cons, he]
  rfl

theorem evalFrom_append (cs : Nat) (as bs : List UInt8) :
    evalFrom rows cs (as ++ bs) = (evalFrom rows cs as).bind fun cs' => evalFrom rows cs' bs :=
  List.foldlM_append ..

theorem of_evalFrom_append {cs cs' : Nat} {as bs : List UInt8}
    (h : evalFrom rows cs (as ++ bs) = some cs') :
    ∃ c, evalFrom rows cs as = some c ∧ evalFrom rows c bs = some cs' :=
  Option.bind_eq_some_iff.mp (evalFrom_append cs as bs ▸ h)

theorem of_evalFrom_cons {cs cs' : Nat} {b : UInt8} {bs : List UInt8}
    (h : evalFrom rows cs (b :: bs) = some cs') :
    ∃ e, edge rows cs b = some e ∧ evalFrom rows e.target bs = some cs' := by
  rw [evalFrom, List.foldlM_cons] at h
  obtain ⟨c, hc, h⟩ := Option.bind_eq_some_iff.mp h
  obtain ⟨e, he, rfl⟩ := Option.map_eq_some_iff.mp hc
  exact ⟨e, he, h⟩

theorem of_evalFrom_concat {cs cs' : Nat} {b : UInt8} {bs : List UInt8}
    (h : evalFrom rows cs (bs ++ [b]) = some cs') :
    ∃ c e, evalFrom rows cs bs = some c ∧ edge rows c b = some e ∧ e.target = cs' := by
  obtain ⟨c, hc, h⟩ := of_evalFrom_append h
  obtain ⟨e, he, h⟩ := of_evalFrom_cons h
  exact ⟨c, e, hc, he, Option.some.inj h⟩

variable (rows) in
/-- The states that one of the bytes leads to from one of the states. -/
def image (S : List Nat) (bytes : List UInt8) : List Nat :=
  (S.flatMap fun cs => bytes.filterMap fun b => (edge rows cs b).map Edge.target).dedup

theorem mem_image {S : List Nat} {bytes : List UInt8} {cs : Nat} {b : UInt8} {e : Edge α}
    (hcs : cs ∈ S) (hb : b ∈ bytes) (he : edge rows cs b = some e) : e.target ∈ image rows S bytes :=
  List.mem_dedup.mpr
    (List.mem_flatMap.mpr ⟨cs, hcs, List.mem_filterMap.mpr ⟨b, hb, by rw [he]; rfl⟩⟩)

/-- The states that a word of a pattern leads to. -/
theorem evalFrom_mem {S : List Nat} {pattern : List (List UInt8)} {cs cs' : Nat} {bs : List UInt8}
    (hbs : List.Forall₂ (fun b bytes => b ∈ bytes) bs pattern) (hcs : cs ∈ S)
    (h : evalFrom rows cs bs = some cs') : cs' ∈ pattern.foldl (image rows) S := by
  induction hbs generalizing cs S with
  | nil =>
    cases h
    exact hcs
  | cons hb _ ih =>
    obtain ⟨e, he, h⟩ := of_evalFrom_cons h
    exact ih (mem_image hcs hb he) h

/-- A state that the bytes do not leave. -/
theorem evalFrom_loop {bytes : List UInt8} {cs cs' : Nat} {bs : List UInt8}
    (hloop : ∀ t ∈ image rows [cs] bytes, t = cs) (hbs : ∀ b ∈ bs, b ∈ bytes)
    (h : evalFrom rows cs bs = some cs') : cs' = cs := by
  induction bs with
  | nil => exact (Option.some.inj h).symm
  | cons b bs ih =>
    obtain ⟨hb, hbs⟩ := List.forall_mem_cons.mp hbs
    obtain ⟨e, he, h⟩ := of_evalFrom_cons h
    rw [hloop _ (mem_image List.mem_cons_self hb he)] at h
    exact ih hbs h

/-! ## Traces -/

variable (rows stop) in
/-- The actions, with their positions, of a machine that does not halt before the end of the bytes,
and the state that it reaches. -/
def trace : Nat → Nat → List UInt8 → Option (List (Nat × α) × Nat)
  | cs, _, [] => some ([], cs)
  | cs, p, b :: bs =>
    match edge rows cs b with
    | none => none
    | some e =>
      if e.stops stop then none
      else (trace e.target (p + 1) bs).map fun t => (e.acts.map (p, ·) ++ t.1, t.2)

/-- The actions of a trace, one after the other. -/
def perform (act : Nat → σ → α → Option σ) (x : σ) (l : List (Nat × α)) : Option σ :=
  l.foldlM (fun x a => act a.1 x a.2) x

theorem perform_cons {act : Nat → σ → α → Option σ} {x y : σ} {p : Nat} {a : α}
    (h : act p x a = some y) (l : List (Nat × α)) : perform act x ((p, a) :: l) = perform act y l := by
  rw [perform, List.foldlM_cons, h]
  rfl

theorem perform_append (act : Nat → σ → α → Option σ) (x : σ) (l l' : List (Nat × α)) :
    perform act x (l ++ l') = (perform act x l).bind fun y => perform act y l' :=
  List.foldlM_append ..

theorem perform_map (act : Nat → σ → α → Option σ) (x : σ) (p : Nat) (as : List α) :
    perform act x (as.map (p, ·)) = as.foldlM (act p) x := by
  rw [perform, List.foldlM_map]

variable {cs cs' cs'' p : Nat} {l l' : List (Nat × α)}

theorem trace_step (cs p : Nat) (b : UInt8) (bs : List UInt8) :
    trace rows stop cs p (b :: bs) =
      match edge rows cs b with
      | none => none
      | some e =>
        if e.stops stop then none
        else (trace rows stop e.target (p + 1) bs).map fun t =>
          (e.acts.map (p, ·) ++ t.1, t.2) :=
  rfl

theorem trace_cons {b : UInt8} {bs : List UInt8} {e : Edge α} (he : edge rows cs b = some e)
    (hs : e.stops stop = false) (h : trace rows stop e.target (p + 1) bs = some (l, cs')) :
    trace rows stop cs p (b :: bs) = some (e.acts.map (p, ·) ++ l, cs') := by
  simp only [trace_step, he, hs, h]
  rfl

theorem of_trace_cons {b : UInt8} {bs : List UInt8}
    (h : trace rows stop cs p (b :: bs) = some (l, cs')) :
    ∃ e l', edge rows cs b = some e ∧ e.stops stop = false ∧
      trace rows stop e.target (p + 1) bs = some (l', cs') ∧ l = e.acts.map (p, ·) ++ l' := by
  simp only [trace_step] at h
  cases he : edge rows cs b with
  | none =>
    rw [he] at h
    cases h
  | some e =>
    rw [he] at h
    dsimp only at h
    split at h
    · cases h
    · rename_i hs
      obtain ⟨⟨l', cs'⟩, ht, h⟩ := Option.map_eq_some_iff.mp h
      cases h
      exact ⟨e, l', rfl, eq_false_of_ne_true hs, ht, rfl⟩

theorem trace_append {as bs : List UInt8} (h : trace rows stop cs p as = some (l, cs'))
    (h' : trace rows stop cs' (p + as.length) bs = some (l', cs'')) :
    trace rows stop cs p (as ++ bs) = some (l ++ l', cs'') := by
  induction as generalizing cs p l with
  | nil =>
    cases h
    exact h'
  | cons a as ih =>
    obtain ⟨e, l₁, he, hs, ht, rfl⟩ := of_trace_cons h
    rw [List.length_cons, Nat.add_comm as.length, ← Nat.add_assoc] at h'
    rw [List.cons_append, trace_cons he hs (ih ht h'), List.append_assoc]

theorem trace_shift (cs p : Nat) (bs : List UInt8) :
    trace rows stop cs p bs =
      (trace rows stop cs 0 bs).map fun t => (t.1.map fun a => (p + a.1, a.2), t.2) := by
  suffices ∀ cs p q, trace rows stop cs (p + q) bs =
      (trace rows stop cs q bs).map fun t => (t.1.map fun a => (p + a.1, a.2), t.2) from this cs p 0
  induction bs with
  | nil => exact fun cs p q => rfl
  | cons b bs ih =>
    intro cs p q
    simp only [trace_step]
    cases edge rows cs b with
    | none => rfl
    | some e =>
      dsimp only
      split
      · rfl
      · rw [Nat.add_assoc, ih]
        cases trace rows stop e.target (q + 1) bs with
        | none => rfl
        | some t => simp [Function.comp_def]

/-- Bytes that a machine passes without an action. The invariant relates what it has passed to its
state. -/
theorem trace_quiet {I : List UInt8 → Nat → Prop} {C : UInt8 → Prop}
    (hstep : ∀ {done cs b}, I done cs → C b → ∃ e, edge rows cs b = some e ∧ e.acts = [] ∧
      I (done ++ [b]) e.target) {l bs : List UInt8} (hI : I l cs) (hC : ∀ b ∈ bs, C b)
    (p : Nat) : ∃ cs', trace rows stop cs p bs = some ([], cs') ∧ I (l ++ bs) cs' := by
  induction bs generalizing cs l p with
  | nil => exact ⟨cs, rfl, by rwa [List.append_nil]⟩
  | cons b bs ih =>
    obtain ⟨e, he, hacts, hI'⟩ := hstep hI (hC b List.mem_cons_self)
    obtain ⟨cs', ht, hI''⟩ := ih hI' (fun b hb => hC b (List.mem_cons_of_mem _ hb)) (p + 1)
    refine ⟨cs', ?_, by rwa [List.append_assoc] at hI''⟩
    rw [trace_cons he (by simp [Edge.stops, hacts]) ht, hacts]
    rfl

/-- Bytes that begin with actions and then keep the machine in one state. -/
theorem trace_run {as : List α} {b : UInt8} {bs : List UInt8} (has : as.any stop = false)
    (hfirst : ∃ e ∈ edge rows cs b, e.acts = as ∧ e.target = cs')
    (hrest : ∀ b ∈ bs, ∃ e ∈ edge rows cs' b, e.acts = [] ∧ e.target = cs') (p : Nat) :
    trace rows stop cs p (b :: bs) = some (as.map (p, ·), cs') := by
  obtain ⟨e, he, hacts, rfl⟩ := hfirst
  obtain ⟨cs, ht, rfl⟩ : ∃ cs, trace rows stop e.target (p + 1) bs = some ([], cs) ∧
      e.target = cs := by
    refine trace_quiet (I := fun _ cs => e.target = cs) (C := fun b => b ∈ bs) (l := []) ?_ rfl
      (fun b hb => hb) (p + 1)
    rintro done _ b rfl hb
    obtain ⟨e', he', hacts', htarget'⟩ := hrest b hb
    exact ⟨e', he', hacts', htarget'.symm⟩
  rw [trace_cons he (by rw [Edge.stops, hacts, has]) ht, hacts, List.append_nil]

/-- The machine executes what it passes, and goes on. -/
theorem exec_trace {act : Nat → σ → α → Option σ} {as : List UInt8}
    (h : trace rows stop cs p as = some (l, cs')) (x : σ) (bs : List UInt8) :
    exec rows stop act cs x p (as ++ bs) =
      (perform act x l).bind fun y => exec rows stop act cs' y (p + as.length) bs := by
  induction as generalizing cs p l x with
  | nil =>
    cases h
    rfl
  | cons a as ih =>
    obtain ⟨e, l₁, he, hs, ht, rfl⟩ := of_trace_cons h
    simp only [List.cons_append, exec_step, he, hs, perform_append, perform_map, Option.bind_assoc]
    congr 1
    funext y
    rw [if_neg Bool.false_ne_true, ih ht, List.length_cons, Nat.add_comm as.length, Nat.add_assoc]

/-- The positions of a trace ascend. -/
theorem trace_positions {as : List UInt8} (h : trace rows stop cs p as = some (l, cs')) :
    l.Pairwise (fun a b => a.1 ≤ b.1) ∧ ∀ a ∈ l, p ≤ a.1 ∧ a.1 < p + as.length := by
  induction as generalizing cs p l with
  | nil =>
    cases h
    exact ⟨.nil, by simp⟩
  | cons a as ih =>
    obtain ⟨e, l₁, -, -, ht, rfl⟩ := of_trace_cons h
    obtain ⟨hsorted, hbounds⟩ := ih ht
    have hfirst : ∀ c ∈ e.acts.map (p, ·), c.1 = p := by
      rintro c hc
      obtain ⟨-, -, rfl⟩ := List.mem_map.mp hc
      rfl
    rw [List.length_cons]
    refine ⟨List.pairwise_append.mpr ⟨?_, hsorted, fun c hc d hd => ?_⟩, fun c hc => ?_⟩
    · exact List.pairwise_map.mpr (List.pairwise_of_forall fun _ _ => Nat.le_refl p)
    · rw [hfirst c hc]
      exact Nat.le_of_succ_le (hbounds d hd).1
    · rcases List.mem_append.mp hc with hc | hc
      · rw [hfirst c hc]
        omega
      · have := hbounds c hc
        omega

/-- Actions at ascending positions are performed when each can be where the invariant holds and
keeps it. -/
theorem perform_inv {act : Nat → σ → α → Option σ} {I : Nat → σ → Prop} {P : α → Prop} {N : Nat}
    (hact : ∀ {q x a}, q < N → P a → I q x → ∃ y, act q x a = some y ∧ I q y)
    (hmono : ∀ {q r x}, q ≤ r → I q x → I r x) (hl : l.Pairwise fun a b => a.1 ≤ b.1)
    (hN : ∀ a ∈ l, p ≤ a.1 ∧ a.1 < N ∧ P a.2) {x : σ} (hx : I p x) (hp : p ≤ N) :
    ∃ y, perform act x l = some y ∧ I N y := by
  induction l generalizing p x with
  | nil => exact ⟨x, rfl, hmono hp hx⟩
  | cons a l ih =>
    obtain ⟨hpa, haN, hP⟩ := hN a List.mem_cons_self
    obtain ⟨hle, hl⟩ := List.pairwise_cons.mp hl
    obtain ⟨y, hy, hIy⟩ := hact haN hP (hmono hpa hx)
    obtain ⟨z, hz, hIz⟩ := ih hl (fun b hb =>
      ⟨hle b hb, (hN b (List.mem_cons_of_mem a hb)).2⟩) hIy (Nat.le_of_lt haN)
    exact ⟨z, (perform_cons hy l).trans hz, hIz⟩

/-- A byte without an edge leaves the machine in error, if it gets there. -/
theorem exec_stuck {act : Nat → σ → α → Option σ} {as : List UInt8} {b : UInt8}
    (h : trace rows stop cs p as = some (l, cs')) (hb : edge rows cs' b = none) (x : σ)
    (bs : List UInt8) :
    ∀ r ∈ exec rows stop act cs x p (as ++ b :: bs), r.2.1 = 0 := by
  intro r hr
  rw [exec_trace h] at hr
  obtain ⟨y, -, hr⟩ := Option.bind_eq_some_iff.mp hr
  simp only [exec_step, hb] at hr
  cases hr
  rfl

/-- The last byte of an execution. -/
theorem exec_stop {act : Nat → σ → α → Option σ} {b : UInt8} {e : Edge α}
    (he : edge rows cs b = some e) (hs : e.stops stop = true) (x : σ) (bs : List UInt8) :
    exec rows stop act cs x p (b :: bs) =
      (e.acts.foldlM (act p) x).map fun y => (y, e.target, p + 1) := by
  simp only [exec_step, he, hs, if_true]
  cases e.acts.foldlM (act p) x <;> rfl

end Tigerkin.Machine
