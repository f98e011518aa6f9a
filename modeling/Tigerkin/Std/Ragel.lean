import Mathlib.Computability.Language

/-! # Embedded actions

Ragel compiles an expression with embedded actions to a deterministic machine whose state is the set
of the places that the expression can be in. The states are kept here as the lists of what is left
of the expression (`Expr.after`), and an embedding is named by its number in the order that Ragel
gives to the embeddings of the whole expression.

`emits_iff` says where an embedding is executed: at its `places`, a place being what was read before
it and what must be able to go on after it. `most` and `least` bound how often a letter occurs in
what was read. -/

open scoped Computability

namespace Tigerkin.Ragel

variable {σ : Type}

/-- Machines without embedded actions. -/
inductive Re (σ : Type) where
  | lambda
  | char (c : σ)
  | cls (p : σ → Bool)
  | cat (a b : Re σ)
  | alt (a b : Re σ)
  | star (a : Re σ)

namespace Re

def lang : Re σ → Language σ
  | lambda => 1
  | char c => {w | w = [c]}
  | cls p => {w | ∃ c, p c = true ∧ w = [c]}
  | cat a b => a.lang * b.lang
  | alt a b => a.lang + b.lang
  | star a => a.lang∗

variable [DecidableEq σ]

/-- The machine can go on with the letter, or end. -/
def goes : Re σ → Option σ → Bool
  | lambda, x => x.isNone
  | char c, x => x == some c
  | cls p, x => x.any p
  | cat a b, x => x.isSome && a.goes x || a.goes none && b.goes x
  | alt a b, x => a.goes x || b.goes x
  | star a, x => x.isNone || a.goes x

/-- What is left of the machine after a letter. -/
def steps (c : σ) : Re σ → List (Re σ)
  | lambda => []
  | char d => if c = d then [lambda] else []
  | cls p => if p c then [lambda] else []
  | cat a b => (a.steps c).map (cat · b) ++ if a.goes none then b.steps c else []
  | alt a b => a.steps c ++ b.steps c
  | star a => (a.steps c).map (cat · (star a))

def opt (a : Re σ) : Re σ := alt a lambda

def plus (a : Re σ) : Re σ := cat a (star a)

def seq (as : List (Re σ)) : Re σ := as.foldr cat lambda

def any : List (Re σ) → Re σ
  | [] => cls fun _ => false
  | [a] => a
  | a :: as => alt a (any as)

def rep (n : Nat) (a : Re σ) : Re σ := seq (List.replicate n a)

def between (m n : Nat) (a : Re σ) : Re σ :=
  seq (List.replicate m a ++ List.replicate (n - m) (opt a))

end Re

/-! ## Languages -/

section

variable {α β : Type} {l : List α} {P : β → Prop}

private theorem exists_mem_map {f : α → β} : (∃ y ∈ l.map f, P y) ↔ ∃ x ∈ l, P (f x) := by
  simp only [List.mem_map, exists_exists_and_eq_and]

private theorem exists_mem_flatMap {f : α → List β} :
    (∃ y ∈ l.flatMap f, P y) ↔ ∃ x ∈ l, ∃ y ∈ f x, P y := by
  simp only [List.mem_flatMap]
  exact ⟨fun ⟨y, ⟨x, hx, hy⟩, h⟩ => ⟨x, hx, y, hy, h⟩, fun ⟨x, hx, y, hy, h⟩ => ⟨y, ⟨x, hx, hy⟩, h⟩⟩

private theorem exists_mem_append {l l' : List β} :
    (∃ y ∈ l ++ l', P y) ↔ (∃ y ∈ l, P y) ∨ ∃ y ∈ l', P y := by
  simp only [List.mem_append, or_and_right, exists_or]

end

theorem mem_mul_nil {l m : Language σ} : [] ∈ l * m ↔ [] ∈ l ∧ [] ∈ m := by
  rw [Language.mem_mul]
  refine ⟨fun ⟨u, hu, v, hv, h⟩ => ?_, fun ⟨hu, hv⟩ => ⟨[], hu, [], hv, rfl⟩⟩
  obtain ⟨rfl, rfl⟩ := List.append_eq_nil_iff.mp h
  exact ⟨hu, hv⟩

theorem mem_mul_cons {l m : Language σ} {c : σ} {w : List σ} : c :: w ∈ l * m ↔
    (∃ u v, c :: u ∈ l ∧ v ∈ m ∧ u ++ v = w) ∨ [] ∈ l ∧ c :: w ∈ m := by
  rw [Language.mem_mul]
  refine ⟨fun ⟨u, hu, v, hv, h⟩ => ?_, ?_⟩
  · cases u with
    | nil =>
      cases h
      exact .inr ⟨hu, hv⟩
    | cons d u =>
      cases h
      exact .inl ⟨u, v, hu, hv, rfl⟩
  · rintro (⟨u, v, hu, hv, rfl⟩ | ⟨hu, hv⟩)
    · exact ⟨c :: u, hu, v, hv, rfl⟩
    · exact ⟨[], hu, c :: w, hv, rfl⟩

theorem mem_kstar_cons {l : Language σ} {c : σ} {w : List σ} : c :: w ∈ l∗ ↔
    ∃ u v, c :: u ∈ l ∧ v ∈ l∗ ∧ u ++ v = w := by
  constructor
  · rw [Language.mem_kstar_iff_exists_nonempty]
    rintro ⟨L, hw, hL⟩
    cases L with
    | nil => cases hw
    | cons x L =>
      obtain ⟨hx, hne⟩ := hL x (.head _)
      cases x with
      | nil => exact absurd rfl hne
      | cons d u =>
        cases hw
        exact ⟨u, L.flatten, hx, Language.join_mem_kstar fun y hy => (hL y (.tail _ hy)).1, rfl⟩
  · rintro ⟨u, v, hu, hv, rfl⟩
    rw [← Language.one_add_self_mul_kstar_eq_kstar]
    exact .inr (Language.append_mem_mul hu hv)

theorem count_append_le [DecidableEq σ] {l m : Language σ} {d : σ} {j k : Nat} {w : List σ}
    (hl : ∀ {u}, u ∈ l → u.count d ≤ j) (hm : ∀ {v}, v ∈ m → v.count d ≤ k) (h : w ∈ l * m) :
    w.count d ≤ j + k := by
  obtain ⟨u, hu, v, hv, rfl⟩ := h
  rw [List.count_append]
  exact Nat.add_le_add (hl hu) (hm hv)

namespace Re

variable [DecidableEq σ]

theorem goes_none {r : Re σ} : r.goes none = true ↔ [] ∈ r.lang := by
  induction r with
  | lambda => exact iff_of_true rfl rfl
  | char c => exact iff_of_false Bool.false_ne_true (List.cons_ne_nil c []).symm
  | cls p =>
    refine iff_of_false Bool.false_ne_true ?_
    rintro ⟨c, -, h⟩
    cases h
  | cat a b iha ihb =>
    rw [lang, mem_mul_nil, ← iha, ← ihb]
    simp [goes]
  | alt a b iha ihb =>
    rw [lang, Language.mem_add, ← iha, ← ihb]
    simp [goes]
  | star a => exact iff_of_true rfl (Language.nil_mem_kstar _)

theorem goes_some {r : Re σ} {c : σ} : r.goes (some c) = true ↔ r.steps c ≠ [] := by
  induction r with
  | lambda => simp [goes, steps]
  | char d => simp [goes, steps]
  | cls p => simp [goes, steps]
  | cat a b iha ihb =>
    rw [goes, steps]
    cases a.goes none <;> simp [iha, ihb, or_iff_not_imp_left]
  | alt a b iha ihb => simp [goes, steps, iha, ihb, or_iff_not_imp_left]
  | star a ih => simpa [goes, steps] using ih

omit [DecidableEq σ] in
theorem mem_lang_map_cat {rs : List (Re σ)} {b : Re σ} {w : List σ} :
    (∃ s ∈ rs.map (cat · b), w ∈ s.lang) ↔
      ∃ u v, (∃ s ∈ rs, u ∈ s.lang) ∧ v ∈ b.lang ∧ u ++ v = w := by
  rw [exists_mem_map]
  constructor
  · rintro ⟨s, hs, u, hu, v, hv, rfl⟩
    exact ⟨u, v, ⟨s, hs, hu⟩, hv, rfl⟩
  · rintro ⟨u, v, ⟨s, hs, hu⟩, hv, rfl⟩
    exact ⟨s, hs, u, hu, v, hv, rfl⟩

theorem mem_lang_cons {r : Re σ} {c : σ} {w : List σ} :
    c :: w ∈ r.lang ↔ ∃ s ∈ r.steps c, w ∈ s.lang := by
  induction r generalizing w with
  | lambda => exact iff_of_false (List.cons_ne_nil c w) (by simp [steps])
  | char d =>
    change c :: w = [d] ↔ _
    by_cases h : c = d <;> simp [steps, h, lang]
  | cls p =>
    change (∃ d, p d = true ∧ c :: w = [d]) ↔ _
    by_cases h : p c = true <;> simp [steps, h, lang]
  | cat a b iha ihb =>
    rw [lang, mem_mul_cons, ← goes_none, steps]
    have hright : (a.goes none = true ∧ c :: w ∈ b.lang) ↔
        ∃ s ∈ if a.goes none then b.steps c else [], w ∈ s.lang := by
      rw [ihb]
      split <;> simp [*]
    rw [hright, exists_mem_append, mem_lang_map_cat]
    simp only [iha]
  | alt a b iha ihb =>
    rw [lang, Language.mem_add, iha, ihb, steps, exists_mem_append]
  | star a ih =>
    rw [lang, mem_kstar_cons, steps, mem_lang_map_cat]
    simp only [ih, lang]

theorem goes_of_cons_mem {r : Re σ} {c : σ} {w : List σ} (h : c :: w ∈ r.lang) :
    r.goes (some c) = true := by
  obtain ⟨s, hs, -⟩ := mem_lang_cons.mp h
  exact goes_some.mpr (List.ne_nil_of_mem hs)

/-! How often a letter occurs in a word, at most (if there is a bound) and at least. -/

def most (d : σ) : Re σ → Option Nat
  | lambda => some 0
  | char c => some (if c = d then 1 else 0)
  | cls p => some (if p d then 1 else 0)
  | cat a b => (a.most d).bind fun m => (b.most d).map (m + ·)
  | alt a b => (a.most d).bind fun m => (b.most d).map (max m)
  | star a => if a.most d = some 0 then some 0 else none

def least (d : σ) : Re σ → Nat
  | lambda => 0
  | char c => if c = d then 1 else 0
  | cls _ => 0
  | cat a b => a.least d + b.least d
  | alt a b => min (a.least d) (b.least d)
  | star _ => 0

theorem count_le_most {r : Re σ} {d : σ} {k : Nat} {w : List σ} (hk : r.most d = some k)
    (h : w ∈ r.lang) : w.count d ≤ k := by
  induction r generalizing w k with
  | lambda =>
    cases h
    exact Nat.zero_le k
  | char c =>
    cases hk
    rw [show w = [c] from h, List.count_singleton]
    simp only [beq_iff_eq, le_refl]
  | cls p =>
    cases hk
    obtain ⟨c, hc, rfl⟩ := h
    rw [List.count_singleton]
    by_cases hcd : c = d
    · simp [← hcd, hc]
    · simp [hcd]
  | cat a b iha ihb =>
    obtain ⟨m, hm, hk⟩ := Option.bind_eq_some_iff.mp hk
    obtain ⟨l, hl, rfl⟩ := Option.map_eq_some_iff.mp hk
    exact count_append_le (fun h => iha hm h) (fun h => ihb hl h) h
  | alt a b iha ihb =>
    obtain ⟨m, hm, hk⟩ := Option.bind_eq_some_iff.mp hk
    obtain ⟨l, hl, rfl⟩ := Option.map_eq_some_iff.mp hk
    rcases h with h | h
    · exact (iha hm h).trans (Nat.le_max_left ..)
    · exact (ihb hl h).trans (Nat.le_max_right ..)
  | star a ih =>
    obtain ⟨hm, hk⟩ := Option.ite_none_right_eq_some.mp hk
    obtain ⟨L, rfl, hL⟩ := Language.mem_kstar.mp h
    have hzero : d ∉ L.flatten := by
      intro hd
      obtain ⟨u, hu, hd⟩ := List.mem_flatten.mp hd
      exact List.count_eq_zero.mp (Nat.le_zero.mp (ih hm (hL u hu))) hd
    rw [List.count_eq_zero.mpr hzero]
    exact Nat.zero_le k

theorem least_le_count {r : Re σ} {d : σ} {w : List σ} (h : w ∈ r.lang) :
    r.least d ≤ w.count d := by
  induction r generalizing w with
  | lambda => exact Nat.zero_le _
  | char c =>
    rw [show w = [c] from h, List.count_singleton]
    simp only [least, beq_iff_eq, le_refl]
  | cls p => exact Nat.zero_le _
  | cat a b iha ihb =>
    obtain ⟨u, hu, v, hv, rfl⟩ := h
    rw [List.count_append]
    exact Nat.add_le_add (iha hu) (ihb hv)
  | alt a b iha ihb =>
    rcases h with h | h
    · exact (Nat.min_le_left ..).trans (iha h)
    · exact (Nat.min_le_right ..).trans (ihb h)
  | star a => exact Nat.zero_le _

end Re

/-! ## Embeddings -/

/-- Expressions with embedded actions: `enter n a` is `a >action` and `leave n a` is `a %action`,
where the embedding of the action has the number `n`. -/
inductive Expr (σ : Type) where
  | plain (r : Re σ)
  | cat (a b : Expr σ)
  | alt (a b : Expr σ)
  | enter (n : Nat) (a : Expr σ)
  | leave (n : Nat) (a : Expr σ)

namespace Expr

def lang : Expr σ → Language σ
  | plain r => r.lang
  | cat a b => a.lang * b.lang
  | alt a b => a.lang + b.lang
  | enter _ a => a.lang
  | leave _ a => a.lang

def opt (a : Expr σ) : Expr σ := alt a (plain .lambda)

/-- The embeddings, as Ragel numbers them: at an expression first what is executed on entering it,
then what is inside, then what is executed on leaving it. -/
def numbers : Expr σ → List Nat
  | plain _ => []
  | cat a b => a.numbers ++ b.numbers
  | alt a b => a.numbers ++ b.numbers
  | enter n a => n :: a.numbers
  | leave n a => a.numbers ++ [n]

variable [DecidableEq σ]

def goes : Expr σ → Option σ → Bool
  | plain r, x => r.goes x
  | cat a b, x => x.isSome && a.goes x || a.goes none && b.goes x
  | alt a b, x => a.goes x || b.goes x
  | enter _ a, x => a.goes x
  | leave _ a, x => a.goes x

/-- The embeddings that are executed when the expression is left where it is: the leaving actions of
the final states. A start state that is final leaves with its entering actions. -/
def ends : Expr σ → List (List Nat)
  | plain r => if r.goes none then [[]] else []
  | cat a b => a.ends.flatMap fun o => b.ends.map (o ++ ·)
  | alt a b => a.ends ++ b.ends
  | enter n a => a.ends.map (n :: ·)
  | leave n a => a.ends.map (· ++ [n])

/-- The transitions on a letter, each with the embeddings on it. -/
def steps (c : σ) : Expr σ → List (List Nat × Expr σ)
  | plain r => (r.steps c).map fun s => ([], plain s)
  | cat a b => (a.steps c).map (fun t => (t.1, cat t.2 b)) ++
      a.ends.flatMap fun o => (b.steps c).map fun t => (o ++ t.1, t.2)
  | alt a b => a.steps c ++ b.steps c
  | enter n a => (a.steps c).map fun t => (n :: t.1, t.2)
  | leave n a => (a.steps c).map fun t => (t.1, leave n t.2)

/-- The embeddings on the transitions on a letter, or at the end of the input. -/
def moves (e : Expr σ) : Option σ → List (List Nat)
  | none => e.ends
  | some c => (e.steps c).map Prod.fst

/-- The threads after a word. -/
def after (e : Expr σ) : List σ → List (Expr σ)
  | [] => [e]
  | c :: w => (e.steps c).flatMap fun t => t.2.after w

def fired (e : Expr σ) (w : List σ) (x : Option σ) : List Nat :=
  (e.after w).flatMap fun y => (y.moves x).flatten

/-- After the word `w`, the embedding `n` is executed on `x`. -/
def Emits (n : Nat) (e : Expr σ) (w : List σ) (x : Option σ) : Prop := n ∈ e.fired w x

variable {a b e : Expr σ} {c : σ} {m n : Nat} {w : List σ} {x : Option σ}

theorem emits_nil : Emits n e [] x ↔ ∃ o ∈ e.moves x, n ∈ o := by
  simp [Emits, fired, after]

theorem emits_cons : Emits n e (c :: w) x ↔ ∃ t ∈ e.steps c, Emits n t.2 w x := by
  simp only [Emits, fired, after, List.flatMap_assoc, List.mem_flatMap]

theorem moves_alt : (alt a b).moves x = a.moves x ++ b.moves x := by
  cases x with
  | none => rfl
  | some c => simp [moves, steps]

theorem moves_cat : (cat a b).moves x = (if x.isSome then a.moves x else []) ++
    a.ends.flatMap fun o => (b.moves x).map (o ++ ·) := by
  cases x with
  | none => rfl
  | some c => simp [moves, steps, List.map_flatMap, Function.comp_def]

theorem moves_enter : (enter n a).moves x = (a.moves x).map (n :: ·) := by
  cases x with
  | none => rfl
  | some c => simp [moves, steps]

theorem goes_iff : e.goes x = true ↔ e.moves x ≠ [] := by
  induction e generalizing x with
  | plain r =>
    cases x with
    | none => simp [goes, moves, ends]
    | some c => simp [goes, moves, steps, Re.goes_some]
  | cat a b iha ihb =>
    have hends : a.goes none = true ↔ a.ends ≠ [] := iha
    have hpass : (a.ends.flatMap fun o => (b.moves x).map (o ++ ·)) ≠ [] ↔
        a.goes none = true ∧ b.goes x = true := by
      rw [hends, ihb]
      cases a.ends <;> cases b.moves x <;> simp
    rw [moves_cat, ne_eq, List.append_eq_nil_iff, not_and_or, ← ne_eq, ← ne_eq, hpass, goes]
    cases x <;> simp [iha]
  | alt a b iha ihb => simp [goes, moves_alt, iha, ihb, or_iff_not_imp_left]
  | enter n a ih => simp [goes, moves_enter, ih]
  | leave n a ih =>
    rw [goes, ih]
    cases x <;> simp [moves, ends, steps]

theorem goes_iff_exists : e.goes x = true ↔ ∃ o, o ∈ e.moves x := by
  rw [goes_iff, ne_eq, List.eq_nil_iff_forall_not_mem, not_forall_not]

theorem nil_mem_lang : [] ∈ e.lang ↔ e.goes none = true := by
  induction e with
  | plain r => exact Re.goes_none.symm
  | cat a b iha ihb =>
    rw [lang, mem_mul_nil, iha, ihb]
    simp [goes]
  | alt a b iha ihb =>
    rw [lang, Language.mem_add, iha, ihb]
    simp [goes]
  | enter n a ih => exact ih
  | leave n a ih => exact ih

theorem mem_lang_cons : c :: w ∈ e.lang ↔ ∃ t ∈ e.steps c, w ∈ t.2.lang := by
  induction e generalizing w with
  | plain r => rw [lang, Re.mem_lang_cons, steps, exists_mem_map]; rfl
  | cat a b iha ihb =>
    rw [lang, mem_mul_cons, nil_mem_lang, goes_iff_exists, ihb, steps, exists_mem_append,
      exists_mem_map, exists_mem_flatMap]
    simp only [iha, exists_mem_map]
    refine or_congr ⟨?_, ?_⟩ ?_
    · rintro ⟨u, v, ⟨t, ht, hu⟩, hv, rfl⟩
      exact ⟨t, ht, u, hu, v, hv, rfl⟩
    · rintro ⟨t, ht, u, hu, v, hv, rfl⟩
      exact ⟨u, v, ⟨t, ht, hu⟩, hv, rfl⟩
    · exact ⟨fun ⟨⟨o, ho⟩, h⟩ => ⟨o, ho, h⟩, fun ⟨o, ho, h⟩ => ⟨⟨o, ho⟩, h⟩⟩
  | alt a b iha ihb => rw [lang, Language.mem_add, iha, ihb, steps, exists_mem_append]
  | enter n a ih => rw [lang, ih, steps, exists_mem_map]
  | leave n a ih => rw [lang, ih, steps, exists_mem_map]; rfl

theorem goes_of_cons_mem (h : c :: w ∈ e.lang) : e.goes (some c) = true := by
  obtain ⟨t, ht, -⟩ := mem_lang_cons.mp h
  exact goes_iff_exists.mpr ⟨t.1, List.mem_map_of_mem ht⟩

/-! ## Where an embedding is executed -/

theorem not_emits_plain {r : Re σ} : ¬ Emits n (plain r) w x := by
  induction w generalizing r with
  | nil =>
    rw [emits_nil]
    cases x <;> simp [moves, ends, steps]
  | cons c w ih =>
    rw [emits_cons, steps, exists_mem_map]
    simp [ih]

theorem emits_alt : Emits n (alt a b) w x ↔ Emits n a w x ∨ Emits n b w x := by
  cases w with
  | nil => rw [emits_nil, emits_nil, emits_nil, moves_alt, exists_mem_append]
  | cons c w => rw [emits_cons, emits_cons, emits_cons, steps, exists_mem_append]

theorem emits_enter :
    Emits n (enter m a) w x ↔ (n = m ∧ w = [] ∧ a.goes x = true) ∨ Emits n a w x := by
  cases w with
  | nil =>
    rw [emits_nil, emits_nil, moves_enter, exists_mem_map, goes_iff_exists]
    simp only [List.mem_cons, and_or_left, exists_or]
    grind
  | cons c w =>
    rw [emits_cons, emits_cons, steps, exists_mem_map]
    simp

theorem emits_leave :
    Emits n (leave m a) w x ↔ (n = m ∧ x = none ∧ w ∈ a.lang) ∨ Emits n a w x := by
  induction w generalizing a with
  | nil =>
    rw [emits_nil, emits_nil, nil_mem_lang, goes_iff_exists]
    cases x with
    | none =>
      simp only [moves, ends, exists_mem_map, List.mem_append, List.mem_singleton]
      grind
    | some c => simp [moves, steps]
  | cons c w ih =>
    rw [emits_cons, emits_cons, steps, exists_mem_map, mem_lang_cons]
    simp only [ih]
    grind

/-- An action of the first part is executed inside it, or on leaving it by what the second part
starts with. -/
theorem emits_cat : Emits n (cat a b) w x ↔
    (x.isSome = true ∧ Emits n a w x ∨ Emits n a w none ∧ b.goes x = true) ∨
      ∃ u v, u ∈ a.lang ∧ Emits n b v x ∧ u ++ v = w := by
  induction w generalizing a with
  | nil =>
    have hnil : (∃ u v, u ∈ a.lang ∧ Emits n b v x ∧ u ++ v = []) ↔
        (∃ o, o ∈ a.ends) ∧ ∃ o ∈ b.moves x, n ∈ o := by
      rw [← emits_nil]
      simp [List.append_eq_nil_iff, nil_mem_lang, goes_iff_exists, moves]
    have hinside : (∃ o ∈ if x.isSome = true then a.moves x else [], n ∈ o) ↔
        x.isSome = true ∧ ∃ o ∈ a.moves x, n ∈ o := by
      cases x <;> simp
    rw [hnil, emits_nil, moves_cat, exists_mem_append, exists_mem_flatMap, hinside, emits_nil,
      emits_nil, goes_iff_exists, or_assoc]
    refine or_congr_right ?_
    simp only [exists_mem_map, List.mem_append, moves]
    grind
  | cons c w ih =>
    have hsplit : (∃ u v, u ∈ a.lang ∧ Emits n b v x ∧ u ++ v = c :: w) ↔
        ([] ∈ a.lang ∧ Emits n b (c :: w) x) ∨
          ∃ t ∈ a.steps c, ∃ u v, u ∈ t.2.lang ∧ Emits n b v x ∧ u ++ v = w := by
      constructor
      · rintro ⟨u, v, hu, hv, h⟩
        cases u with
        | nil =>
          cases h
          exact .inl ⟨hu, hv⟩
        | cons d u =>
          cases h
          obtain ⟨t, ht, hu⟩ := mem_lang_cons.mp hu
          exact .inr ⟨t, ht, u, v, hu, hv, rfl⟩
      · rintro (⟨hu, hv⟩ | ⟨t, ht, u, v, hu, hv, rfl⟩)
        · exact ⟨[], _, hu, hv, rfl⟩
        · exact ⟨c :: u, v, mem_lang_cons.mpr ⟨t, ht, hu⟩, hv, rfl⟩
    have hpass : (∃ o ∈ a.ends, ∃ t ∈ (b.steps c).map (fun t => (o ++ t.1, t.2)), Emits n t.2 w x) ↔
        [] ∈ a.lang ∧ Emits n b (c :: w) x := by
      rw [nil_mem_lang, goes_iff_exists, emits_cons]
      simp only [exists_mem_map]
      exact ⟨fun ⟨o, ho, h⟩ => ⟨⟨o, ho⟩, h⟩, fun ⟨⟨o, ho⟩, h⟩ => ⟨o, ho, h⟩⟩
    rw [hsplit, emits_cons, steps, exists_mem_append, exists_mem_map, exists_mem_flatMap, hpass,
      or_comm (a := [] ∈ a.lang ∧ _), ← or_assoc]
    refine or_congr_left ?_
    simp only [ih, emits_cons (e := a)]
    constructor
    · rintro ⟨t, ht, (⟨hx, h⟩ | ⟨h, hb⟩) | h⟩
      · exact .inl (.inl ⟨hx, t, ht, h⟩)
      · exact .inl (.inr ⟨⟨t, ht, h⟩, hb⟩)
      · exact .inr ⟨t, ht, h⟩
    · rintro ((⟨hx, t, ht, h⟩ | ⟨⟨t, ht, h⟩, hb⟩) | ⟨t, ht, h⟩)
      · exact ⟨t, ht, .inl (.inl ⟨hx, h⟩)⟩
      · exact ⟨t, ht, .inl (.inr ⟨h, hb⟩)⟩
      · exact ⟨t, ht, .inr h⟩

/-- Where the embedding `n` is: what is read before it, and what has to go on after it. -/
def places (n : Nat) : Expr σ → List (Expr σ × Expr σ)
  | plain _ => []
  | cat a b => (a.places n).map (fun t => (t.1, cat t.2 b)) ++
      (b.places n).map fun t => (cat a t.1, t.2)
  | alt a b => a.places n ++ b.places n
  | enter m a => (if n = m then [(plain .lambda, a)] else []) ++ a.places n
  | leave m a => (if n = m then [(a, plain .lambda)] else []) ++ a.places n

/-- **An embedding is executed at its places.** -/
theorem emits_iff : Emits n e w x ↔ ∃ t ∈ e.places n, w ∈ t.1.lang ∧ t.2.goes x = true := by
  induction e generalizing w x with
  | plain r =>
    simp [not_emits_plain, places]
  | cat a b iha ihb =>
    rw [emits_cat, places, exists_mem_append, exists_mem_map, exists_mem_map, iha, iha]
    refine or_congr ?_ ?_
    · simp only [goes, Bool.or_eq_true, Bool.and_eq_true]
      grind
    · simp only [ihb, lang, Language.mem_mul]
      constructor
      · rintro ⟨u, v, hu, ⟨t, ht, hv, hx⟩, rfl⟩
        exact ⟨t, ht, ⟨u, hu, v, hv, rfl⟩, hx⟩
      · rintro ⟨t, ht, ⟨u, hu, v, hv, rfl⟩, hx⟩
        exact ⟨u, v, hu, ⟨t, ht, hv, hx⟩, rfl⟩
  | alt a b iha ihb => rw [emits_alt, iha, ihb, places, exists_mem_append]
  | enter m a ih =>
    rw [emits_enter, ih, places, exists_mem_append]
    refine or_congr_left ?_
    split <;> simp [*, lang, Re.lang]
  | leave m a ih =>
    rw [emits_leave, ih, places, exists_mem_append]
    refine or_congr_left ?_
    split <;> simp [*, goes, Re.goes, and_comm]

/-! ## How often a letter is read -/

def most (d : σ) : Expr σ → Option Nat
  | plain r => r.most d
  | cat a b => (a.most d).bind fun m => (b.most d).map (m + ·)
  | alt a b => (a.most d).bind fun m => (b.most d).map (max m)
  | enter _ a => a.most d
  | leave _ a => a.most d

def least (d : σ) : Expr σ → Nat
  | plain r => r.least d
  | cat a b => a.least d + b.least d
  | alt a b => min (a.least d) (b.least d)
  | enter _ a => a.least d
  | leave _ a => a.least d

theorem count_le_most {d : σ} {k : Nat} (hk : e.most d = some k) (h : w ∈ e.lang) :
    w.count d ≤ k := by
  induction e generalizing w k with
  | plain r => exact Re.count_le_most hk h
  | cat a b iha ihb =>
    obtain ⟨m, hm, hk⟩ := Option.bind_eq_some_iff.mp hk
    obtain ⟨l, hl, rfl⟩ := Option.map_eq_some_iff.mp hk
    exact count_append_le (fun h => iha hm h) (fun h => ihb hl h) h
  | alt a b iha ihb =>
    obtain ⟨m, hm, hk⟩ := Option.bind_eq_some_iff.mp hk
    obtain ⟨l, hl, rfl⟩ := Option.map_eq_some_iff.mp hk
    rcases h with h | h
    · exact (iha hm h).trans (Nat.le_max_left ..)
    · exact (ihb hl h).trans (Nat.le_max_right ..)
  | enter n a ih => exact ih hk h
  | leave n a ih => exact ih hk h

theorem least_le_count {d : σ} (h : w ∈ e.lang) : e.least d ≤ w.count d := by
  induction e generalizing w with
  | plain r => exact Re.least_le_count h
  | cat a b iha ihb =>
    obtain ⟨u, hu, v, hv, rfl⟩ := h
    rw [List.count_append]
    exact Nat.add_le_add (iha hu) (ihb hv)
  | alt a b iha ihb =>
    rcases h with h | h
    · exact (Nat.min_le_left ..).trans (iha h)
    · exact (Nat.min_le_right ..).trans (ihb h)
  | enter n a ih => exact ih h
  | leave n a ih => exact ih h

end Expr

end Tigerkin.Ragel
