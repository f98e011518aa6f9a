import Tigerkin.Std.Ragel

/-! # Execution of a machine with embedded actions

A transition executes the actions of all threads that it moves, in the order of the embeddings and
without duplicates (`actions`); at the end of the input the leaving actions of the threads that can
end are executed. Whether an action fails may show in a view of the state (`Views.isSome_exec`). -/

namespace Tigerkin.Ragel

variable {σ : Type} [DecidableEq σ] {α τ : Type} [DecidableEq α]

/-- The actions of a transition: those of the embeddings that are fired, in the order of the
embeddings, where only the first appearance of an action is kept. `acts` lists the actions of all
embeddings. -/
def actions (acts : List α) (fired : List Nat) : List α :=
  ((acts.zipIdx.filter fun y => fired.contains y.2).map Prod.fst).eraseDups

theorem mem_actions {acts : List α} {fired : List Nat} {a : α} :
    a ∈ actions acts fired ↔ ∃ n ∈ fired, acts[n]? = some a := by
  simp only [actions, List.mem_eraseDups, List.mem_map, List.mem_filter, List.contains_iff_mem,
    List.mem_zipIdx_iff_getElem?]
  constructor
  · rintro ⟨y, ⟨hy, hn⟩, rfl⟩
    exact ⟨y.2, hn, hy⟩
  · rintro ⟨n, hn, ha⟩
    exact ⟨(a, n), ⟨ha, hn⟩, rfl⟩

/-- The actions of a transition are those of a set of embeddings. -/
theorem actions_congr {acts : List α} {fired fired' : List Nat}
    (h : ∀ n < acts.length, n ∈ fired ↔ n ∈ fired') : actions acts fired = actions acts fired' := by
  unfold actions
  congr 2
  refine List.filter_congr fun y hy => ?_
  have hlt : y.2 < acts.length := by simpa using List.snd_lt_of_mem_zipIdx hy
  rw [Bool.eq_iff_iff, List.contains_iff_mem, List.contains_iff_mem]
  exact h y.2 hlt

theorem actions_split {pre post : List α} {fired : List Nat} {a : α} (hn : pre.length ∈ fired)
    (ha : a ∉ actions pre fired) :
    ∃ l, actions (pre ++ a :: post) fired = actions pre fired ++ a :: l ∧ a ∉ l := by
  have hpre : a ∉ (pre.zipIdx.filter fun y => fired.contains y.2).map Prod.fst := by
    rwa [actions, List.mem_eraseDups] at ha
  unfold actions
  rw [List.zipIdx_append, List.filter_append, List.map_append, List.zipIdx_cons, Nat.zero_add,
    List.filter_cons_of_pos (by simpa using hn), List.map_cons, List.eraseDups_append,
    List.cons_removeAll, if_pos (by simpa using hpre), List.eraseDups_cons]
  exact ⟨_, rfl, by simp⟩

/-- The first embedding of an action that is executed. -/
theorem exists_first {acts : List α} {fired : List Nat} {a : α} (h : a ∈ actions acts fired) :
    ∃ pre post, acts = pre ++ a :: post ∧ pre.length ∈ fired ∧ a ∉ actions pre fired := by
  have hex : ∃ n, n ∈ fired ∧ acts[n]? = some a := mem_actions.mp h
  obtain ⟨n, ⟨hn, ha⟩, hmin⟩ : ∃ n, (n ∈ fired ∧ acts[n]? = some a) ∧
      ∀ m < n, ¬ (m ∈ fired ∧ acts[m]? = some a) :=
    ⟨Nat.find hex, Nat.find_spec hex, fun m hm => Nat.find_min hex hm⟩
  obtain ⟨hlt, rfl⟩ := List.getElem?_eq_some_iff.mp ha
  have hlength : (acts.take n).length = n := List.length_take_of_le hlt.le
  refine ⟨acts.take n, acts.drop (n + 1), ?_, ?_, ?_⟩
  · rw [← List.drop_eq_getElem_cons, List.take_append_drop]
  · rwa [hlength]
  · intro hmem
    obtain ⟨m, hm, hma⟩ := mem_actions.mp hmem
    have hmn : m < n := hlength ▸ (List.getElem?_eq_some_iff.mp hma).1
    rw [List.getElem?_take_of_lt hmn] at hma
    exact hmin m hmn ⟨hm, hma⟩

variable (acts : List α) (act : Nat → τ → α → Option τ)

/-- The machine reads a word from the position `p` on, with the threads `ms`. The actions can fail.
Without a thread that goes on it is in the error state; it accepts if a thread can end, after the
actions at the end of the input. -/
def exec : List (Expr σ) → Nat → τ → List σ → Option (Option τ)
  | ms, p, st, [] =>
    let os := ms.flatMap Expr.ends
    if os.isEmpty then some none
    else ((actions acts os.flatten).foldlM (act p) st).map some
  | ms, p, st, c :: w =>
    let ts := ms.flatMap (Expr.steps c)
    if ts.isEmpty then some none
    else ((actions acts (ts.flatMap Prod.fst)).foldlM (act p) st).bind fun st =>
      exec (ts.map Prod.snd) (p + 1) st w

/-- What the actions on the letters `w` after `u` make of the state. -/
def run (e : Expr σ) (st : τ) (u : List σ) : List σ → Option τ
  | [] => some st
  | c :: w => ((actions acts (e.fired u (some c))).foldlM (act u.length) st).bind fun st =>
      run e st (u ++ [c]) w

variable {acts act} {e : Expr σ} {st : τ} {u : List σ}

theorem run_append (v w : List σ) : run acts act e st u (v ++ w) =
    (run acts act e st u v).bind fun st => run acts act e st (u ++ v) w := by
  induction v generalizing st u with
  | nil => simp [run]
  | cons c v ih => simp [run, ih, Option.bind_assoc]

theorem after_concat (e : Expr σ) (u : List σ) (c : σ) :
    e.after (u ++ [c]) = ((e.after u).flatMap (Expr.steps c)).map Prod.snd := by
  induction u generalizing e with
  | nil => simp [Expr.after, List.map_eq_flatMap]
  | cons d u ih => simp [Expr.after, ih, List.map_flatMap, List.flatMap_assoc]

theorem after_eq_nil_append (h : e.after u = []) (v : List σ) : e.after (u ++ v) = [] := by
  induction v generalizing u with
  | nil => simpa using h
  | cons c v ih =>
    have hc : e.after (u ++ [c]) = [] := by rw [after_concat, h]; rfl
    simpa using ih hc

theorem fired_none (e : Expr σ) (u : List σ) :
    e.fired u none = ((e.after u).flatMap Expr.ends).flatten := by
  rw [Expr.fired, List.flatMap_def, List.flatMap_def, List.flatten_flatten, List.map_map]
  rfl

theorem fired_some (e : Expr σ) (u : List σ) (c : σ) :
    e.fired u (some c) = ((e.after u).flatMap (Expr.steps c)).flatMap Prod.fst := by
  rw [List.flatMap_assoc, Expr.fired]
  rfl

theorem actions_nil (acts : List α) : actions acts [] = [] := by
  simp [actions]

theorem run_of_after_eq_nil (h : e.after u = []) (w : List σ) :
    run acts act e st u w = some st := by
  induction w generalizing u with
  | nil => rfl
  | cons c w ih =>
    have hfired : e.fired u (some c) = [] := by rw [fired_some, h]; rfl
    rw [run, hfired, actions_nil]
    exact ih (after_eq_nil_append h [c])

/-- The machine fails just if an action on a letter or at the end does. -/
theorem isSome_exec (w : List σ) : (exec acts act (e.after u) u.length st w).isSome =
    ((run acts act e st u w).bind fun st =>
      (actions acts (e.fired (u ++ w) none)).foldlM (act (u ++ w).length) st).isSome := by
  induction w generalizing u st with
  | nil =>
    rw [exec, run, Option.bind_some, List.append_nil, fired_none]
    split
    · rename_i h
      rw [List.isEmpty_iff.mp h]
      simp [actions_nil]
    · rw [Option.isSome_map]
  | cons c w ih =>
    rw [exec, run, fired_some]
    split
    · rename_i h
      have hafter : e.after (u ++ [c]) = [] := by
        rw [after_concat, List.isEmpty_iff.mp h]
        rfl
      have hend : e.fired (u ++ c :: w) none = [] := by
        rw [fired_none, List.append_cons, after_eq_nil_append hafter]
        rfl
      rw [List.isEmpty_iff.mp h, hend]
      simp [actions_nil, run_of_after_eq_nil hafter]
    · cases List.foldlM (act u.length) st (actions acts
        (((e.after u).flatMap (Expr.steps c)).flatMap Prod.fst)) with
      | none => rfl
      | some st' =>
        have h := @ih st' (u ++ [c])
        rwa [after_concat, List.length_append, ← List.append_cons] at h

/-- What the machine makes of a word is what the actions make of it, and those at its end, if a
thread can end there. -/
theorem exec_eq (w : List σ) : exec acts act (e.after u) u.length st w =
    (run acts act e st u w).bind fun st =>
      if ((e.after (u ++ w)).flatMap Expr.ends).isEmpty then some none
      else ((actions acts (e.fired (u ++ w) none)).foldlM (act (u ++ w).length) st).map some := by
  induction w generalizing u st with
  | nil => rw [exec, run, Option.bind_some, List.append_nil, fired_none]
  | cons c w ih =>
    rw [exec, run, fired_some]
    split
    · rename_i h
      have hafter : e.after (u ++ [c]) = [] := by
        rw [after_concat, List.isEmpty_iff.mp h]
        rfl
      have hend : e.after (u ++ c :: w) = [] := by
        rw [List.append_cons, after_eq_nil_append hafter]
      rw [List.isEmpty_iff.mp h, hend]
      simp [actions_nil, run_of_after_eq_nil hafter]
    · rw [Option.bind_assoc]
      refine congrArg _ (funext fun st' => ?_)
      have h := @ih st' (u ++ [c])
      rwa [after_concat, List.length_append, ← List.append_cons] at h

/-! ## What the actions do to a view of the state -/

variable {τ' : Type} {f : τ → τ'} {act' : τ' → α → Option τ'} {I : Nat → τ → Prop}

/-- On the states with `I`, the actions do to the view `f` of the state what `act'` says. -/
structure Views (act : Nat → τ → α → Option τ) (act' : τ' → α → Option τ') (f : τ → τ')
    (I : Nat → τ → Prop) : Prop where
  step : ∀ {p st a}, I p st → (act p st a).map f = act' (f st) a
  keep : ∀ {p st a st'}, I p st → act p st a = some st' → I p st'
  next : ∀ {p st}, I p st → I (p + 1) st

omit [DecidableEq α] in
theorem Views.foldlM (V : Views act act' f I) {p : Nat} (h : I p st) (l : List α) :
    (l.foldlM (act p) st).map f = l.foldlM act' (f st) ∧
      ∀ st', l.foldlM (act p) st = some st' → I p st' := by
  induction l generalizing st with
  | nil =>
    refine ⟨rfl, fun st' hst => ?_⟩
    cases hst
    exact h
  | cons a l ih =>
    rw [List.foldlM_cons, List.foldlM_cons, ← V.step h]
    cases hst : act p st a with
    | none => exact ⟨rfl, fun st' hst => nomatch hst⟩
    | some st' => exact ih (V.keep h hst)

theorem Views.run (V : Views act act' f I) (h : I u.length st) (w : List σ) :
    (run acts act e st u w).map f = run acts (fun _ => act') e (f st) u w ∧
      ∀ st', run acts act e st u w = some st' → I (u ++ w).length st' := by
  induction w generalizing st u with
  | nil =>
    refine ⟨rfl, fun st' hst => ?_⟩
    cases hst
    rwa [List.append_nil]
  | cons c w ih =>
    obtain ⟨hmap, hkeep⟩ := V.foldlM h (actions acts (e.fired u (some c)))
    rw [Ragel.run, Ragel.run, ← hmap]
    cases hst : (actions acts (e.fired u (some c))).foldlM (act u.length) st with
    | none => exact ⟨rfl, fun st' hst => nomatch hst⟩
    | some st' =>
      have hnext : I (u ++ [c]).length st' := by
        rw [List.length_append]
        exact V.next (hkeep st' hst)
      have hrest := ih hnext
      rwa [← List.append_cons] at hrest

/-- **Whether the machine fails shows in a view** that says which actions fail. -/
theorem Views.isSome_exec (V : Views act act' f I) (h : I 0 st) (w : List σ) :
    (exec acts act [e] 0 st w).isSome = ((Ragel.run acts (fun _ => act') e (f st) [] w).bind
      fun st => (actions acts (e.fired w none)).foldlM act' st).isSome := by
  obtain ⟨hmap, hkeep⟩ : (Ragel.run acts act e st [] w).map f =
      Ragel.run acts (fun _ => act') e (f st) [] w ∧
      ∀ st', Ragel.run acts act e st [] w = some st' → I w.length st' := V.run (u := []) h w
  refine (Ragel.isSome_exec (u := []) w).trans ?_
  rw [← hmap]
  cases hst : Ragel.run acts act e st [] w with
  | none => rfl
  | some st' =>
    have hend := V.foldlM (hkeep st' hst) (actions acts (e.fired w none))
    rw [Option.bind_some, Option.map_some, Option.bind_some, ← hend.1, Option.isSome_map]
    rfl

end Tigerkin.Ragel
