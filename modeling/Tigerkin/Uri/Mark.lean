import Tigerkin.Uri.Places

/-! # The mark of the parser

All components of a URI share one mark. `marked` is what an action does to it, where `true` says
that it is set; an action fails if it needs the mark and the mark is null. -/

namespace Tigerkin.UriParser

open Ragel

variable {n : Nat} {u v w : List UInt8} {c d : UInt8} {x : Option UInt8} {b : Bool} {a : Action}
  {l : List Action}

/-! ## Actions -/

def Action.isMark : Action → Bool
  | .marku | .markh => true
  | _ => false

/-- The actions that need the mark. -/
def Action.needs : Action → Bool
  | .marku | .markh | .saveHost | .saveUserinfo => false
  | _ => true

/-- The actions that reset the mark. -/
def Action.isNull : Action → Bool
  | .marku | .markh | .saveHost => false
  | _ => true

def marked (b : Bool) (a : Action) : Option Bool :=
  if a.isMark then some true
  else if a.needs && !b then none
  else some (b && !a.isNull)

/-- The mark points into what was read. -/
def MarkLe (p : Nat) (st : State) : Prop := ∀ i, st.mark = some i → i ≤ p

theorem execAction_mark {s : List UInt8} {p : Nat} {st st' : State}
    (h : execAction s p st a = some st') :
    st'.mark = none ∨ st'.mark = st.mark ∨ st'.mark = some p := by
  unfold execAction at h
  split at h
  case h_1 | h_2 =>
    cases h
    exact .inr (.inr rfl)
  case h_4 =>
    split at h
    · cases h
      exact .inl rfl
    · obtain ⟨v, -, rfl⟩ := Option.map_eq_some_iff.mp h
      exact .inl rfl
  case h_5 | h_6 =>
    split at h
    · obtain ⟨v, -, rfl⟩ := Option.map_eq_some_iff.mp h
      simp
    · cases h
      exact .inr (.inl rfl)
  all_goals
    obtain ⟨v, -, rfl⟩ := Option.map_eq_some_iff.mp h
    exact .inl rfl

theorem views (s : List UInt8) :
    Views (execAction s) marked (fun st => st.mark.isSome) MarkLe where
  step {p st a} h := by
    obtain ⟨mark, uri⟩ := st
    cases mark with
    | none => cases a <;> rfl
    | some i =>
      have hi : i ≤ p := h i rfl
      cases a with
      | savePort =>
        simp only [execAction, atoi]
        split <;> rfl
      | _ => simp [execAction, string, marked, hi, Action.isMark, Action.needs, Action.isNull]
  keep h hst i hi := by
    rcases execAction_mark hst with hmark | hmark | hmark
    · rw [hmark] at hi
      cases hi
    · exact h i (hmark ▸ hi)
    · rw [hmark] at hi
      cases hi
      exact le_rfl
  next h i hi := Nat.le_succ_of_le (h i hi)

theorem foldlM_of_not_needs (h : ∀ a ∈ l, a.needs = false) : (l.foldlM marked b).isSome = true := by
  induction l generalizing b with
  | nil => rfl
  | cons a l ih =>
    have hrest := fun b => @ih b fun a ha => h a (.tail _ ha)
    rw [List.foldlM_cons, marked, h a (.head _)]
    split
    · exact hrest true
    · exact hrest _

/-- Without an action that resets it, the mark stays set. -/
theorem foldlM_of_not_null (h : ∀ a ∈ l, a.isNull = false) :
    l.foldlM marked b = some (b || l.any Action.isMark) := by
  induction l generalizing b with
  | nil => simp
  | cons a l ih =>
    have hrest := fun b => @ih b fun a ha => h a (.tail _ ha)
    have hneeds : a.needs = false := by
      have ha := h a (.head _)
      cases a <;> first | rfl | cases ha
    rw [List.foldlM_cons, marked, h a (.head _), hneeds]
    cases hmark : a.isMark <;> simp [hrest, hmark]

/-- Without an action that sets it, a null mark is found out by the actions that need it. -/
theorem foldlM_of_not_mark (h : ∀ a ∈ l, a.isMark = false) (hneeds : ∃ a ∈ l, a.needs = true) :
    l.foldlM marked false = none := by
  induction l with
  | nil =>
    obtain ⟨a, ha, -⟩ := hneeds
    cases ha
  | cons a l ih =>
    rw [List.foldlM_cons, marked, h a (.head _)]
    cases ha : a.needs with
    | true => rfl
    | false =>
      have hrest : ∃ a ∈ l, a.needs = true := by
        obtain ⟨a', ha', hn⟩ := hneeds
        rcases List.mem_cons.mp ha' with rfl | ha'
        · rw [ha] at hn
          cases hn
        · exact ⟨a', ha', hn⟩
      exact ih (fun a ha => h a (.tail _ ha)) hrest

/-! ## Transitions -/

/-- What the actions on `x` after `w` do to the mark. -/
def turn (w : List UInt8) (x : Option UInt8) (b : Bool) : Option Bool :=
  (actions acts (main.fired w x)).foldlM marked b

/-- What the actions on the letters of `w` do to the mark. -/
def markRun (w : List UInt8) : Option Bool :=
  run acts (fun _ => marked) main false [] w

theorem isSome_create (s : List UInt8) :
    (create s).isSome = ((markRun s).bind (turn s none)).isSome := by
  rw [create, Option.isSome_map]
  exact (views s).isSome_exec (fun i hi => by cases hi) s

theorem markRun_concat : markRun (w ++ [c]) = (markRun w).bind (turn w (some c)) := by
  rw [markRun, run_append]
  refine congrArg _ (funext fun b => ?_)
  simp [run, turn]

def marks : List Nat := [0, 2, 4, 6, 8, 10, 12, 14, 16, 18, 20, 22]

theorem nulls_mem (h : acts[n]? = some a) (ha : a.isNull = true) : n ∈ nulls := by
  have hall : ∀ n, ∀ hn : n < acts.length, acts[n].isNull = true → n ∈ nulls := by decide
  obtain ⟨hn, rfl⟩ := List.getElem?_eq_some_iff.mp h
  exact hall n hn ha

theorem marks_mem (h : acts[n]? = some a) : a.isMark = true ↔ n ∈ marks := by
  have hall : ∀ n, ∀ hn : n < acts.length, acts[n].isMark = true ↔ n ∈ marks := by decide
  obtain ⟨hn, rfl⟩ := List.getElem?_eq_some_iff.mp h
  exact hall n hn

theorem exists_getElem_of_marks (h : n ∈ marks) : ∃ a, acts[n]? = some a ∧ a.isMark = true := by
  have hlt : ∀ n ∈ marks, n < acts.length := by decide
  have hget : acts[n]? = some (acts.get ⟨n, hlt n h⟩) := List.getElem?_eq_getElem (hlt n h)
  exact ⟨_, hget, (marks_mem hget).mpr h⟩

theorem mem_actions_iff : a ∈ actions acts (main.fired w x) ↔
    ∃ n, main.Emits n w x ∧ acts[n]? = some a := mem_actions

/-- Nothing that resets the mark is executed on `x` after `w`. -/
def Quiet (w : List UInt8) (x : Option UInt8) : Prop := ∀ n ∈ nulls, ¬ main.Emits n w x

theorem Quiet.isNull_eq (h : Quiet w x) (ha : a ∈ actions acts (main.fired w x)) :
    a.isNull = false := by
  obtain ⟨n, hn, hacts⟩ := mem_actions_iff.mp ha
  exact Bool.eq_false_iff.mpr fun hnull => h n (nulls_mem hacts hnull) hn

theorem any_isMark_iff : (actions acts (main.fired w x)).any Action.isMark = true ↔
    ∃ n ∈ marks, main.Emits n w x := by
  rw [List.any_eq_true]
  constructor
  · rintro ⟨a, ha, hmark⟩
    obtain ⟨n, hn, hacts⟩ := mem_actions_iff.mp ha
    exact ⟨n, (marks_mem hacts).mp hmark, hn⟩
  · rintro ⟨n, hn, hemits⟩
    obtain ⟨a, hacts, hmark⟩ := exists_getElem_of_marks hn
    exact ⟨a, mem_actions_iff.mpr ⟨n, hemits, hacts⟩, hmark⟩

theorem Quiet.turn_eq (h : Quiet w x) :
    turn w x b = some (b || (actions acts (main.fired w x)).any Action.isMark) :=
  foldlM_of_not_null fun _ ha => h.isNull_eq ha

theorem Quiet.turn_true (h : Quiet w x) : turn w x true = some true := h.turn_eq

theorem Quiet.turn_of_mark (h : Quiet w x) (hn : n ∈ marks) (he : main.Emits n w x) :
    turn w x b = some true := by
  rw [h.turn_eq, any_isMark_iff.mpr ⟨n, hn, he⟩, Bool.or_true]

theorem Quiet.turn_of_not_mark (h : Quiet w x) (hmark : ∀ n ∈ marks, ¬ main.Emits n w x) :
    turn w x b = some b := by
  have hany : (actions acts (main.fired w x)).any Action.isMark = false :=
    Bool.eq_false_iff.mpr fun hany => by
      obtain ⟨n, hn, he⟩ := any_isMark_iff.mp hany
      exact hmark n hn he
  rw [h.turn_eq, hany, Bool.or_false]

/-- An action that resets the mark can fail only if nothing sets the mark before it. -/
theorem isSome_turn (hnull : ∀ n ∈ nulls, main.Emits n w x → acts[n]? = some a)
    (hmark : b = true ∨ ∀ n ∈ nulls, main.Emits n w x → ∃ m ∈ marks, m < n ∧ main.Emits m w x) :
    (turn w x b).isSome = true := by
  by_cases hquiet : Quiet w x
  · rw [hquiet.turn_eq]
    rfl
  · simp only [Quiet, not_forall, not_not] at hquiet
    obtain ⟨n, hn, he⟩ := hquiet
    have ha : a.isNull = true := by
      have hall : ∀ n ∈ nulls, ∀ a, acts[n]? = some a → a.isNull = true := by decide
      exact hall n hn a (hnull n hn he)
    have honly : ∀ a' ∈ actions acts (main.fired w x), a'.isNull = true → a' = a := by
      intro a' ha' hn'
      obtain ⟨k, hk, hacts⟩ := mem_actions_iff.mp ha'
      exact Option.some.inj (hacts.symm.trans (hnull k (nulls_mem hacts hn') hk))
    obtain ⟨pre, post, hsplit, hfired, hpre⟩ := exists_first
      (mem_actions_iff.mpr ⟨n, he, hnull n hn he⟩)
    obtain ⟨rest, hactions, hrest⟩ := actions_split hfired hpre
    have hacts : acts[pre.length]? = some a := by
      rw [hsplit, List.getElem?_append_right le_rfl, Nat.sub_self, List.getElem?_cons_zero]
    rw [hsplit, hactions] at honly
    have hbefore : ∀ a' ∈ actions pre (main.fired w x), a'.isNull = false := fun a' ha' =>
      Bool.eq_false_iff.mpr fun hn' =>
        hpre (honly a' (List.mem_append_left _ ha') hn' ▸ ha')
    have hafter : ∀ a' ∈ rest, a'.isNull = false := fun a' ha' =>
      Bool.eq_false_iff.mpr fun hn' =>
        hrest (honly a' (List.mem_append_right _ (.tail _ ha')) hn' ▸ ha')
    have hset : (b || (actions pre (main.fired w x)).any Action.isMark) = true := by
      rcases hmark with rfl | hmark
      · rfl
      · obtain ⟨m, hm, hlt, hem⟩ := hmark pre.length (nulls_mem hacts ha) hfired
        obtain ⟨a', hacts', hmark'⟩ := exists_getElem_of_marks hm
        rw [hsplit, List.getElem?_append_left hlt] at hacts'
        rw [List.any_eq_true.mpr ⟨a', mem_actions.mpr ⟨m, hem, hacts'⟩, hmark'⟩, Bool.or_true]
    have hmarked : marked true a = some (a.isMark || !a.isNull) := by
      cases a <;> rfl
    rw [turn, hsplit, hactions, List.foldlM_append, foldlM_of_not_null hbefore, hset]
    change ((marked true a).bind fun b => rest.foldlM marked b).isSome = true
    rw [hmarked, Option.bind_some, foldlM_of_not_null hafter]
    rfl

/-! ## Inside a component -/

def delims : List UInt8 := [byte ':', byte '@', byte '/', byte '?', byte '#']

theorem emits_null (hn : n ∈ nulls) :
    main.Emits n w x ↔ w ∈ (place n).1.lang ∧ x ∈ follows n := by
  have hlt : ∀ n ∈ nulls, n < acts.length := by decide
  rw [emits_iff (hlt n hn), goes_null hn]

theorem quiet_of_notMem (hc : c ∉ delims) : Quiet w (some c) := by
  have hall : ∀ n ∈ nulls, ∀ x ∈ follows n, x ∈ none :: delims.map some := by
    simp [nulls, follows, delims]
  intro n hn he
  have hmem := hall n hn _ ((emits_null hn).mp he).2
  simp only [List.mem_cons, reduceCtorEq, false_or, List.mem_map, Option.some.injEq,
    exists_eq_right] at hmem
  exact hc hmem

theorem quiet_of_slashes (hw : 3 ≤ w.count (byte '/')) (hc : c ≠ byte '?') (hc' : c ≠ byte '#') :
    Quiet w (some c) := by
  have hall : ∀ n ∈ nulls, n ∈ [0, 1] ∨ n ∈ beforePath ∨
      ∀ x ∈ follows n, x ∈ [some (byte '?'), some (byte '#'), none] := by
    simp [nulls, beforePath, follows]
  intro n hn he
  obtain ⟨hmem, hx⟩ := (emits_null hn).mp he
  rcases hall n hn with h | h | h
  · have := List.count_eq_zero.mpr (slash_notMem h hmem)
    omega
  · have := count_slash h hmem
    omega
  · simpa [hc, hc'] using h _ hx

theorem quiet_of_question (hw : byte '?' ∈ w) (hc : c ≠ byte '#') : Quiet w (some c) := by
  have hall : ∀ n ∈ nulls, n ∈ beforeQuery ∨ ∀ x ∈ follows n, x ∈ [some (byte '#'), none] := by
    simp [nulls, beforeQuery, follows]
  intro n hn he
  obtain ⟨hmem, hx⟩ := (emits_null hn).mp he
  rcases hall n hn with h | h
  · exact question_notMem h hmem hw
  · simpa [hc] using h _ hx

theorem quiet_of_hash (hw : byte '#' ∈ w) : Quiet w (some c) := by
  have hall : ∀ n ∈ nulls, n ∈ beforeFragment ∨ ∀ x ∈ follows n, x ∈ [none] := by
    simp [nulls, beforeFragment, beforeQuery, follows]
  intro n hn he
  obtain ⟨hmem, hx⟩ := (emits_null hn).mp he
  rcases hall n hn with h | h
  · exact hash_notMem h hmem hw
  · simpa using h _ hx

theorem notMem_component {r : Re UInt8} (h : r.most d = some 0) (hw : w ∈ r.lang) : d ∉ w :=
  notMem_of_most (e := .plain r) h hw

theorem path_head (h : d :: w ∈ pathAbempty.lang) : d = byte '/' := by
  simpa using (goes_pathAbempty _).mp (Re.goes_of_cons_mem h)

/-- Nothing resets the mark while a component is read, except where the path begins. -/
theorem quiet_inside (hn : n ∈ opens) (hu : u ∈ (place n).1.lang)
    (hv : v ++ c :: w ∈ (component n).lang) (hpath : n = 8 → v ≠ []) :
    Quiet (u ++ v) (some c) := by
  have hc : ∀ {d}, (component n).most d = some 0 → c ≠ d := fun hd hcd =>
    notMem_component hd hv (hcd ▸ by simp)
  have hcases : ∀ n ∈ opens, n ∈ [0, 6, 18] ∨ n = 8 ∨ n ∈ [10, 20] ∨ n ∈ [12, 22] := by
    decide
  rcases hcases n hn with h | rfl | h | h
  · have hmost : ∀ n ∈ [0, 6, 18], ∀ d ∈ delims, (component n).most d = some 0 := by
      simp [component, scheme, port, delims, Re.most, alpha, digit, oneOf, range, byte]
    exact quiet_of_notMem fun hd => hc (hmost n h c hd) rfl
  · cases v with
    | nil => exact absurd rfl (hpath rfl)
    | cons d v =>
      have hcount := count_slash (n := 8) (by decide) hu
      rw [path_head hv]
      refine quiet_of_slashes ?_ (hc (by decide)) (hc (by decide))
      rw [List.count_append, List.count_cons_self, hcount]
      omega
  · have hmem : ∀ n ∈ [10, 20], n ∈ [10, 11, 20, 21] := by decide
    have hmost : ∀ n ∈ [10, 20], (component n).most (byte '#') = some 0 := by decide
    exact quiet_of_question (List.mem_append_left _ (question_mem (hmem n h) hu)) (hc (hmost n h))
  · have hmem : ∀ n ∈ [12, 22], n ∈ [12, 13, 22, 23] := by decide
    exact quiet_of_hash (List.mem_append_left _ (hash_mem (hmem n h) hu))

/-- The mark after a component, from the mark after its first letter. -/
theorem markRun_const {b' : Bool} (hstart : ∀ b, markRun (u ++ [d]) = some b → b = b')
    (hkeep : ∀ v₁ c v₂, v = v₁ ++ c :: v₂ → turn (u ++ d :: v₁) (some c) b' = some b')
    (hrun : markRun (u ++ d :: v) = some b) : b = b' := by
  induction v using List.reverseRecOn generalizing b with
  | nil => exact hstart b hrun
  | append_singleton v c ih =>
    rw [← List.cons_append, ← List.append_assoc, markRun_concat] at hrun
    obtain ⟨b₁, hb₁, hturn⟩ := Option.bind_eq_some_iff.mp hrun
    have hb := ih (fun v₁ c' v₂ h => hkeep v₁ c' (v₂ ++ [c]) (by simp [h])) hb₁
    rw [hb, hkeep v c [] rfl] at hturn
    exact (Option.some.inj hturn).symm

/-- When a component is saved, the mark is set or the component is empty and is entered now. -/
theorem mark_of_save (hn : n ∈ opens) (hn8 : n ≠ 8) (he : main.Emits (n + 1) w x)
    (hrun : markRun w = some b) : b = true ∨ main.Emits n w x := by
  have hnull : ∀ n ∈ opens, n + 1 ∈ nulls := by decide
  have hlt : ∀ n ∈ opens, n < acts.length := by decide
  have hmarks : ∀ n ∈ opens, n ∈ marks := by decide
  obtain ⟨hmem, hx⟩ := (emits_null (hnull n hn)).mp he
  rw [lang_save n hn] at hmem
  obtain ⟨u, hu, v, hv, rfl⟩ := Language.mem_mul.mp hmem
  cases v with
  | nil =>
    refine .inr ((emits_iff (hlt n hn)).mpr ⟨by rwa [List.append_nil], ?_⟩)
    exact goes_open hn hx (Re.goes_none.mpr hv)
  | cons d v =>
    refine .inl (markRun_const (fun b hb => ?_) (fun v₁ c v₂ h => ?_) hrun)
    · rw [markRun_concat] at hb
      obtain ⟨b₁, -, hturn⟩ := Option.bind_eq_some_iff.mp hb
      have hquiet := quiet_inside (v := []) hn hu hv (fun h => absurd h hn8)
      have hgoes := goes_component hn (Re.goes_of_cons_mem hv)
      have hopen := (emits_iff (hlt n hn)).mpr ⟨hu, hgoes⟩
      rw [List.append_nil] at hquiet
      rw [hquiet.turn_of_mark (hmarks n hn) hopen] at hturn
      exact (Option.some.inj hturn).symm
    · rw [h] at hv
      exact (quiet_inside (v := d :: v₁) hn hu hv (fun _ => List.cons_ne_nil d v₁)).turn_true

end Tigerkin.UriParser
