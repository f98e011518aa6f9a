import Mathlib.Data.List.Sublists
import Tigerkin.Uri.Mark

/-! # Parsing is total but for empty ports

The one transition on which the mark is reset and not set again is the one that leaves an authority
with an empty port: the mark of the path is a duplicate of the mark of the port there, which is
executed before the port is saved (`turn_leave`). -/

namespace Tigerkin.UriParser

open Ragel

variable {n : Nat} {u v w : List UInt8} {c d : UInt8} {x : Option UInt8} {b : Bool}

/-! ## Leaving the authority -/

/-- What an authority ends with. -/
def leaves : List (Option UInt8) := [some (byte '/'), some (byte '?'), some (byte '#'), none]

/-- Only the actions of the authority and of its path are executed where it ends. -/
theorem mem_of_leave (hu : u ∈ (place 8).1.lang) (hx : x ∈ leaves) (he : main.Emits n u x)
    (hn : n < acts.length) : n ∈ [2, 4, 5, 6, 7, 8, 9] := by
  have hcases : ∀ n < acts.length, n ∈ [2, 4, 5, 6, 7, 8, 9] ∨ n ∈ [0, 1] ∨ n = 3 ∨
      n ∈ [10, 11, 20, 21] ∨ n ∈ [12, 13, 22, 23] ∨ n ∈ [14, 15, 16, 17, 18, 19] := by
    decide
  have hcount := count_slash (n := 8) (by decide) hu
  obtain ⟨hmem, hgoes⟩ := (emits_iff hn).mp he
  rcases hcases n hn with h | h | rfl | h | h | h
  · exact h
  · rw [List.count_eq_zero.mpr (slash_notMem h hmem)] at hcount
    cases hcount
  · have hfollows : ∀ x ∈ leaves, x ∉ follows 3 := by simp [leaves, follows, byte]
    exact absurd ((emits_null (by decide)).mp he).2 (hfollows x hx)
  · exact absurd (question_mem h hmem) (question_notMem (n := 8) (by decide) hu)
  · exact absurd (hash_mem h hmem) (hash_notMem (n := 8) (by decide) hu)
  · have hrelative : ∀ n ∈ [14, 15, 16, 17, 18, 19], ∀ c, (place n).1.goes (some c) = true →
        c = byte '/' := by
      simp [place, main, uri, relativeRef, hierPart, relativePart, authority, query, fragment,
        Expr.places, Expr.opt, Expr.goes, Re.goes, Re.seq, chr, slashes]
    have habsolute : ∀ c, (place 8).1.goes (some c) = true → alpha c = true := by
      simp [place, main, uri, relativeRef, hierPart, relativePart, authority, query, fragment,
        Expr.places, Expr.opt, Expr.goes, Re.goes, chr, scheme]
    cases u with
    | nil => cases hcount
    | cons c u =>
      obtain rfl := hrelative n h c (Expr.goes_of_cons_mem hmem)
      exact absurd (habsolute _ (Expr.goes_of_cons_mem hu)) (by decide)

theorem emits_of_leave (hn : n ∈ [6, 7, 8]) (hx : x ∈ leaves) :
    main.Emits n u x ↔ u ∈ (place n).1.lang := by
  have hlt : ∀ n ∈ [6, 7, 8], n < acts.length := by decide
  have hgoes : ∀ n ∈ [6, 7, 8], ∀ x ∈ leaves, (place n).2.goes x = true := by
    simp [place, main, uri, relativeRef, hierPart, relativePart, authority, query, fragment,
      Expr.places, Expr.opt, Expr.goes, Re.goes, chr, goes_pathAbempty, port, leaves]
  rw [emits_iff (hlt n hn), hgoes n hn x hx]
  simp

/-- Where the host or the authority is entered, a slash or an at sign was read last. -/
theorem last_of_enter (hn : n ∈ [2, 4]) (hu : u ∈ (place n).1.lang) :
    ∃ v d, u = v ++ [d] ∧ d ∈ [byte '/', byte '@'] := by
  have hslash : ∃ L : Language UInt8, (place 2).1.lang = L * (chr '/').lang := by
    refine ⟨scheme.lang * (chr ':').lang * (chr '/').lang, ?_⟩
    simp [place, main, uri, relativeRef, hierPart, relativePart, authority, query, fragment,
      Expr.places, Expr.opt, Expr.lang, slashes, Re.seq, Re.lang, mul_assoc]
  have hhost : (place 4).1.lang =
      (place 2).1.lang * (userinfo.lang * (chr '@').lang + 1) := by
    simp [place, main, uri, relativeRef, hierPart, relativePart, authority, query, fragment,
      Expr.places, Expr.opt, Expr.lang, Re.lang, mul_assoc]
  have hauthority : ∀ {u}, u ∈ (place 2).1.lang → ∃ v, u = v ++ [byte '/'] := by
    intro u hu
    obtain ⟨L, hL⟩ := hslash
    rw [hL] at hu
    obtain ⟨v, -, t, ht, rfl⟩ := Language.mem_mul.mp hu
    exact ⟨v, congrArg (v ++ ·) ht⟩
  simp only [List.mem_cons, List.not_mem_nil, or_false] at hn
  rcases hn with rfl | rfl
  · obtain ⟨v, rfl⟩ := hauthority hu
    exact ⟨v, _, rfl, by decide⟩
  · rw [hhost] at hu
    obtain ⟨v, hv, t, ht, rfl⟩ := Language.mem_mul.mp hu
    rcases ht with ht | rfl
    · obtain ⟨t, -, t', ht', rfl⟩ := Language.mem_mul.mp ht
      refine ⟨v ++ t, byte '@', ?_, by decide⟩
      rw [show t' = [byte '@'] from ht', List.append_assoc]
    · obtain ⟨v, rfl⟩ := hauthority hv
      exact ⟨v, _, List.append_nil _, by decide⟩

/-- The actions on a transition that leaves the authority, as far as they can be told apart: the
path has been entered, and if the port is left, it is empty or the mark is set. -/
theorem turn_table : ∀ l ∈ ([2, 4, 5, 6, 7, 8, 9] : List Nat).sublists, ∀ b, 8 ∈ l →
    (6 ∈ l → 7 ∈ l → (actions acts l).foldlM marked b = if 9 ∈ l then none else some false) ∧
    (6 ∉ l → (7 ∈ l → b = true ∧ 2 ∉ l ∧ 4 ∉ l) →
      (actions acts l).foldlM marked b = some (decide (9 ∉ l))) := by
  decide +kernel

theorem emits_path (hu : u ∈ (place 8).1.lang) (hv : v ∈ pathAbempty.lang) :
    main.Emits 9 (u ++ v) x ↔ x ∈ follows 9 := by
  rw [emits_null (by decide), lang_save 8 (by decide)]
  exact and_iff_right (Language.append_mem_mul hu hv)

theorem emits_nine (hu : u ∈ (place 8).1.lang) (hx : x ∈ leaves) :
    main.Emits 9 u x ↔ x ≠ some (byte '/') := by
  have hfollows : ∀ x ∈ leaves, x ∈ follows 9 ↔ x ≠ some (byte '/') := by
    simp [leaves, follows, byte]
  have hnil : [] ∈ pathAbempty.lang := Re.goes_none.mp (by decide)
  have hpath := emits_path (x := x) hu hnil
  rwa [List.append_nil, hfollows x hx] at hpath

theorem emits_seven (hu : u ∈ (place 6).1.lang) (hx : x ∈ leaves) : main.Emits 7 u x := by
  have hnil : [] ∈ port.lang := Re.goes_none.mp (by decide)
  have hmem := Language.append_mem_mul hu hnil
  rw [List.append_nil] at hmem
  refine (emits_of_leave (n := 7) (by decide) hx).mpr ?_
  rw [lang_save 6 (by decide)]
  exact hmem

theorem exists_port (hu : u ∈ (place 7).1.lang) :
    ∃ v t, u = v ++ t ∧ v ∈ (place 6).1.lang ∧ t ∈ port.lang := by
  rw [lang_save 6 (by decide)] at hu
  obtain ⟨v, hv, t, ht, h⟩ := Language.mem_mul.mp hu
  exact ⟨v, t, h.symm, hv, ht⟩

theorem mem_of_last {t : List UInt8} (ht : t ≠ []) (h : u ++ t = v ++ [d]) : d ∈ t := by
  obtain ⟨t', e, rfl⟩ := (List.eq_nil_or_concat t).resolve_left ht
  rw [List.concat_eq_append, ← List.append_assoc] at h
  obtain ⟨-, h⟩ := List.append_inj' h rfl
  cases h
  simp

/-- After a port with digits the mark is set, and the authority does not begin there. -/
theorem port_of_leave (hx : x ∈ leaves) (hrun : markRun u = some b) (h7 : main.Emits 7 u x)
    (h6 : ¬ main.Emits 6 u x) : b = true ∧ ∀ n ∈ [2, 4], ¬ main.Emits n u x := by
  have hsix : u ∉ (place 6).1.lang := fun h => h6 ((emits_of_leave (n := 6) (by decide) hx).mpr h)
  obtain ⟨v, t, hvt, hv, ht⟩ := exists_port ((emits_of_leave (n := 7) (by decide) hx).mp h7)
  have hne : t ≠ [] := by
    intro h
    rw [hvt, h, List.append_nil] at hsix
    exact hsix hv
  refine ⟨(mark_of_save (n := 6) (by decide) (by decide) h7 hrun).resolve_right h6, ?_⟩
  intro n hn he
  have hlt : ∀ n ∈ [2, 4], n < acts.length := by decide
  obtain ⟨v', d, hlast, hd⟩ := last_of_enter hn ((emits_iff (hlt n hn)).mp he).1
  have hdigit : ∀ d ∈ [byte '/', byte '@'], port.most d = some 0 := by
    simp [port, Re.most, digit, range, byte]
  exact notMem_component (hdigit d hd) ht (mem_of_last hne (hvt.symm.trans hlast))

/-- **Leaving the authority.** With an empty port the mark of the path is lost; otherwise it is set,
and is used at once by an empty path. -/
theorem turn_leave (hu : u ∈ (place 8).1.lang) (hx : x ∈ leaves) (hrun : markRun u = some b) :
    (u ∈ (place 6).1.lang → turn u x b = if x = some (byte '/') then some false else none) ∧
    (u ∉ (place 6).1.lang → turn u x b = some (decide (x = some (byte '/')))) := by
  have hmem : ∀ n ∈ [2, 4, 5, 6, 7, 8, 9], n ∈ [2, 4, 5, 6, 7, 8, 9].filter
      (fun n => n ∈ main.fired u x) ↔ main.Emits n u x := by
    intro n hn
    rw [List.mem_filter, decide_eq_true_iff]
    exact and_iff_right hn
  have hsub := List.filter_sublist (p := fun n => n ∈ main.fired u x) (l := [2, 4, 5, 6, 7, 8, 9])
  have hturn : turn u x b = (actions acts ([2, 4, 5, 6, 7, 8, 9].filter
      (fun n => n ∈ main.fired u x))).foldlM marked b := by
    rw [turn, actions_congr fun n hn => ?_]
    rw [List.mem_filter, decide_eq_true_iff]
    exact ⟨fun h => ⟨mem_of_leave hu hx h hn, h⟩, fun h => h.2⟩
  generalize [2, 4, 5, 6, 7, 8, 9].filter (fun n => n ∈ main.fired u x) = l at hmem hsub hturn
  have h6 : 6 ∈ l ↔ u ∈ (place 6).1.lang :=
    (hmem 6 (by decide)).trans (emits_of_leave (n := 6) (by decide) hx)
  have h8 : 8 ∈ l :=
    (hmem 8 (by decide)).mpr ((emits_of_leave (n := 8) (by decide) hx).mpr hu)
  have h9 : 9 ∈ l ↔ x ≠ some (byte '/') := (hmem 9 (by decide)).trans (emits_nine hu hx)
  obtain ⟨hempty, hother⟩ := turn_table l (List.mem_sublists.mpr hsub) b h8
  refine ⟨fun h => ?_, fun h => ?_⟩
  · have h7 := (hmem 7 (by decide)).mpr (emits_seven h hx)
    rw [hturn, hempty (h6.mpr h) h7]
    simp only [h9, ite_not]
  · have h6' := fun h' => h (h6.mp h')
    have hport : 7 ∈ l → b = true ∧ 2 ∉ l ∧ 4 ∉ l := by
      intro h7
      obtain ⟨hb, hnot⟩ := port_of_leave hx hrun ((hmem 7 (by decide)).mp h7)
        (fun h => h6' ((hmem 6 (by decide)).mpr h))
      exact ⟨hb, fun h => hnot 2 (by decide) ((hmem 2 (by decide)).mp h),
        fun h => hnot 4 (by decide) ((hmem 4 (by decide)).mp h)⟩
    rw [hturn, hother h6' hport]
    simp only [h9, not_not]

/-! ## The path -/

theorem count_slash_path (hu : u ∈ (place 8).1.lang) (hv : v ++ w ∈ pathAbempty.lang)
    (hne : v ≠ []) : 3 ≤ (u ++ v).count (byte '/') := by
  have hcount := count_slash (n := 8) (by decide) hu
  cases v with
  | nil => exact absurd rfl hne
  | cons d v =>
    rw [path_head hv, List.count_append, List.count_cons_self, hcount]
    omega

theorem not_mark_of_path (hu : u ∈ (place 8).1.lang) (hv : v ++ w ∈ pathAbempty.lang)
    (hne : v ≠ []) : ∀ n ∈ marks, ¬ main.Emits n (u ++ v) x := by
  have hcases : ∀ n ∈ marks, n < acts.length ∧
      (n ∈ [0, 1] ∨ n ∈ beforePath ∨ n ∈ [10, 11, 20, 21] ∨ n ∈ [12, 13, 22, 23]) := by
    decide
  have hpath := count_slash_path hu hv hne
  have hletter : ∀ {d}, pathAbempty.most d = some 0 → d ∉ u → d ∉ u ++ v := by
    intro d hd hdu hmem
    have hdv := (List.mem_append.mp hmem).resolve_left hdu
    exact notMem_component hd hv (List.mem_append_left _ hdv)
  intro n hn he
  obtain ⟨hlt, h⟩ := hcases n hn
  have hmem := ((emits_iff hlt).mp he).1
  rcases h with h | h | h | h
  · have := List.count_eq_zero.mpr (slash_notMem h hmem)
    omega
  · have := count_slash h hmem
    omega
  · have hu' := question_notMem (n := 8) (by decide) hu
    exact hletter (by decide) hu' (question_mem h hmem)
  · have hu' := hash_notMem (n := 8) (by decide) hu
    exact hletter (by decide) hu' (hash_mem h hmem)

/-- In a path the mark is set, but for a path after an empty port. -/
theorem mark_of_path (hu : u ∈ (place 8).1.lang) (hv : v ∈ pathAbempty.lang) (hne : v ≠ [])
    (hrun : markRun (u ++ v) = some b) :
    (u ∈ (place 6).1.lang → b = false) ∧ (u ∉ (place 6).1.lang → b = true) := by
  obtain ⟨d, v, rfl⟩ := List.exists_cons_of_ne_nil hne
  obtain rfl := path_head hv
  have hquiet : ∀ v₁ c v₂, v = v₁ ++ c :: v₂ → Quiet (u ++ byte '/' :: v₁) (some c) := by
    intro v₁ c v₂ h
    rw [h] at hv
    exact quiet_inside (n := 8) (v := byte '/' :: v₁) (by decide) hu hv
      (fun _ => List.cons_ne_nil _ v₁)
  have hstart : ∀ {b'}, (∀ b, markRun u = some b → turn u (some (byte '/')) b = some b') →
      ∀ b, markRun (u ++ [byte '/']) = some b → b = b' := by
    intro b' h b hb
    rw [markRun_concat] at hb
    obtain ⟨b₁, hb₁, hturn⟩ := Option.bind_eq_some_iff.mp hb
    exact Option.some.inj (hturn.symm.trans (h b₁ hb₁))
  refine ⟨fun h => ?_, fun h => ?_⟩
  · refine markRun_const (hstart fun b hb => ?_) (fun v₁ c v₂ hvv => ?_) hrun
    · exact (turn_leave hu (by decide) hb).1 h
    · rw [hvv] at hv
      exact (hquiet v₁ c v₂ hvv).turn_of_not_mark
        (not_mark_of_path (v := byte '/' :: v₁) hu hv (List.cons_ne_nil _ v₁))
  · refine markRun_const (hstart fun b hb => ?_) (fun v₁ c v₂ hvv => ?_) hrun
    · exact (turn_leave hu (by decide) hb).2 h
    · exact (hquiet v₁ c v₂ hvv).turn_true

/-! ## Empty ports -/

/-- `scheme ":" "//" (userinfo "@")? host ":" path_abempty` -/
def emptyPort : Re UInt8 := .seq [scheme, chr ':', slashes, .opt (.cat userinfo (chr '@')), host,
  chr ':', pathAbempty]

/-- An authority with an empty port and its path, up to the query, the fragment or the end. -/
def EmptyPort (s : List UInt8) : Prop :=
  ∃ w t, s = w ++ t ∧ w ∈ emptyPort.lang ∧ t.head? ∈ [some (byte '?'), some (byte '#'), none]

theorem lang_emptyPort : emptyPort.lang = (place 6).1.lang * pathAbempty.lang := by
  simp [emptyPort, Re.seq, Re.opt, place, main, uri, relativeRef, hierPart, relativePart, authority,
    query, fragment, Expr.places, Expr.opt, Expr.lang, Re.lang, mul_assoc]

theorem authority_of_port (hu : u ∈ (place 6).1.lang) : u ∈ (place 8).1.lang := by
  have hlang : ∃ A B : Language UInt8,
      (place 7).1.lang = A * B ∧ (place 8).1.lang = A * (B + 1) := by
    refine ⟨scheme.lang * (chr ':').lang * slashes.lang *
      (userinfo.lang * (chr '@').lang + 1) * host.lang, (chr ':').lang * port.lang, ?_, ?_⟩ <;>
    simp [place, main, uri, relativeRef, hierPart, relativePart, authority, query, fragment,
      Expr.places, Expr.opt, Expr.lang, Re.lang, mul_assoc]
  obtain ⟨A, B, h7, h8⟩ := hlang
  have hseven := (emits_of_leave (n := 7) (by decide) (by decide)).mp
    (emits_seven (x := none) hu (by decide))
  rw [h8, mul_add]
  exact .inl (h7 ▸ hseven)

theorem exists_path (hw : w ∈ (place 9).1.lang) :
    ∃ u v, w = u ++ v ∧ u ∈ (place 8).1.lang ∧ v ∈ pathAbempty.lang := by
  rw [lang_save 8 (by decide)] at hw
  obtain ⟨u, hu, v, hv, h⟩ := Language.mem_mul.mp hw
  exact ⟨u, v, h.symm, hu, hv⟩

/-! ## Totality -/

theorem enters (hrun : markRun w = some b) : b = true ∨ ∀ n ∈ [1, 7, 11, 13, 19, 21, 23],
    main.Emits n w x → ∃ m ∈ marks, m < n ∧ main.Emits m w x := by
  cases b with
  | true => exact .inl rfl
  | false =>
    have hopen : ∀ n ∈ [1, 7, 11, 13, 19, 21, 23], 1 ≤ n ∧ n - 1 ∈ opens ∧ n - 1 ≠ 8 ∧
        n - 1 ∈ marks := by decide
    refine .inr fun n hn he => ?_
    obtain ⟨hle, ho, hne, hm⟩ := hopen n hn
    have hsucc : n - 1 + 1 = n := Nat.sub_add_cancel hle
    have hmark := mark_of_save ho hne (by rwa [hsucc]) hrun
    exact ⟨n - 1, hm, by omega, hmark.resolve_left Bool.false_ne_true⟩

/-- Where no path is saved, the actions that reset the mark are of one kind. -/
theorem single_of_not_nine (h9 : ¬ main.Emits 9 w x) :
    ∃ (l : List Nat) (a : Action), (∀ n ∈ nulls, main.Emits n w x → n ∈ l) ∧
      (∀ n ∈ l, acts[n]? = some a) ∧
      (a.needs = false ∨ ∀ n ∈ l, n ∈ [1, 7, 11, 13, 19, 21, 23]) := by
  by_cases hhash : byte '#' ∈ w
  · refine ⟨[13, 23], .saveFragment, fun n hn he => ?_, by decide, .inr (by decide)⟩
    have hcases : ∀ n ∈ nulls, n ∈ [13, 23] ∨ n ∈ beforeFragment := by decide
    exact (hcases n hn).resolve_right fun h => hash_notMem h ((emits_null hn).mp he).1 hhash
  · have hfragment : ∀ n ∈ nulls, main.Emits n w x → n ∉ [12, 13, 22, 23] :=
      fun n hn he h => hhash (hash_mem h ((emits_null hn).mp he).1)
    by_cases hquestion : byte '?' ∈ w
    · refine ⟨[11, 21], .saveQuery, fun n hn he => ?_, by decide, .inr (by decide)⟩
      have hcases : ∀ n ∈ nulls, n ∈ [11, 21] ∨ n ∈ beforeQuery ∨ n ∈ [12, 13, 22, 23] := by
        decide
      refine (hcases n hn).resolve_right fun h => ?_
      rcases h with h | h
      · exact question_notMem h ((emits_null hn).mp he).1 hquestion
      · exact hfragment n hn he h
    · have hquery : ∀ n ∈ nulls, main.Emits n w x → n ∉ [10, 11, 20, 21] :=
        fun n hn he h => hquestion (question_mem h ((emits_null hn).mp he).1)
      by_cases hcolon : x = some (byte ':')
      · refine ⟨[1], .saveScheme, fun n hn he => ?_, by decide, .inr (by decide)⟩
        have hcases : ∀ n ∈ nulls, some (byte ':') ∈ follows n → n ∈ [1] := by decide
        exact hcases n hn (hcolon ▸ ((emits_null hn).mp he).2)
      · by_cases hat : x = some (byte '@')
        · refine ⟨[3, 15], .saveUserinfo, fun n hn he => ?_, by decide, .inl rfl⟩
          have hcases : ∀ n ∈ nulls, some (byte '@') ∈ follows n → n ∈ [3, 15] := by decide
          exact hcases n hn (hat ▸ ((emits_null hn).mp he).2)
        · refine ⟨[7, 19], .savePort, fun n hn he => ?_, by decide, .inr (by decide)⟩
          have hcases : ∀ n ∈ nulls, n ∈ [7, 19] ∨ n = 9 ∨ n ∈ [10, 11, 20, 21] ∨
              n ∈ [12, 13, 22, 23] ∨
              ∀ x ∈ follows n, x = some (byte ':') ∨ x = some (byte '@') := by
            simp [nulls, follows]
          rcases hcases n hn with h | rfl | h | h | h
          · exact h
          · exact absurd he h9
          · exact absurd h (hquery n hn he)
          · exact absurd h (hfragment n hn he)
          · rcases h x ((emits_null hn).mp he).2 with h | h
            · exact absurd h hcolon
            · exact absurd h hat

theorem isSome_turn_of_not_nine (hrun : markRun w = some b) (h9 : ¬ main.Emits 9 w x) :
    (turn w x b).isSome = true := by
  obtain ⟨l, a, hl, ha, hneeds | h⟩ := single_of_not_nine h9
  · refine foldlM_of_not_needs fun a' ha' => ?_
    obtain ⟨n, hn, hacts⟩ := mem_actions_iff.mp ha'
    cases hnull : a'.isNull with
    | false => cases a' <;> first | rfl | cases hnull
    | true =>
      have heq := ha n (hl n (nulls_mem hacts hnull) hn)
      rwa [Option.some.inj (hacts.symm.trans heq)]
  · exact isSome_turn (fun n hn he => ha n (hl n hn he))
      ((enters hrun).imp_right fun hm n hn he => hm n (h n (hl n hn he)) he)

theorem only_nine (hu : u ∈ (place 8).1.lang) (hv : v ∈ pathAbempty.lang) (hne : v ≠ [])
    (h9 : main.Emits 9 (u ++ v) x) : ∀ n ∈ nulls, main.Emits n (u ++ v) x → n = 9 := by
  have hcases : ∀ n ∈ nulls, n = 9 ∨ n ∈ [0, 1] ∨ n ∈ beforePath ∨ n ∈ [10, 11, 20, 21] ∨
      n ∈ [12, 13, 22, 23] := by decide
  have hw := ((emits_null (n := 9) (by decide)).mp h9).1
  have hpath : 3 ≤ (u ++ v).count (byte '/') := by
    refine count_slash_path (w := []) hu ?_ hne
    rwa [List.append_nil]
  intro n hn he
  have hmem := ((emits_null hn).mp he).1
  rcases hcases n hn with h | h | h | h | h
  · exact h
  · have := List.count_eq_zero.mpr (slash_notMem h hmem)
    omega
  · have := count_slash h hmem
    omega
  · exact absurd (question_mem h hmem) (question_notMem (n := 9) (by decide) hw)
  · exact absurd (hash_mem h hmem) (hash_notMem (n := 9) (by decide) hw)

theorem leaves_of_nine (hx : x ∈ follows 9) : x ∈ leaves ∧ x ≠ some (byte '/') := by
  have hall : ∀ x ∈ follows 9, x ∈ leaves ∧ x ≠ some (byte '/') := by
    simp [leaves, follows, byte]
  exact hall x hx

theorem isSome_turn_of_nine (hrun : markRun w = some b) (h9 : main.Emits 9 w x)
    (hport : w ∉ emptyPort.lang) : (turn w x b).isSome = true := by
  obtain ⟨hw, hx⟩ := (emits_null (n := 9) (by decide)).mp h9
  obtain ⟨u, v, rfl, hu, hv⟩ := exists_path hw
  have hu6 : u ∉ (place 6).1.lang := by
    intro h
    rw [lang_emptyPort] at hport
    exact hport (Language.append_mem_mul h hv)
  by_cases hne : v = []
  · subst hne
    rw [List.append_nil] at hrun ⊢
    rw [(turn_leave hu (leaves_of_nine hx).1 hrun).2 hu6]
    rfl
  · refine isSome_turn (a := .savePath) (fun n hn he => ?_)
      (.inl ((mark_of_path hu hv hne hrun).2 hu6))
    rw [only_nine hu hv hne h9 n hn he]
    rfl

theorem turn_of_emptyPort (hw : w ∈ emptyPort.lang) (hx : x ∈ follows 9)
    (hrun : markRun w = some b) : turn w x b = none := by
  rw [lang_emptyPort] at hw
  obtain ⟨u, hu6, v, hv, h⟩ := Language.mem_mul.mp hw
  subst h
  have hu := authority_of_port hu6
  by_cases hne : v = []
  · subst hne
    rw [List.append_nil] at hrun ⊢
    rw [(turn_leave hu (leaves_of_nine hx).1 hrun).1 hu6, if_neg (leaves_of_nine hx).2]
  · rw [(mark_of_path hu hv hne hrun).1 hu6]
    refine foldlM_of_not_mark (fun a ha => ?_) ⟨.savePath, ?_, rfl⟩
    · obtain ⟨n, hn, hacts⟩ := mem_actions_iff.mp ha
      refine Bool.eq_false_iff.mpr fun hmark => ?_
      refine not_mark_of_path (w := []) hu ?_ hne n ((marks_mem hacts).mp hmark) hn
      rwa [List.append_nil]
    · exact mem_actions_iff.mpr ⟨9, (emits_path hu hv).mpr hx, rfl⟩

theorem isSome_markRun_of_append {t : List UInt8} (h : (markRun (w ++ t)).isSome = true) :
    (markRun w).isSome = true := by
  rw [markRun, run_append, Option.isSome_bind, Option.any_eq_true] at h
  obtain ⟨b, hb, -⟩ := h
  rw [markRun, hb]
  rfl

/-- **`Uri::Create` throws just for empty ports.** -/
theorem isSome_create_iff (s : List UInt8) : (create s).isSome = true ↔ ¬ EmptyPort s := by
  rw [isSome_create]
  constructor
  · rintro h ⟨w, t, rfl, hw, hx⟩
    have hend : ∀ b, markRun w = some b → (turn w t.head? b).isSome = true := by
      intro b hb
      cases t with
      | nil =>
        rwa [List.append_nil, hb, Option.bind_some] at h
      | cons c t =>
        rw [Option.isSome_bind, Option.any_eq_true] at h
        obtain ⟨b', hb', -⟩ := h
        rw [List.append_cons] at hb'
        have hrun := isSome_markRun_of_append (Option.isSome_iff_exists.mpr ⟨b', hb'⟩)
        rwa [markRun_concat, hb, Option.bind_some] at hrun
    have hrun : (markRun w).isSome = true := by
      rw [Option.isSome_bind, Option.any_eq_true] at h
      obtain ⟨b, hb, -⟩ := h
      exact isSome_markRun_of_append (Option.isSome_iff_exists.mpr ⟨b, hb⟩)
    obtain ⟨b, hb⟩ := Option.isSome_iff_exists.mp hrun
    have hturn := hend b hb
    rw [turn_of_emptyPort hw hx hb] at hturn
    cases hturn
  · intro hport
    have hturn : ∀ {w t : List UInt8} {b}, s = w ++ t → markRun w = some b →
        (turn w t.head? b).isSome = true := by
      intro w t b hs hb
      by_cases h9 : main.Emits 9 w t.head?
      · refine isSome_turn_of_nine hb h9 fun hw => hport ⟨w, t, hs, hw, ?_⟩
        exact ((emits_null (n := 9) (by decide)).mp h9).2
      · exact isSome_turn_of_not_nine hb h9
    have hrun : ∀ {w t : List UInt8}, s = w ++ t → (markRun w).isSome = true := by
      intro w
      induction w using List.reverseRecOn with
      | nil => exact fun _ => rfl
      | append_singleton w c ih =>
        intro t hs
        rw [List.append_assoc] at hs
        obtain ⟨b, hb⟩ := Option.isSome_iff_exists.mp (ih hs)
        rw [markRun_concat, hb]
        exact hturn hs hb
    obtain ⟨b, hb⟩ := Option.isSome_iff_exists.mp (hrun (List.append_nil s).symm)
    rw [hb]
    exact hturn (List.append_nil s).symm hb

/-- `http://h:` -/
theorem create_emptyPort :
    create (['h', 't', 't', 'p', ':', '/', '/', 'h', ':'].map byte) = none := by
  decide +kernel

end Tigerkin.UriParser
