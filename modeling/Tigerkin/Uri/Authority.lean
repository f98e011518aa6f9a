import Tigerkin.Std.Lines
import Tigerkin.Uri.Total

/-! # Reading an authority

What `Uri::Create` executes while it reads a scheme and an authority is what is embedded at the
places behind a scheme. `Reads` is the state that is reached. A user info may be read as a host as
well, up to a colon; its mark then moves to a digit that follows, as for a port
(`reads_userinfo`). -/

namespace Tigerkin.UriParser

open Ragel

/-! ## The places behind a scheme -/

/-- `userinfo "@"`, or nothing. -/
def login : Re UInt8 := .opt (.cat userinfo (chr '@'))

/-- What is read of an authority and its path, behind the user info, before an embedding. -/
def behind : Nat → Re UInt8
  | 4 => .lambda
  | 5 => host
  | 6 => .cat host (chr ':')
  | 7 => .cat host (.cat (chr ':') port)
  | 8 => .cat host (.opt (.cat (chr ':') port))
  | _ => .cat host (.cat (.opt (.cat (chr ':') port)) pathAbempty)

def rest : Nat → Re UInt8
  | 2 => .lambda
  | 3 => userinfo
  | n => .cat login (behind n)

def hierPlaces : List Nat := [2, 3, 4, 5, 6, 7, 8, 9]

theorem lang_place : ∀ n ∈ hierPlaces, (place n).1.lang =
    scheme.lang * ((chr ':').lang * slashes.lang) * (rest n).lang := by
  simp only [hierPlaces, List.forall_mem_cons]
  simp [place, main, uri, relativeRef, hierPart, relativePart, authority, query, fragment,
    Expr.places, Expr.opt, Expr.lang, Re.lang, Re.opt, rest, behind, login, mul_assoc]

variable {n : Nat} {u v w s t : List UInt8} {c d : UInt8} {x : Option UInt8}

/-- What is read up to an authority. -/
def head (sch : List UInt8) : List UInt8 := sch ++ [byte ':', byte '/', byte '/']

variable {sch : List UInt8}

/-- The letters that end an authority or its user info. -/
def ends : List UInt8 := [byte '@', byte '/', byte '?', byte '#']

/-- The delimiters do not occur in the components. -/
theorem letter_table :
    (∀ c ∈ [byte ':', byte '/', byte '?', byte '#'], scheme.most c = some 0) ∧
    (∀ c ∈ ends, userinfo.most c = some 0 ∧ host.most c = some 0) ∧
    (∀ c ∈ [byte '/', byte '?', byte '#'], login.most c = some 0 ∧ c ∈ ends) ∧
    (∀ c ∈ [byte '?', byte '#'], pathAbempty.most c = some 0 ∧
      c ∉ [byte ':', byte '/', byte '/']) ∧
    (∀ c ∈ delims, c = byte ':' ∨ c ∈ ends) ∧ host.goes (some (byte ':')) = false := by
  decide +kernel

/-- The letters of a user info are those of a host and the colon, and digits are no delimiters. -/
theorem userinfo_table : ∀ n < 256, (userinfo.goes (some (UInt8.ofNat n)) = true →
      UInt8.ofNat n = byte ':' ∨ host.goes (some (UInt8.ofNat n)) = true) ∧
    (CString.IsDigit 10 (UInt8.ofNat n) →
      digit (UInt8.ofNat n) = true ∧ UInt8.ofNat n ∉ ends ∧ UInt8.ofNat n ∉ delims) := by
  decide +kernel

theorem colon_notMem (hs : sch ∈ scheme.lang) : byte ':' ∉ sch :=
  notMem_component (by decide) hs

theorem mem_slashes : w ∈ (chr ':').lang * slashes.lang ↔ w = [byte ':', byte '/', byte '/'] := by
  simp only [slashes, Re.seq, List.foldr_cons, List.foldr_nil, Re.lang, chr]
  constructor
  · rintro ⟨_, rfl, _, ⟨_, rfl, _, ⟨_, rfl, _, rfl, rfl⟩, rfl⟩, rfl⟩
    rfl
  · rintro rfl
    exact ⟨_, rfl, _, ⟨_, rfl, _, ⟨_, rfl, _, rfl, rfl⟩, rfl⟩, rfl⟩

theorem mem_place (hs : sch ∈ scheme.lang) (hn : n ∈ hierPlaces) :
    head sch ++ w ∈ (place n).1.lang ↔ w ∈ (rest n).lang := by
  rw [lang_place n hn]
  constructor
  · rintro ⟨_, ⟨sch', hs', c, hc, rfl⟩, b, hb, hab⟩
    obtain rfl := mem_slashes.mp hc
    have hsplit : sch' ++ byte ':' :: (byte '/' :: byte '/' :: b) =
        sch ++ byte ':' :: (byte '/' :: byte '/' :: w) := by
      simpa [head] using hab
    obtain ⟨-, h⟩ := append_cons_inj (colon_notMem hs') (colon_notMem hs) hsplit
    cases h
    exact hb
  · intro h
    exact ⟨_, ⟨sch, hs, _, mem_slashes.mpr rfl, rfl⟩, w, h, rfl⟩

/-! ## Relative references -/

/-- A delimiter comes before any colon. -/
def Parted (w : List UInt8) : Prop :=
  ∃ a c z, w = a ++ c :: z ∧ byte ':' ∉ a ∧ c ∈ [byte '/', byte '?', byte '#']

theorem Parted.append (h : Parted w) (t : List UInt8) : Parted (w ++ t) := by
  obtain ⟨a, c, z, rfl, ha, hc⟩ := h
  exact ⟨a, c, z ++ t, by simp, ha, hc⟩

theorem not_parted (hs : sch ∈ scheme.lang) : ¬Parted (head sch ++ w) := by
  rintro ⟨a, c, z, h, ha, hc⟩
  have hcs := notMem_component (letter_table.1 c (List.mem_cons_of_mem _ hc)) hs
  have hne : c ≠ byte ':' := by
    rintro rfl
    exact absurd hc (by decide)
  have hsplit : sch ++ byte ':' :: (byte '/' :: byte '/' :: w) = a ++ c :: z := by
    simpa [head] using h
  obtain ⟨a', rfl, hrest⟩ | ⟨a', rfl, hrest⟩ := List.append_eq_append_iff.mp hsplit
  · cases a' with
    | nil =>
      cases hrest
      exact hne rfl
    | cons d a' =>
      obtain ⟨rfl, -⟩ := List.cons.inj hrest
      exact ha (by simp)
  · cases a' with
    | nil =>
      cases hrest
      exact hne rfl
    | cons d a' =>
      obtain ⟨rfl, -⟩ := List.cons.inj hrest
      exact hcs (by simp)

/-- What is read before an embedding of a query or a fragment, after the rest of the reference. -/
def tail : Nat → Re UInt8
  | 20 => chr '?'
  | 21 => .cat (chr '?') queryLetters
  | 22 => .cat (.opt (.cat (chr '?') queryLetters)) (chr '#')
  | _ => .cat (.opt (.cat (chr '?') queryLetters)) (.cat (chr '#') queryLetters)

theorem lang_relative : (∀ n ∈ [14, 15, 16, 17, 18, 19], (place n).1.lang =
      slashes.lang * (rest (n - 12)).lang) ∧
    ∀ n ∈ [20, 21, 22, 23], (place n).1.lang = relativePart.lang * (tail n).lang := by
  simp only [List.forall_mem_cons]
  simp [place, main, uri, relativeRef, hierPart, relativePart, authority, query, fragment,
    Expr.places, Expr.opt, Expr.lang, Re.lang, Re.opt, rest, behind, login, tail, queryLetters,
    mul_assoc]

theorem tail_head (hn : n ∈ [20, 21, 22, 23]) (hw : w ∈ (tail n).lang) :
    ∃ c z, w = c :: z ∧ c ∈ [byte '/', byte '?', byte '#'] := by
  have hnil : ∀ n ∈ [20, 21, 22, 23], (tail n).goes none = false := by decide
  have hgoes : ∀ n ∈ [20, 21, 22, 23], ∀ c, (tail n).goes (some c) = true →
      c ∈ [byte '/', byte '?', byte '#'] := by
    simp +contextual [tail, Re.goes, Re.opt, chr, queryLetters]
  cases w with
  | nil =>
    have := Re.goes_none.mpr hw
    rw [hnil n hn] at this
    cases this
  | cons c z => exact ⟨c, z, rfl, hgoes n hn c (Re.goes_of_cons_mem hw)⟩

theorem parted_of_goes {r : Re UInt8} (hnil : r.goes none = false)
    (hgoes : ∀ c, r.goes (some c) = true → c = byte '/') (hw : w ∈ r.lang) : Parted w := by
  cases w with
  | nil =>
    have := Re.goes_none.mpr hw
    rw [hnil] at this
    cases this
  | cons c z =>
    obtain rfl := hgoes c (Re.goes_of_cons_mem hw)
    exact ⟨[], _, z, rfl, by simp, by decide⟩

theorem goes_slashes (c : UInt8) : slashes.goes (some c) = true → c = byte '/' := by
  simp [Re.goes, slashes, Re.seq, chr]

theorem relativePart_parted (hw : w ∈ relativePart.lang) : byte ':' ∉ w ∨ Parted w := by
  have hpart : relativePart.lang = (Re.cat slashes (rest 9)).lang + pathAbsolute.lang +
      (Re.cat segmentNzNc (.star slashSegment)).lang + 1 := by
    simp [relativePart, authority, Expr.lang, Expr.opt, Re.lang, Re.opt, rest, behind, login,
      mul_assoc,
      pathNoscheme, pathEmpty]
  rw [hpart] at hw
  rcases hw with ((hw | hw) | hw) | hw
  · obtain ⟨a, ha, z, -, rfl⟩ := Language.mem_mul.mp hw
    exact .inr ((parted_of_goes (by decide) goes_slashes ha).append z)
  · have hslash : ∀ c, pathAbsolute.goes (some c) = true → c = byte '/' := by
      simp [Re.goes, pathAbsolute, chr]
    exact .inr (parted_of_goes (by decide) hslash hw)
  · obtain ⟨a, ha, z, hz, rfl⟩ := Language.mem_mul.mp hw
    have ha' : byte ':' ∉ a := notMem_component (by decide) ha
    cases z with
    | nil => exact .inl (by simpa using ha')
    | cons c z =>
      have hc : c = byte '/' := by
        simpa [Re.goes, slashSegment, chr] using
          Re.goes_of_cons_mem (r := .star slashSegment) hz
      exact .inr ⟨a, c, z, rfl, ha', by simp [hc]⟩
  · obtain rfl : w = [] := hw
    exact .inl (by simp)

theorem not_emits_relative (hs : sch ∈ scheme.lang) (hn : n ∈ List.range' 14 10) :
    ¬main.Emits n (head sch ++ w) x := by
  intro he
  have hlt : ∀ n ∈ List.range' 14 10, n < acts.length ∧
      (n ∈ [14, 15, 16, 17, 18, 19] ∨ n ∈ [20, 21, 22, 23]) := by
    decide
  obtain ⟨hlt, hcases⟩ := hlt n hn
  have hw := ((emits_iff hlt).mp he).1
  obtain ⟨hauthority, hrest⟩ := lang_relative
  apply not_parted hs (w := w)
  rcases hcases with h | h
  · rw [hauthority n h] at hw
    obtain ⟨a, ha, z, -, haz⟩ := Language.mem_mul.mp hw
    rw [← haz]
    exact (parted_of_goes (by decide) goes_slashes ha).append z
  · rw [hrest n h] at hw
    obtain ⟨a, ha, z, hz, haz⟩ := Language.mem_mul.mp hw
    obtain ⟨c, z, rfl, hc⟩ := tail_head h hz
    rw [← haz]
    rcases relativePart_parted ha with ha | ha
    · exact ⟨a, c, z, rfl, ha, hc⟩
    · exact ha.append _

/-! ## What is executed in an authority -/

/-- A part of an authority. -/
def Inner (w : List UInt8) : Prop := byte '/' ∉ w ∧ byte '?' ∉ w ∧ byte '#' ∉ w

theorem head_notMem (hs : sch ∈ scheme.lang) :
    byte '?' ∉ head sch ∧ byte '#' ∉ head sch := by
  have hmost : scheme.most (byte '?') = some 0 ∧ scheme.most (byte '#') = some 0 := by decide
  have hthree : ∀ c ∈ [byte '?', byte '#'], c ∉ [byte ':', byte '/', byte '/'] :=
    fun c hc => (letter_table.2.2.2.1 c hc).2
  rw [head, List.mem_append, List.mem_append, not_or, not_or]
  exact ⟨⟨notMem_component hmost.1 hs, hthree _ (by simp)⟩, notMem_component hmost.2 hs,
    hthree _ (by simp)⟩

theorem emits_inner (hs : sch ∈ scheme.lang) (hw : Inner w) (hn : n < acts.length) :
    main.Emits n (head sch ++ w) x ↔
      n ∈ hierPlaces ∧ w ∈ (rest n).lang ∧ (place n).2.goes x = true := by
  have hcases : ∀ n < acts.length, n ∈ hierPlaces ∨ n ∈ [0, 1] ∨ n ∈ [10, 11, 20, 21] ∨
      n ∈ [12, 13, 22, 23] ∨ n ∈ List.range' 14 10 := by
    decide
  obtain ⟨hquestion, hhash⟩ := head_notMem hs
  obtain ⟨-, hw₂, hw₃⟩ := hw
  constructor
  · intro he
    obtain ⟨hmem, hgoes⟩ := (emits_iff hn).mp he
    rcases hcases n hn with h | h | h | h | h
    · exact ⟨h, (mem_place hs h).mp hmem, hgoes⟩
    · exact absurd (by simp [head]) (slash_notMem h hmem)
    · exact absurd (question_mem h hmem) (by simp [hquestion, hw₂])
    · exact absurd (hash_mem h hmem) (by simp [hhash, hw₃])
    · exact absurd he (not_emits_relative hs h)
  · rintro ⟨h, hmem, hgoes⟩
    exact (emits_iff hn).mpr ⟨(mem_place hs h).mpr hmem, hgoes⟩

theorem goes_hier (x : Option UInt8) :
    ((place 2).2.goes x = true ↔ userinfo.goes x = true ∨ x = some (byte '@') ∨ host.goes x = true ∨
      x = some (byte ':') ∨ x ∈ leaves) ∧
    ((place 3).2.goes x = true ↔ x = some (byte '@')) ∧
    ((place 4).2.goes x = true ↔ host.goes x = true ∨ x = some (byte ':') ∨ x ∈ leaves) ∧
    ((place 5).2.goes x = true ↔ x = some (byte ':') ∨ x ∈ leaves) ∧
    ((place 6).2.goes x = true ↔ x.any digit = true ∨ x ∈ leaves) ∧
    ((place 7).2.goes x = true ↔ x ∈ leaves) ∧
    ((place 8).2.goes x = true ↔ x ∈ leaves) ∧
    ((place 9).2.goes x = true ↔ x ∈ follows 9) := by
  have hhost : host.goes none = true := by decide
  have huser : userinfo.goes none = true := by decide
  cases x <;>
  simp [place, main, uri, relativeRef, hierPart, relativePart, authority, query, fragment,
    Expr.places, Expr.opt, Expr.goes, Re.goes, chr, goes_pathAbempty, leaves, follows, hhost, huser,
    port, or_assoc]

/-- The user info is told apart from what is behind it by its delimiter. -/
theorem mem_behind (hu : u ∈ login.lang) (hv : byte '@' ∉ v) (hn : n ∈ [4, 5, 6, 7, 8]) :
    u ++ v ∈ (Re.cat login (behind n)).lang ↔ v ∈ (behind n).lang := by
  have hlogin : ∀ {u}, u ∈ login.lang → u = [] ∨ ∃ i ∈ userinfo.lang, u = i ++ [byte '@'] := by
    rintro u (⟨i, hi, _, rfl, rfl⟩ | rfl)
    · exact .inr ⟨i, hi, rfl⟩
    · exact .inl rfl
  have huser : ∀ {i}, i ∈ userinfo.lang → byte '@' ∉ i := notMem_component (by decide)
  have hmost : ∀ n ∈ [4, 5, 6, 7, 8], (behind n).most (byte '@') = some 0 := by decide
  constructor
  · rintro ⟨a, ha, b, hb, hab⟩
    have hb' := notMem_component (hmost n hn) hb
    dsimp only at hab
    rcases hlogin hu with rfl | ⟨i, hi, rfl⟩ <;> rcases hlogin ha with rfl | ⟨j, hj, rfl⟩
    · obtain rfl : b = v := hab
      exact hb
    · exact absurd (show byte '@' ∈ v by rw [show v = _ from hab.symm]; simp) hv
    · exact absurd (show byte '@' ∈ b by rw [show b = _ from hab]; simp) hb'
    · have hsplit : j ++ byte '@' :: b = i ++ byte '@' :: v := by simpa using hab
      obtain ⟨-, rfl⟩ := append_cons_inj (huser hj) (huser hi) hsplit
      exact hb
  · intro h
    exact Language.append_mem_mul hu h

section

variable (hs : sch ∈ scheme.lang) (hu : u ∈ login.lang) (hin : Inner (u ++ v)) (hv : byte '@' ∉ v)

include hs hu hin hv

theorem emits_rest (hn : n < acts.length) : main.Emits n (head sch ++ (u ++ v)) x ↔
    n = 2 ∧ u ++ v = [] ∧ (userinfo.goes x = true ∨ x = some (byte '@') ∨ host.goes x = true ∨
      x = some (byte ':') ∨ x ∈ leaves) ∨
    n = 3 ∧ u ++ v ∈ userinfo.lang ∧ x = some (byte '@') ∨
    n = 4 ∧ v = [] ∧ (host.goes x = true ∨ x = some (byte ':') ∨ x ∈ leaves) ∨
    n = 5 ∧ v ∈ host.lang ∧ (x = some (byte ':') ∨ x ∈ leaves) ∨
    n = 6 ∧ v ∈ (behind 6).lang ∧ (x.any digit = true ∨ x ∈ leaves) ∨
    n = 7 ∧ v ∈ (behind 7).lang ∧ x ∈ leaves ∨
    n = 8 ∧ v ∈ (behind 8).lang ∧ x ∈ leaves ∨
    n = 9 ∧ u ++ v ∈ (rest 9).lang ∧ x ∈ follows 9 := by
  obtain ⟨h2, h3, h4, h5, h6, h7, h8, h9⟩ := goes_hier x
  have hb : ∀ n ∈ [4, 5, 6, 7, 8], u ++ v ∈ (Re.cat login (behind n)).lang ↔ v ∈ (behind n).lang :=
    fun n hn => mem_behind hu hv hn
  rw [emits_inner hs hin hn, ← h2, ← h3, ← h4, ← h5, ← h6, ← h9]
  constructor
  · rintro ⟨hn, hw, hgoes⟩
    simp only [hierPlaces, List.mem_cons, List.not_mem_nil, or_false] at hn
    rcases hn with rfl | rfl | rfl | rfl | rfl | rfl | rfl | rfl
    · exact .inl ⟨rfl, hw, hgoes⟩
    · exact .inr (.inl ⟨rfl, hw, hgoes⟩)
    · exact .inr (.inr (.inl ⟨rfl, (hb 4 (by decide)).mp hw, hgoes⟩))
    · exact .inr (.inr (.inr (.inl ⟨rfl, (hb 5 (by decide)).mp hw, hgoes⟩)))
    · exact .inr (.inr (.inr (.inr (.inl ⟨rfl, (hb 6 (by decide)).mp hw, hgoes⟩))))
    · exact .inr (.inr (.inr (.inr (.inr (.inl ⟨rfl, (hb 7 (by decide)).mp hw, h7.mp hgoes⟩)))))
    · exact .inr (.inr (.inr (.inr (.inr (.inr (.inl ⟨rfl, (hb 8 (by decide)).mp hw,
        h8.mp hgoes⟩))))))
    · exact .inr (.inr (.inr (.inr (.inr (.inr (.inr ⟨rfl, hw, hgoes⟩))))))
  · rintro (⟨rfl, hw, h⟩ | ⟨rfl, hw, h⟩ | ⟨rfl, hw, h⟩ | ⟨rfl, hw, h⟩ | ⟨rfl, hw, h⟩ |
      ⟨rfl, hw, h⟩ | ⟨rfl, hw, h⟩ | ⟨rfl, hw, h⟩)
    · exact ⟨by decide, hw, h⟩
    · exact ⟨by decide, hw, h⟩
    · exact ⟨by decide, (hb 4 (by decide)).mpr hw, h⟩
    · exact ⟨by decide, (hb 5 (by decide)).mpr hw, h⟩
    · exact ⟨by decide, (hb 6 (by decide)).mpr hw, h⟩
    · exact ⟨by decide, (hb 7 (by decide)).mpr hw, h7.mpr h⟩
    · exact ⟨by decide, (hb 8 (by decide)).mpr hw, h8.mpr h⟩
    · exact ⟨by decide, hw, h⟩

/-- On a letter the authority, the host or a port begins. -/
theorem emits_letter (hc : c ∉ delims) (hn : n < acts.length) :
    main.Emits n (head sch ++ (u ++ v)) (some c) ↔
      n = 2 ∧ u ++ v = [] ∧ (userinfo.goes (some c) = true ∨ host.goes (some c) = true) ∨
      n = 4 ∧ v = [] ∧ host.goes (some c) = true ∨
      n = 6 ∧ v ∈ (behind 6).lang ∧ digit c = true := by
  have hx : some c ∉ leaves ∧ some c ∉ follows 9 ∧ c ≠ byte '@' ∧ c ≠ byte ':' := by
    simp only [delims, List.mem_cons, List.not_mem_nil, or_false, not_or] at hc
    simp [leaves, follows, hc]
  simp [emits_rest hs hu hin hv hn, hx]

theorem emits_colon (hn : n < acts.length) : main.Emits n (head sch ++ (u ++ v)) (some (byte ':')) ↔
    n = 2 ∧ u ++ v = [] ∨ n = 4 ∧ v = [] ∨ n = 5 ∧ v ∈ host.lang := by
  have hx : some (byte ':') ∉ leaves ∧ some (byte ':') ∉ follows 9 ∧ byte ':' ≠ byte '@' ∧
      digit (byte ':') = false := by decide
  simp [emits_rest hs hu hin hv hn, hx]

theorem emits_slash (hn : n < acts.length) : main.Emits n (head sch ++ (u ++ v)) (some (byte '/')) ↔
    n = 2 ∧ u ++ v = [] ∨ n = 4 ∧ v = [] ∨ n = 5 ∧ v ∈ host.lang ∨ n = 6 ∧ v ∈ (behind 6).lang ∨
      n = 7 ∧ v ∈ (behind 7).lang ∨ n = 8 ∧ v ∈ (behind 8).lang := by
  have hx : some (byte '/') ∈ leaves ∧ some (byte '/') ∉ follows 9 ∧ byte '/' ≠ byte '@' := by
    decide
  simp [emits_rest hs hu hin hv hn, hx]

end

theorem emits_at (hs : sch ∈ scheme.lang) (hv : byte '@' ∉ v) (hin : Inner v)
    (hn : n < acts.length) :
    main.Emits n (head sch ++ v) (some (byte '@')) ↔
      n = 2 ∧ v = [] ∨ n = 3 ∧ v ∈ userinfo.lang := by
  have hx : some (byte '@') ∉ leaves ∧ some (byte '@') ∉ follows 9 ∧ byte '@' ≠ byte ':' ∧
      digit (byte '@') = false ∧ host.goes (some (byte '@')) = false := by decide
  have hrest := emits_rest (x := some (byte '@')) hs (show [] ∈ login.lang from .inr rfl) hin hv hn
  simpa [hx] using hrest

/-! ## Reading -/

/-- The actions on the letters of `w`, the first ones of `s`, have left the state `st`. -/
def Reads (s w : List UInt8) (st : State) : Prop :=
  run acts (execAction s) main {} [] w = some st

variable {st st' : State} {l : List Nat} {i h h' a b : List UInt8}

theorem Reads.step (hr : Reads s w st)
    (hl : ∀ n < acts.length, main.Emits n w (some c) ↔ n ∈ l)
    (hst : (actions acts l).foldlM (execAction s w.length) st = some st') :
    Reads s (w ++ [c]) st' := by
  have hactions : actions acts (main.fired w (some c)) = actions acts l := actions_congr hl
  rw [Reads, run_append, show run _ _ _ _ _ w = some st from hr, Option.bind_some, List.nil_append,
    run, hactions, hst]
  rfl

theorem Reads.quiet (hr : Reads s w st) (hl : ∀ v₁ c v₂, v = v₁ ++ c :: v₂ →
    ∀ n < acts.length, ¬main.Emits n (w ++ v₁) (some c)) : Reads s (w ++ v) st := by
  induction v using List.reverseRecOn with
  | nil => rwa [List.append_nil]
  | append_singleton v c ih =>
    rw [← List.append_assoc]
    have hread := ih fun v₁ c' v₂ h => hl v₁ c' (v₂ ++ [c]) (by simp [h])
    refine hread.step (l := []) (fun n hn => iff_of_false (hl v c [] rfl n hn) (by simp)) ?_
    rw [actions_nil]
    rfl

theorem string_eq (h : w ++ v <+: s) : string s (w ++ v).length (some w.length) = some v := by
  obtain ⟨t, rfl⟩ := h
  rw [string, if_pos (by simp), List.append_assoc, List.drop_left, List.length_append,
    Nat.add_sub_cancel_left, List.take_left]

/-- What is saved of a component that the mark is before. -/
theorem saves (h : w ++ v <+: s) (r : Uri) :
    ([Action.saveScheme].foldlM (execAction s (w ++ v).length) { mark := some w.length, uri := r } =
      some { mark := none, uri := { r with scheme := v } }) ∧
    ([Action.saveUserinfo].foldlM (execAction s (w ++ v).length)
        { mark := some w.length, uri := r } =
      some { mark := none, uri := { r with userInfo := v } }) ∧
    ([Action.saveHost].foldlM (execAction s (w ++ v).length) { mark := some w.length, uri := r } =
      some { mark := some w.length, uri := { r with host := v } }) ∧
    ([Action.savePath].foldlM (execAction s (w ++ v).length) { mark := some w.length, uri := r } =
      some { mark := none, uri := { r with path := v } }) ∧
    ([Action.saveQuery].foldlM (execAction s (w ++ v).length) { mark := some w.length, uri := r } =
      some { mark := none, uri := { r with query := v } }) ∧
    [Action.saveFragment].foldlM (execAction s (w ++ v).length)
        { mark := some w.length, uri := r } =
      some { mark := none, uri := { r with fragment := v } } := by
  simp only [List.foldlM_cons, List.foldlM_nil, execAction, string_eq h, Option.isSome_some,
    if_true, Option.map_some]
  exact ⟨rfl, rfl, rfl, rfl, rfl, rfl⟩

/-! ## Hosts and user infos -/

theorem ipLiteral_ends (hh : h ∈ ipLiteral.lang) :
    ∃ m, h = byte '[' :: (m ++ [byte ']']) ∧ byte ']' ∉ m := by
  simp only [ipLiteral, Re.seq, List.foldr_cons, List.foldr_nil] at hh
  obtain ⟨_, rfl, _, ⟨m, hm, _, ⟨_, rfl, _, rfl, rfl⟩, rfl⟩, rfl⟩ := hh
  exact ⟨m, rfl, notMem_component (by decide) hm⟩

theorem host_cases (hh : h ∈ host.lang) :
    h ∈ ipLiteral.lang ∨ byte ':' ∉ h ∧ byte '[' ∉ h := by
  rcases hh with hh | hh | hh
  · exact .inl hh
  · exact .inr ⟨notMem_component (by decide) hh, notMem_component (by decide) hh⟩
  · exact .inr ⟨notMem_component (by decide) hh, notMem_component (by decide) hh⟩

/-- No host goes on, after another one, with a colon. -/
theorem host_colon (hh : h ∈ host.lang) (hh' : h' ∈ host.lang) : h ≠ h' ++ byte ':' :: t := by
  rintro rfl
  rcases host_cases hh with hip | ⟨hcolon, -⟩
  · obtain ⟨m, hm, hmem⟩ := ipLiteral_ends hip
    rcases host_cases hh' with hip' | ⟨-, hbracket⟩
    · obtain ⟨m', rfl, hmem'⟩ := ipLiteral_ends hip'
      have hsplit : m' ++ byte ']' :: (byte ':' :: t) = m ++ byte ']' :: [] := by simpa using hm
      obtain ⟨-, hnil⟩ := append_cons_inj hmem' hmem hsplit
      cases hnil
    · cases h' with
      | nil => exact absurd (List.cons.inj hm).1 (by decide)
      | cons c h' =>
        obtain ⟨rfl, -⟩ := List.cons.inj hm
        exact hbracket List.mem_cons_self
  · exact hcolon (by simp)

/-- What comes before the first colon of a user info is a registered name. -/
theorem regName_of_userinfo (ha : byte ':' ∉ a) (hi : a ++ byte ':' :: b ∈ userinfo.lang) :
    a ∈ regName.lang := by
  have hcons : ∀ {p q : List UInt8},
      p ∈ (Re.any [.cls unreserved, pctEncoded, .cls subDelims]).lang → p ≠ [] →
      q ∈ regName.lang → p ++ q ∈ regName.lang := by
    intro p q hp hne hq
    obtain ⟨c, p, rfl⟩ := List.exists_cons_of_ne_nil hne
    exact mem_kstar_cons.mpr ⟨p, q, hp, hq, rfl⟩
  induction hlen : a.length using Nat.strong_induction_on generalizing a with
  | _ k ih =>
    cases a with
    | nil => exact Language.nil_mem_kstar _
    | cons c a =>
      obtain ⟨p, q, hp, hq, hpq⟩ := mem_kstar_cons.mp hi
      have ha' : byte ':' ∉ a := fun h => ha (List.mem_cons_of_mem c h)
      rcases hp with hp | hp | hp | hp
      · obtain ⟨d, hd, heq⟩ := hp
        cases heq
        rw [List.nil_append] at hpq
        subst hpq
        exact hcons (p := [c]) (.inl ⟨c, hd, rfl⟩) (List.cons_ne_nil c [])
          (ih a.length (by simp [← hlen]) ha' hq rfl)
      · simp only [pctEncoded, Re.seq, List.foldr_cons, List.foldr_nil] at hp
        obtain ⟨_, rfl, _, ⟨_, ⟨y, hy, rfl⟩, _, ⟨_, ⟨z, hz, rfl⟩, _, rfl, rfl⟩, rfl⟩, heq⟩ := hp
        cases heq
        have hcolon : xdigit (byte ':') = false := by decide
        rcases a with _ | ⟨y', _ | ⟨z', a⟩⟩
        · obtain ⟨rfl, -⟩ := List.cons.inj hpq
          exact absurd hy (by simp [hcolon])
        · obtain ⟨-, htail⟩ := List.cons.inj hpq
          obtain ⟨rfl, -⟩ := List.cons.inj htail
          exact absurd hz (by simp [hcolon])
        · obtain ⟨rfl, htail⟩ := List.cons.inj hpq
          obtain ⟨rfl, rfl⟩ := List.cons.inj htail
          refine hcons (p := [byte '%', y, z]) (.inr (.inl ?_)) (List.cons_ne_nil _ _)
            (ih a.length (by simp [← hlen]; omega) (fun h => ha' (by simp [h])) hq rfl)
          exact ⟨_, rfl, _, ⟨_, ⟨y, hy, rfl⟩, _, ⟨_, ⟨z, hz, rfl⟩, _, rfl, rfl⟩, rfl⟩, rfl⟩
      · obtain ⟨d, hd, heq⟩ := hp
        cases heq
        rw [List.nil_append] at hpq
        subst hpq
        exact hcons (p := [c]) (.inr (.inr ⟨c, hd, rfl⟩)) (List.cons_ne_nil c [])
          (ih a.length (by simp [← hlen]) ha' hq rfl)
      · cases hp
        exact absurd List.mem_cons_self ha

/-- What `Uri::Create` keeps of a user info. -/
def keptUserInfo (i : List UInt8) : List UInt8 :=
  match i.dropWhile (· != byte ':') with
  | _ :: d :: r => if digit d then d :: r else i
  | _ => i

theorem goes_regName {c : UInt8} (hgoes : userinfo.goes (some c) = true) (hc : c ≠ byte ':') :
    host.goes (some c) = true := by
  have hall : ∀ c : UInt8, userinfo.goes (some c) = true →
      c = byte ':' ∨ host.goes (some c) = true :=
    CString.forall_byte fun n hn => (userinfo_table n hn).1
  exact (hall c hgoes).resolve_left hc

theorem colon_mem_behind {v : List UInt8} (hv : v ∈ (behind 6).lang) :
    ∃ h ∈ host.lang, v = h ++ [byte ':'] := by
  obtain ⟨h, hh, _, rfl, rfl⟩ := hv
  exact ⟨h, hh, rfl⟩

/-- The letters of a user info. -/
theorem userinfo_notMem (hi : i ∈ userinfo.lang) :
    byte '@' ∉ i ∧ byte '/' ∉ i ∧ byte '?' ∉ i ∧ byte '#' ∉ i := by
  have hmost : ∀ c ∈ ends, userinfo.most c = some 0 := fun c hc => (letter_table.2.1 c hc).1
  exact ⟨notMem_component (hmost _ (by simp [ends])) hi,
    notMem_component (hmost _ (by simp [ends])) hi,
    notMem_component (hmost _ (by simp [ends])) hi,
    notMem_component (hmost _ (by simp [ends])) hi⟩

theorem nil_login : [] ∈ login.lang := .inr rfl

/-- The user info up to its first colon. -/
theorem reads_name (hs : sch ∈ scheme.lang) (hi : a ++ t ∈ userinfo.lang) (hne : a ≠ [])
    (ha : byte ':' ∉ a) (hr : Reads s (head sch) st) :
    Reads s (head sch ++ a) { st with mark := some (head sch).length } := by
  obtain ⟨hat, hslash, hquestion, hhash⟩ := userinfo_notMem hi
  have hmem : ∀ {c}, c ∈ a → c ∈ a ++ t := fun h => List.mem_append_left t h
  have hdelims : ∀ c ∈ a, c ∉ delims := by
    intro c hc
    simp only [delims, List.mem_cons, List.not_mem_nil, or_false, not_or]
    refine ⟨?_, ?_, ?_, ?_, ?_⟩ <;> rintro rfl
    · exact ha hc
    · exact hat (hmem hc)
    · exact hslash (hmem hc)
    · exact hquestion (hmem hc)
    · exact hhash (hmem hc)
  have hinner : ∀ v, v <+: a → Inner ([] ++ v) ∧ byte '@' ∉ v ∧ byte ':' ∉ v := by
    intro v hv
    have hsub : ∀ {c}, c ∈ v → c ∈ a ++ t := fun h => hmem (hv.subset h)
    exact ⟨⟨fun h => hslash (hsub h), fun h => hquestion (hsub h), fun h => hhash (hsub h)⟩,
      fun h => hat (hsub h), fun h => ha (hv.subset h)⟩
  have hsix : ∀ v, v <+: a → v ∉ (behind 6).lang := by
    intro v hv hmem
    obtain ⟨h, -, rfl⟩ := colon_mem_behind hmem
    exact (hinner _ hv).2.2 (by simp)
  obtain ⟨c, a, rfl⟩ := List.exists_cons_of_ne_nil hne
  have hgoes : userinfo.goes (some c) = true := Re.goes_of_cons_mem hi
  have hc : c ≠ byte ':' := fun h => ha (h ▸ List.mem_cons_self)
  have hfirst : Reads s (head sch ++ [c]) { st with mark := some (head sch).length } := by
    refine hr.step (l := [2, 4]) (fun n hn => ?_) ?_
    · have hnil := hinner [] (List.nil_prefix)
      have he := emits_letter hs nil_login hnil.1 hnil.2.1 (hdelims c List.mem_cons_self) hn
      rw [List.append_nil, List.append_nil] at he
      rw [he]
      simp [hgoes, goes_regName hgoes hc, hsix [] List.nil_prefix]
    · rw [show actions acts [2, 4] = [.markh] by decide]
      rfl
  have hrest := hfirst.quiet (v := a) fun v₁ d v₂ h n hn => ?_
  · rwa [List.append_assoc, List.singleton_append] at hrest
  · have hpre : c :: v₁ <+: c :: a := by
      rw [h]
      exact ⟨d :: v₂, rfl⟩
    have hv := hinner _ hpre
    have he := emits_letter hs nil_login hv.1 hv.2.1 (hdelims d (by simp [h])) hn
    rw [List.append_assoc, List.singleton_append]
    rw [List.nil_append] at he
    rw [he]
    simp [hsix _ hpre]

/-- A host that was read, and a colon, are not the beginning of a host or of an authority with an
empty port. -/
theorem notMem_of_colon (ha : a ∈ host.lang) :
    a ++ byte ':' :: b ∉ host.lang ∧ (b ≠ [] → a ++ byte ':' :: b ∉ (behind 6).lang) := by
  refine ⟨fun h => host_colon h ha rfl, fun hne hmem => ?_⟩
  obtain ⟨h, hh, heq⟩ := colon_mem_behind hmem
  obtain ⟨b', d, rfl⟩ := (List.eq_nil_or_concat b).resolve_left hne
  rw [List.concat_eq_append, ← List.cons_append, ← List.append_assoc] at heq
  exact host_colon hh ha (List.append_inj_left' heq rfl).symm

theorem dropWhile_colon (ha : byte ':' ∉ a) (b : List UInt8) :
    (a ++ byte ':' :: b).dropWhile (· != byte ':') = byte ':' :: b := by
  have hall : ∀ c ∈ a, (c != byte ':') = true := by
    intro c hc
    rw [bne_iff_ne]
    rintro rfl
    exact ha hc
  rw [List.dropWhile_append_of_pos hall, List.dropWhile_cons_of_neg (by simp)]

theorem keptUserInfo_of_notMem (hi : byte ':' ∉ i) : keptUserInfo i = i := by
  have hdrop : i.dropWhile (· != byte ':') = [] := by
    rw [List.dropWhile_eq_nil_iff]
    intro c hc
    rw [bne_iff_ne]
    rintro rfl
    exact hi hc
  rw [keptUserInfo, hdrop]

/-- The letters of a user info behind its first colon: the mark moves to the first one if it is a
digit. -/
theorem reads_behind (hs : sch ∈ scheme.lang) (hi : a ++ byte ':' :: b ∈ userinfo.lang)
    (ha : byte ':' ∉ a) {k : Nat} {r : Uri}
    (hr : Reads s (head sch ++ (a ++ [byte ':'])) { mark := some k, uri := r }) :
    Reads s (head sch ++ (a ++ byte ':' :: b))
      { mark := some (if b.head?.any digit then (head sch ++ (a ++ [byte ':'])).length else k),
        uri := r } := by
  obtain ⟨hat, hslash, hquestion, hhash⟩ := userinfo_notMem hi
  have hhost : a ∈ host.lang := .inr (.inr (regName_of_userinfo ha hi))
  have hinner : ∀ v, v <+: a ++ byte ':' :: b → Inner ([] ++ v) ∧ byte '@' ∉ v := fun v hv =>
    ⟨⟨fun h => hslash (hv.subset h), fun h => hquestion (hv.subset h),
      fun h => hhash (hv.subset h)⟩, fun h => hat (hv.subset h)⟩
  -- behind the colon only the port of an authority can begin
  have hemits : ∀ v₁ d v₂, b = v₁ ++ d :: v₂ → ∀ n < acts.length,
      (main.Emits n (head sch ++ (a ++ byte ':' :: v₁)) (some d) ↔
        n = 6 ∧ v₁ = [] ∧ digit d = true) := by
    intro v₁ d v₂ hb n hn
    have hpre : a ++ byte ':' :: v₁ <+: a ++ byte ':' :: b := by
      rw [hb]
      exact ⟨d :: v₂, by simp⟩
    obtain ⟨hin, hv⟩ := hinner _ hpre
    obtain ⟨hno, hsix⟩ := notMem_of_colon (b := v₁) hhost
    by_cases hd : d = byte ':'
    · subst hd
      have he := emits_colon hs nil_login hin hv hn
      rw [List.nil_append] at he
      rw [he]
      simp [hno, show digit (byte ':') = false by decide]
    · have hdelims : d ∉ delims := by
        have hmem : d ∈ a ++ byte ':' :: b := by simp [hb]
        simp only [delims, List.mem_cons, List.not_mem_nil, or_false, not_or]
        exact ⟨hd, fun h => hat (h ▸ hmem), fun h => hslash (h ▸ hmem),
          fun h => hquestion (h ▸ hmem), fun h => hhash (h ▸ hmem)⟩
      have he := emits_letter hs nil_login hin hv hdelims hn
      rw [List.nil_append] at he
      rw [he]
      have hiff : a ++ byte ':' :: v₁ ∈ (behind 6).lang ↔ v₁ = [] := by
        refine ⟨fun h => ?_, ?_⟩
        · by_contra hne
          exact hsix hne h
        · rintro rfl
          exact Language.append_mem_mul hhost rfl
      simp [hiff]
  cases b with
  | nil => simpa using hr
  | cons d b =>
    have hfirst : Reads s (head sch ++ (a ++ [byte ':']) ++ [d])
        { mark := some (if digit d then (head sch ++ (a ++ [byte ':'])).length else k),
          uri := r } := by
      cases hd : digit d with
      | true =>
        refine hr.step (l := [6]) (fun n hn => ?_) ?_
        · rw [hemits [] d b rfl n hn]
          simp [hd]
        · rw [show actions acts [6] = [.markh] by decide]
          rfl
      | false =>
        refine hr.step (l := []) (fun n hn => ?_) ?_
        · rw [hemits [] d b rfl n hn]
          simp [hd]
        · rw [actions_nil]
          rfl
    have hrest := hfirst.quiet (v := b) fun v₁ c v₂ h n hn => ?_
    · simpa using hrest
    · have he := hemits (d :: v₁) c v₂ (by simp [h]) n hn
      simp only [List.append_assoc, List.cons_append, List.nil_append] at he ⊢
      rw [he]
      simp

theorem reads_userinfo (hs : sch ∈ scheme.lang) (hi : i ∈ userinfo.lang) (hne : i ≠ [])
    (hpre : head sch ++ i <+: s) (hr : Reads s (head sch) { uri := { scheme := sch } }) :
    ∃ h l, keptUserInfo i <:+ i ∧ (head sch ++ i).length = l + (keptUserInfo i).length ∧
      Reads s (head sch ++ i) { mark := some l, uri := { scheme := sch, host := h } } := by
  by_cases hcolon : byte ':' ∈ i
  · obtain ⟨a, b, rfl, ha⟩ := List.eq_append_cons_of_mem hcolon
    obtain ⟨hat, hslash, hquestion, hhash⟩ := userinfo_notMem hi
    have hhost : a ∈ host.lang := .inr (.inr (regName_of_userinfo ha hi))
    -- the letters up to the colon are saved as a host
    have hfirst : Reads s (head sch ++ (a ++ [byte ':']))
        { mark := some (head sch).length, uri := { scheme := sch, host := a } } := by
      have hin : Inner ([] ++ a) := ⟨fun h => hslash (List.mem_append_left _ h),
        fun h => hquestion (List.mem_append_left _ h), fun h => hhash (List.mem_append_left _ h)⟩
      have hv : byte '@' ∉ a := fun h => hat (List.mem_append_left _ h)
      have hemits := fun n hn => emits_colon hs nil_login hin hv (n := n) hn
      rw [← List.append_assoc]
      cases a with
      | nil =>
        rw [List.append_nil]
        refine hr.step (l := [2, 4, 5]) (fun n hn => ?_) ?_
        · have he := hemits n hn
          rw [List.append_nil, List.append_nil] at he
          rw [he]
          simp [hhost]
        · rw [show actions acts [2, 4, 5] = [.markh, .saveHost] by decide]
          obtain ⟨-, -, hsave, -⟩ := saves (w := head sch) (v := []) (s := s)
            (by simpa using (List.prefix_append _ _).trans hpre) { scheme := sch }
          rw [List.append_nil] at hsave
          exact hsave
      | cons c a =>
        have hname := reads_name hs hi (List.cons_ne_nil c a) ha hr
        refine hname.step (l := [5]) (fun n hn => ?_) ?_
        · have he := hemits n hn
          rw [List.nil_append] at he
          rw [he]
          simp [hhost]
        · rw [show actions acts [5] = [.saveHost] by decide]
          rw [← List.append_assoc] at hpre
          exact (saves ((List.prefix_append _ _).trans hpre) _).2.2.1
    have hrest := reads_behind hs hi ha hfirst
    have hdrop := dropWhile_colon ha b
    refine ⟨a, _, ?_, ?_, hrest⟩
    · rw [keptUserInfo, hdrop]
      cases b with
      | nil => exact List.suffix_rfl
      | cons d b =>
        dsimp only
        split
        · exact ⟨a ++ [byte ':'], by simp⟩
        · exact List.suffix_rfl
    · rw [keptUserInfo, hdrop]
      cases b with
      | nil => simp
      | cons d b =>
        dsimp only [List.head?_cons, Option.any_some]
        by_cases hd : digit d = true
        · simp only [if_pos hd, List.length_append, List.length_cons, List.length_nil]
          omega
        · simp only [if_neg hd, List.length_append, List.length_cons]
  · have hname := reads_name (t := []) hs (by rwa [List.append_nil]) hne hcolon hr
    refine ⟨_, _, ?_, ?_, hname⟩
    · rw [keptUserInfo_of_notMem hcolon]
    · rw [keptUserInfo_of_notMem hcolon, List.length_append]

theorem reads_login (hs : sch ∈ scheme.lang) (hi : i ∈ userinfo.lang)
    (hpre : head sch ++ i <+: s) (hr : Reads s (head sch) { uri := { scheme := sch } }) :
    ∃ h, Reads s (head sch ++ if i.isEmpty then [] else i ++ [byte '@'])
      { uri := { scheme := sch, userInfo := keptUserInfo i, host := h } } := by
  by_cases hne : i = []
  · subst hne
    refine ⟨[], ?_⟩
    rw [List.isEmpty_nil, if_pos rfl, List.append_nil]
    exact hr
  · obtain ⟨h, l, ⟨i', hi'⟩, hlength, hread⟩ := reads_userinfo hs hi hne hpre hr
    obtain ⟨hat, hslash, hquestion, hhash⟩ := userinfo_notMem hi
    refine ⟨h, ?_⟩
    rw [if_neg (by simpa using hne), ← List.append_assoc]
    refine hread.step (l := [3]) (fun n hn => ?_) ?_
    · rw [emits_at hs hat ⟨hslash, hquestion, hhash⟩ hn]
      simp [hne, hi]
    · rw [show actions acts [3] = [.saveUserinfo] by decide]
      have hmark : (head sch ++ i').length = l := by
        have hsplit := congrArg List.length hi'
        simp only [List.length_append] at hlength hsplit ⊢
        omega
      have hword : head sch ++ i = head sch ++ i' ++ keptUserInfo i := by
        rw [List.append_assoc, hi']
      rw [hword] at hpre ⊢
      rw [← hmark]
      exact (saves hpre _).2.1

/-! ## Host and port -/

theorem host_notMem (hh : h ∈ host.lang) : ∀ c ∈ ends, c ∉ h := by
  have hmost : ∀ c ∈ ends, host.most c = some 0 := fun c hc => (letter_table.2.1 c hc).2
  exact fun c hc => notMem_component (hmost c hc) hh

theorem inner_login (hu : u ∈ login.lang) (hv : ∀ c ∈ ends, c ∉ v) :
    Inner (u ++ v) ∧ byte '@' ∉ v := by
  have hmost : ∀ c ∈ [byte '/', byte '?', byte '#'], login.most c = some 0 ∧ c ∈ ends :=
    letter_table.2.2.1
  have hboth : ∀ c ∈ [byte '/', byte '?', byte '#'], c ∉ u ++ v := by
    intro c hc
    rw [List.mem_append, not_or]
    exact ⟨notMem_component (hmost c hc).1 hu, hv c (hmost c hc).2⟩
  exact ⟨⟨hboth _ (by simp), hboth _ (by simp), hboth _ (by simp)⟩, hv _ (by simp [ends])⟩

theorem reads_host {r : Uri} (hs : sch ∈ scheme.lang) (hu : u ∈ login.lang) (hh : h ∈ host.lang)
    (hne : h ≠ []) (hr : Reads s (head sch ++ u) { uri := r }) :
    Reads s (head sch ++ (u ++ h)) { mark := some (head sch ++ u).length, uri := r } := by
  have hends := host_notMem hh
  have hinner : ∀ v, v <+: h → Inner (u ++ v) ∧ byte '@' ∉ v := fun v hv =>
    inner_login hu fun c hc hmem => hends c hc (hv.subset hmem)
  have hletter : ∀ c ∈ h, c ≠ byte ':' → c ∉ delims := by
    intro c hc hcolon hd
    have hcases : ∀ c ∈ delims, c = byte ':' ∨ c ∈ ends := letter_table.2.2.2.2.1
    exact hends c ((hcases c hd).resolve_left hcolon) hc
  have hsix : ∀ v d v', h = v ++ d :: v' → v ∉ (behind 6).lang := by
    intro v d v' heq hmem
    obtain ⟨h', hh', rfl⟩ := colon_mem_behind hmem
    exact host_colon hh hh' (t := d :: v') (by simp [heq])
  obtain ⟨c, h, rfl⟩ := List.exists_cons_of_ne_nil hne
  have hgoes : host.goes (some c) = true := Re.goes_of_cons_mem hh
  have hc : c ≠ byte ':' := by
    rintro rfl
    rw [letter_table.2.2.2.2.2] at hgoes
    cases hgoes
  have hfirst : Reads s (head sch ++ u ++ [c])
      { mark := some (head sch ++ u).length, uri := r } := by
    have hemits : ∀ n < acts.length, (main.Emits n (head sch ++ u) (some c) ↔
        n = 2 ∧ u = [] ∨ n = 4) := by
      intro n hn
      obtain ⟨hin, hv⟩ := hinner [] List.nil_prefix
      have he := emits_letter hs hu hin hv (hletter c List.mem_cons_self hc) hn
      rw [List.append_nil] at he
      rw [he]
      simp [hgoes, hsix [] c h rfl]
    by_cases hnil : u = []
    · refine hr.step (l := [2, 4]) (fun n hn => ?_) ?_
      · rw [hemits n hn]
        simp [hnil]
      · rw [show actions acts [2, 4] = [.markh] by decide]
        rfl
    · refine hr.step (l := [4]) (fun n hn => ?_) ?_
      · rw [hemits n hn]
        simp [hnil]
      · rw [show actions acts [4] = [.markh] by decide]
        rfl
  have hrest := hfirst.quiet (v := h) fun v₁ d v₂ heq n hn => ?_
  · simpa using hrest
  · have hsplit : c :: h = (c :: v₁) ++ d :: v₂ := by simp [heq]
    obtain ⟨hin, hv⟩ := hinner (c :: v₁) ⟨d :: v₂, hsplit.symm⟩
    have hword : head sch ++ u ++ [c] ++ v₁ = head sch ++ (u ++ c :: v₁) := by simp
    rw [hword]
    by_cases hd : d = byte ':'
    · subst hd
      rw [emits_colon hs hu hin hv hn]
      have hno : c :: v₁ ∉ host.lang := fun h' => host_colon hh h' hsplit
      simp [hno]
    · rw [emits_letter hs hu hin hv (hletter d (by simp [heq]) hd) hn]
      simp [hsix _ _ _ hsplit]

theorem mem_star {r : Re UInt8} (hv : ∀ c ∈ v, [c] ∈ r.lang) : v ∈ (Re.star r).lang := by
  induction v with
  | nil => exact Language.nil_mem_kstar _
  | cons c v ih =>
    refine mem_kstar_cons.mpr ⟨[], v, hv c List.mem_cons_self, ?_, rfl⟩
    exact ih fun d hd => hv d (List.mem_cons_of_mem c hd)

theorem digits_mem_port (hv : ∀ c ∈ v, digit c = true) : v ∈ port.lang :=
  mem_star fun c hc => ⟨c, hv c hc, rfl⟩

theorem showNat_digits (k : Nat) : ∀ c ∈ CString.showNat k, digit c = true ∧ c ∉ ends ∧
    c ∉ delims := by
  have hall : ∀ c : UInt8, CString.IsDigit 10 c → digit c = true ∧ c ∉ ends ∧ c ∉ delims :=
    CString.forall_byte fun n hn => (userinfo_table n hn).2
  exact fun c hc => hall c ((CString.showNat_eq k).2.1 c hc)

theorem atoi_eq {p : Int} (hp : 0 ≤ p ∧ p < 2 ^ 31)
    (hpre : w ++ CString.showNat p.toNat ++ [byte '/'] <+: s) :
    atoi s (some w.length) = some p := by
  obtain ⟨t, rfl⟩ := hpre
  obtain ⟨hne, hdigits, hvalue⟩ := CString.showNat_eq p.toNat
  have hslash : ∀ b ∈ (byte '/' :: t).head?, ¬CString.IsDigit 10 b ∧ b ≠ 120 ∧ b ≠ 88 := by
    intro b hb
    cases hb
    decide
  have hdrop : (w ++ CString.showNat p.toNat ++ [byte '/'] ++ t).drop w.length =
      CString.showNat p.toNat ++ byte '/' :: t := by
    simp
  rw [atoi, hdrop, CString.strtol_digits hdigits hne hslash, hvalue]
  have hmin : min ((p.toNat : Int)) (2 ^ 63 - 1) = p := by omega
  rw [hmin, Int.bmod_eq_of_le] <;> omega

theorem port_mem_behind {v : List UInt8} (hv : v ∈ (behind 7).lang) :
    ∃ h ∈ host.lang, ∃ t, v = h ++ byte ':' :: t := by
  obtain ⟨h, hh, _, ⟨_, rfl, t, -, rfl⟩, rfl⟩ := hv
  exact ⟨h, hh, t, rfl⟩

theorem reads_slash {r : Uri} (hs : sch ∈ scheme.lang) (hu : u ∈ login.lang) (hh : h ∈ host.lang)
    (hne : h ≠ []) (hpre : head sch ++ (u ++ h) <+: s)
    (hr : Reads s (head sch ++ (u ++ h)) { mark := some (head sch ++ u).length, uri := r }) :
    Reads s (head sch ++ (u ++ h) ++ [byte '/'])
      { mark := some (head sch ++ (u ++ h)).length, uri := { r with host := h } } := by
  obtain ⟨hin, hat⟩ := inner_login hu (host_notMem hh)
  have h6 : h ∉ (behind 6).lang := by
    intro hmem
    obtain ⟨h', hh', heq⟩ := colon_mem_behind hmem
    exact host_colon hh hh' heq
  have h7 : h ∉ (behind 7).lang := by
    intro hmem
    obtain ⟨h', hh', t, heq⟩ := port_mem_behind hmem
    exact host_colon hh hh' heq
  have h8 : h ∈ (behind 8).lang := by
    have hmem := Language.append_mem_mul hh
      (show [] ∈ (Re.opt (.cat (chr ':') port)).lang from .inr rfl)
    rwa [List.append_nil] at hmem
  refine hr.step (l := [5, 8]) (fun n hn => ?_) ?_
  · rw [emits_slash hs hu hin hat hn]
    simp [hne, hh, h6, h7, h8]
  · rw [show actions acts [5, 8] = [.saveHost] ++ [.markh] by decide, List.foldlM_append]
    rw [← List.append_assoc] at hpre ⊢
    rw [(saves hpre r).2.2.1]
    rfl

theorem reads_port {r : Uri} {p : Int} (hs : sch ∈ scheme.lang) (hu : u ∈ login.lang)
    (hh : h ∈ host.lang) (hne : h ≠ []) (hp : 0 ≤ p ∧ p < 2 ^ 31)
    (hpre : head sch ++ (u ++ (h ++ byte ':' :: CString.showNat p.toNat)) ++ [byte '/'] <+: s)
    (hr : Reads s (head sch ++ (u ++ h)) { mark := some (head sch ++ u).length, uri := r }) :
    Reads s (head sch ++ (u ++ (h ++ byte ':' :: CString.showNat p.toNat)) ++ [byte '/'])
      { mark := some (head sch ++ (u ++ (h ++ byte ':' :: CString.showNat p.toNat))).length,
        uri := { r with host := h, port := p } } := by
  have hends := host_notMem hh
  have hdigits := showNat_digits p.toNat
  obtain ⟨hnonempty, -, -⟩ := CString.showNat_eq p.toNat
  have hatoi := atoi_eq (w := head sch ++ (u ++ (h ++ [byte ':']))) (s := s) hp
    (by simpa using hpre)
  generalize CString.showNat p.toNat = ds at hdigits hnonempty hpre hatoi ⊢
  have hcolon : Reads s (head sch ++ (u ++ (h ++ [byte ':'])))
      { mark := some (head sch ++ u).length, uri := { r with host := h } } := by
    obtain ⟨hin, hat⟩ := inner_login hu hends
    have hword : head sch ++ (u ++ (h ++ [byte ':'])) = head sch ++ (u ++ h) ++ [byte ':'] := by
      simp
    rw [hword]
    refine hr.step (l := [5]) (fun n hn => ?_) ?_
    · rw [emits_colon hs hu hin hat hn]
      simp [hne, hh]
    · rw [show actions acts [5] = [.saveHost] by decide]
      rw [← List.append_assoc]
      refine (saves (.trans ⟨byte ':' :: ds ++ [byte '/'], ?_⟩ hpre) r).2.2.1
      simp
  -- the digits before a position
  have hport : ∀ v, v <+: ds →
      Inner (u ++ (h ++ byte ':' :: v)) ∧ byte '@' ∉ h ++ byte ':' :: v := by
    intro v hv
    refine inner_login hu fun c hc => ?_
    rw [List.mem_append, List.mem_cons, not_or, not_or]
    refine ⟨hends c hc, ?_, fun hmem => (hdigits c (hv.subset hmem)).2.1 hc⟩
    rintro rfl
    exact absurd hc (by decide)
  have hsix : ∀ v, h ++ byte ':' :: v ∈ (behind 6).lang ↔ v = [] := by
    refine fun v => ⟨fun hmem => ?_, ?_⟩
    · by_contra hv
      exact (notMem_of_colon hh).2 hv hmem
    · rintro rfl
      exact Language.append_mem_mul hh rfl
  obtain ⟨c, ds, rfl⟩ := List.exists_cons_of_ne_nil hnonempty
  have hfirst : Reads s (head sch ++ (u ++ (h ++ [byte ':'])) ++ [c])
      { mark := some (head sch ++ (u ++ (h ++ [byte ':']))).length,
        uri := { r with host := h } } := by
    obtain ⟨hin, hat⟩ := hport [] List.nil_prefix
    obtain ⟨hc, -, hdelims⟩ := hdigits c List.mem_cons_self
    refine hcolon.step (l := [6]) (fun n hn => ?_) ?_
    · rw [emits_letter hs hu hin hat hdelims hn, hsix]
      simp [hc]
    · rw [show actions acts [6] = [.markh] by decide]
      rfl
  have hrest := hfirst.quiet (v := ds) fun v₁ d v₂ heq n hn => ?_
  · obtain ⟨hin, hat⟩ := hport (c :: ds) List.prefix_rfl
    have hword : head sch ++ (u ++ (h ++ [byte ':'])) ++ [c] ++ ds =
        head sch ++ (u ++ (h ++ byte ':' :: c :: ds)) := by simp
    rw [hword] at hrest
    refine hrest.step (l := [7, 8]) (fun n hn => ?_) ?_
    · have h7 : h ++ byte ':' :: c :: ds ∈ (behind 7).lang := by
        refine Language.append_mem_mul hh (Language.append_mem_mul (a := [byte ':']) rfl ?_)
        exact digits_mem_port fun d hd => (hdigits d hd).1
      have h8 : h ++ byte ':' :: c :: ds ∈ (behind 8).lang := by
        obtain ⟨h', hh', t, ht, heq⟩ := h7
        exact ⟨h', hh', t, .inl ht, heq⟩
      rw [emits_slash hs hu hin hat hn, hsix]
      simp [h7, h8, (notMem_of_colon (b := c :: ds) hh).1]
    · have hlater : some (head sch ++ (u ++ (h ++ [byte ':']))).length ≠
          some (head sch ++ (u ++ (h ++ byte ':' :: c :: ds))).length := by
        rw [Ne, Option.some.injEq]
        simp only [List.length_append, List.length_cons, List.length_nil]
        omega
      rw [show actions acts [7, 8] = [.savePort, .markh] by decide]
      simp only [List.foldlM_cons, execAction, if_neg hlater, hatoi, Option.map_some]
      rfl
  · have hsplit : c :: ds = (c :: v₁) ++ d :: v₂ := by simp [heq]
    obtain ⟨hin, hat⟩ := hport (c :: v₁) ⟨d :: v₂, hsplit.symm⟩
    have hword : head sch ++ (u ++ (h ++ [byte ':'])) ++ [c] ++ v₁ =
        head sch ++ (u ++ (h ++ byte ':' :: c :: v₁)) := by simp
    rw [hword, emits_letter hs hu hin hat (hdigits d (by simp [heq])).2.2 hn, hsix]
    simp

end Tigerkin.UriParser
