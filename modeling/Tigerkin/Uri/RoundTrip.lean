import Tigerkin.Uri.Authority

/-! # Reading back what `Uri::dump` prints

`Uri::dump`, and the getters of `uri.cpp` that do not just return a field. -/

namespace Tigerkin.UriParser

open Ragel

namespace Uri

/-- The default is a static string. -/
def getPath (uri : Uri) : List UInt8 := if uri.path.isEmpty then [47] else uri.path

def isDefaultPort (uri : Uri) : Bool :=
  if uri.port = 0 then true
  else if uri.scheme = ['h', 't', 't', 'p'].map byte ∨ uri.scheme = ['w', 's'].map byte then
    uri.port == 80
  else if uri.scheme = ['h', 't', 't', 'p', 's'].map byte ∨ uri.scheme = ['w', 's', 's'].map byte
  then uri.port == 443
  else false

def getPort (uri : Uri) : Int :=
  if uri.port ≠ 0 then uri.port
  else if uri.scheme = ['h', 't', 't', 'p'].map byte ∨ uri.scheme = ['w', 's'].map byte then 80
  else if uri.scheme = ['h', 't', 't', 'p', 's'].map byte ∨ uri.scheme = ['w', 's', 's'].map byte
  then 443
  else uri.port

/-- `std::to_string` of a port that is not negative. -/
def portText (uri : Uri) : List UInt8 :=
  if uri.isDefaultPort then [] else byte ':' :: CString.showNat uri.port.toNat

/-- The user info with the delimiter that `dump` prints. -/
def loginText (uri : Uri) : List UInt8 :=
  if uri.userInfo.isEmpty then [] else uri.userInfo ++ [byte '@']

def queryText (uri : Uri) : List UInt8 := if uri.query.isEmpty then [] else byte '?' :: uri.query

def fragmentText (uri : Uri) : List UInt8 :=
  if uri.fragment.isEmpty then [] else byte '#' :: uri.fragment

def dump (uri : Uri) : List UInt8 :=
  uri.scheme ++ byte ':' :: byte '/' :: byte '/' :: (uri.loginText ++ uri.host ++ uri.portText ++
    uri.getPath ++ uri.queryText ++ uri.fragmentText)

end Uri

variable {n : Nat} {u v w s t sch a b : List UInt8} {c d : UInt8} {x : Option UInt8}

/-! ## Path, query and fragment -/

/-- A component is saved on `x` after `w`, by one action, and the uri is then `r`. -/
def Closes (s w : List UInt8) (x : Option UInt8) (r : Uri) : Prop :=
  ∃ st n, n < acts.length ∧ Reads s w st ∧ (∀ m < acts.length, main.Emits m w x ↔ m = n) ∧
    (actions acts [n]).foldlM (execAction s w.length) st = some { uri := r }

theorem Closes.step {r : Uri} (h : Closes s w (some c) r) : Reads s (w ++ [c]) { uri := r } := by
  obtain ⟨st, n, -, hr, hemits, hst⟩ := h
  exact hr.step (l := [n]) (fun m hm => (hemits m hm).trans List.mem_singleton.symm) hst

theorem Closes.create {r : Uri} (h : Closes s s none r) : create s = some (some r) := by
  obtain ⟨st, n, hn, hr, hemits, hst⟩ := h
  have hfired : main.Emits n s none := (hemits n hn).mpr rfl
  have hends : ((main.after s).flatMap Expr.ends).isEmpty = false := by
    have hmem : n ∈ main.fired s none := hfired
    rw [fired_none] at hmem
    cases hnil : (main.after s).flatMap Expr.ends with
    | nil =>
      rw [hnil] at hmem
      cases hmem
    | cons a l => rfl
  have hactions : actions acts (main.fired s none) = actions acts [n] :=
    actions_congr fun m hm => (hemits m hm).trans List.mem_singleton.symm
  have hexec : exec acts (execAction s) [main] 0 {} s = _ := exec_eq (e := main) (u := []) s
  rw [show run _ _ _ _ _ s = some st from hr, Option.bind_some, List.nil_append, hends,
    if_neg Bool.false_ne_true, hactions, hst] at hexec
  rw [UriParser.create, hexec]
  rfl

/-- The embeddings, by the part of a reference that they belong to. -/
theorem numbers_cases : ∀ n < acts.length, n ∈ [0, 1] ∨ n ∈ beforePath ∨ n = 9 ∨ n ∈ [10, 11] ∨
    n ∈ [12, 13] ∨ n ∈ List.range' 14 10 := by
  decide

section

variable (hs : sch ∈ scheme.lang)

include hs

/-- In a path nothing is executed before its end. -/
theorem emits_in_path (hw : 3 ≤ (head sch ++ w).count (byte '/')) (hquestion : byte '?' ∉ w)
    (hhash : byte '#' ∉ w) (hn : n < acts.length) : main.Emits n (head sch ++ w) x ↔
      n = 9 ∧ head sch ++ w ∈ (place 9).1.lang ∧ x ∈ follows 9 := by
  have hmem : ∀ c, c ∉ head sch → c ∉ w → c ∉ head sch ++ w := fun c h h' =>
    List.mem_append.not.mpr (not_or.mpr ⟨h, h'⟩)
  obtain ⟨hq, hh⟩ := head_notMem hs
  refine ⟨fun he => ?_, ?_⟩
  · have hplace := ((emits_iff hn).mp he).1
    rcases numbers_cases n hn with h | h | rfl | h | h | h
    · exact absurd (List.count_eq_zero.mpr (slash_notMem h hplace)) (by omega)
    · exact absurd (count_slash h hplace) (by omega)
    · exact ⟨rfl, (emits_null (by decide)).mp he⟩
    · have hquery : ∀ n ∈ [10, 11], n ∈ [10, 11, 20, 21] := by decide
      exact absurd (question_mem (hquery n h) hplace) (hmem _ hq hquestion)
    · have hfragment : ∀ n ∈ [12, 13], n ∈ [12, 13, 22, 23] := by decide
      exact absurd (hash_mem (hfragment n h) hplace) (hmem _ hh hhash)
    · exact absurd he (not_emits_relative hs h)
  · rintro ⟨rfl, h⟩
    exact (emits_null (by decide)).mpr h

/-- In a query the mark is set on its first letter. -/
theorem emits_in_query (hw : byte '?' ∈ head sch ++ w) (hhash : byte '#' ∉ w)
    (hn : n < acts.length) : main.Emits n (head sch ++ w) x ↔
      n = 10 ∧ main.Emits 10 (head sch ++ w) x ∨
      n = 11 ∧ head sch ++ w ∈ (place 11).1.lang ∧ x ∈ follows 11 := by
  obtain ⟨-, hh⟩ := head_notMem hs
  refine ⟨fun he => ?_, ?_⟩
  · have hplace := ((emits_iff hn).mp he).1
    have hcases : ∀ n < acts.length, n ∈ beforeQuery ∨ n = 10 ∨ n = 11 ∨ n ∈ [12, 13] ∨
        n ∈ List.range' 14 10 := by decide
    rcases hcases n hn with h | rfl | rfl | h | h
    · exact absurd hw (question_notMem h hplace)
    · exact .inl ⟨rfl, he⟩
    · exact .inr ⟨rfl, (emits_null (by decide)).mp he⟩
    · have hfragment : ∀ n ∈ [12, 13], n ∈ [12, 13, 22, 23] := by decide
      refine absurd (hash_mem (hfragment n h) hplace) ?_
      rw [List.mem_append, not_or]
      exact ⟨hh, hhash⟩
    · exact absurd he (not_emits_relative hs h)
  · rintro (⟨rfl, h⟩ | ⟨rfl, h⟩)
    · exact h
    · exact (emits_null (by decide)).mpr h

theorem emits_in_fragment (hw : byte '#' ∈ head sch ++ w) (hn : n < acts.length) :
    main.Emits n (head sch ++ w) x ↔
      n = 12 ∧ main.Emits 12 (head sch ++ w) x ∨
      n = 13 ∧ head sch ++ w ∈ (place 13).1.lang ∧ x = none := by
  refine ⟨fun he => ?_, ?_⟩
  · have hplace := ((emits_iff hn).mp he).1
    have hcases : ∀ n < acts.length, n ∈ beforeFragment ∨ n = 12 ∨ n = 13 ∨
        n ∈ List.range' 14 10 := by decide
    rcases hcases n hn with h | rfl | rfl | h
    · exact absurd hw (hash_notMem h hplace)
    · exact .inl ⟨rfl, he⟩
    · refine .inr ⟨rfl, ?_⟩
      simpa [follows] using (emits_null (n := 13) (by decide)).mp he
    · exact absurd he (not_emits_relative hs h)
  · rintro (⟨rfl, h⟩ | ⟨rfl, h, rfl⟩)
    · exact h
    · exact (emits_null (by decide)).mpr ⟨h, by decide⟩

end

/-- The embeddings of the marks of a query and a fragment, with the delimiters before them. -/
def opening : List (Nat × UInt8) := [(10, byte '?'), (12, byte '#')]

theorem lang_opening :
    (place 10).1.lang = scheme.lang * (chr ':').lang * hierPart.lang * (chr '?').lang ∧
    (place 12).1.lang = scheme.lang * (chr ':').lang * hierPart.lang *
      ((chr '?').lang * queryLetters.lang + 1) * (chr '#').lang := by
  constructor <;>
  simp [place, main, uri, relativeRef, hierPart, relativePart, authority, query, fragment,
    Expr.places, Expr.opt, Expr.lang, Re.lang, queryLetters, mul_assoc]

/-- These marks are set right behind the first such delimiter. -/
theorem emits_opening (hn : (n, c) ∈ opening) (hw : w ++ [c] ∈ (place n).1.lang) :
    main.Emits n (w ++ c :: v) x ↔ v = [] ∧ (place n).2.goes x = true := by
  have htable : ∀ y ∈ opening, y.1 < acts.length ∧ (place y.1).1.most y.2 = some 1 := by
    decide +kernel
  have hlast : ∃ L : Language UInt8, (place n).1.lang = L * (Re.char c).lang := by
    obtain ⟨hquery, hfragment⟩ := lang_opening
    simp only [opening, List.mem_cons, List.not_mem_nil, or_false, Prod.mk.injEq] at hn
    rcases hn with ⟨rfl, rfl⟩ | ⟨rfl, rfl⟩
    · exact ⟨_, hquery⟩
    · exact ⟨_, hfragment⟩
  obtain ⟨hlt, hmost⟩ := htable _ hn
  obtain ⟨L, hL⟩ := hlast
  rw [emits_iff hlt]
  refine and_congr_left fun _ => ⟨fun hmem => ?_, ?_⟩
  · have hcount := Expr.count_le_most hmost hmem
    rw [hL] at hmem
    obtain ⟨w', -, _, rfl, heq⟩ := Language.mem_mul.mp hmem
    by_contra hne
    obtain ⟨v', d, rfl⟩ := (List.eq_nil_or_concat v).resolve_left hne
    rw [List.concat_eq_append, ← List.cons_append, ← List.append_assoc] at heq
    obtain ⟨-, hd⟩ := List.append_inj' heq rfl
    cases hd
    simp at hcount
    omega
  · rintro rfl
    exact hw

/-- The letters of a query or a fragment, and its end. -/
theorem reads_component {q : List UInt8} {r : Uri} (hn : (n, c) ∈ opening)
    (hw : w ++ [c] ∈ (place n).1.lang) (hq : q ∈ queryLetters.lang) (hne : q ≠ [])
    (hemits : ∀ v, v <+: q → ∀ x, ∀ m < acts.length, main.Emits m (w ++ c :: v) x ↔
      m = n ∧ main.Emits n (w ++ c :: v) x ∨
      m = n + 1 ∧ w ++ c :: v ∈ (place (n + 1)).1.lang ∧ x ∈ follows (n + 1))
    (hr : Reads s (w ++ [c]) { uri := r }) :
    Reads s (w ++ c :: q) { mark := some (w ++ [c]).length, uri := r } ∧
    ∀ x ∈ follows (n + 1), ∀ m < acts.length, main.Emits m (w ++ c :: q) x ↔ m = n + 1 := by
  have htable : ∀ y ∈ opening, y.1 ∈ opens ∧ component y.1 = queryLetters ∧
      actions acts [y.1] = [.marku] := by
    simp only [opening, List.forall_mem_cons]
    exact ⟨⟨by decide, rfl, by decide⟩, ⟨by decide, rfl, by decide⟩, List.forall_mem_nil _⟩
  obtain ⟨hopen, hcomponent, hmark⟩ := htable _ hn
  have hletter : ∀ d ∈ q, some d ∉ follows (n + 1) := by
    have hhash : byte '#' ∉ q := notMem_component (by decide) hq
    have hfollows : ∀ y ∈ opening, ∀ d, some d ∈ follows (y.1 + 1) → d = byte '#' := by
      simp [opening, follows]
    intro d hd hmem
    rw [hfollows _ hn d hmem] at hd
    exact hhash hd
  refine ⟨?_, fun x hx m hm => ?_⟩
  · obtain ⟨d, q, rfl⟩ := List.exists_cons_of_ne_nil hne
    have hfirst : Reads s (w ++ [c] ++ [d]) { mark := some (w ++ [c]).length, uri := r } := by
      refine hr.step (l := [n]) (fun m hm => ?_) ?_
      · have hgoes : (place n).2.goes (some d) = true := by
          refine goes_component hopen ?_
          rw [hcomponent]
          exact Re.goes_of_cons_mem hq
        rw [hemits [] List.nil_prefix (some d) m hm, emits_opening hn hw]
        simp [hgoes, hletter d List.mem_cons_self]
      · rw [hmark]
        rfl
    have hrest := hfirst.quiet (v := q) fun v₁ d' v₂ heq m hm => ?_
    · simpa using hrest
    · have hpre : d :: v₁ <+: d :: q := ⟨d' :: v₂, by simp [heq]⟩
      have he := hemits _ hpre (some d') m hm
      rw [emits_opening hn hw] at he
      have hword : w ++ [c] ++ [d] ++ v₁ = w ++ c :: d :: v₁ := by simp
      rw [hword, he]
      simp [hletter d' (by simp [heq])]
  · have hmem : w ++ c :: q ∈ (place (n + 1)).1.lang := by
      rw [lang_save n hopen, hcomponent]
      have happend := Language.append_mem_mul hw hq
      rwa [List.append_assoc, List.singleton_append] at happend
    rw [hemits q List.prefix_rfl x m hm, emits_opening hn hw]
    simp [hne, hmem, hx]

theorem mem_opening (hw : w ∈ (place 9).1.lang) : w ++ [byte '?'] ∈ (place 10).1.lang ∧
    w ++ [byte '#'] ∈ (place 12).1.lang ∧
    ∀ q ∈ queryLetters.lang, w ++ byte '?' :: q ++ [byte '#'] ∈ (place 12).1.lang := by
  have hhier : w ∈ scheme.lang * (chr ':').lang * hierPart.lang := by
    rw [lang_place 9 (by decide), mul_assoc, mul_assoc] at hw
    obtain ⟨sch, hs, z, hz, rfl⟩ := Language.mem_mul.mp hw
    obtain ⟨col, hcol, v, hv, rfl⟩ := Language.mem_mul.mp hz
    rw [mul_assoc]
    refine Language.append_mem_mul hs (Language.append_mem_mul hcol ?_)
    have hpart : hierPart.lang = slashes.lang * (rest 9).lang + pathAbsolute.lang +
        pathRootless.lang + pathEmpty.lang := by
      simp [hierPart, authority, Expr.lang, Expr.opt, Re.lang, Re.opt, rest, behind, login,
        mul_assoc]
    rw [hpart]
    exact .inl (.inl (.inl hv))
  obtain ⟨hquery, hfragment⟩ := lang_opening
  rw [hquery, hfragment]
  refine ⟨Language.append_mem_mul hhier rfl, ?_, fun q hq => ?_⟩
  · refine Language.append_mem_mul ?_ rfl
    have hmem := Language.append_mem_mul hhier
      (show [] ∈ (chr '?').lang * queryLetters.lang + 1 from .inr rfl)
    rwa [List.append_nil] at hmem
  · refine Language.append_mem_mul (Language.append_mem_mul hhier (.inl ?_)) rfl
    exact Language.append_mem_mul (a := [byte '?']) rfl hq

/-! ## Scheme -/

/-- Before the slashes only the scheme is read. -/
theorem emits_scheme (hslash : w.count (byte '/') ≤ 1) (hquestion : byte '?' ∉ w)
    (hhash : byte '#' ∉ w) (hn : n < acts.length) : main.Emits n w (some c) ↔
      n = 0 ∧ w = [] ∧ alpha c = true ∨ n = 1 ∧ w ∈ scheme.lang ∧ c = byte ':' := by
  have hzero : (place 0).1.lang = 1 ∧ (place 1).1.lang = scheme.lang := by
    constructor <;>
    simp [place, main, uri, relativeRef, hierPart, relativePart, authority, query, fragment,
      Expr.places, Expr.opt, Expr.lang, Re.lang]
  have hgoes : ((place 0).2.goes (some c) = true ↔ alpha c = true) ∧
      ((place 1).2.goes (some c) = true ↔ c = byte ':') := by
    constructor <;>
    simp [place, main, uri, relativeRef, hierPart, relativePart, authority, query, fragment,
      Expr.places, Expr.opt, Expr.goes, Re.goes, scheme, chr]
  refine ⟨fun he => ?_, ?_⟩
  · obtain ⟨hplace, hx⟩ := (emits_iff hn).mp he
    have hcases : ∀ n < acts.length, n = 0 ∨ n = 1 ∨ n ∈ beforePath ∨ n = 9 ∨
        n ∈ [10, 11, 20, 21] ∨ n ∈ [12, 13, 22, 23] := by decide
    rcases hcases n hn with rfl | rfl | h | rfl | h | h
    · rw [hzero.1] at hplace
      exact .inl ⟨rfl, hplace, hgoes.1.mp hx⟩
    · rw [hzero.2] at hplace
      exact .inr ⟨rfl, hplace, hgoes.2.mp hx⟩
    · have := count_slash h hplace
      omega
    · obtain ⟨u, v, rfl, hu, -⟩ := exists_path hplace
      have := count_slash (n := 8) (by decide) hu
      rw [List.count_append] at hslash
      omega
    · exact absurd (question_mem h hplace) hquestion
    · exact absurd (hash_mem h hplace) hhash
  · rintro (⟨rfl, rfl, h⟩ | ⟨rfl, h, rfl⟩)
    · refine (emits_iff hn).mpr ⟨?_, hgoes.1.mpr h⟩
      rw [hzero.1]
      rfl
    · refine (emits_iff hn).mpr ⟨?_, hgoes.2.mpr rfl⟩
      rwa [hzero.2]

theorem reads_scheme (hs : sch ∈ scheme.lang) (hpre : head sch <+: s) :
    Reads s (head sch) { uri := { scheme := sch } } := by
  have hletter : ∀ c ∈ [byte ':', byte '/', byte '?', byte '#'], c ∉ sch :=
    fun c hc => notMem_component (letter_table.1 c hc) hs
  have hemits : ∀ v t, v ++ t = sch ++ [byte ':', byte '/'] → ∀ d, ∀ n < acts.length,
      (main.Emits n v (some d) ↔ n = 0 ∧ v = [] ∧ alpha d = true ∨
        n = 1 ∧ v ∈ scheme.lang ∧ d = byte ':') := by
    intro v t hv d n hn
    have hsub : ∀ c, c ∉ sch ++ [byte ':', byte '/'] → c ∉ v := by
      intro c hc hmem
      rw [← hv] at hc
      exact hc (List.mem_append_left t hmem)
    have hcount : v.count (byte '/') ≤ 1 := by
      have htotal := congrArg (List.count (byte '/')) hv
      have hsch := List.count_eq_zero.mpr (hletter (byte '/') (by simp))
      rw [List.count_append, List.count_append, hsch] at htotal
      have htwo : [byte ':', byte '/'].count (byte '/') = 1 := by decide
      omega
    refine emits_scheme hcount (hsub _ ?_) (hsub _ ?_) hn <;>
    · rw [List.mem_append, not_or]
      exact ⟨hletter _ (by simp), by decide⟩
  obtain ⟨c, z, rfl⟩ : ∃ c z, sch = c :: z := by
    cases sch with
    | nil => exact absurd (Re.goes_none.mpr hs) (by decide)
    | cons c z => exact ⟨c, z, rfl⟩
  have hc : alpha c = true := by
    simpa [Re.goes, scheme] using Re.goes_of_cons_mem hs
  have hstart : Reads s [] {} := rfl
  have hfirst : Reads s ([] ++ [c]) { mark := some 0 } := by
    refine hstart.step (l := [0]) (fun n hn => ?_) ?_
    · rw [hemits [] _ rfl c n hn]
      have hcolon : c ≠ byte ':' := by
        rintro rfl
        exact hletter _ (by simp) List.mem_cons_self
      simp [hc, hcolon]
    · rw [show actions acts [0] = [.marku] by decide]
      rfl
  rw [List.nil_append] at hfirst
  have hscheme : Reads s ([c] ++ z) { mark := some 0 } := by
    refine hfirst.quiet (v := z) fun v₁ d v₂ heq n hn => ?_
    have hd : d ≠ byte ':' := by
      rintro rfl
      exact hletter _ (List.mem_cons_self) (by simp [heq])
    rw [hemits ([c] ++ v₁) (d :: v₂ ++ [byte ':', byte '/']) (by simp [heq]) d n hn]
    simp [hd]
  rw [List.singleton_append] at hscheme
  have hcolon : Reads s (c :: z ++ [byte ':']) { uri := { scheme := c :: z } } := by
    refine hscheme.step (l := [1]) (fun n hn => ?_) ?_
    · rw [hemits (c :: z) _ rfl _ n hn]
      simp [hs]
    · rw [show actions acts [1] = [.saveScheme] by decide]
      exact (saves (w := []) (v := c :: z) (.trans ⟨_, rfl⟩ hpre) {}).1
  have hnone : ∀ v : List UInt8, c :: z ++ byte ':' :: v ∉ scheme.lang := by
    intro v hmem
    exact notMem_component (d := byte ':') (letter_table.1 _ (by simp)) hmem (by simp)
  have hrest := hcolon.quiet (v := [byte '/', byte '/']) fun v₁ d v₂ heq n hn => ?_
  · simpa [head] using hrest
  · have hsplit : v₁ = [] ∨ v₁ = [byte '/'] := by
      rcases v₁ with _ | ⟨a, _ | ⟨a', v₁⟩⟩
      · exact .inl rfl
      · simp at heq
        exact .inr (by rw [heq.1])
      · simp at heq
    rcases hsplit with rfl | rfl
    · rw [List.append_nil, hemits (c :: z ++ [byte ':']) [byte '/'] (by simp) d n hn]
      simpa using fun _ h => absurd h (hnone [])
    · rw [hemits (c :: z ++ [byte ':'] ++ [byte '/']) [] (by simp) d n hn]
      simpa using fun _ h => absurd h (hnone [byte '/'])

/-! ## Dumped URIs -/

/-- The components of a URI with an authority, as the grammar has them. -/
structure Uri.WellFormed (uri : Uri) : Prop where
  scheme : uri.scheme ∈ UriParser.scheme.lang
  userInfo : uri.userInfo ∈ userinfo.lang
  host : uri.host ∈ UriParser.host.lang
  host_ne : uri.host ≠ []
  port : 0 ≤ uri.port ∧ uri.port < 2 ^ 31
  path : uri.path ∈ pathAbempty.lang
  query : uri.query ∈ queryLetters.lang
  fragment : uri.fragment ∈ queryLetters.lang

theorem login_mem (hi : i ∈ userinfo.lang) :
    (if i.isEmpty then [] else i ++ [byte '@']) ∈ login.lang := by
  split
  · exact nil_login
  · exact .inl (Language.append_mem_mul hi rfl)

section

variable {r : Uri} {q : List UInt8}

theorem closes_path (hs : sch ∈ scheme.lang) (ha : head sch ++ a ∈ (place 8).1.lang)
    (hb : byte '/' :: b ∈ pathAbempty.lang) (hpre : head sch ++ a ++ byte '/' :: b <+: s)
    (hr : Reads s (head sch ++ a ++ [byte '/']) { mark := some (head sch ++ a).length, uri := r })
    (hx : x ∈ follows 9) :
    Closes s (head sch ++ a ++ byte '/' :: b) x { r with path := byte '/' :: b } := by
  have hmost : ∀ c ∈ [byte '?', byte '#'], pathAbempty.most c = some 0 :=
    fun c hc => (letter_table.2.2.2.1 c hc).1
  have hquestion : byte '?' ∉ a := fun h =>
    question_notMem (n := 8) (by decide) ha (List.mem_append_right _ h)
  have hhash : byte '#' ∉ a := fun h =>
    hash_notMem (n := 8) (by decide) ha (List.mem_append_right _ h)
  have hemits : ∀ v, v <+: b → ∀ x, ∀ n < acts.length,
      (main.Emits n (head sch ++ (a ++ byte '/' :: v)) x ↔
        n = 9 ∧ head sch ++ (a ++ byte '/' :: v) ∈ (place 9).1.lang ∧ x ∈ follows 9) := by
    intro v hv x n hn
    have hsub : ∀ c ∈ [byte '?', byte '#'], c ∉ byte '/' :: v := fun c hc hmem =>
      notMem_component (hmost c hc) hb ((List.cons_prefix_cons.mpr ⟨rfl, hv⟩).subset hmem)
    refine emits_in_path hs ?_ ?_ ?_ hn
    · have hcount := count_slash (n := 8) (by decide) ha
      rw [← List.append_assoc, List.count_append, hcount, List.count_cons_self]
      omega
    · rw [List.mem_append, not_or]
      exact ⟨hquestion, hsub _ (by simp)⟩
    · rw [List.mem_append, not_or]
      exact ⟨hhash, hsub _ (by simp)⟩
  have hread : Reads s (head sch ++ a ++ [byte '/'] ++ b)
      { mark := some (head sch ++ a).length, uri := r } := by
    refine hr.quiet fun v₁ d v₂ heq n hn => ?_
    have hd : some d ∉ follows 9 := by
      have hfollows : ∀ d, some d ∈ follows 9 → d ∈ [byte '?', byte '#'] := by
        simp [follows]
      intro hmem
      exact notMem_component (hmost d (hfollows d hmem)) hb (by simp [heq])
    have hword : head sch ++ a ++ [byte '/'] ++ v₁ = head sch ++ (a ++ byte '/' :: v₁) := by simp
    rw [hword, hemits v₁ ⟨d :: v₂, heq.symm⟩]
    · simp [hd]
    · exact hn
  have hword : head sch ++ a ++ [byte '/'] ++ b = head sch ++ a ++ byte '/' :: b := by simp
  rw [hword] at hread
  refine ⟨_, 9, by decide, hread, fun n hn => ?_, ?_⟩
  · have hmem : head sch ++ a ++ byte '/' :: b ∈ (place 9).1.lang := by
      rw [lang_save 8 (by decide)]
      exact Language.append_mem_mul ha hb
    rw [List.append_assoc] at hmem ⊢
    rw [hemits b List.prefix_rfl x n hn]
    simp [hmem, hx]
  · rw [show actions acts [9] = [.savePath] by decide]
    exact (saves hpre r).2.2.2.1

theorem closes_query (hs : sch ∈ scheme.lang) (hw : head sch ++ w ∈ (place 9).1.lang)
    (hq : q ∈ queryLetters.lang) (hnil : r.query = [])
    (hpre : head sch ++ w ++ (if q.isEmpty then [] else byte '?' :: q) <+: s)
    (hc : ∀ x ∈ follows 9, Closes s (head sch ++ w) x r) (hx : x ∈ follows 11) :
    Closes s (head sch ++ w ++ if q.isEmpty then [] else byte '?' :: q) x
      { r with query := q } := by
  by_cases hne : q = []
  · subst hne
    have hsub : ∀ x ∈ follows 11, x ∈ follows 9 := by simp [follows]
    rw [List.isEmpty_nil, if_pos rfl, List.append_nil, ← hnil]
    exact hc x (hsub x hx)
  · rw [if_neg (by simpa using hne)] at hpre ⊢
    have hread := (hc (some (byte '?')) (by decide)).step
    obtain ⟨hopen, -⟩ := mem_opening hw
    have hemits : ∀ v, v <+: q → ∀ x, ∀ m < acts.length,
        (main.Emits m (head sch ++ w ++ byte '?' :: v) x ↔
          m = 10 ∧ main.Emits 10 (head sch ++ w ++ byte '?' :: v) x ∨
          m = 10 + 1 ∧ head sch ++ w ++ byte '?' :: v ∈ (place (10 + 1)).1.lang ∧
            x ∈ follows (10 + 1)) := by
      intro v hv x m hm
      rw [List.append_assoc]
      refine emits_in_query hs (by simp) ?_ hm
      have hhash : byte '#' ∉ w := fun h =>
        hash_notMem (n := 9) (by decide) hw (List.mem_append_right _ h)
      have hletters : byte '#' ∉ q := notMem_component (by decide) hq
      simp only [List.mem_append, List.mem_cons, not_or]
      exact ⟨hhash, by decide, fun h => hletters (hv.subset h)⟩
    obtain ⟨hreads, hends⟩ := reads_component (by decide) hopen hq hne hemits hread
    refine ⟨_, 11, by decide, hreads, hends x hx, ?_⟩
    have hword : head sch ++ w ++ byte '?' :: q = head sch ++ w ++ [byte '?'] ++ q := by simp
    rw [show actions acts [11] = [.saveQuery] by decide, hword]
    rw [hword] at hpre
    exact (saves hpre r).2.2.2.2.1

theorem closes_fragment (hs : sch ∈ scheme.lang)
    (hw : head sch ++ w ++ [byte '#'] ∈ (place 12).1.lang) (hq : q ∈ queryLetters.lang)
    (hnil : r.fragment = [])
    (hpre : head sch ++ w ++ (if q.isEmpty then [] else byte '#' :: q) <+: s)
    (hc : ∀ x ∈ follows 11, Closes s (head sch ++ w) x r) :
    Closes s (head sch ++ w ++ if q.isEmpty then [] else byte '#' :: q) none
      { r with fragment := q } := by
  by_cases hne : q = []
  · subst hne
    rw [List.isEmpty_nil, if_pos rfl, List.append_nil, ← hnil]
    exact hc none (by decide)
  · rw [if_neg (by simpa using hne)] at hpre ⊢
    have hread := (hc (some (byte '#')) (by decide)).step
    have hemits : ∀ v, v <+: q → ∀ x, ∀ m < acts.length,
        (main.Emits m (head sch ++ w ++ byte '#' :: v) x ↔
          m = 12 ∧ main.Emits 12 (head sch ++ w ++ byte '#' :: v) x ∨
          m = 12 + 1 ∧ head sch ++ w ++ byte '#' :: v ∈ (place (12 + 1)).1.lang ∧
            x ∈ follows (12 + 1)) := by
      intro v hv x m hm
      rw [List.append_assoc, emits_in_fragment hs (by simp) hm]
      simp [follows]
    obtain ⟨hreads, hends⟩ := reads_component (by decide) hw hq hne hemits hread
    refine ⟨_, 13, by decide, hreads, hends none (by decide), ?_⟩
    have hword : head sch ++ w ++ byte '#' :: q = head sch ++ w ++ [byte '#'] ++ q := by simp
    rw [show actions acts [13] = [.saveFragment] by decide, hword]
    rw [hword] at hpre
    exact (saves hpre r).2.2.2.2.2

end

/-- What is read of a dumped URI with its authority. -/
def Uri.front (uri : Uri) : Uri where
  scheme := uri.scheme
  userInfo := keptUserInfo uri.userInfo
  host := uri.host
  port := if uri.isDefaultPort then 0 else uri.port

/-- What `Uri::Create` makes of a dumped URI. -/
def Uri.normal (uri : Uri) : Uri :=
  { uri.front with path := uri.getPath, query := uri.query, fragment := uri.fragment }

variable {uri : Uri}

theorem getPath_cons (hw : uri.WellFormed) :
    ∃ b, uri.getPath = byte '/' :: b ∧ byte '/' :: b ∈ pathAbempty.lang := by
  rw [Uri.getPath]
  cases hpath : uri.path with
  | nil =>
    refine ⟨[], rfl, ?_⟩
    have hsegment : [byte '/'] ∈ slashSegment.lang :=
      Language.append_mem_mul (a := [byte '/']) rfl (Language.nil_mem_kstar _)
    have hopt : [byte '/'] ∈ (Re.opt slashSegment).lang := .inl hsegment
    exact Language.append_mem_mul hopt (Language.nil_mem_kstar _)
  | cons d b =>
    have hmem := hw.path
    rw [hpath] at hmem
    obtain rfl := path_head hmem
    exact ⟨b, rfl, hmem⟩

/-- The authority, up to the slash of its path. -/
theorem reads_authority (hw : uri.WellFormed)
    (hpre : head uri.scheme ++ (uri.loginText ++ (uri.host ++ uri.portText)) ++ [byte '/'] <+: s) :
    head uri.scheme ++ (uri.loginText ++ (uri.host ++ uri.portText)) ∈ (place 8).1.lang ∧
    Reads s (head uri.scheme ++ (uri.loginText ++ (uri.host ++ uri.portText)) ++ [byte '/'])
      { mark := some (head uri.scheme ++ (uri.loginText ++ (uri.host ++ uri.portText))).length,
        uri := uri.front } := by
  have hlogin : uri.loginText ∈ login.lang := login_mem hw.userInfo
  have hprefix : uri.userInfo <+: uri.loginText := by
    rw [Uri.loginText]
    split
    · rename_i hempty
      rw [List.isEmpty_iff.mp hempty]
    · exact List.prefix_append _ _
  have hpre' : head uri.scheme ++ (uri.loginText ++ (uri.host ++ uri.portText)) <+: s :=
    (List.prefix_append _ _).trans hpre
  have hscheme := reads_scheme hw.scheme ((List.prefix_append _ _).trans hpre')
  have huser : head uri.scheme ++ uri.userInfo <+: s := by
    refine .trans ?_ hpre'
    rw [List.prefix_append_right_inj]
    exact hprefix.trans (List.prefix_append _ _)
  obtain ⟨h, hread⟩ := reads_login hw.scheme hw.userInfo huser hscheme
  have hhost := reads_host hw.scheme hlogin hw.host hw.host_ne hread
  have hport : uri.host ++ uri.portText ∈ (behind 8).lang ∧
      Reads s (head uri.scheme ++ (uri.loginText ++ (uri.host ++ uri.portText)) ++ [byte '/'])
        { mark := some (head uri.scheme ++ (uri.loginText ++ (uri.host ++ uri.portText))).length,
          uri := uri.front } := by
    rw [Uri.portText] at hpre hpre' ⊢
    cases hdefault : uri.isDefaultPort with
    | true =>
      rw [hdefault, if_pos rfl, List.append_nil] at hpre'
      rw [if_pos rfl, List.append_nil]
      have hmem := Language.append_mem_mul hw.host
        (show [] ∈ (Re.opt (.cat (chr ':') port)).lang from .inr rfl)
      rw [List.append_nil] at hmem
      refine ⟨hmem, ?_⟩
      have hslash := reads_slash hw.scheme hlogin hw.host hw.host_ne hpre' hhost
      simpa [Uri.front, hdefault] using hslash
    | false =>
      rw [hdefault, if_neg Bool.false_ne_true] at hpre
      rw [if_neg Bool.false_ne_true]
      refine ⟨Language.append_mem_mul hw.host (.inl ?_), ?_⟩
      · refine Language.append_mem_mul (a := [byte ':']) rfl (digits_mem_port ?_)
        exact fun c hc => (showNat_digits _ c hc).1
      · have hslash := reads_port hw.scheme hlogin hw.host hw.host_ne hw.port hpre hhost
        simpa [Uri.front, hdefault] using hslash
  refine ⟨(mem_place hw.scheme (by decide)).mpr ?_, hport.2⟩
  exact Language.append_mem_mul hlogin hport.1

theorem create_normal (hw : uri.WellFormed) : create uri.dump = some (some uri.normal) := by
  obtain ⟨b, hb, hpath⟩ := getPath_cons hw
  have hdump : uri.dump = head uri.scheme ++ (uri.loginText ++ (uri.host ++ uri.portText)) ++
      byte '/' :: b ++ uri.queryText ++ uri.fragmentText := by
    simp [Uri.dump, head, hb]
  have hall : head uri.scheme ++ (uri.loginText ++ (uri.host ++ uri.portText)) ++ byte '/' :: b ++
      uri.queryText ++ uri.fragmentText <+: uri.dump := by rw [hdump]
  have hquery := (List.prefix_append _ _).trans hall
  have hword := (List.prefix_append _ _).trans hquery
  obtain ⟨hplace, hread⟩ := reads_authority hw (s := uri.dump) (.trans ⟨b, by simp⟩ hword)
  have hclose := fun x hx => closes_path (x := x) hw.scheme hplace hpath hword hread hx
  have hnine : head uri.scheme ++ ((uri.loginText ++ (uri.host ++ uri.portText)) ++ byte '/' :: b) ∈
      (place 9).1.lang := by
    rw [lang_save 8 (by decide), ← List.append_assoc]
    exact Language.append_mem_mul hplace hpath
  obtain ⟨-, hhash, hhash'⟩ := mem_opening hnine
  rw [List.append_assoc (head _)] at hclose hquery hall
  have hclose' := fun x hx => closes_query (x := x) hw.scheme hnine hw.query rfl hquery hclose hx
  have hopen : head uri.scheme ++ (uri.loginText ++ (uri.host ++ uri.portText) ++ byte '/' :: b ++
      uri.queryText) ++ [byte '#'] ∈ (place 12).1.lang := by
    rw [Uri.queryText]
    split
    · rwa [List.append_nil]
    · simpa using hhash' _ hw.query
  rw [List.append_assoc (head _)] at hclose' hall
  have hend := closes_fragment hw.scheme hopen hw.fragment rfl hall hclose'
  have hwhole : head uri.scheme ++ (uri.loginText ++ (uri.host ++ uri.portText) ++ byte '/' :: b ++
      uri.queryText) ++ (if uri.fragment.isEmpty then [] else byte '#' :: uri.fragment) =
      uri.dump := by
    rw [hdump, ← List.append_assoc, ← List.append_assoc]
    rfl
  rw [hwhole] at hend
  refine hend.create.trans ?_
  rw [Uri.normal, hb]

theorem getPort_normal (uri : Uri) : uri.normal.getPort = uri.getPort := by
  have hport : uri.normal.port = if uri.isDefaultPort then 0 else uri.port := rfl
  have hscheme : uri.normal.scheme = uri.scheme := rfl
  rw [Uri.getPort, Uri.getPort, hport, hscheme, Uri.isDefaultPort]
  grind

theorem keptUserInfo_eq_iff : keptUserInfo i = i ↔
    ∀ a d b, i = a ++ byte ':' :: d :: b → byte ':' ∉ a → digit d = false := by
  constructor
  · rintro h a d b rfl ha
    rw [keptUserInfo, dropWhile_colon ha] at h
    dsimp only at h
    by_contra hd
    rw [if_pos (by simpa using hd)] at h
    have hlength := congrArg List.length h
    simp only [List.length_append, List.length_cons] at hlength
    omega
  · intro h
    by_cases hcolon : byte ':' ∈ i
    · obtain ⟨a, b, rfl, ha⟩ := List.eq_append_cons_of_mem hcolon
      rw [keptUserInfo, dropWhile_colon ha]
      cases b with
      | nil => rfl
      | cons d b =>
        dsimp only
        rw [h a d b rfl ha, if_neg Bool.false_ne_true]
    · exact keptUserInfo_of_notMem hcolon

/-- **A URI with an authority is read back from what `dump` prints**, with its components, its port
and its path, except that the user info is cut where a digit follows its first colon. -/
theorem create_dump (hw : uri.WellFormed) : ∃ uri', create uri.dump = some (some uri') ∧
    uri'.scheme = uri.scheme ∧ uri'.host = uri.host ∧ uri'.getPort = uri.getPort ∧
    uri'.getPath = uri.getPath ∧ uri'.query = uri.query ∧ uri'.fragment = uri.fragment ∧
    (uri'.userInfo = uri.userInfo ↔ ∀ a d b, uri.userInfo = a ++ byte ':' :: d :: b →
      byte ':' ∉ a → digit d = false) ∧
    ∀ a d b, uri.userInfo = a ++ byte ':' :: d :: b → byte ':' ∉ a → digit d = true →
      uri'.userInfo = d :: b := by
  refine ⟨uri.normal, create_normal hw, rfl, rfl, getPort_normal uri, ?_, rfl, rfl,
    keptUserInfo_eq_iff, fun a d b hi ha hd => ?_⟩
  · obtain ⟨b, hb, -⟩ := getPath_cons hw
    have hpath : uri.normal.path = uri.getPath := rfl
    rw [Uri.getPath, hpath, hb]
    rfl
  · have hkept : uri.normal.userInfo = keptUserInfo uri.userInfo := rfl
    rw [hkept, keptUserInfo, hi, dropWhile_colon ha]
    exact if_pos hd

/-- `http://u:1@h/?q` -/
def signedUri : Uri where
  scheme := ['h', 't', 't', 'p'].map byte
  userInfo := ['u', ':', '1'].map byte
  host := [byte 'h']
  port := 80
  query := [byte 'q']

theorem signedUri_letters :
    (∀ c ∈ ['t', 't', 'p'].map byte, (alpha c || digit c || oneOf ['+', '-', '.'] c) = true) ∧
    ∀ c ∈ ['u', ':', '1'].map byte, unreserved c = true ∨ c = byte ':' := by
  decide +kernel

theorem signedUri_wellFormed : signedUri.WellFormed where
  scheme := by
    refine Language.append_mem_mul (a := [byte 'h']) ⟨_, by decide, rfl⟩ (mem_star fun c hc => ?_)
    exact ⟨c, signedUri_letters.1 c hc, rfl⟩
  userInfo := by
    refine mem_star fun c hc => ?_
    rcases signedUri_letters.2 c hc with h | rfl
    · exact .inl ⟨c, h, rfl⟩
    · exact .inr (.inr (.inr rfl))
  host := .inr (.inr (mem_star fun c hc => .inl ⟨c, by rw [List.mem_singleton.mp hc]; decide, rfl⟩))
  host_ne := by decide
  port := by decide
  path := Re.goes_none.mp (by decide)
  query := mem_star fun c hc =>
    .inl (.inr (.inl ⟨c, by rw [List.mem_singleton.mp hc]; decide, rfl⟩))
  fragment := Re.goes_none.mp (by decide)

theorem create_dump_signed : ∃ uri', create signedUri.dump = some (some uri') ∧
    uri'.getPort = 80 ∧ uri'.getPath = [47] ∧ uri'.userInfo = [byte '1'] := by
  obtain ⟨uri', h, -, -, hport, hpath, -, -, -, huser⟩ := create_dump signedUri_wellFormed
  exact ⟨uri', h, hport, hpath, huser [byte 'u'] (byte '1') [] rfl (by decide) (by decide)⟩

end Tigerkin.UriParser
