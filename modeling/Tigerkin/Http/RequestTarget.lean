import Tigerkin.Http.RequestLine
import Tigerkin.Std.Uri

/-! # The components of the target

The machine marks the path where the reference begins or after the scheme, so what it stores is the
authority, with its slashes, and the path (`target_iff`). Query and fragment are those of
RFC 3986. -/

namespace Tigerkin.Http

open Machine CString Uri

/-- A `URI` or `relative_ref` of the grammar, which the machine passes up to the space. -/
def IsTarget (relaxed : Bool) (target : List UInt8) : Prop :=
  walk (requestRows relaxed) (· == .done) 3 (target ++ [32]) = (4, (target ++ [32]).length, false)

instance (relaxed : Bool) (target : List UInt8) : Decidable (IsTarget relaxed target) :=
  inferInstanceAs (Decidable (_ = _))

/-! ## The edges of the target -/

/-- What ends a path. -/
def pathEnd (b : UInt8) : List (List RequestAction × Nat) :=
  if b = 32 then [([.requestPath, .requestUri], 4)]
  else if b = 35 then [([.requestPath, .requestUri], 20)]
  else if b = 63 then [([.requestPath], 29)]
  else []

def markFirst (l : List (List RequestAction × Nat)) : List (List RequestAction × Nat) :=
  l.map fun d => (.mark :: d.1, d.2)

/-- The states of a path without a colon or a slash yet. -/
def firstStates : List Nat := [19, 24, 25, 173]

/-- The states of a path after that, of the authority and of the path after the scheme. -/
def inHier (cs : Nat) : Bool := 26 ≤ cs && cs ≤ 28 || 33 ≤ cs && cs ≤ 172

/-- At the start of the target, in the first segment, and behind the colon of a scheme. -/
theorem path_does :
    (∀ b : UInt8, ∀ r, Does r 3 b
      (if b ∈ [32, 35, 63] then markFirst (pathEnd b)
        else if b = 47 then [([.mark], 33)] else if b = 58 then []
        else firstStates.map fun cs => ([.mark], cs))) ∧
    (∀ b : UInt8, ∀ r, ∀ cs ∈ firstStates, Does r cs b
      (if b ∈ [32, 35, 63] then pathEnd b
        else if b = 47 then [([], 26)] else if b = 58 then [([], 174)]
        else firstStates.map fun cs => ([], cs))) ∧
    ∀ b : UInt8, ∀ r, Does r 174 b
      (if b ∈ [32, 35, 63] then markFirst (pathEnd b)
        else [([.mark], 26), ([.mark], 27), ([.mark], 33)]) :=
  ⟨forall_byte (by decide +kernel), forall_byte (by decide +kernel),
    forall_byte (by decide +kernel)⟩

/-- In the query, and in the fragment. -/
theorem query_does :
    (∀ b : UInt8, ∀ r, ∀ cs ∈ [29, 30, 31, 32], Does r cs b
      ((if b = 32 then [([.queryString, .requestUri], 4)]
        else if b = 35 then [([.queryString, .requestUri], 20)]
        else [([], 30), ([], 31), ([], 32)]).map fun d =>
          (if cs = 29 then .startQuery :: d.1 else d.1, d.2))) ∧
    ∀ b : UInt8, ∀ r, ∀ cs ∈ [20, 21, 22, 23], Does r cs b
      ((if b = 32 then [([.fragment], 4)] else [([], 21), ([], 22), ([], 23)]).map fun d =>
        (if cs = 20 then .mark :: d.1 else d.1, d.2)) :=
  ⟨forall_byte (by decide +kernel), forall_byte (by decide +kernel)⟩

/-- The edges of a path after a colon or a slash. -/
def HierEdge (cs : Nat) (e : Edge RequestAction) : Prop :=
  inHier cs = true →
    (∃ b ∈ [32, 35, 63], e.on = [(b, b)] ∧ (e.acts, e.target) ∈ pathEnd b) ∨
      e.acts = [] ∧ inHier e.target = true ∧ ∀ b ∈ [32, 35, 63], e.covers b = false

instance (cs : Nat) (e : Edge RequestAction) : Decidable (HierEdge cs e) :=
  inferInstanceAs (Decidable (_ → _))

theorem requestRows_hier (r : Bool) :
    ∀ p ∈ (requestRows r).zipIdx, ∀ e ∈ p.1, HierEdge p.2 e := by
  cases r <;> decide +kernel

/-! ## The parser along the target -/

/-- The bytes of a path so far. -/
structure InPath (done : List UInt8) (y : HttpRequestParser) : Prop where
  noFragment : 35 ∉ done
  noQuery : 63 ∉ done
  query : y.data.query = []
  fragment : y.data.fragment = []

/-- The state of the machine and of the parser after the bytes `done` of a target that begins at
`p`. -/
inductive Progress (p : Nat) : List UInt8 → Nat → HttpRequestParser → Prop
  | start {y : HttpRequestParser} : InPath [] y → Progress p [] 3 y
  | first {done : List UInt8} {cs : Nat} {y : HttpRequestParser} : cs ∈ firstStates →
    done ≠ [] → 58 ∉ done → 47 ∉ done → y.mark = p → InPath done y → Progress p done cs y
  | scheme {done : List UInt8} {y : HttpRequestParser} : done ≠ [] → 58 ∉ done → 47 ∉ done →
    InPath (done ++ [58]) y → Progress p (done ++ [58]) 174 y
  | hier {done : List UInt8} {cs : Nat} {y : HttpRequestParser} : inHier cs = true →
    58 ∈ done ∨ 47 ∈ done → y.mark + (dropScheme done).length = p + done.length →
    InPath done y → Progress p done cs y
  | query {done s : List UInt8} {cs : Nat} {y : HttpRequestParser} : cs ∈ [29, 30, 31, 32] →
    35 ∉ done → 63 ∉ done → 35 ∉ s → y.data.path = dropScheme done → y.data.fragment = [] →
    (if cs = 29 then s = [] else y.queryStart = p + done.length + 1) →
    Progress p (done ++ 63 :: s) cs y
  | fragment {done s : List UInt8} {cs : Nat} {y : HttpRequestParser} : cs ∈ [20, 21, 22, 23] →
    35 ∉ done → y.data.path = hierPart done → y.data.query = Uri.query done →
    (if cs = 20 then s = [] else y.mark = p + done.length + 1) →
    Progress p (done ++ 35 :: s) cs y
  | past {done : List UInt8} {y : HttpRequestParser} : y.data.path = hierPart done →
    y.data.query = Uri.query done → y.data.fragment = Uri.fragment done →
    Progress p (done ++ [32]) 4 y

variable {r : Bool} {buffer done as bs : List UInt8} {cs p : Nat} {x y z : HttpRequestParser}
  {e : Edge RequestAction} {b : UInt8}

/-- A part of the target in the buffer. -/
theorem string_part {pre seg tail : List UInt8} (hbuf : buffer.length < 2 ^ 63)
    (hdrop : buffer.drop p = pre ++ seg ++ tail) (hp : p ≤ buffer.length) {mark q : Nat}
    (hmark : mark = p + pre.length) (hq : q = mark + seg.length) :
    string buffer mark (len mark q) = some seg := by
  have hlen := congrArg List.length hdrop
  rw [List.length_drop, List.length_append, List.length_append] at hlen
  subst hmark hq
  rw [len_add _ (by omega), string_total (by omega), ← List.drop_drop, hdrop, List.append_assoc,
    List.drop_left, List.take_left]

/-- The path ends: what is stored begins at the mark. -/
theorem InPath.endPath {acts : List RequestAction} {target : Nat} {tail : List UInt8}
    (h : InPath done y) (hbuf : buffer.length < 2 ^ 63) (hp : p ≤ buffer.length)
    (hdrop : buffer.drop p = done ++ tail)
    (hmark : y.mark + (dropScheme done).length = p + done.length)
    (hend : (acts, target) ∈ pathEnd b)
    (hz : acts.foldlM (HttpRequestParser.act buffer (p + done.length)) y = some z) :
    Progress p (done ++ [b]) target z := by
  obtain ⟨pre, hpre⟩ := dropScheme_suffix done
  have hlen := congrArg List.length hpre
  rw [List.length_append] at hlen
  have hpath : y.act buffer (p + done.length) .requestPath =
      some { y with data := { y.data with path := dropScheme done } } := by
    rw [HttpRequestParser.act, HttpRequestParser.onRequestPath,
      string_part hbuf (by rw [hpre, hdrop]) hp (show y.mark = p + pre.length by omega) hmark.symm]
    rfl
  have h35 := before_of_notMem h.noFragment
  have h63 := before_of_notMem h.noQuery
  have hhier : hierPart done = dropScheme done := by rw [hierPart, h35, h63]
  have hquery : Uri.query done = [] := by rw [Uri.query, h35, after_of_notMem h.noQuery]
  have hfragment : Uri.fragment done = [] := after_of_notMem h.noFragment
  rw [pathEnd] at hend
  split at hend
  · cases List.mem_singleton.mp hend
    rw [List.foldlM_cons, hpath] at hz
    cases hz
    rw [‹b = 32›]
    exact .past hhier.symm (h.query.trans hquery.symm) (h.fragment.trans hfragment.symm)
  split at hend
  · cases List.mem_singleton.mp hend
    rw [List.foldlM_cons, hpath] at hz
    cases hz
    rw [‹b = 35›]
    exact .fragment (by decide) h.noFragment hhier.symm (h.query.trans hquery.symm) rfl
  split at hend
  · cases List.mem_singleton.mp hend
    rw [List.foldlM_cons, hpath] at hz
    cases hz
    rw [‹b = 63›]
    exact .query (by decide) h.noFragment h.noQuery List.not_mem_nil rfl h.fragment rfl
  · cases hend

/-- The path goes on. -/
theorem InPath.snoc (h : InPath done y) (hb : b ∉ [32, 35, 63]) (hq : z.data = y.data) :
    InPath (done ++ [b]) z := by
  simp only [List.mem_cons, List.not_mem_nil, or_false, not_or] at hb
  refine ⟨?_, ?_, hq ▸ h.query, hq ▸ h.fragment⟩
  · simpa using ⟨h.noFragment, Ne.symm hb.2.1⟩
  · simpa using ⟨h.noQuery, Ne.symm hb.2.2⟩

/-- A first `mark` or `start_query`. -/
theorem foldlM_cons {a : RequestAction} {acts : List RequestAction} {q : Nat}
    (hy : y.act buffer q a = some x)
    (hz : (a :: acts).foldlM (HttpRequestParser.act buffer q) y = some z) :
    acts.foldlM (HttpRequestParser.act buffer q) x = some z := by
  rwa [List.foldlM_cons, hy] at hz

section

variable {tail : List UInt8}

theorem Progress.step_start (hbuf : buffer.length < 2 ^ 63) (hp : p ≤ buffer.length)
    (he : edge (requestRows r) 3 b = some e) (h : InPath [] y)
    (hz : e.acts.foldlM (HttpRequestParser.act buffer p) y = some z) :
    Progress p [b] e.target z := by
  have hdoes := path_does.1 b r e he
  have hm : InPath [] { y with mark := p } := ⟨h.noFragment, h.noQuery, h.query, h.fragment⟩
  split at hdoes
  · obtain ⟨⟨acts, target⟩, hend, hd⟩ := List.mem_map.mp hdoes
    obtain ⟨hacts, htarget⟩ := Prod.mk.inj hd
    rw [← hacts] at hz
    rw [← htarget]
    exact hm.endPath hbuf hp rfl rfl hend (foldlM_cons rfl hz)
  rename_i hb
  split at hdoes
  · obtain ⟨hacts, htarget⟩ := Prod.mk.inj (List.mem_singleton.mp hdoes)
    rw [hacts] at hz
    cases hz
    rw [htarget, ‹b = 47›]
    exact .hier rfl (.inr List.mem_cons_self) rfl (hm.snoc (by decide) rfl)
  split at hdoes
  · cases hdoes
  · obtain ⟨cs, hcs, hd⟩ := List.mem_map.mp hdoes
    obtain ⟨hacts, htarget⟩ := Prod.mk.inj hd
    rw [← hacts] at hz
    cases hz
    rw [← htarget]
    exact .first hcs (List.cons_ne_nil b []) (by simpa using Ne.symm ‹_›) (by simpa using Ne.symm ‹_›)
      rfl (hm.snoc hb rfl)

theorem Progress.step_first (hbuf : buffer.length < 2 ^ 63) (hp : p ≤ buffer.length)
    (hdrop : buffer.drop p = done ++ tail) (hcs : cs ∈ firstStates)
    (he : edge (requestRows r) cs b = some e) (hne : done ≠ []) (h58 : 58 ∉ done) (h47 : 47 ∉ done)
    (hmark : y.mark = p) (h : InPath done y)
    (hz : e.acts.foldlM (HttpRequestParser.act buffer (p + done.length)) y = some z) :
    Progress p (done ++ [b]) e.target z := by
  have hdoes := path_does.2.1 b r cs hcs e he
  have hscheme := dropScheme_of_notMem h58
  split at hdoes
  · exact h.endPath hbuf hp hdrop (by rw [hscheme, hmark]) hdoes hz
  rename_i hb
  split at hdoes
  · obtain ⟨hacts, htarget⟩ := Prod.mk.inj (List.mem_singleton.mp hdoes)
    rw [hacts] at hz
    cases hz
    rw [htarget, ‹b = 47›]
    have hnone : dropScheme (done ++ [47]) = done ++ [47] :=
      dropScheme_of_notMem (by simpa using h58)
    exact .hier rfl (.inr (by simp)) (by rw [hnone, hmark]) (h.snoc (by decide) rfl)
  split at hdoes
  · obtain ⟨hacts, htarget⟩ := Prod.mk.inj (List.mem_singleton.mp hdoes)
    rw [hacts] at hz
    cases hz
    rw [htarget, ‹b = 58›]
    exact .scheme hne h58 h47 (h.snoc (by decide) rfl)
  · obtain ⟨cs, hcs, hd⟩ := List.mem_map.mp hdoes
    obtain ⟨hacts, htarget⟩ := Prod.mk.inj hd
    rw [← hacts] at hz
    cases hz
    rw [← htarget]
    refine .first hcs (by simp) ?_ ?_ hmark (h.snoc hb rfl)
    · simpa using ⟨h58, Ne.symm ‹_›⟩
    · simpa using ⟨h47, Ne.symm ‹_›⟩

theorem Progress.step_scheme (hbuf : buffer.length < 2 ^ 63) (hp : p ≤ buffer.length)
    (hdrop : buffer.drop p = done ++ [58] ++ tail) (he : edge (requestRows r) 174 b = some e)
    (hne : done ≠ []) (h58 : 58 ∉ done) (h47 : 47 ∉ done) (h : InPath (done ++ [58]) y)
    (hz : e.acts.foldlM (HttpRequestParser.act buffer (p + (done ++ [58]).length)) y = some z) :
    Progress p (done ++ [58] ++ [b]) e.target z := by
  have hdoes := path_does.2.2 b r e he
  have hscheme := dropScheme_colon h58 h47 hne
  have hm : InPath (done ++ [58]) { y with mark := p + (done ++ [58]).length } :=
    ⟨h.noFragment, h.noQuery, h.query, h.fragment⟩
  split at hdoes
  · obtain ⟨⟨acts, target⟩, hend, hd⟩ := List.mem_map.mp hdoes
    obtain ⟨hacts, htarget⟩ := Prod.mk.inj hd
    rw [← hacts] at hz
    rw [← htarget]
    exact hm.endPath hbuf hp hdrop (by rw [hscheme]; rfl) hend (foldlM_cons rfl hz)
  · rename_i hb
    have hd : e.acts = [.mark] ∧ inHier e.target = true := by
      simp only [List.mem_cons, Prod.mk.injEq, List.not_mem_nil, or_false] at hdoes
      rcases hdoes with ⟨h1, h2⟩ | ⟨h1, h2⟩ | ⟨h1, h2⟩ <;> exact ⟨h1, by rw [h2]; rfl⟩
    rw [hd.1] at hz
    cases hz
    refine .hier hd.2 (.inl (by simp)) ?_ (hm.snoc hb rfl)
    rw [dropScheme_append (.inl (by simp)), hscheme]
    simp only [List.nil_append, List.length_append, List.length_cons, List.length_nil]
    omega

theorem Progress.step_hier (hbuf : buffer.length < 2 ^ 63) (hp : p ≤ buffer.length)
    (hdrop : buffer.drop p = done ++ tail) (hcs : inHier cs = true)
    (he : edge (requestRows r) cs b = some e) (hdecided : 58 ∈ done ∨ 47 ∈ done)
    (hmark : y.mark + (dropScheme done).length = p + done.length) (h : InPath done y)
    (hz : e.acts.foldlM (HttpRequestParser.act buffer (p + done.length)) y = some z) :
    Progress p (done ++ [b]) e.target z := by
  obtain ⟨hedge, hcovers⟩ := of_edge (requestRows_hier r) he
  rcases hedge hcs with ⟨c, hc, hon, hend⟩ | ⟨hacts, htarget, hon⟩
  · rw [e.eq_of_covers hon hcovers]
    exact h.endPath hbuf hp hdrop hmark hend hz
  · rw [hacts] at hz
    cases hz
    have hb : b ∉ [32, 35, 63] := fun hb => by
      rw [hon b hb] at hcovers
      cases hcovers
    refine .hier htarget ?_ ?_ (h.snoc hb rfl)
    · exact hdecided.imp (List.mem_append_left _) (List.mem_append_left _)
    · rw [dropScheme_append hdecided, List.length_append, List.length_append, ← Nat.add_assoc, hmark,
        Nat.add_assoc]

/-- The byte that begins or continues a query or a fragment, before what it does further. -/
theorem foldlM_first {c : Prop} [Decidable c] {a : RequestAction} {acts acts' : List RequestAction}
    {q : Nat} (hacts : (if c then a :: acts else acts) = acts') (hx : y.act buffer q a = some x)
    (hz : acts'.foldlM (HttpRequestParser.act buffer q) y = some z) :
    acts.foldlM (HttpRequestParser.act buffer q) (if c then x else y) = some z := by
  subst hacts
  split at hz
  · rw [if_pos ‹_›]
    exact foldlM_cons hx hz
  · rwa [if_neg ‹_›]

theorem Progress.step_query {s : List UInt8} (hbuf : buffer.length < 2 ^ 63)
    (hp : p ≤ buffer.length) (hdrop : buffer.drop p = done ++ 63 :: s ++ tail)
    (hcs : cs ∈ [29, 30, 31, 32]) (he : edge (requestRows r) cs b = some e) (h35 : 35 ∉ done)
    (h63 : 63 ∉ done) (hs : 35 ∉ s) (hpath : y.data.path = dropScheme done)
    (hfragment : y.data.fragment = [])
    (hstart : if cs = 29 then s = [] else y.queryStart = p + done.length + 1)
    (hz : e.acts.foldlM (HttpRequestParser.act buffer (p + (done ++ 63 :: s).length)) y = some z) :
    Progress p (done ++ 63 :: s ++ [b]) e.target z := by
  have hdoes := query_does.1 b r cs hcs e he
  obtain ⟨⟨acts, target⟩, hmem, hd⟩ := List.mem_map.mp hdoes
  obtain ⟨hacts, htarget⟩ := Prod.mk.inj hd
  have hz := foldlM_first hacts rfl hz
  rw [← htarget]
  -- the parser with the start of the query
  obtain ⟨y', hy', hq, hpath, hfragment⟩ : ∃ y', (if cs = 29 then
        { y with queryStart := p + (done ++ 63 :: s).length } else y) = y' ∧
      y'.queryStart = p + done.length + 1 ∧ y'.data.path = dropScheme done ∧
      y'.data.fragment = [] := by
    refine ⟨_, rfl, ?_⟩
    split at hstart
    · rw [if_pos ‹_›, hstart]
      refine ⟨?_, hpath, hfragment⟩
      rw [List.length_append]
      rfl
    · rw [if_neg ‹_›]
      exact ⟨hstart, hpath, hfragment⟩
  rw [hy'] at hz
  have hno : 35 ∉ done ++ 63 :: s := by simp [h35, hs]
  have hend : y'.act buffer (p + (done ++ 63 :: s).length) .queryString =
      some { y' with data := { y'.data with query := s } } := by
    have hcat : buffer.drop p = done ++ [63] ++ s ++ tail := by rw [hdrop]; simp
    rw [HttpRequestParser.act, HttpRequestParser.onRequestQueryString, string_part hbuf hcat hp
      (by rw [hq, List.length_append]; rfl)
      (by rw [hq, List.length_append, List.length_cons]; omega)]
    rfl
  have hhier : hierPart (done ++ 63 :: s) = dropScheme done := by
    rw [hierPart, before_of_notMem hno, before_append h63]
  have hquery : Uri.query (done ++ 63 :: s) = s := by
    rw [Uri.query, before_of_notMem hno, after_append h63]
  split at hmem
  · cases List.mem_singleton.mp hmem
    have hz := foldlM_cons hend hz
    cases hz
    rw [‹b = 32›]
    refine .past (hpath.trans hhier.symm) hquery.symm (hfragment.trans ?_)
    exact (after_of_notMem hno).symm
  split at hmem
  · cases List.mem_singleton.mp hmem
    have hz := foldlM_cons hend hz
    cases hz
    rw [‹b = 35›]
    exact .fragment (by decide) hno (hpath.trans hhier.symm) hquery.symm rfl
  · have hd : acts = [] ∧ target ∈ [30, 31, 32] := by
      simp only [List.mem_cons, Prod.mk.injEq, List.not_mem_nil, or_false] at hmem ⊢
      tauto
    rw [hd.1] at hz
    cases hz
    rw [List.append_assoc, List.cons_append]
    refine .query (List.mem_cons_of_mem _ hd.2) h35 h63 ?_ hpath hfragment ?_
    · simpa using ⟨hs, Ne.symm ‹_›⟩
    · have h29 : target ≠ 29 := by
        rintro rfl
        exact absurd hd.2 (by decide)
      rw [if_neg h29]
      exact hq

theorem Progress.step_fragment {s : List UInt8} (hbuf : buffer.length < 2 ^ 63)
    (hp : p ≤ buffer.length) (hdrop : buffer.drop p = done ++ 35 :: s ++ tail)
    (hcs : cs ∈ [20, 21, 22, 23]) (he : edge (requestRows r) cs b = some e) (h35 : 35 ∉ done)
    (hpath : y.data.path = hierPart done) (hquery : y.data.query = Uri.query done)
    (hmark : if cs = 20 then s = [] else y.mark = p + done.length + 1)
    (hz : e.acts.foldlM (HttpRequestParser.act buffer (p + (done ++ 35 :: s).length)) y = some z) :
    Progress p (done ++ 35 :: s ++ [b]) e.target z := by
  have hdoes := query_does.2 b r cs hcs e he
  obtain ⟨⟨acts, target⟩, hmem, hd⟩ := List.mem_map.mp hdoes
  obtain ⟨hacts, htarget⟩ := Prod.mk.inj hd
  have hz := foldlM_first hacts rfl hz
  rw [← htarget]
  -- the parser with the start of the fragment
  obtain ⟨y', hy', hm, hpath, hquery⟩ : ∃ y', (if cs = 20 then
        { y with mark := p + (done ++ 35 :: s).length } else y) = y' ∧
      y'.mark = p + done.length + 1 ∧ y'.data.path = hierPart done ∧
      y'.data.query = Uri.query done := by
    refine ⟨_, rfl, ?_⟩
    split at hmark
    · rw [if_pos ‹_›, hmark]
      refine ⟨?_, hpath, hquery⟩
      rw [List.length_append]
      rfl
    · rw [if_neg ‹_›]
      exact ⟨hmark, hpath, hquery⟩
  rw [hy'] at hz
  have hend : y'.act buffer (p + (done ++ 35 :: s).length) .fragment =
      some { y' with data := { y'.data with fragment := s } } := by
    have hcat : buffer.drop p = done ++ [35] ++ s ++ tail := by rw [hdrop]; simp
    rw [HttpRequestParser.act, HttpRequestParser.onRequestFragment, string_part hbuf hcat hp
      (by rw [hm, List.length_append]; rfl)
      (by rw [hm, List.length_append, List.length_cons]; omega)]
    rfl
  split at hmem
  · cases List.mem_singleton.mp hmem
    have hz := foldlM_cons hend hz
    cases hz
    have hbefore : before 35 (done ++ 35 :: s) = before 35 done := by
      rw [before_append h35, before_of_notMem h35]
    rw [‹b = 32›]
    refine .past ?_ ?_ (after_append h35 s).symm
    · rw [hierPart, hbefore]
      exact hpath
    · rw [Uri.query, hbefore]
      exact hquery
  · have hd : acts = [] ∧ target ∈ [21, 22, 23] := by
      simp only [List.mem_cons, Prod.mk.injEq, List.not_mem_nil, or_false] at hmem ⊢
      tauto
    rw [hd.1] at hz
    cases hz
    rw [List.append_assoc, List.cons_append]
    have h20 : target ≠ 20 := by
      rintro rfl
      exact absurd hd.2 (by decide)
    refine .fragment (List.mem_cons_of_mem _ hd.2) h35 hpath hquery ?_
    rw [if_neg h20]
    exact hm

end

/-! ## The whole target -/

theorem Progress.step {tail : List UInt8} (hbuf : buffer.length < 2 ^ 63) (hp : p ≤ buffer.length)
    (hdrop : buffer.drop p = done ++ tail) (h : Progress p done cs y)
    (he : edge (requestRows r) cs b = some e)
    (hz : e.acts.foldlM (HttpRequestParser.act buffer (p + done.length)) y = some z) :
    Progress p (done ++ [b]) e.target z ∨ inHead e.target = true ∧ e.target ≠ 4 := by
  cases h with
  | start hpath => exact .inl (.step_start hbuf hp he hpath hz)
  | first hcs hne h58 h47 hmark hpath =>
    exact .inl (.step_first hbuf hp hdrop hcs he hne h58 h47 hmark hpath hz)
  | scheme hne h58 h47 hpath => exact .inl (.step_scheme hbuf hp hdrop he hne h58 h47 hpath hz)
  | hier hcs hdecided hmark hpath =>
    exact .inl (.step_hier hbuf hp hdrop hcs he hdecided hmark hpath hz)
  | query hcs h35 h63 hs hpath hfragment hstart =>
    exact .inl (.step_query hbuf hp hdrop hcs he h35 h63 hs hpath hfragment hstart hz)
  | fragment hcs h35 hpath hquery hmark =>
    exact .inl (.step_fragment hbuf hp hdrop hcs he h35 hpath hquery hmark hz)
  | past => exact .inr ((of_edge (requestRows_tail r) he).1.head rfl).1

theorem Progress.of_past {text : List UInt8} (h : Progress p text 4 y) :
    ∃ done, text = done ++ [32] ∧ y.data.path = hierPart done ∧ y.data.query = Uri.query done ∧
      y.data.fragment = Uri.fragment done := by
  cases h with
  | first hcs | query hcs | fragment hcs => exact absurd hcs (by decide)
  | hier hcs => cases hcs
  | past hpath hquery hfragment => exact ⟨_, rfl, hpath, hquery, hfragment⟩

/-- **What the target leaves in the parser**: the path with the authority, the query and the
fragment. -/
theorem exec_components {target rest : List UInt8} {res : HttpRequestParser × Nat × Nat}
    (hbuf : buffer.length < 2 ^ 63) (hdrop : buffer.drop p = target ++ [32] ++ rest)
    (ht : IsTarget r target) (hpath : InPath [] x)
    (h : exec (requestRows r) (· == .done) (HttpRequestParser.act buffer) 3 x p
      (target ++ [32] ++ rest) = some res) :
    res.1.data.path = hierPart target ∧ res.1.data.query = Uri.query target ∧
      res.1.data.fragment = Uri.fragment target := by
  have hp : p ≤ buffer.length := by
    have hlen := congrArg List.length hdrop
    simp only [List.length_drop, List.length_append, List.length_cons] at hlen
    omega
  obtain ⟨y, hy, hrest⟩ := exec_prefix (I := fun done cs y => Progress p done cs y ∨
      inHead cs = true ∧ cs ≠ 4) (fun {done b cs x e y} hpre he hI hz => by
    obtain ⟨tail, htail⟩ := hpre
    rcases hI with hI | ⟨hcs, -⟩
    · refine hI.step hbuf hp (show buffer.drop p = done ++ (b :: tail ++ rest) from ?_) he hz
      rw [hdrop, ← htail]
      simp
    · exact .inr ((of_edge (requestRows_tail r) he).1.head hcs).1) ht h (.inl (.start hpath))
  obtain ⟨done, hdone, hp, hq, hf⟩ := (hy.resolve_right fun h => h.2 rfl).of_past
  obtain rfl := List.append_cancel_right hdone
  have hrest' : buffer.drop (p + (target ++ [32]).length) = rest := by
    rw [← List.drop_drop, hdrop, List.drop_left]
  rw [← hrest'] at hrest
  have hsame := exec_target hrest
  exact ⟨hsame.path.trans hp, hsame.query.trans hq, hsame.fragment.trans hf⟩

/-- **The components of the target** are those of RFC 3986 exactly when it has no authority. -/
theorem target_iff {q : Nat} {method target rest : List UInt8} (hne : method ≠ [])
    (hlen : method.length ≤ 20) (hchars : ∀ b ∈ method, methodChar.has b) (ht : IsTarget r target)
    (hbuf : (method ++ 32 :: (target ++ 32 :: rest)).length < 2 ^ 63) :
    ∃ y n, (HttpRequestParser.new q r).parserExecute (method ++ 32 :: (target ++ 32 :: rest))
        (method ++ 32 :: (target ++ 32 :: rest)).length = some (y, n) ∧
      (y.data.path = Uri.path target ∧ y.data.query = Uri.query target ∧
        y.data.fragment = Uri.fragment target ↔ Uri.authority target = none) := by
  obtain ⟨z, cs, p, hz, hy⟩ := parserExecute_run (r := r) (q := q) (by simp) hbuf
  refine ⟨_, _, hy, ?_⟩
  clear hy
  have hcat : method ++ 32 :: (target ++ 32 :: rest) =
      method ++ [32] ++ (target ++ [32] ++ rest) := by simp
  rw [hcat] at hz hbuf
  obtain ⟨y, hy, hz⟩ := exec_method hne hlen hchars hz
  have hc := act_changes (x := HttpRequestParser.new q r) (a := .requestMethod)
    (p := method.length) hy
  obtain ⟨hpath, hquery, hfragment⟩ : z.data.path = hierPart target ∧
      z.data.query = Uri.query target ∧ z.data.fragment = Uri.fragment target :=
    exec_components hbuf (List.drop_left ..) ht
      ⟨List.not_mem_nil, List.not_mem_nil, hc.query (by simp), hc.fragment (by simp)⟩ hz
  simp only [hpath, hquery, hfragment, and_true]
  rw [eq_comm]
  exact path_eq_hierPart_iff target

theorem target_iff_search : ∃ y n, (HttpRequestParser.new 0 false).parserExecute
    (bytes "GET" ++ 32 :: (bytes "/a/b?k=v&w#top" ++ 32 :: bytes "HTTP/1.1\r\n\r\n"))
    (bytes "GET" ++ 32 :: (bytes "/a/b?k=v&w#top" ++ 32 :: bytes "HTTP/1.1\r\n\r\n")).length =
      some (y, n) ∧
    y.data.path = bytes "/a/b" ∧ y.data.query = bytes "k=v&w" ∧ y.data.fragment = bytes "top" := by
  obtain ⟨y, n, hy, hiff⟩ := @target_iff false 0 (bytes "GET") (bytes "/a/b?k=v&w#top")
    (bytes "HTTP/1.1\r\n\r\n") (by decide) (by decide)
    (by decide +kernel) (by decide +kernel) (by decide)
  obtain ⟨hpath, hquery, hfragment⟩ := hiff.mpr (by decide)
  exact ⟨y, n, hy, hpath.trans (by decide), hquery.trans (by decide), hfragment.trans (by decide)⟩

/-- The authority is stored with the path. -/
theorem authority_in_path :
    ((HttpRequestParser.new 0 false).parserExecute (bytes "GET http://h/p HTTP/1.1\r\n\r\n") 27).map
      (fun y => (y.1.data.path, y.1.hasError, y.1.isFinished)) = some (bytes "//h/p", false, 1) ∧
    IsTarget false (bytes "http://h/p") ∧ Uri.path (bytes "http://h/p") = bytes "/p" := by
  decide +kernel

end Tigerkin.Http
