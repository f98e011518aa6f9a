import Tigerkin.Http.RequestLine

/-! # What the parser of requests reads before it is set

Nothing initializes `query_start` and `uri_relaxed`. The first is written on every path before it is
read. The second decides whether the machine passes `^`, `{` and `}` where a target has its other
sub-delimiters (`unset_iff`). -/

namespace Tigerkin.Http

open Machine CString

/-- `^`, `{` and `}` -/
def moreDelims : List UInt8 := [94, 123, 125]

/-- The parser rejects the text when `uri_relaxed` is 0. -/
def Rejects (text : List UInt8) : Prop := (walk (requestRows false) (· == .done) 1 text).1 = 0

instance (text : List UInt8) : Decidable (Rejects text) := inferInstanceAs (Decidable (_ = _))

/-- One of the delimiters is where the grammar has sub-delimiters as a parenthesis, and is none itself
when `uri_relaxed` is 0. -/
def HasMoreDelim (buffer : List UInt8) : Prop :=
  ∃ part b rest, buffer = part ++ b :: rest ∧ b ∈ moreDelims ∧ ¬ Rejects (part ++ [40]) ∧
    Rejects (part ++ [b])

/-- What `execute` gives with these contents of the fields that are not set: the consumed length, the
error, whether the request is finished, and the request. -/
def HttpRequestParser.outcome (queryStart : Nat) (uriRelaxed : Bool) (buffer : List UInt8) :
    Option (Nat × Bool × Int × HttpRequest) :=
  ((new queryStart uriRelaxed).execute buffer buffer.length).map fun r =>
    (r.2.2, r.1.hasError, r.1.isFinished, r.1.data)

/-! ## The edges of the two machines -/

/-- The edges without the ranges that consist of one of the delimiters. -/
def otherRanges (row : List (Edge RequestAction)) :
    List (List (UInt8 × UInt8) × List RequestAction × Nat) :=
  row.map fun e => (e.on.filter fun range => range.1 ≠ range.2 ∨ range.1 ∉ moreDelims, e.effect)

/-- The state after an edge, or the error. -/
def next (e : Option (Edge RequestAction)) : Nat := (e.map Edge.target).getD 0

/-- One of the delimiters in the rows of a state, when `uri_relaxed` is not set and when it is. -/
def SameDelim (row row' : List (Edge RequestAction)) (b : UInt8) : Prop :=
  (row'.find? (·.covers b)).map Edge.effect = (row.find? (·.covers b)).map Edge.effect ∧
      (next (row.find? (·.covers 40)) ≠ 0 → next (row.find? (·.covers b)) ≠ 0) ∨
    (row'.find? (·.covers b)).isSome ∧ (row.find? (·.covers b)).isNone ∧
      next (row.find? (·.covers 40)) ≠ 0

instance (row row' : List (Edge RequestAction)) (b : UInt8) : Decidable (SameDelim row row' b) :=
  inferInstanceAs (Decidable (_ ∧ _ ∨ _))

structure SameRow (row row' : List (Edge RequestAction)) : Prop where
  others : otherRanges row' = otherRanges row
  delims : ∀ b ∈ moreDelims, SameDelim row row' b

instance (row row' : List (Edge RequestAction)) : Decidable (SameRow row row') :=
  have : Decidable (∀ b ∈ moreDelims, SameDelim row row' b) := List.decidableBAll ..
  decidable_of_iff (otherRanges row' = otherRanges row ∧ ∀ b ∈ moreDelims, SameDelim row row' b)
    ⟨fun ⟨h1, h2⟩ => ⟨h1, h2⟩, fun h => ⟨h.others, h.delims⟩⟩

theorem requestRows_same :
    (requestRows false).length = (requestRows true).length ∧
      ∀ p ∈ (requestRows false).zip (requestRows true), SameRow p.1 p.2 := by
  decide +kernel

theorem getD_same (cs : Nat) :
    SameRow ((requestRows false).getD cs []) ((requestRows true).getD cs []) := by
  obtain ⟨hlen, hsame⟩ := requestRows_same
  rw [List.getD_eq_getElem?_getD, List.getD_eq_getElem?_getD]
  by_cases hcs : cs < (requestRows false).length
  · have hrow := List.getElem?_eq_getElem hcs
    have hrow' := List.getElem?_eq_getElem (hlen ▸ hcs : cs < (requestRows true).length)
    rw [hrow, hrow']
    exact hsame (_, _) (List.mem_of_getElem? (List.getElem?_zip_eq_some.mpr ⟨hrow, hrow'⟩))
  · rw [List.getElem?_eq_none (Nat.le_of_not_lt hcs),
      List.getElem?_eq_none (hlen ▸ Nat.le_of_not_lt hcs)]
    exact ⟨rfl, fun b _ => .inl ⟨rfl, fun h => absurd rfl h⟩⟩

theorem covers_otherRanges {b : UInt8} (hb : b ∉ moreDelims) (e : Edge RequestAction) :
    (e.on.filter fun range => range.1 ≠ range.2 ∨ range.1 ∉ moreDelims).any
      (fun range => range.1 ≤ b && b ≤ range.2) = e.covers b := by
  rw [List.any_filter, Edge.covers]
  congr 1
  funext range
  rw [Bool.and_eq_right_iff_imp]
  intro h
  simp only [Bool.and_eq_true, decide_eq_true_eq] at h ⊢
  by_contra hrange
  obtain ⟨heq, hmem⟩ : range.1 = range.2 ∧ range.1 ∈ moreDelims := by tauto
  exact hb (UInt8.le_antisymm h.1 (heq ▸ h.2) ▸ hmem)

/-- The edges of a state for a byte that is none of the delimiters. -/
theorem find_otherRanges {b : UInt8} (hb : b ∉ moreDelims) (row : List (Edge RequestAction)) :
    (row.find? (·.covers b)).map Edge.effect =
      ((otherRanges row).find? fun t => t.1.any fun range => range.1 ≤ b && b ≤ range.2).map
        Prod.snd := by
  rw [otherRanges, List.find?_map, Option.map_map]
  congr 2
  funext e
  exact (covers_otherRanges hb e).symm

/-- **What `uri_relaxed` changes**: the edges of the delimiters where the parenthesis has an edge
and they have none. -/
theorem edge_relaxed (cs : Nat) (b : UInt8) :
    (edge (requestRows true) cs b).map Edge.effect =
          (edge (requestRows false) cs b).map Edge.effect ∧
        (b ∈ moreDelims → next (edge (requestRows false) cs 40) ≠ 0 →
          next (edge (requestRows false) cs b) ≠ 0) ∨
      b ∈ moreDelims ∧ (edge (requestRows true) cs b).isSome ∧
        (edge (requestRows false) cs b).isNone ∧ next (edge (requestRows false) cs 40) ≠ 0 := by
  have hsame := getD_same cs
  by_cases hb : b ∈ moreDelims
  · exact (hsame.delims b hb).imp (fun h => ⟨h.1, fun _ => h.2⟩) fun h => ⟨hb, h⟩
  · left
    rw [edge, edge, find_otherRanges hb, find_otherRanges hb, hsame.others]
    exact ⟨rfl, fun h => absurd h hb⟩

/-! ## Two parsers -/

namespace HttpRequestParser

/-- The two parsers differ in nothing but the fields that are not set, and in `query_start` only
before it is read. -/
structure Agree (s : Bool × Bool) (x x' : HttpRequestParser) : Prop where
  eq : x' = { x with queryStart := x'.queryStart, uriRelaxed := x'.uriRelaxed }
  query : s.2 = true → x'.queryStart = x.queryStart

variable {buffer : List UInt8} {p : Nat} {s s' : Bool × Bool} {x x' : HttpRequestParser}
  {a : RequestAction}

theorem rel_bind {α β γ : Type} {R : β → γ → Prop} {f : α → Option β} {g : α → Option γ}
    (h : ∀ v, Option.Rel R (f v) (g v)) (o : Option α) : Option.Rel R (o.bind f) (o.bind g) := by
  cases o with
  | none => exact .none
  | some v => exact h v

theorem rel_map {α β γ : Type} {R : β → γ → Prop} {f : α → β} {g : α → γ} (h : ∀ v, R (f v) (g v))
    (o : Option α) : Option.Rel R (o.map f) (o.map g) := by
  cases o with
  | none => exact .none
  | some v => exact .some (h v)

theorem act_agree (h : Agree s x x') (ht : track s a = some s') :
    Option.Rel (Agree s') (x.act buffer p a) (x'.act buffer p a) := by
  obtain ⟨f, q⟩ := s
  obtain ⟨heq, hquery⟩ := h
  generalize x'.queryStart = start at heq hquery
  generalize x'.uriRelaxed = relaxed at heq
  subst heq
  cases a with
  | queryString =>
    cases q <;> cases ht
    obtain rfl := hquery rfl
    exact rel_map (fun _ => ⟨rfl, fun _ => rfl⟩) _
  | startQuery =>
    cases ht
    exact .some ⟨rfl, fun _ => rfl⟩
  | writeValue =>
    cases f <;> cases ht
    simp only [act, onRequestHttpField]
    split
    · exact .some ⟨rfl, hquery⟩
    · exact rel_bind (fun _ => rel_bind (fun _ => .some ⟨rfl, hquery⟩) _) _
  | requestMethod =>
    cases ht
    simp only [act, onRequestMethod]
    split
    · exact .some ⟨rfl, hquery⟩
    · exact rel_map (fun _ => ⟨rfl, hquery⟩) _
  | httpVersion =>
    cases ht
    simp only [act, onRequestHttpVersion]
    split
    · exact .some ⟨rfl, hquery⟩
    · split
      · exact .some ⟨rfl, hquery⟩
      · exact rel_map (fun _ => ⟨rfl, hquery⟩) _
  | fragment | requestPath =>
    cases ht
    exact rel_map (fun _ => ⟨rfl, hquery⟩) _
  | done =>
    cases ht
    simp only [act]
    split
    · exact .some ⟨rfl, hquery⟩
    · exact .some ⟨rfl, hquery⟩
  | mark | startField | writeField | requestUri | xml | json =>
    cases ht
    exact .some ⟨rfl, hquery⟩

theorem acts_agree {as : List RequestAction} (h : Agree s x x')
    (ht : as.foldlM track s = some s') :
    Option.Rel (Agree s') (as.foldlM (act buffer p) x) (as.foldlM (act buffer p) x') := by
  induction as generalizing s x x' with
  | nil =>
    cases ht
    exact .some h
  | cons a as ih =>
    obtain ⟨s₁, hs₁, ht⟩ := Option.bind_eq_some_iff.mp ht
    have hact : Option.Rel (Agree s₁) (x.act buffer p a) (x'.act buffer p a) := act_agree h hs₁
    rw [List.foldlM_cons, List.foldlM_cons]
    revert hact
    generalize x.act buffer p a = o
    generalize x'.act buffer p a = o'
    rintro (hy | _)
    · exact ih hy ht
    · exact .none

/-- `query_start` is written before it is read. -/
theorem exec_agree_unset (r : Bool) (h : Agree (known 1) x x') (buffer : List UInt8) :
    Option.Rel (fun y y' => y.2 = y'.2 ∧ ∃ c, Agree (known c) y.1 y'.1)
      (exec (requestRows r) (· == .done) (act buffer) 1 x 0 buffer)
      (exec (requestRows r) (· == .done) (act buffer) 1 x' 0 buffer) := by
  refine exec_similar (R := fun cs => Agree (known cs)) (fun {cs b e p y y'} he hyy' => ?_) h 0
    buffer
  obtain ⟨s₁, hs₁, -, hquery⟩ := (request_edge he).tracked
  have hacts : Option.Rel (Agree s₁) (e.acts.foldlM (act buffer p) y)
      (e.acts.foldlM (act buffer p) y') := acts_agree hyy' hs₁
  revert hacts
  generalize e.acts.foldlM (act buffer p) y = o
  generalize e.acts.foldlM (act buffer p) y' = o'
  rintro (hz | _)
  · exact .some ⟨hz.eq, fun hq => hz.query (hquery hq)⟩
  · exact .none

/-- What `execute` gives depends on `uri_relaxed` by the machine alone. -/
theorem outcome_congr {r r' : Bool}
    (h : ∀ x, exec (requestRows r') (· == .done) (act buffer) 1 x 0 buffer =
      exec (requestRows r) (· == .done) (act buffer) 1 x 0 buffer) (q q' : Nat) :
    outcome q' r' buffer = outcome q r buffer := by
  by_cases hlen : buffer.length = 0
  · simp only [outcome, execute, parserExecute, if_pos hlen]
    rfl
  have hagree : Agree (known 1) (new q r) (new q' r') := ⟨rfl, by rintro ⟨⟩⟩
  have hrel := exec_agree_unset r hagree buffer
  have hcs : (new q r).cs = 1 ∧ (new q' r').cs = 1 ∧ (new q r).uriRelaxed = r ∧
      (new q' r').uriRelaxed = r' := ⟨rfl, rfl, rfl, rfl⟩
  simp only [outcome, execute, parserExecute, if_neg hlen, List.take_length, hcs, h]
  revert hrel
  generalize exec (requestRows r) (· == .done) (act buffer) 1 (new q r) 0 buffer = o
  generalize exec (requestRows r) (· == .done) (act buffer) 1 (new q' r') 0 buffer = o'
  rintro (@⟨⟨y, cs, p⟩, ⟨y', cs', p'⟩, heq, c, hy, -⟩ | _)
  · cases heq
    dsimp only at hy
    generalize y'.queryStart = start at hy
    generalize y'.uriRelaxed = relaxed at hy
    subst hy
    simp only [Option.bind_eq_bind, Option.bind_some]
    split
    · rfl
    · rfl
  · rfl

theorem outcome_consumed (hne : buffer ≠ []) (hbuf : buffer.length < 2 ^ 63) (q : Nat) (r : Bool) :
    (outcome q r buffer).map Prod.fst =
      some (walk (requestRows r) (· == .done) 1 buffer).2.1 := by
  obtain ⟨z, cs, p, hz, hy⟩ := parserExecute_run (r := r) (q := q) hne hbuf
  obtain ⟨-, hp⟩ := exec_walk hz
  rw [Nat.zero_add] at hp
  rw [outcome, execute, hy, ← hp]
  rfl

end HttpRequestParser

open HttpRequestParser

variable {part buffer : List UInt8} {b : UInt8}

theorem rejects_concat (hw : (walk (requestRows false) (· == .done) 1 part).2.2 = false)
    (b : UInt8) : Rejects (part ++ [b]) ↔
      next (edge (requestRows false) (walk (requestRows false) (· == .done) 1 part).1 b) = 0 := by
  rw [Rejects, walk_append _ hw]
  simp only [walk_step]
  cases edge (requestRows false) (walk (requestRows false) (· == .done) 1 part).1 b with
  | none => exact Iff.rfl
  | some e =>
    dsimp only
    split
    · exact Iff.rfl
    · exact Iff.rfl

/-- Text that the strict machine passes does not tell the two machines apart. -/
theorem follows_of_passes (hw : (walk (requestRows false) (· == .done) 1 part).2.2 = false) :
    Follows (requestRows false) (· == .done) (requestRows true) 1 part := by
  rintro first b rest rfl c hfirst
  rcases edge_relaxed c b with ⟨h, -⟩ | ⟨-, -, hnone, -⟩
  · exact h
  · rw [walk_append _ (congrArg (·.2.2) hfirst), hfirst] at hw
    obtain ⟨e, he, -⟩ := walk_cons hw
    rw [Option.isNone_iff_eq_none.mp hnone] at he
    cases he

/-- Without the delimiters the machines do the same. -/
theorem follows_of_not_hasMoreDelim (h : ¬ HasMoreDelim buffer) :
    Follows (requestRows false) (· == .done) (requestRows true) 1 buffer := by
  rintro part b rest rfl c hw
  rcases edge_relaxed c b with ⟨h, -⟩ | ⟨hb, -, hnone, hopen⟩
  · exact h
  · have hpass : (walk (requestRows false) (· == .done) 1 part).2.2 = false := congrArg (·.2.2) hw
    refine absurd ⟨part, b, rest, rfl, hb, ?_, ?_⟩ h
    · rw [rejects_concat hpass, hw]
      exact hopen
    · rw [rejects_concat hpass, hw, Option.isNone_iff_eq_none.mp hnone]
      rfl

/-- With one of them the relaxed machine goes further. -/
theorem walk_of_hasMoreDelim (h : HasMoreDelim buffer) :
    (walk (requestRows false) (· == .done) 1 buffer).2.1 <
      (walk (requestRows true) (· == .done) 1 buffer).2.1 := by
  obtain ⟨part, b, rest, rfl, hb, hopen, hrejects⟩ := h
  have hw : (walk (requestRows false) (· == .done) 1 part).2.2 = false := by
    refine eq_false_of_ne_true fun hhalts => hopen ?_
    rw [Rejects, walk_append_halted _ hhalts] at hrejects ⊢
    exact hrejects
  have hw' := walk_follows (follows_of_passes hw)
  rw [rejects_concat hw] at hopen hrejects
  rw [walk_append _ hw, walk_append _ (hw' ▸ hw), hw']
  generalize (walk (requestRows false) (· == .done) 1 part).1 = c at hopen hrejects ⊢
  rcases edge_relaxed c b with ⟨-, hnext⟩ | ⟨-, hsome, hnone, -⟩
  · exact absurd hrejects (hnext hb hopen)
  · obtain ⟨e, he⟩ := Option.isSome_iff_exists.mp hsome
    simp only [walk_step, Option.isNone_iff_eq_none.mp hnone, he]
    split
    · exact Nat.lt_succ_self _
    · dsimp only
      omega

/-- **When the outcome does not depend on what the fields contain**: when none of the delimiters is
in the target. -/
theorem unset_iff (hbuf : buffer.length < 2 ^ 63) :
    (∀ q q' r r', outcome q' r' buffer = outcome q r buffer) ↔ ¬ HasMoreDelim buffer := by
  constructor
  · intro h hdelim
    have hne : buffer ≠ [] := by
      obtain ⟨part, b, rest, rfl, -⟩ := hdelim
      simp
    have hstrict := outcome_consumed hne hbuf 0 false
    rw [← h 0 0 false true, outcome_consumed hne hbuf 0 true] at hstrict
    exact absurd (Option.some.inj hstrict) (Nat.ne_of_gt (walk_of_hasMoreDelim hdelim))
  · intro hdelim
    have hexec : ∀ r x, exec (requestRows r) (· == .done) (act buffer) 1 x 0 buffer =
        exec (requestRows false) (· == .done) (act buffer) 1 x 0 buffer := by
      intro r x
      cases r
      · rfl
      · exact exec_follows (follows_of_not_hasMoreDelim hdelim) x 0
    intro q q' r r'
    exact outcome_congr (fun x => (hexec r' x).trans (hexec r x).symm) q q'

def searchRequest : List UInt8 := bytes "GET /a?b=(c) HTTP/1.1\r\nHost: h\r\n\r\n"

theorem unset_iff_search : outcome 5 true searchRequest = outcome 0 false searchRequest := by
  refine (unset_iff (by decide)).mpr ?_ 0 5 false true
  rintro ⟨part, b, rest, hbuf, hb, -⟩
  have hnone : ∀ b ∈ searchRequest, b ∉ moreDelims := by decide +kernel
  refine hnone b ?_ hb
  rw [hbuf]
  exact List.mem_append_right part List.mem_cons_self

/-- A request that one parser rejects after five bytes and the other accepts. -/
theorem relaxed_request :
    outcome 0 false (bytes "GET /\x7b HTTP/1.1\r\n\r\n") = some (5, true, -1, {}) ∧
      outcome 0 true (bytes "GET /\x7b HTTP/1.1\r\n\r\n") =
        some (19, false, 1, { path := bytes "/\x7b" }) := by
  decide +kernel

end Tigerkin.Http
