import Tigerkin.Http.RequestLine
import Tigerkin.Std.Lines

/-! # Which methods are recognized

`CharsToHttpMethod` compares as many bytes as the name of a method has, with a pointer into the
buffer that no NUL ends. So a token that only starts with a name is taken for the method, and since
the table spells `M-SEARCH` with spaces, the token `M` is when `- SEARCH` follows it
(`method_iff`). -/

namespace Tigerkin.Http

open Machine CString

/-- The name of a method in requests. -/
def protocolName : HttpMethod → List UInt8
  | .MSEARCH => bytes "M-SEARCH"
  | m => (httpMethodMap.find? fun x => x.1 == m).elim [] fun x => bytes x.2

/-- The method that has been stored, unless `INVALID_METHOD_ERROR` is reported. -/
def HttpRequestParser.method? (x : HttpRequestParser) : Option HttpMethod :=
  if x.error = .INVALID_METHOD_ERROR then none else some x.data.method

/-- The name of a method is shorter than the token that starts with it, or the token and what
follows it read as the table's name of `MSEARCH`. -/
def Misread (token rest : List UInt8) : Prop :=
  (∃ x ∈ httpMethodMap, bytes x.2 <+: token ∧ bytes x.2 ≠ token) ∨
    token = bytes "M" ∧ bytes "- SEARCH" <+: rest

/-! ## The table -/

/-- What an entry of the table is like. -/
structure MethodEntry (x : HttpMethod × String) : Prop where
  length : (bytes x.2).length = x.2.length
  zero : 0 ∉ bytes x.2
  name : x.1 ≠ .MSEARCH → protocolName x.1 = bytes x.2 ∧ 32 ∉ bytes x.2
  search : x.1 = .MSEARCH → bytes x.2 = bytes "M" ++ 32 :: bytes "- SEARCH"
  unique : ∀ y ∈ httpMethodMap, bytes x.2 <+: bytes y.2 → x = y

instance (x : HttpMethod × String) : Decidable (MethodEntry x) :=
  decidable_of_iff
    ((bytes x.2).length = x.2.length ∧ 0 ∉ bytes x.2 ∧
      (x.1 ≠ .MSEARCH → protocolName x.1 = bytes x.2 ∧ 32 ∉ bytes x.2) ∧
      (x.1 = .MSEARCH → bytes x.2 = bytes "M" ++ 32 :: bytes "- SEARCH") ∧
      (∀ y ∈ httpMethodMap, bytes x.2 <+: bytes y.2 → x = y))
    ⟨fun ⟨h1, h2, h3, h4, h5⟩ => ⟨h1, h2, h3, h4, h5⟩,
      fun h => ⟨h.length, h.zero, h.name, h.search, h.unique⟩⟩

theorem httpMethodMap_entry : ∀ x ∈ httpMethodMap, MethodEntry x := by
  decide +kernel

theorem exists_entry (m : HttpMethod) : ∃ x ∈ httpMethodMap, x.1 = m := by
  cases m <;> decide

variable {token rest buffer : List UInt8} {m : HttpMethod} {r : Bool} {x y : HttpRequestParser}

/-- The method whose name the bytes start with. -/
theorem charsToHttpMethod_eq_some_iff :
    charsToHttpMethod buffer = some m ↔ ∃ x ∈ httpMethodMap, x.1 = m ∧ bytes x.2 <+: buffer := by
  have hmatch : ∀ x ∈ httpMethodMap,
      (strncmpEq x.2.length (bytes x.2) buffer = true ↔ bytes x.2 <+: buffer) := by
    intro x hx
    have he := httpMethodMap_entry x hx
    rw [← he.length]
    exact strncmpEq_length he.zero
  constructor
  · intro h
    obtain ⟨x, hx, rfl⟩ := Option.map_eq_some_iff.mp h
    have hmem := List.mem_of_find?_eq_some hx
    have heq := List.find?_some hx
    exact ⟨x, hmem, rfl, (hmatch x hmem).mp heq⟩
  · rintro ⟨x, hx, rfl, hpre⟩
    cases hf : httpMethodMap.find? fun x => strncmpEq x.2.length (bytes x.2) buffer with
    | none =>
      exact absurd ((hmatch x hx).mpr hpre) (List.find?_eq_none.mp hf x hx)
    | some y =>
      have hy := List.mem_of_find?_eq_some hf
      have heq := List.find?_some hf
      have hpre' := (hmatch y hy).mp heq
      rw [charsToHttpMethod, hf]
      rcases List.prefix_or_prefix_of_prefix hpre hpre' with h | h
      · rw [(httpMethodMap_entry x hx).unique y hy h]
        rfl
      · rw [(httpMethodMap_entry y hy).unique x hx h]
        rfl

/-- A name that the buffer starts with is the token, or the token is misread. -/
theorem eq_of_not_misread (htoken : 32 ∉ token) (h : ¬ Misread token rest)
    {x : HttpMethod × String} (hx : x ∈ httpMethodMap)
    (hpre : bytes x.2 <+: token ++ 32 :: rest) : x.1 ≠ .MSEARCH ∧ bytes x.2 = token := by
  have he := httpMethodMap_entry x hx
  have hne : x.1 ≠ .MSEARCH := by
    intro hm
    obtain ⟨tail, htail⟩ := hpre
    rw [he.search hm, List.append_assoc, List.cons_append] at htail
    obtain ⟨rfl, rfl⟩ := append_cons_inj (by decide) htoken htail
    exact h (.inr ⟨rfl, List.prefix_append ..⟩)
  refine ⟨hne, ?_⟩
  rcases List.prefix_or_prefix_of_prefix hpre (List.prefix_append token (32 :: rest)) with
    hpre' | ⟨l, hl⟩
  · by_contra hx'
    exact h (.inl ⟨x, hx, hpre', hx'⟩)
  · rw [← hl, List.prefix_append_right_inj] at hpre
    cases l with
    | nil => rw [← hl, List.append_nil]
    | cons b l =>
      obtain ⟨rfl, -⟩ := List.cons_prefix_cons.mp hpre
      exact absurd (hl ▸ by simp) (he.name hne).2

theorem methodChar_ne {b : UInt8} (h : methodChar.has b) : b ≠ 32 ∧ b ≠ 45 := by
  constructor <;> rintro rfl <;> exact absurd h (by decide)

theorem charsToHttpMethod_iff (hchars : ∀ b ∈ token, methodChar.has b) :
    (∀ m, charsToHttpMethod (token ++ 32 :: rest) = some m ↔ token = protocolName m) ↔
      ¬ Misread token rest := by
  have hspace : 32 ∉ token := fun hmem => (methodChar_ne (hchars 32 hmem)).1 rfl
  have hname : ∀ {m}, token = protocolName m → m ≠ .MSEARCH := by
    rintro m rfl rfl
    exact (methodChar_ne (hchars 45 (by decide))).2 rfl
  constructor
  · rintro h (⟨x, hx, hpre, hne⟩ | ⟨rfl, hpre⟩)
    · have heq := (h x.1).mp (charsToHttpMethod_eq_some_iff.mpr
        ⟨x, hx, rfl, hpre.trans (List.prefix_append ..)⟩)
      exact hne (((httpMethodMap_entry x hx).name (hname heq)).1 ▸ heq.symm)
    · obtain ⟨x, hx, hm⟩ := exists_entry .MSEARCH
      refine hname ((h x.1).mp (charsToHttpMethod_eq_some_iff.mpr ⟨x, hx, rfl, ?_⟩)) hm
      rw [(httpMethodMap_entry x hx).search hm, List.prefix_append_right_inj]
      exact List.cons_prefix_cons.mpr ⟨rfl, hpre⟩
  · intro h m
    rw [charsToHttpMethod_eq_some_iff]
    constructor
    · rintro ⟨x, hx, rfl, hpre⟩
      obtain ⟨hne, heq⟩ := eq_of_not_misread hspace h hx hpre
      rw [((httpMethodMap_entry x hx).name hne).1, heq]
    · intro heq
      obtain ⟨x, hx, rfl⟩ := exists_entry m
      refine ⟨x, hx, rfl, ?_⟩
      rw [heq, ((httpMethodMap_entry x hx).name (hname heq)).1]
      exact List.prefix_append ..

/-! ## The parser -/

theorem onRequestMethod_method? {n : Nat} (hx : x.error = .OK)
    (hy : x.onRequestMethod buffer 0 n = some y) : y.method? = charsToHttpMethod buffer := by
  rw [HttpRequestParser.onRequestMethod, List.drop_zero] at hy
  cases hm : charsToHttpMethod buffer with
  | none =>
    rw [hm] at hy
    obtain ⟨v, -, rfl⟩ := Option.map_eq_some_iff.mp hy
    rfl
  | some m =>
    rw [hm] at hy
    cases hy
    simp [HttpRequestParser.method?, hx]

/-- What the parser stores of the method. -/
theorem parserExecute_method {q : Nat} (hne : token ≠ []) (hlen : token.length ≤ 20)
    (hchars : ∀ b ∈ token, methodChar.has b) (hbuf : (token ++ 32 :: rest).length < 2 ^ 63) :
    ∃ y n, (HttpRequestParser.new q r).parserExecute (token ++ 32 :: rest)
        (token ++ 32 :: rest).length = some (y, n) ∧
      y.method? = charsToHttpMethod (token ++ 32 :: rest) := by
  obtain ⟨z, cs, p, hz, hy⟩ := parserExecute_run (r := r) (q := q) (by simp) hbuf
  refine ⟨_, _, hy, ?_⟩
  clear hy
  have hcat : token ++ 32 :: rest = token ++ [32] ++ rest := by simp
  rw [hcat] at hz ⊢
  obtain ⟨y, hy, hz⟩ := exec_method hne hlen hchars hz
  have hdrop : (token ++ [32] ++ rest).drop (token ++ [32]).length = rest := List.drop_left ..
  nth_rewrite 2 [← hdrop] at hz
  obtain ⟨hmethod, herror⟩ := exec_stored hz
  rw [← onRequestMethod_method? rfl hy]
  simp only [HttpRequestParser.method?, hmethod, herror]

/-- **Methods are recognized exactly** unless the table misreads them. -/
theorem method_iff {q : Nat} (hne : token ≠ []) (hlen : token.length ≤ 20)
    (hchars : ∀ b ∈ token, methodChar.has b) (hbuf : (token ++ 32 :: rest).length < 2 ^ 63) :
    ∃ y n, (HttpRequestParser.new q r).parserExecute (token ++ 32 :: rest)
        (token ++ 32 :: rest).length = some (y, n) ∧
      ((∀ m, y.method? = some m ↔ token = protocolName m) ↔ ¬ Misread token rest) := by
  obtain ⟨y, n, hy, hm⟩ := parserExecute_method (r := r) (q := q) hne hlen hchars hbuf
  refine ⟨y, n, hy, ?_⟩
  rw [hm]
  exact charsToHttpMethod_iff hchars

theorem method_iff_patch : ∃ y n, (HttpRequestParser.new 0 false).parserExecute
    (bytes "PATCH" ++ 32 :: bytes "/ HTTP/1.1\r\n\r\n")
    (bytes "PATCH" ++ 32 :: bytes "/ HTTP/1.1\r\n\r\n").length = some (y, n) ∧
      y.method? = some .PATCH := by
  obtain ⟨y, n, hy, hiff⟩ := @method_iff (bytes "PATCH") (bytes "/ HTTP/1.1\r\n\r\n") false 0
    (by decide) (by decide) (by decide +kernel) (by decide)
  refine ⟨y, n, hy, (hiff.mpr ?_ .PATCH).mpr (by decide)⟩
  rintro (⟨x, hx, hpre, hne⟩ | ⟨htoken, -⟩)
  · exact (by decide : ∀ x ∈ httpMethodMap, bytes x.2 <+: bytes "PATCH" → bytes x.2 = bytes "PATCH")
      x hx hpre |> hne
  · exact absurd htoken (by decide)

/-- `GETX` is taken for `GET`. -/
theorem method_prefix :
    ((HttpRequestParser.new 0 false).parserExecute (bytes "GETX / HTTP/1.1\r\n\r\n") 19).map
      (fun y => (y.1.method?, y.1.hasError, y.1.isFinished)) = some (some .GET, false, 1) ∧
    ∀ m, bytes "GETX" ≠ protocolName m := by
  refine ⟨by decide +kernel, fun m => ?_⟩
  cases m <;> decide

end Tigerkin.Http
