import Tigerkin.Http.RequestDump
import Tigerkin.Http.Response
import Tigerkin.Std.Lines

/-! # The framing of dumped messages

`dump` prints the headers of the application and then a `content-length` of its own for a body that
is not empty. So a message is framed by one `content-length` exactly when the lines before that are
harmless (`framed_iff`). -/

namespace Tigerkin.Http

open CString

/-- Without a carriage return at the end. -/
def dropCr (line : List UInt8) : List UInt8 :=
  if line.getLast? = some 13 then line.dropLast else line

def isBlank (b : UInt8) : Bool := b == 32 || b == 9

def trimBlank (value : List UInt8) : List UInt8 :=
  ((value.dropWhile isBlank).reverse.dropWhile isBlank).reverse

/-- The value of a decimal number. -/
def decimal? (text : List UInt8) : Option Nat :=
  if text.isEmpty then none
  else if text.all fun b => (digitVal b).any (· < 10) then some (value 10 text) else none

/-- What a header line says when it is a `content-length`. -/
def lengthOf (line : List UInt8) : Option (Option Nat) :=
  if 58 ∈ line ∧ (before 58 line).map toLower = bytes "content-length" then
    some (decimal? (trimBlank (after 58 line)))
  else none

def textLines (text : List UInt8) : List (List UInt8) := (pieces 10 text).map dropCr

/-- The lines of a text after the first. -/
def headerLines (text : List UInt8) : List (List UInt8) := (textLines text).drop 1

/-- The `content-length` lines of a text before its first empty line. -/
def contentLengths (text : List UInt8) : List (Option Nat) :=
  ((headerLines text).takeWhile (!·.isEmpty)).filterMap lengthOf

def HasEmptyLine (text : List UInt8) : Prop := [] ∈ headerLines text

instance (text : List UInt8) : Decidable (HasEmptyLine text) := inferInstanceAs (Decidable (_ ∈ _))

/-- The lines announce the body: with one line at most, which gives its size, and with one if there
is a body. -/
structure Announces (lengths : List (Option Nat)) (body : List UInt8) : Prop where
  atMostOne : lengths.length ≤ 1
  size : ∀ n ∈ lengths, n = some body.length
  present : body ≠ [] → lengths ≠ []

/-- The message is framed by exactly one `content-length`. -/
def Framed (message body : List UInt8) : Prop := Announces (contentLengths message) body

/-- The text before the line of `dump` itself has no other such line, unless there is no line of
`dump`: then it may announce the body itself. -/
def Harmless (text body : List UInt8) : Prop :=
  if HasEmptyLine text ∨ body = [] then Announces (contentLengths text) body
  else contentLengths text = []

/-- No header is a `content-length`, or it is the only one, and that of an empty body. -/
def OwnLength (h : Headers) (body : List UInt8) : Prop :=
  let lengths := h.filterMap fun x => lengthOf (x.1 ++ bytes ": " ++ x.2)
  lengths = [] ∨ body = [] ∧ lengths = [some 0]

/-! ## Lines -/

variable {text line body : List UInt8}

theorem ended_crlf (l : List UInt8) : Ended 10 (l ++ bytes "\r\n") :=
  .inr ⟨l ++ [13], by rw [List.append_assoc]; rfl⟩

theorem ended_lf (l : List UInt8) : Ended 10 (l ++ bytes "\n") :=
  .inr ⟨l, rfl⟩

theorem dropCr_concat (line : List UInt8) : dropCr (line ++ [13]) = line := by
  rw [dropCr, if_pos List.getLast?_concat, List.dropLast_concat]

theorem headerLines_append (h : Ended 10 text) (hne : text ≠ []) (rest : List UInt8) :
    headerLines (text ++ rest) = headerLines text ++ textLines rest := by
  have hpieces : pieces 10 text ≠ [] := by
    rcases h with rfl | ⟨m, rfl⟩
    · exact absurd rfl hne
    · rw [pieces, List.splitOn_append_cons_self, List.splitOn_nil, List.dropLast_concat]
      exact List.splitOn_ne_nil 10 m
  rw [headerLines, headerLines, textLines, pieces_append h, List.map_append]
  exact List.drop_append_of_le_length (by
    rw [List.length_map]
    exact List.length_pos_iff.mpr hpieces)

theorem trimBlank_digits (h : ∀ b ∈ text, IsDigit 10 b) : trimBlank (32 :: text) = text := by
  have hdigit : ∀ b : UInt8, isBlank b = true → ¬ IsDigit 10 b :=
    forall_byte (by decide +kernel)
  have hdrop : ∀ l : List UInt8, (∀ b ∈ l, IsDigit 10 b) → l.dropWhile isBlank = l := by
    intro l hl
    cases l with
    | nil => rfl
    | cons b l =>
      exact List.dropWhile_cons_of_neg fun hb => hdigit b hb (hl b List.mem_cons_self)
  rw [trimBlank, List.dropWhile_cons_of_pos rfl, hdrop text h,
    hdrop text.reverse fun b hb => h b (List.mem_reverse.mp hb), List.reverse_reverse]

/-- The line that `dump` prints for a body. -/
theorem lengthOf_own (n : Nat) :
    lengthOf (bytes "content-length: " ++ showNat n) = some (some n) := by
  obtain ⟨hne, hdig, hval⟩ := showNat_eq n
  have hcolon : bytes "content-length: " ++ showNat n =
      bytes "content-length" ++ 58 :: (32 :: showNat n) := rfl
  have hname : 58 ∉ bytes "content-length" := by decide +kernel
  have hdigits : (showNat n).all (fun b => (digitVal b).any (· < 10)) = true :=
    List.all_eq_true.mpr fun b hb => isDigit_iff.mp (hdig b hb)
  rw [hcolon, lengthOf, before_append hname, after_append hname, trimBlank_digits hdig,
    if_pos ⟨by simp, by decide +kernel⟩, decimal?, if_neg (by simpa using hne), if_pos hdigits,
    hval]

theorem takeWhile_lines {lines own : List (List UInt8)} (hown : [] ∉ own)
    (rest : List (List UInt8)) : (lines ++ (own ++ [] :: rest)).takeWhile (!·.isEmpty) =
      lines.takeWhile (!·.isEmpty) ++ if [] ∈ lines then [] else own := by
  have hall : ∀ l : List (List UInt8), [] ∉ l → ∀ line ∈ l, (!line.isEmpty) = true := by
    intro l hl line hline
    rw [Bool.not_eq_true', List.isEmpty_eq_false_iff]
    exact fun h => hl (h ▸ hline)
  by_cases hlines : [] ∈ lines
  · obtain ⟨before, after, rfl⟩ := List.append_of_mem hlines
    rw [if_pos hlines, List.append_nil, List.append_assoc, List.cons_append, List.takeWhile_append,
      List.takeWhile_append, List.takeWhile_cons_of_neg (by simp),
      List.takeWhile_cons_of_neg (by simp)]
  · rw [if_neg hlines, List.takeWhile_append_of_pos (hall lines hlines),
      List.takeWhile_append_of_pos (hall own hown), List.takeWhile_cons_of_neg (by simp),
      List.append_nil, List.takeWhile_eq_self_iff.mpr (hall lines hlines)]

/-- The lines of `dumpBody`: that of the length, an empty one and those of the body. -/
theorem textLines_dumpBody (hbody : body ≠ []) :
    textLines (dumpBody body) =
      [bytes "content-length: " ++ showNat body.length] ++ [] :: textLines body := by
  have hdump : dumpBody body = bytes "content-length: " ++ showNat body.length ++ [13] ++
      10 :: ([13] ++ 10 :: body) := by
    rw [dumpBody, if_neg (by simpa using hbody)]
    simp [bytes]
  have h10 : 10 ∉ bytes "content-length: " ++ showNat body.length ++ [13] := by
    simp only [List.mem_append, not_or]
    refine ⟨⟨by decide +kernel, fun hb => ?_⟩, by decide⟩
    exact absurd ((showNat_eq body.length).2.1 10 hb) (by decide)
  rw [hdump, textLines, pieces_cons h10, pieces_cons (by decide), List.map_cons, List.map_cons,
    dropCr_concat]
  rfl

/-- What `dump` adds to the lines. -/
theorem contentLengths_dumpBody (h : Ended 10 text) (hne : text ≠ []) (body : List UInt8) :
    contentLengths (text ++ dumpBody body) = contentLengths text ++
      if HasEmptyLine text ∨ body = [] then [] else [some body.length] := by
  rw [contentLengths, headerLines_append h hne, contentLengths]
  by_cases hbody : body = []
  · have hlines : textLines (dumpBody body) = [] ++ [] :: [] := by
      rw [hbody]
      decide +kernel
    rw [if_pos (.inr hbody), hlines, takeWhile_lines List.not_mem_nil, ite_self, List.append_nil,
      List.append_nil]
  · rw [textLines_dumpBody hbody, takeWhile_lines (by simp [bytes]), List.filterMap_append]
    by_cases hempty : [] ∈ headerLines text
    · rw [if_pos hempty, if_pos (.inl hempty)]
      rfl
    · have hown : ¬ (HasEmptyLine text ∨ body = []) := not_or.mpr ⟨hempty, hbody⟩
      rw [if_neg hempty, if_neg hown, List.filterMap_cons, lengthOf_own]
      rfl

/-- A message is framed exactly when what stands before the line of `dump` is harmless. -/
theorem framed_iff_harmless (h : Ended 10 text) (hne : text ≠ []) (body : List UInt8) :
    Framed (text ++ dumpBody body) body ↔ Harmless text body := by
  rw [Framed, contentLengths_dumpBody h hne, Harmless]
  split
  · rw [List.append_nil]
  · rename_i hown
    constructor
    · intro hframed
      have hlen := hframed.atMostOne
      rw [List.length_append, List.length_singleton] at hlen
      exact List.length_eq_zero_iff.mp (by omega)
    · intro hnone
      rw [hnone]
      exact ⟨Nat.le_refl 1, by simp, by simp⟩

/-! ## Fields without line breaks -/

theorem textLines_append (h : Ended 10 text) (rest : List UInt8) :
    textLines (text ++ rest) = textLines text ++ textLines rest := by
  rw [textLines, pieces_append h, List.map_append]
  rfl

theorem textLines_crlf (h : 10 ∉ line) : textLines (line ++ bytes "\r\n") = [line] := by
  have hcat : line ++ bytes "\r\n" = line ++ [13] ++ 10 :: [] := by
    rw [List.append_assoc]
    rfl
  rw [hcat, textLines, pieces_cons (by simpa using h), List.map_cons, dropCr_concat]
  rfl

theorem notMem_showNat (n : Nat) : 10 ∉ showNat n := fun h =>
  absurd ((showNat_eq n).2.1 10 h) (by decide)

/-- The name in a line begins as the line does. -/
theorem lengthOf_none {k : Nat} (hk : k ≤ 14)
    (h : (line.take k).map toLower ≠ (bytes "content-length").take k) : lengthOf line = none := by
  refine if_neg fun ⟨_, hname⟩ => h ?_
  have hlen : k ≤ (before 58 line).length := by
    have := congrArg List.length hname
    rw [List.length_map] at this
    rw [this]
    exact hk
  have hpre : before 58 line = line.take (before 58 line).length :=
    List.prefix_iff_eq_take.mp (List.takeWhile_prefix _)
  have htake : (before 58 line).take k = line.take k := by
    conv_lhs => rw [hpre]
    rw [List.take_take, Nat.min_eq_left hlen]
  rw [← hname, ← List.map_take, htake]

/-- The text consists of lines that are not empty, with these lengths in them. -/
structure Reads (text : List UInt8) (lengths : List (Option Nat)) : Prop where
  ended : Ended 10 text
  noEmpty : [] ∉ textLines text
  lengths : (textLines text).filterMap lengthOf = lengths

namespace Reads

variable {other : List UInt8} {lengths others : List (Option Nat)}

theorem nil : Reads [] [] := ⟨.inl rfl, List.not_mem_nil, rfl⟩

theorem append (h : Reads text lengths) (h' : Reads other others) :
    Reads (text ++ other) (lengths ++ others) := by
  refine ⟨h.ended.append h'.ended, ?_, ?_⟩
  · rw [textLines_append h.ended, List.mem_append, not_or]
    exact ⟨h.noEmpty, h'.noEmpty⟩
  · rw [textLines_append h.ended, List.filterMap_append, h.lengths, h'.lengths]

theorem flatMap {α : Type} {f : α → List UInt8} {g : α → List (Option Nat)} {l : List α}
    (h : ∀ x ∈ l, Reads (f x) (g x)) : Reads (l.flatMap f) (l.flatMap g) := by
  induction l with
  | nil => exact nil
  | cons x l ih =>
    rw [List.flatMap_cons, List.flatMap_cons]
    exact (h x List.mem_cons_self).append (ih fun y hy => h y (List.mem_cons_of_mem x hy))

theorem flatMap_nil {α : Type} {f : α → List UInt8} {l : List α} (h : ∀ x ∈ l, Reads (f x) []) :
    Reads (l.flatMap f) [] := by
  have hl := flatMap h
  rwa [List.flatMap_eq_nil_iff.mpr fun _ _ => rfl] at hl

theorem lf (h : 10 ∉ line) (hne : dropCr line ≠ []) :
    Reads (line ++ bytes "\n") (lengthOf (dropCr line)).toList := by
  have hlines : textLines (line ++ bytes "\n") = [dropCr line] := by
    rw [textLines, show line ++ bytes "\n" = line ++ 10 :: [] from rfl, pieces_cons h]
    rfl
  refine ⟨ended_lf line, ?_, ?_⟩
  · rw [hlines, List.mem_singleton]
    exact Ne.symm hne
  · rw [hlines, List.filterMap_cons]
    cases lengthOf (dropCr line) <;> rfl

theorem crlf (h : 10 ∉ line) (hne : line ≠ []) :
    Reads (line ++ bytes "\r\n") (lengthOf line).toList := by
  have hcr : Reads (line ++ [13] ++ bytes "\n") (lengthOf (dropCr (line ++ [13]))).toList :=
    lf (by simpa using h) (by rwa [dropCr_concat])
  rw [dropCr_concat, List.append_assoc] at hcr
  exact hcr

/-- The lines of the headers: the `connection` that is left out is no `content-length`. -/
theorem headers {h : Headers} (hh : ∀ x ∈ h, 10 ∉ x.1 ∧ 10 ∉ x.2) (websocket : Bool) :
    Reads (dumpHeaders websocket h) (h.filterMap fun x => lengthOf (x.1 ++ bytes ": " ++ x.2)) := by
  rw [List.filterMap_eq_flatMap_toList]
  refine flatMap fun x hx => ?_
  split
  · rename_i hskip
    rw [Bool.and_eq_true, beq_iff_eq, Headers.strcasecmp_eq_iff] at hskip
    have hconn : (ofMemory x.1).map toLower = bytes "connection" :=
      hskip.2.trans (by decide +kernel)
    have hlen : (ofMemory x.1).length = 10 := by
      have := congrArg List.length hconn
      rwa [List.length_map] at this
    obtain ⟨rest, hrest⟩ : ofMemory x.1 <+: x.1 := List.takeWhile_prefix _
    have hline : (x.1 ++ bytes ": " ++ x.2).take 4 = (ofMemory x.1).take 4 := by
      rw [← hrest, List.append_assoc, List.append_assoc,
        List.take_append_of_le_length (by rw [hlen]; decide)]
      rw [hrest]
    rw [lengthOf_none (by decide : 4 ≤ 14)]
    · exact nil
    · rw [hline, List.map_take, hconn]
      decide +kernel
  · refine crlf ?_ (by simp [bytes])
    obtain ⟨hkey, hval⟩ := hh x hx
    simp only [List.mem_append, not_or]
    exact ⟨⟨hkey, by decide⟩, hval⟩

theorem connection (close : Bool) : Reads (dumpConnection close) [] := by
  cases close
  · exact crlf (by decide +kernel : 10 ∉ bytes "connection: keep-alive") (by decide +kernel)
  · exact crlf (by decide +kernel : 10 ∉ bytes "connection: close") (by decide +kernel)

end Reads

/-- After a first line. -/
theorem Reads.of_first {first : List UInt8} {lengths : List (Option Nat)} (hfirst : 10 ∉ first)
    (h : Reads text lengths) : ¬ HasEmptyLine (first ++ bytes "\r\n" ++ text) ∧
      contentLengths (first ++ bytes "\r\n" ++ text) = lengths := by
  have hlines : headerLines (first ++ bytes "\r\n" ++ text) = textLines text := by
    rw [headerLines, textLines_append (ended_crlf first), textLines_crlf hfirst]
    rfl
  refine ⟨by rw [HasEmptyLine, hlines]; exact h.noEmpty, ?_⟩
  rw [contentLengths, hlines, List.takeWhile_eq_self_iff.mpr, h.lengths]
  intro line hline
  rw [Bool.not_eq_true', List.isEmpty_eq_false_iff]
  exact fun hnil => h.noEmpty (hnil ▸ hline)

theorem harmless_iff {h : Headers} (hempty : ¬ HasEmptyLine text)
    (hlengths : contentLengths text = h.filterMap fun x => lengthOf (x.1 ++ bytes ": " ++ x.2)) :
    Harmless text body ↔ OwnLength h body := by
  rw [Harmless, OwnLength, ← hlengths]
  generalize contentLengths text = lengths
  by_cases hbody : body = []
  · rw [if_pos (.inr hbody), hbody]
    constructor
    · rintro ⟨hone, hsize, -⟩
      rcases lengths with _ | ⟨n, _ | ⟨m, lengths⟩⟩
      · exact .inl rfl
      · exact .inr ⟨rfl, by rw [hsize n List.mem_cons_self]; rfl⟩
      · simp at hone
    · rintro (h | ⟨-, h⟩) <;> rw [h]
      · exact ⟨Nat.zero_le 1, by simp, fun h => absurd rfl h⟩
      · exact ⟨Nat.le_refl 1, by simp, fun h => absurd rfl h⟩
  · rw [if_neg (not_or.mpr ⟨hempty, hbody⟩)]
    simp [hbody]

theorem ended_dumpHeaders (websocket : Bool) (h : Headers) : Ended 10 (dumpHeaders websocket h) :=
  Ended.flatMap fun x _ => by
    split
    · exact .inl rfl
    · exact ended_crlf _

theorem ended_connection (websocket close : Bool) :
    Ended 10 (if websocket then [] else dumpConnection close) := by
  cases websocket
  · exact ended_crlf _
  · exact .inl rfl

theorem Reads.connection_of (websocket close : Bool) :
    Reads (if websocket then [] else dumpConnection close) [] := by
  cases websocket
  · exact .connection close
  · exact .nil

theorem notMem_versionText (v : UInt8) : 10 ∉ versionText v := by
  simp only [versionText, List.mem_append, not_or]
  exact ⟨⟨⟨by decide, notMem_showNat _⟩, by decide⟩, notMem_showNat _⟩

/-! ## The messages -/

namespace HttpResponse

def firstLine (r : HttpResponse) : List UInt8 :=
  versionText r.version ++ bytes " " ++ showNat (r.status.code % 2 ^ 32).toNat ++ bytes " " ++
    r.effectiveReason

/-- What `dump` prints before the line of the length. -/
def beforeLength (r : HttpResponse) : List UInt8 :=
  r.firstLine ++ bytes "\r\n" ++ (dumpHeaders r.websocket r.headers ++
    r.cookies.flatMap (fun c => bytes "Set-Cookie: " ++ c ++ bytes "\r\n") ++
    if r.websocket then [] else dumpConnection r.close)

/-- No field has a line feed. -/
structure Unbroken (r : HttpResponse) : Prop where
  reason : 10 ∉ r.reason
  headers : ∀ x ∈ r.headers, 10 ∉ x.1 ∧ 10 ∉ x.2
  cookies : ∀ c ∈ r.cookies, 10 ∉ c

variable {r : HttpResponse}

theorem dump_eq_before (r : HttpResponse) : r.dump = r.beforeLength ++ dumpBody r.body := by
  simp only [dump, beforeLength, firstLine, versionText, List.append_assoc]

theorem ended_beforeLength (r : HttpResponse) : Ended 10 r.beforeLength ∧ r.beforeLength ≠ [] := by
  refine ⟨(ended_crlf _).append (((ended_dumpHeaders _ _).append ?_).append
    (ended_connection _ _)), by simp [beforeLength, bytes]⟩
  exact Ended.flatMap fun c _ => ended_crlf _

theorem effectiveReason_unbroken (hr : r.Unbroken) : 10 ∉ r.effectiveReason := by
  have hall : ∀ x ∈ httpStatusMap, 10 ∉ bytes x.2 := by
    decide +kernel
  unfold effectiveReason
  split
  · unfold httpStatusToString
    cases hx : httpStatusMap.find? fun x => x.1 == r.status.code with
    | none => decide
    | some x => exact hall x (List.mem_of_find?_eq_some hx)
  · exact hr.reason

/-- The lines of a response whose fields have no line feeds. -/
theorem lengths_unbroken (hr : r.Unbroken) : ¬ HasEmptyLine r.beforeLength ∧
    contentLengths r.beforeLength =
      r.headers.filterMap fun x => lengthOf (x.1 ++ bytes ": " ++ x.2) := by
  have hcookies :
      Reads (r.cookies.flatMap fun c => bytes "Set-Cookie: " ++ c ++ bytes "\r\n") [] := by
    refine Reads.flatMap_nil fun c hc => ?_
    have h10 : 10 ∉ bytes "Set-Cookie: " ++ c := by simpa [bytes] using hr.cookies c hc
    have hline := Reads.crlf h10 (by simp [bytes])
    rwa [lengthOf_none (by decide : 1 ≤ 14)] at hline
    change (bytes "S").map toLower ≠ bytes "c"
    decide
  have hfirst : 10 ∉ r.firstLine := by
    simp only [firstLine, List.mem_append, not_or]
    exact ⟨⟨⟨⟨notMem_versionText _, by decide⟩, notMem_showNat _⟩, by decide⟩,
      effectiveReason_unbroken hr⟩
  have h := Reads.of_first hfirst (((Reads.headers hr.headers r.websocket).append hcookies).append
    (Reads.connection_of r.websocket r.close))
  rwa [List.append_nil, List.append_nil] at h

end HttpResponse

namespace FullRequest

def firstLine (r : FullRequest) : List UInt8 :=
  bytes (httpMethodToString r.method) ++ bytes " " ++ r.path ++
    (if r.query.isEmpty then [] else bytes "?") ++ r.query ++
    (if r.fragment.isEmpty then [] else bytes "#") ++ r.fragment ++ bytes " " ++
    versionText r.version

/-- What `dump` prints before the line of the length. -/
def beforeLength (r : FullRequest) : List UInt8 :=
  r.firstLine ++ bytes "\r\n" ++ ((if r.websocket then [] else dumpConnection r.close) ++
    dumpHeaders r.websocket r.headers ++
    if r.cookies.isEmpty then [] else
      bytes "Set-Cookie: \n" ++
        r.cookies.flatMap fun x => bytes "\t" ++ x.1 ++ bytes ":" ++ x.2 ++ bytes "\n")

/-- No field has a line feed. -/
structure Unbroken (r : FullRequest) : Prop where
  target : 10 ∉ r.path ∧ 10 ∉ r.query ∧ 10 ∉ r.fragment
  headers : ∀ x ∈ r.headers, 10 ∉ x.1 ∧ 10 ∉ x.2
  cookies : ∀ x ∈ r.cookies, 10 ∉ x.1 ∧ 10 ∉ x.2

theorem dump_eq_before (r : FullRequest) : r.dump = r.beforeLength ++ dumpBody r.body := by
  simp only [dump, beforeLength, firstLine, List.append_assoc]

variable {r : FullRequest}

theorem ended_beforeLength (r : FullRequest) : Ended 10 r.beforeLength ∧ r.beforeLength ≠ [] := by
  refine ⟨(ended_crlf _).append (((ended_connection _ _).append (ended_dumpHeaders _ _)).append ?_),
    by simp [beforeLength, bytes]⟩
  split
  · exact .inl rfl
  · exact (ended_lf (bytes "Set-Cookie: ")).append (Ended.flatMap fun x _ => ended_lf _)

/-- The lines of the cookies, which begin with a tab. -/
theorem reads_cookie {key val : List UInt8} (hkey : 10 ∉ key) (hval : 10 ∉ val) :
    Reads (bytes "\t" ++ key ++ bytes ":" ++ val ++ bytes "\n") [] := by
  have h10 : 10 ∉ bytes "\t" ++ key ++ bytes ":" ++ val := by
    simp only [List.mem_append, not_or]
    exact ⟨⟨⟨by decide, hkey⟩, by decide⟩, hval⟩
  have hhead : (dropCr (bytes "\t" ++ key ++ bytes ":" ++ val)).take 1 = [9] := by
    rw [dropCr]
    split
    · rw [show bytes "\t" ++ key ++ bytes ":" ++ val = 9 :: (key ++ 58 :: val) by simp [bytes],
        List.dropLast_cons_of_ne_nil (by simp)]
      rfl
    · rfl
  have hline := Reads.lf h10 (by
    rintro hnil
    rw [hnil] at hhead
    cases hhead)
  rwa [lengthOf_none (by decide : 1 ≤ 14)] at hline
  rw [hhead]
  decide

/-- The lines of a request whose fields have no line feeds. -/
theorem lengths_unbroken (hr : r.Unbroken) : ¬ HasEmptyLine r.beforeLength ∧
    contentLengths r.beforeLength =
      r.headers.filterMap fun x => lengthOf (x.1 ++ bytes ": " ++ x.2) := by
  have hcookies : Reads (if r.cookies.isEmpty then [] else
      bytes "Set-Cookie: \n" ++
        r.cookies.flatMap fun x => bytes "\t" ++ x.1 ++ bytes ":" ++ x.2 ++ bytes "\n") [] := by
    split
    · exact .nil
    · have hfirst : Reads (bytes "Set-Cookie: \n") [] :=
        Reads.lf (by decide +kernel : 10 ∉ bytes "Set-Cookie: ") (by decide +kernel)
      exact hfirst.append (Reads.flatMap_nil fun x hx =>
        reads_cookie (hr.cookies x hx).1 (hr.cookies x hx).2)
  have hmethod : ∀ m ∈ httpMethodMap, 10 ∉ bytes m.2 := by
    decide +kernel
  have hfirst : 10 ∉ r.firstLine := by
    obtain ⟨hpath, hquery, hfragment⟩ := hr.target
    simp only [firstLine, List.mem_append, not_or]
    refine ⟨⟨⟨⟨⟨⟨⟨⟨?_, by decide⟩, hpath⟩, ?_⟩, hquery⟩, ?_⟩, hfragment⟩, by decide⟩,
      notMem_versionText _⟩
    · unfold httpMethodToString
      cases hx : httpMethodMap.find? fun x => x.1 == r.method with
      | none => decide
      | some x => exact hmethod x (List.mem_of_find?_eq_some hx)
    · split <;> decide
    · split <;> decide
  have h := Reads.of_first hfirst (((Reads.connection_of r.websocket r.close).append
    (Reads.headers hr.headers r.websocket)).append hcookies)
  rwa [List.nil_append, List.append_nil] at h

end FullRequest

/-- **The framing of messages**: a response and a request are framed by exactly one `content-length`
when what they print before their own line is harmless. For fields without line feeds this is so
when no header of the application is a `content-length`, but for one that gives 0 for an empty
body. -/
theorem framed_iff (r : HttpResponse) (q : FullRequest) :
    ((Framed r.dump r.body ↔ Harmless r.beforeLength r.body) ∧
      (r.Unbroken → (Harmless r.beforeLength r.body ↔ OwnLength r.headers r.body))) ∧
    (Framed q.dump q.body ↔ Harmless q.beforeLength q.body) ∧
      (q.Unbroken → (Harmless q.beforeLength q.body ↔ OwnLength q.headers q.body)) := by
  refine ⟨⟨?_, fun hr => ?_⟩, ?_, fun hq => ?_⟩
  · rw [r.dump_eq_before]
    exact framed_iff_harmless r.ended_beforeLength.1 r.ended_beforeLength.2 r.body
  · exact harmless_iff (HttpResponse.lengths_unbroken hr).1 (HttpResponse.lengths_unbroken hr).2
  · rw [q.dump_eq_before]
    exact framed_iff_harmless q.ended_beforeLength.1 q.ended_beforeLength.2 q.body
  · exact harmless_iff (FullRequest.lengths_unbroken hq).1 (FullRequest.lengths_unbroken hq).2

/-- What `pingpong` answers to a request with a body: the headers of the request, with their
`Content-Length`. -/
def pong : HttpResponse :=
  { body := bytes "hello"
    headers := [(bytes "Content-Length", bytes "5"), (bytes "Host", bytes "h")] }

theorem pong_not_framed :
    ¬ Framed pong.dump pong.body ∧ contentLengths pong.dump = [some 5, some 5] := by
  have hlengths : contentLengths pong.dump = [some 5, some 5] := by
    decide +kernel
  refine ⟨fun h => ?_, hlengths⟩
  have hone := h.atMostOne
  rw [hlengths] at hone
  exact absurd hone (by decide)

end Tigerkin.Http
