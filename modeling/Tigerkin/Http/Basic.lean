import Mathlib.Data.List.Find
import Tigerkin.Std.CString

/-! # Methods, headers and strings of `http.h` -/

namespace Tigerkin.Http

open CString

def bytes (s : String) : List UInt8 := s.toList.map fun c => UInt8.ofNat c.toNat

inductive HttpMethod where
  | DELETE | GET | HEAD | POST | PUT | CONNECT | OPTIONS | TRACE | COPY | LOCK | MKCOL | MOVE
  | PROPFIND | PROPPATCH | SEARCH | UNLOCK | BIND | REBIND | UNBIND | ACL | REPORT | MKACTIVITY
  | CHECKOUT | MERGE | MSEARCH | NOTIFY | SUBSCRIBE | UNSUBSCRIBE | PATCH | PURGE | MKCALENDAR
  | LINK | UNLINK | SOURCE
  deriving DecidableEq

/-- `HTTP_METHOD_MAP`, in its order. -/
def httpMethodMap : List (HttpMethod × String) :=
  [(.DELETE, "DELETE"), (.GET, "GET"), (.HEAD, "HEAD"), (.POST, "POST"), (.PUT, "PUT"),
    (.CONNECT, "CONNECT"), (.OPTIONS, "OPTIONS"), (.TRACE, "TRACE"), (.COPY, "COPY"),
    (.LOCK, "LOCK"), (.MKCOL, "MKCOL"), (.MOVE, "MOVE"), (.PROPFIND, "PROPFIND"),
    (.PROPPATCH, "PROPPATCH"), (.SEARCH, "SEARCH"), (.UNLOCK, "UNLOCK"), (.BIND, "BIND"),
    (.REBIND, "REBIND"), (.UNBIND, "UNBIND"), (.ACL, "ACL"), (.REPORT, "REPORT"),
    (.MKACTIVITY, "MKACTIVITY"), (.CHECKOUT, "CHECKOUT"), (.MERGE, "MERGE"),
    -- the argument of the macro is `M - SEARCH`
    (.MSEARCH, "M - SEARCH"), (.NOTIFY, "NOTIFY"), (.SUBSCRIBE, "SUBSCRIBE"),
    (.UNSUBSCRIBE, "UNSUBSCRIBE"), (.PATCH, "PATCH"), (.PURGE, "PURGE"),
    (.MKCALENDAR, "MKCALENDAR"), (.LINK, "LINK"), (.UNLINK, "UNLINK"), (.SOURCE, "SOURCE")]

/-- `none` is `INVALID_METHOD`. The name of a method is compared with as many bytes as it has, so
a longer word that starts with it is taken for it. -/
def charsToHttpMethod (m : List UInt8) : Option HttpMethod :=
  (httpMethodMap.find? fun x => strncmpEq x.2.length (bytes x.2) m).map Prod.fst

theorem httpMethodMap_length {x : HttpMethod × String} (h : x ∈ httpMethodMap) :
    x.2.length ≤ 11 := by
  revert x
  decide

theorem charsToHttpMethod_congr {m m' : List UInt8} (h : m.take 11 = m'.take 11) :
    charsToHttpMethod m = charsToHttpMethod m' := by
  unfold charsToHttpMethod
  congr 1
  refine List.find?_congr fun x hx => strncmpEq_congr _ ?_
  have hle := httpMethodMap_length hx
  rw [← Nat.min_eq_left hle, ← List.take_take, h, List.take_take]

/-- `std::map<std::string, std::string, CaseInsensitiveLess>`, in the order of its keys. -/
abbrev Headers := List (List UInt8 × List UInt8)

/-- `m_headers[key] = val` -/
def Headers.set (key val : List UInt8) : Headers → Headers
  | [] => [(key, val)]
  | (k, v) :: h =>
    match strcasecmp key k with
    | .lt => (key, val) :: (k, v) :: h
    | .eq => (k, val) :: h
    | .gt => (k, v) :: set key val h

def Headers.find (h : Headers) (key : String) : Option (List UInt8) :=
  (h.find? fun x => strcasecmp (bytes key) x.1 == .eq).map Prod.snd

namespace Headers

/-- The keys of a map ascend. -/
def Sorted (h : Headers) : Prop := h.Pairwise fun x y => strcasecmp y.1 x.1 = .gt

theorem set_append {h : Headers} {key : List UInt8} (hkey : ∀ x ∈ h, strcasecmp key x.1 = .gt)
    (val : List UInt8) : h.set key val = h ++ [(key, val)] := by
  induction h with
  | nil => rfl
  | cons x h ih =>
    simp only [set, hkey x List.mem_cons_self, List.cons_append,
      ih fun y hy => hkey y (List.mem_cons_of_mem _ hy)]

/-- The entries of a map, set one after the other. -/
theorem foldl_set {h h' : Headers} (hs : Sorted (h ++ h')) :
    h'.foldl (fun m x => m.set x.1 x.2) h = h ++ h' := by
  induction h' generalizing h with
  | nil => rw [List.foldl_nil, List.append_nil]
  | cons x h' ih =>
    have hx : ∀ y ∈ h, strcasecmp x.1 y.1 = .gt := fun y hy =>
      (List.pairwise_append.mp hs).2.2 y hy x List.mem_cons_self
    have hcat : h ++ x :: h' = h ++ [(x.1, x.2)] ++ h' := by simp
    rw [List.foldl_cons, set_append hx, ih (hcat ▸ hs), hcat]

theorem strcasecmp_eq_iff {s t : List UInt8} :
    strcasecmp s t = .eq ↔ (ofMemory s).map toLower = (ofMemory t).map toLower :=
  Std.compare_eq_iff_eq

theorem find_set (h : Headers) (key : String) (val : List UInt8) :
    (h.set (bytes key) val).find key = some val := by
  have hself : strcasecmp (bytes key) (bytes key) = .eq := strcasecmp_eq_iff.mpr rfl
  induction h with
  | nil => simp [set, find, hself]
  | cons x h ih =>
    simp only [set]
    split
    · simp [find, hself]
    · rename_i heq
      simp [find, heq]
    · rename_i hgt
      simp only [find, List.find?_cons, hgt] at ih ⊢
      exact ih

theorem find_set_ne {h : Headers} {key : String} {k : List UInt8}
    (hk : strcasecmp (bytes key) k ≠ .eq) (val : List UInt8) :
    (h.set k val).find key = h.find key := by
  induction h with
  | nil => simp [set, find, hk]
  | cons x h ih =>
    simp only [set]
    split
    · simp [find, hk]
    · rename_i heq
      have hx : strcasecmp (bytes key) x.1 ≠ .eq := fun hx => hk (by
        rw [strcasecmp_eq_iff] at hx heq ⊢
        exact hx.trans heq.symm)
      simp [find, hx]
    · simp only [find, List.find?_cons] at ih ⊢
      split
      · rfl
      · exact ih

theorem find_none {h : Headers} {key : String}
    (hh : ∀ x ∈ h, strcasecmp (bytes key) x.1 ≠ .eq) : h.find key = none := by
  rw [find, List.find?_eq_none.mpr]
  · rfl
  · intro x hx
    simpa using hh x hx

instance : Std.TransCmp strcasecmp :=
  inferInstanceAs (Std.TransCmp (compareOn fun s : List UInt8 => (ofMemory s).map toLower))

theorem strcasecmp_gt_iff {s t : List UInt8} : strcasecmp s t = .gt ↔ strcasecmp t s = .lt :=
  Std.OrientedCmp.gt_iff_lt

theorem set_set_comm {k k' : List UInt8} (hk : strcasecmp k k' ≠ .eq) (h : Headers)
    (v v' : List UInt8) : (h.set k v).set k' v' = (h.set k' v').set k v := by
  wlog hlt : strcasecmp k k' = .lt generalizing k k' v v'
  · have hgt : strcasecmp k' k = .lt := by
      rw [← strcasecmp_gt_iff]
      cases hkk : strcasecmp k k' with
      | lt => exact absurd hkk hlt
      | eq => exact absurd hkk hk
      | gt => rfl
    exact (this (by simp [hgt]) v' v hgt).symm
  have hgt := strcasecmp_gt_iff.mpr hlt
  induction h with
  | nil => simp [set, hlt, hgt]
  | cons x h ih =>
    cases hy : strcasecmp k x.1 with
    | lt => cases hy' : strcasecmp k' x.1 <;> simp [set, hy, hy', hlt, hgt]
    | eq =>
      have hy' := strcasecmp_gt_iff.mpr
        (Std.TransCmp.lt_of_eq_of_lt (Std.OrientedCmp.eq_symm hy) hlt)
      simp [set, hy, hy']
    | gt =>
      have hy' := strcasecmp_gt_iff.mpr (Std.TransCmp.lt_trans (strcasecmp_gt_iff.mp hy) hlt)
      simp [set, hy, hy', ih]

/-- A key that is set first may as well be set last. -/
theorem foldl_set_set {k : List UInt8} {h' : Headers} (hk : ∀ x ∈ h', strcasecmp k x.1 ≠ .eq)
    (h : Headers) (v : List UInt8) :
    h'.foldl (fun m x => m.set x.1 x.2) (h.set k v) =
      (h'.foldl (fun m x => m.set x.1 x.2) h).set k v := by
  induction h' generalizing h with
  | nil => rfl
  | cons x h' ih =>
    rw [List.foldl_cons, set_set_comm (hk x List.mem_cons_self),
      ih fun y hy => hk y (List.mem_cons_of_mem x hy)]
    rfl

end Headers

/-- `getAs<uint64_t>` with the default 0. -/
def Headers.getUInt64 (lexicalCast : List UInt8 → Option UInt64) (h : Headers) (key : String) :
    UInt64 :=
  ((h.find key).bind lexicalCast).getD 0

/-- The decimal numbers. -/
def decimalValue (s : List UInt8) : Option UInt64 := some (UInt64.ofNat (CString.value 10 s))

inductive HttpParserError where
  | OK | INVALID_METHOD_ERROR | INVALID_VERSION_ERROR | INVALID_FIELD_ERROR
  deriving DecidableEq

/-- The lines that `dump` prints for the headers. -/
def dumpHeaders (websocket : Bool) (h : Headers) : List UInt8 :=
  h.flatMap fun x =>
    if !websocket && strcasecmp x.1 (bytes "connection") == .eq then []
    else x.1 ++ bytes ": " ++ x.2 ++ bytes "\r\n"

def dumpConnection (close : Bool) : List UInt8 :=
  bytes "connection: " ++ bytes (if close then "close" else "keep-alive") ++ bytes "\r\n"

/-- The version, as both dumps print it. -/
def versionText (v : UInt8) : List UInt8 :=
  bytes "HTTP/" ++ showNat (v >>> 4).toNat ++ bytes "." ++ showNat (v &&& 0x0F).toNat

theorem versionText_mem {v : UInt8} (hv : v = 0x10 ∨ v = 0x11) :
    versionText v ∈ ["HTTP/1.0", "HTTP/1.1"].map bytes := by
  rcases hv with rfl | rfl <;> decide

theorem versionText_length {v : UInt8} (hv : v = 0x10 ∨ v = 0x11) : (versionText v).length = 8 := by
  rcases hv with rfl | rfl <;> rfl

/-- The end of the head and the body. -/
def dumpBody (body : List UInt8) : List UInt8 :=
  if body.isEmpty then bytes "\r\n"
  else bytes "content-length: " ++ showNat body.length ++ bytes "\r\n\r\n" ++ body

theorem dumpHeaders_eq {h : Headers}
    (hh : ∀ x ∈ h, strcasecmp (bytes "connection") x.1 ≠ .eq) :
    dumpHeaders false h = h.flatMap fun x => x.1 ++ bytes ": " ++ x.2 ++ bytes "\r\n" := by
  refine List.flatMap_congr fun x hx => ?_
  have hne : strcasecmp x.1 (bytes "connection") ≠ .eq :=
    fun h => hh x hx (Std.OrientedCmp.eq_symm h)
  simp [hne]

/-- The length of the body that a reader takes from the headers that are dumped. -/
theorem contentLength_dumped {lexicalCast : List UInt8 → Option UInt64}
    (hcast : ∀ k < 2 ^ 64, lexicalCast (showNat k) = some (UInt64.ofNat k)) {h : Headers}
    (hh : ∀ x ∈ h, strcasecmp (bytes "content-length") x.1 ≠ .eq) (connection : List UInt8)
    {body : List UInt8} (hbody : body.length < 2 ^ 63) :
    (Headers.getUInt64 lexicalCast
      (if body.isEmpty then h.set (bytes "connection") connection
        else (h.set (bytes "connection") connection).set (bytes "content-length")
          (showNat body.length)) "content-length").toInt64.toInt = body.length := by
  unfold Headers.getUInt64
  cases hb : body.isEmpty with
  | true =>
    rw [if_pos rfl, Headers.find_set_ne (by decide), Headers.find_none hh, List.isEmpty_iff.mp hb]
    rfl
  | false =>
    rw [if_neg Bool.false_ne_true, Headers.find_set, Option.bind_some, hcast _ (by omega),
      Option.getD_some, Int64.toInt, UInt64.toBitVec_toInt64]
    rw [BitVec.toInt_eq_toNat_of_lt, UInt64.toNat_toBitVec, UInt64.toNat_ofNat',
      Nat.mod_eq_of_lt (by omega)]
    rw [UInt64.toNat_toBitVec, UInt64.toNat_ofNat', Nat.mod_eq_of_lt (by omega)]
    omega

/-- The conversion to `int`. -/
def toInt (n : Int) : Int := n.bmod (2 ^ 32)

/-- `LEN(AT, FPC)`, the difference as a `size_t`. -/
def len (start p : Nat) : Nat := (p + 2 ^ 64 - start) % 2 ^ 64

/-- `std::string(buffer + start, n)`; it throws for a length above `max_size()`. -/
def string (buffer : List UInt8) (start n : Nat) : Option (List UInt8) :=
  if n < 2 ^ 63 then some ((buffer.drop start).take n) else none

theorem len_eq {start p : Nat} (h : start ≤ p) : len start p = (p - start) % 2 ^ 64 := by
  unfold len
  omega

theorem len_le {start p : Nat} (h : start ≤ p) : len start p ≤ p - start :=
  len_eq h ▸ Nat.mod_le ..

theorem string_total {buffer : List UInt8} {start n : Nat} (hn : n < 2 ^ 63) :
    string buffer start n = some ((buffer.drop start).take n) :=
  if_pos hn

theorem string_at {buffer start value : List UInt8} (hbuf : start ++ value <+: buffer)
    (hlen : value.length < 2 ^ 63) : string buffer start.length value.length = some value := by
  obtain ⟨rest, rfl⟩ := hbuf
  rw [string, if_pos hlen, List.append_assoc, List.drop_left, List.take_left]

theorem string_eq {buffer start value r : List UInt8} (hbuf : buffer = start ++ value ++ r)
    (hlen : buffer.length < 2 ^ 63) :
    string buffer start.length value.length = some value := by
  refine string_at ⟨r, hbuf.symm⟩ ?_
  simp only [hbuf, List.length_append] at hlen
  omega

theorem len_add (p : Nat) {n : Nat} (hn : n < 2 ^ 64) : len p (p + n) = n := by
  rw [len_eq (Nat.le_add_right p n), Nat.add_sub_cancel_left, Nat.mod_eq_of_lt hn]

end Tigerkin.Http
