import Tigerkin.Http.RequestDump
import Tigerkin.Http.Response
import Tigerkin.Std.OrdMap
import Tigerkin.Stream.FixLength
import Tigerkin.Uri.RoundTrip

/-! # The requests of a client

`HttpConnection::Request` and `HttpConnectionPool::request` of `http_connection.cpp`. Both build a
request from a map of headers, in its order; a header `connection` is not passed on, and `Host` is
added when no header gives a host. The two differ in how they print the target of the request, and
in the value of `m_close` that they start from. -/

namespace Tigerkin.Http

open CString Loop
open UriParser (Uri)

/-! ## Building a request -/

/-- Equal as keys of `std::map<..., CaseInsensitiveLess>`. -/
def SameKey (key : String) (k : List UInt8) : Prop := strcasecmp (bytes key) k = .eq

instance (key : String) (k : List UInt8) : Decidable (SameKey key k) :=
  inferInstanceAs (Decidable (_ = _))

/-- A round of the loop over the headers, with `hasHost`. -/
def addHeader (s : Bool × FullRequest) (it : List UInt8 × List UInt8) : Bool × FullRequest :=
  if SameKey "connection" it.1 then
    if SameKey "keep-alive" it.2 then (s.1, { s.2 with close := false }) else s
  else
    (if !s.1 && SameKey "host" it.1 then !it.2.isEmpty else s.1,
      { s.2 with headers := s.2.headers.set it.1 it.2 })

def addHeaders (host : List UInt8) (headers : List (List UInt8 × List UInt8)) (req : FullRequest) :
    FullRequest :=
  let (hasHost, req) := headers.foldl addHeader (false, req)
  if hasHost then req else { req with headers := req.headers.set (bytes "Host") host }

/-- The request of `HttpConnection::Request(method, uri, timeout, headers, body)`. -/
def HttpConnection.newRequest (method : HttpMethod) (uri : Uri)
    (headers : List (List UInt8 × List UInt8)) (body : List UInt8) : FullRequest :=
  let req : FullRequest :=
    { method, path := uri.getPath, query := uri.query, fragment := uri.fragment }
  { addHeaders uri.host headers req with body }

/-- What the member functions of `HttpConnectionPool` that take a `Uri` pass on as the path. -/
def poolPath (uri : Uri) : List UInt8 :=
  uri.getPath ++ (if uri.query.isEmpty then [] else bytes "?") ++ uri.query ++
    (if uri.fragment.isEmpty then [] else bytes "#") ++ uri.fragment

/-- The request of `HttpConnectionPool::request(method, path, timeout, headers, body)`. -/
def HttpConnectionPool.newRequest (host vhost : List UInt8) (method : HttpMethod)
    (path : List UInt8) (headers : List (List UInt8 × List UInt8)) (body : List UInt8) :
    FullRequest :=
  let req : FullRequest := { method, path, close := false }
  { addHeaders (if vhost.isEmpty then host else vhost) headers req with body }

/-- The caller asks for keep-alive. -/
def AsksKeepAlive (headers : List (List UInt8 × List UInt8)) : Prop :=
  ∃ x ∈ headers, SameKey "connection" x.1 ∧ SameKey "keep-alive" x.2

instance (headers : List (List UInt8 × List UInt8)) : Decidable (AsksKeepAlive headers) :=
  inferInstanceAs (Decidable (∃ x ∈ headers, _))

/-- The caller names a host. -/
def NamesHost (headers : List (List UInt8 × List UInt8)) : Prop :=
  ∃ x ∈ headers, SameKey "host" x.1 ∧ x.2 ≠ []

instance (headers : List (List UInt8 × List UInt8)) : Decidable (NamesHost headers) :=
  inferInstanceAs (Decidable (∃ x ∈ headers, _))

/-- The last of the headers with a key. -/
def lastHeader (headers : List (List UInt8 × List UInt8)) (key : String) : Option (List UInt8) :=
  (headers.reverse.find? fun x => SameKey key x.1).map Prod.snd

variable {key key' : String} {k : List UInt8} {headers : List (List UInt8 × List UInt8)}
  {h : Headers} {req : FullRequest} {host : List UInt8}

theorem SameKey.trans (hkey : SameKey key k) (hkey' : SameKey key' k) :
    SameKey key (bytes key') := by
  unfold SameKey at hkey hkey' ⊢
  rw [Headers.strcasecmp_eq_iff] at hkey hkey' ⊢
  exact hkey.trans hkey'.symm

theorem SameKey.connection_ne_host (hk : SameKey "connection" k) : ¬SameKey "host" k := by
  intro hhost
  exact absurd (hk.trans hhost) (by decide)

theorem Headers.find_set_same (hk : SameKey key k) (h : Headers) (val : List UInt8) :
    (h.set k val).find key = some val := by
  induction h with
  | nil => simp [Headers.set, Headers.find, show strcasecmp (bytes key) k = .eq from hk]
  | cons x h ih =>
    have hkx : strcasecmp (bytes key) x.1 = strcasecmp k x.1 := Std.TransCmp.congr_left hk
    cases hx : strcasecmp k x.1 with
    | lt => simp [Headers.set, Headers.find, hx, show strcasecmp (bytes key) k = .eq from hk]
    | eq => simp [Headers.set, Headers.find, hx, hkx]
    | gt =>
      simp only [Headers.set, hx]
      rw [← ih]
      simp [Headers.find, hkx, hx]

/-- The value of a key in a map that has been filled is the last one that was set. -/
theorem find_foldl_set (headers : List (List UInt8 × List UInt8)) (h : Headers) (key : String) :
    (headers.foldl (fun (m : Headers) x => m.set x.1 x.2) h).find key =
      (lastHeader headers key).or (h.find key) := by
  induction headers generalizing h with
  | nil => rfl
  | cons x headers ih =>
    rw [List.foldl_cons, ih, lastHeader, lastHeader, List.reverse_cons, List.find?_append]
    cases headers.reverse.find? fun x => SameKey key x.1 with
    | some y => rfl
    | none =>
      by_cases hx : SameKey key x.1
      · simp [Headers.find_set_same hx, hx]
      · simp [Headers.find_set_ne hx, hx]

theorem asksKeepAlive_cons (x : List UInt8 × List UInt8) :
    decide (AsksKeepAlive (x :: headers)) =
      (decide (SameKey "connection" x.1 ∧ SameKey "keep-alive" x.2) ||
        decide (AsksKeepAlive headers)) := by
  rw [← Bool.decide_or]
  exact decide_eq_decide.2 (List.exists_mem_cons_iff _ _ _)

theorem namesHost_cons (x : List UInt8 × List UInt8) :
    decide (NamesHost (x :: headers)) =
      (decide (SameKey "host" x.1 ∧ x.2 ≠ []) || decide (NamesHost headers)) := by
  rw [← Bool.decide_or]
  exact decide_eq_decide.2 (List.exists_mem_cons_iff _ _ _)

/-- What the loop over the headers makes of a request. -/
theorem foldl_addHeader (headers : List (List UInt8 × List UInt8)) (b : Bool) (req : FullRequest) :
    headers.foldl addHeader (b, req) =
      (b || decide (NamesHost headers),
        { req with
          close := req.close && !decide (AsksKeepAlive headers)
          headers := (headers.filter fun x => !decide (SameKey "connection" x.1)).foldl
            (fun m x => m.set x.1 x.2) req.headers }) := by
  induction headers generalizing b req with
  | nil => simp [NamesHost, AsksKeepAlive]
  | cons x headers ih =>
    rw [List.foldl_cons, asksKeepAlive_cons, namesHost_cons]
    by_cases hconn : SameKey "connection" x.1
    · have hhost := hconn.connection_ne_host
      by_cases halive : SameKey "keep-alive" x.2
      · rw [addHeader, if_pos hconn, if_pos halive, ih]
        simp [hconn, hhost, halive]
      · rw [addHeader, if_pos hconn, if_neg halive, ih]
        simp [hconn, hhost, halive]
    · rw [addHeader, if_neg hconn, ih]
      by_cases hhost : SameKey "host" x.1
      · cases b <;> cases hx : x.2 <;> simp [hconn, hhost, hx]
      · simp [hconn, hhost]

/-- The headers that are sent: `connection` is not among them. -/
def sentHeaders (host : List UInt8) (headers : List (List UInt8 × List UInt8)) : Headers :=
  let h := (headers.filter fun x => !decide (SameKey "connection" x.1)).foldl
    (fun (m : Headers) x => m.set x.1 x.2) []
  if NamesHost headers then h else h.set (bytes "Host") host

theorem addHeaders_eq (h : req.headers = []) :
    addHeaders host headers req =
      { req with
        close := req.close && !decide (AsksKeepAlive headers)
        headers := sentHeaders host headers } := by
  rw [addHeaders, foldl_addHeader, h, sentHeaders]
  by_cases hhost : NamesHost headers <;> simp [hhost]

theorem lastHeader_filter (hkey : ¬SameKey "connection" (bytes key)) :
    lastHeader (headers.filter fun x => !decide (SameKey "connection" x.1)) key =
      lastHeader headers key := by
  rw [lastHeader, lastHeader, ← List.filter_reverse, List.find?_filter]
  refine congrArg (Option.map Prod.snd) (List.find?_congr fun x _ => ?_)
  by_cases hx : SameKey key x.1
  · have hconn : ¬SameKey "connection" x.1 := fun h => hkey (h.trans hx)
    simp [hx, hconn]
  · simp [hx]

theorem find_sentHeaders_connection :
    (sentHeaders host headers).find "connection" = none := by
  have hfilter : lastHeader (headers.filter fun x => !decide (SameKey "connection" x.1))
      "connection" = none := by
    rw [lastHeader, List.find?_eq_none.mpr fun x hx => ?_]
    · rfl
    · simpa using (List.mem_filter.mp (List.mem_reverse.mp hx)).2
  unfold sentHeaders
  split
  · rw [find_foldl_set, hfilter]
    rfl
  · rw [Headers.find_set_ne (by decide), find_foldl_set, hfilter]
    rfl

theorem sameKey_host : SameKey key (bytes "Host") ↔ SameKey "host" (bytes key) := by
  have hself : SameKey "host" (bytes "Host") := by decide
  unfold SameKey at hself ⊢
  rw [Headers.strcasecmp_eq_iff] at hself
  rw [Headers.strcasecmp_eq_iff, Headers.strcasecmp_eq_iff, hself]
  exact eq_comm

theorem find_sentHeaders (hkey : ¬SameKey "connection" (bytes key)) :
    (sentHeaders host headers).find key =
      if SameKey "host" (bytes key) ∧ ¬NamesHost headers then some host
      else lastHeader headers key := by
  have hlast : (lastHeader headers key).or (Headers.find [] key) = lastHeader headers key :=
    Option.or_none
  by_cases hnames : NamesHost headers
  · rw [sentHeaders, if_pos hnames, find_foldl_set, lastHeader_filter hkey, hlast,
      if_neg fun h => h.2 hnames]
  · rw [sentHeaders, if_neg hnames]
    by_cases hhost : SameKey "host" (bytes key)
    · rw [Headers.find_set_same (sameKey_host.mpr hhost), if_pos ⟨hhost, hnames⟩]
    · rw [Headers.find_set_ne fun h => hhost (sameKey_host.mp h), find_foldl_set,
        lastHeader_filter hkey, hlast, if_neg fun h => hhost h.1]

/-- What the peer of a request finds among its headers. -/
structure PassesOn (host : List UInt8) (headers : List (List UInt8 × List UInt8)) (h : Headers) :
    Prop where
  sorted : h.Sorted
  connection : h.find "connection" = none
  find : ∀ key, ¬SameKey "connection" (bytes key) →
    h.find key = if SameKey "host" (bytes key) ∧ ¬NamesHost headers then some host
      else lastHeader headers key

theorem Headers.set_eq (h : Headers) (key val : List UInt8) :
    h.set key val = OrdMap.set strcasecmp key val h := by
  induction h with
  | nil => rfl
  | cons x h ih =>
    cases hx : strcasecmp key x.1 <;> simp only [Headers.set, OrdMap.set, hx, ih]

theorem Headers.sorted_iff (h : Headers) : h.Sorted ↔ OrdMap.Sorted strcasecmp h :=
  List.Pairwise.iff fun _ _ => Headers.strcasecmp_gt_iff

theorem Headers.Sorted.foldl_set (hh : h.Sorted) (l : List (List UInt8 × List UInt8)) :
    (l.foldl (fun (m : Headers) x => m.set x.1 x.2) h).Sorted := by
  induction l generalizing h with
  | nil => exact hh
  | cons x l ih =>
    apply ih
    dsimp only
    rw [Headers.set_eq, Headers.sorted_iff]
    exact OrdMap.Sorted.set ((Headers.sorted_iff h).mp hh) x.1 x.2

theorem sentHeaders_passesOn (host : List UInt8) (headers : List (List UInt8 × List UInt8)) :
    PassesOn host headers (sentHeaders host headers) where
  sorted := by
    have hnil : Headers.Sorted [] := .nil
    unfold sentHeaders
    split
    · exact hnil.foldl_set _
    · exact (hnil.foldl_set _).foldl_set [(bytes "Host", host)]
  connection := find_sentHeaders_connection
  find _ hkey := find_sentHeaders hkey

theorem HttpConnection.newRequest_eq (method : HttpMethod) (uri : Uri) (body : List UInt8) :
    HttpConnection.newRequest method uri headers body =
      { method, path := uri.getPath, query := uri.query, fragment := uri.fragment, body
        close := !decide (AsksKeepAlive headers), headers := sentHeaders uri.host headers } := by
  rw [HttpConnection.newRequest, addHeaders_eq rfl]
  rfl

theorem HttpConnectionPool.newRequest_eq (method : HttpMethod) (vhost path body : List UInt8) :
    HttpConnectionPool.newRequest host vhost method path headers body =
      { method, path, body, close := false
        headers := sentHeaders (if vhost.isEmpty then host else vhost) headers } := by
  rw [HttpConnectionPool.newRequest, addHeaders_eq rfl]
  rfl

/-- **The headers of a request**, whichever client builds it: `connection` is not passed on, every
other key has the last value that the caller gives it, and a caller who names no host gets the
client's. The caller's wish for keep-alive reaches `m_close` of a `HttpConnection` only. -/
theorem newRequest_headers (method : HttpMethod) (uri : Uri) (vhost path body : List UInt8) :
    PassesOn uri.host headers (HttpConnection.newRequest method uri headers body).headers ∧
      PassesOn (if vhost.isEmpty then host else vhost) headers
        (HttpConnectionPool.newRequest host vhost method path headers body).headers ∧
      ((HttpConnection.newRequest method uri headers body).close = false ↔
        AsksKeepAlive headers) ∧
      (HttpConnectionPool.newRequest host vhost method path headers body).close = false := by
  rw [HttpConnection.newRequest_eq, HttpConnectionPool.newRequest_eq]
  exact ⟨sentHeaders_passesOn _ _, sentHeaders_passesOn _ _, by simp, rfl⟩

/-! ## The two clients compared -/

theorem Headers.set_split (h : Headers) (key : List UInt8) :
    ∃ pre k post, strcasecmp key k = .eq ∧ ∀ val, h.set key val = pre ++ (k, val) :: post := by
  induction h with
  | nil => exact ⟨[], key, [], Headers.strcasecmp_eq_iff.mpr rfl, fun _ => rfl⟩
  | cons x h ih =>
    cases hx : strcasecmp key x.1 with
    | lt =>
      refine ⟨[], key, x :: h, Headers.strcasecmp_eq_iff.mpr rfl, fun val => ?_⟩
      simp only [Headers.set, hx, List.nil_append]
    | eq =>
      refine ⟨[], x.1, h, hx, fun val => ?_⟩
      simp only [Headers.set, hx, List.nil_append]
    | gt =>
      obtain ⟨pre, k, post, hk, hset⟩ := ih
      refine ⟨x :: pre, k, post, hk, fun val => ?_⟩
      simp only [Headers.set, hx, hset, List.cons_append]

/-- The lines of the headers tell the hosts apart. -/
theorem dumpHeaders_sent_iff {host' : List UInt8} (end' : List UInt8) :
    dumpHeaders false (sentHeaders host headers) ++ end' =
        dumpHeaders false (sentHeaders host' headers) ++ end' ↔
      NamesHost headers ∨ host = host' := by
  by_cases hnames : NamesHost headers
  · refine iff_of_true ?_ (.inl hnames)
    rw [sentHeaders, sentHeaders, if_pos hnames, if_pos hnames]
  · obtain ⟨pre, k, post, hk, hset⟩ := Headers.set_split
      ((headers.filter fun x => !decide (SameKey "connection" x.1)).foldl
        (fun (m : Headers) x => m.set x.1 x.2) []) (bytes "Host")
    have hconn : strcasecmp k (bytes "connection") ≠ .eq := by
      intro h
      rw [Headers.strcasecmp_eq_iff] at h hk
      exact absurd (hk.trans h) (by decide)
    rw [or_iff_right hnames, sentHeaders, sentHeaders, if_neg hnames, if_neg hnames, hset, hset]
    simp [dumpHeaders, hconn]

/-- **The bytes of a request** are the same from either client if and only if the caller asks for
keep-alive, and names a host or the clients have the same one. -/
theorem dump_newRequest_eq_iff (method : HttpMethod) (uri : Uri) (vhost body : List UInt8) :
    (HttpConnection.newRequest method uri headers body).dump =
        (HttpConnectionPool.newRequest host vhost method (poolPath uri) headers body).dump ↔
      AsksKeepAlive headers ∧
        (NamesHost headers ∨ uri.host = if vhost.isEmpty then host else vhost) := by
  have hclose : ∀ s t : List UInt8, bytes "close" ++ s ≠ bytes "keep-alive" ++ t := by
    intro s t h
    have hhead : some (99 : UInt8) = some 107 := congrArg List.head? h
    exact absurd hhead (by decide)
  rw [HttpConnection.newRequest_eq, HttpConnectionPool.newRequest_eq,
    ← dumpHeaders_sent_iff (dumpBody body)]
  simp only [FullRequest.dump, poolPath, dumpConnection, List.append_assoc]
  by_cases halive : AsksKeepAlive headers
  · simp [halive]
  · simp [halive, hclose]

end Tigerkin.Http
