import Tigerkin.Address.Basic
import Tigerkin.Std.CString

/-! # `Address::Lookup`

The host and the service of a text are found by two searches that share their results. A pointer
into the host is its offset, and its C string the text from there on. -/

namespace Tigerkin.Address

open CString

/-- What `ai_addr` points to, as its family says. -/
inductive Sockaddr where
  | in4 (addr : SockaddrIn)
  | in6 (addr : SockaddrIn6)
  | other (family : UInt16) (data : Vector UInt8 14)
  deriving DecidableEq

inductive AnyAddress where
  | ipV4 (addr : IpV4Address)
  | ipV6 (addr : IpV6Address)
  | unknow (family : UInt16) (data : Vector UInt8 14)
  deriving DecidableEq

def Create : Option Sockaddr → Option AnyAddress
  | none => none
  | some (.in4 addr) => some (.ipV4 ⟨addr⟩)
  | some (.in6 addr) => some (.ipV6 ⟨addr⟩)
  | some (.other family data) => some (.unknow family data)

structure Addrinfo where
  flags : Int := 0
  family : Int
  socktype : Int
  protocol : Int
  deriving DecidableEq

/-- The arguments of `getaddrinfo`. -/
structure Request where
  node : List UInt8
  service : Option (List UInt8)
  hints : Addrinfo
  deriving DecidableEq

/-- The pass for `[v6]` and `[v6]:port`. -/
def bracketPass (host : List UInt8) : List UInt8 × Option Nat :=
  if host.head? = some 91 then
    match memchr 93 (host.drop 1) with
    | some i =>
      let endipv6 := i + 1
      ((host.drop 1).take (endipv6 - 1),
        if host[endipv6 + 1]? = some 58 then some (endipv6 + 2) else none)
    | none => ([], none)
  else ([], none)

/-- The pass for `name:port`, after the other one. -/
def colonPass (host : List UInt8) : List UInt8 × Option Nat → List UInt8 × Option Nat
  | ([], _) =>
    match memchr 58 host with
    | some service =>
      if memchr 58 (host.drop (service + 1)) = none then (host.take service, some (service + 1))
      else ([], some service)
    | none => ([], none)
  | x => x

/-- The node, and the offset of the service. -/
def nodeService (host : List UInt8) : List UInt8 × Option Nat :=
  let (node, service) := colonPass host (bracketPass host)
  (if node = [] then host else node, service)

def request (host : List UInt8) (family type protocol : Int) : Request :=
  let (node, service) := nodeService host
  { node
    service := service.map host.drop
    hints := { family, socktype := type, protocol } }

/-- An error of `getaddrinfo` is its number. -/
def Lookup {m : Type → Type} [Monad m]
    (getaddrinfo : Request → m (Except Int (List (Option Sockaddr))))
    (result : List (Option AnyAddress)) (host : List UInt8) (family type protocol : Int) :
    m (Bool × List (Option AnyAddress)) := do
  match ← getaddrinfo (request host family type protocol) with
  | .error _ => return (false, result)
  | .ok results =>
    let result := result ++ results.map Create
    return (!result.isEmpty, result)

/-- The calls of `getaddrinfo`, which answers with `reply`. -/
def requests (reply : Request → Except Int (List (Option Sockaddr)))
    (result : List (Option AnyAddress)) (host : List UInt8) (family type protocol : Int) :
    List Request :=
  (StateT.run (m := Id) (Lookup (fun request => do
    modify (· ++ [request])
    return reply request) result host family type protocol) []).2

/-- A text that starts with a `[`, some content and a `]`. -/
def Bracketed (host : List UInt8) : Prop :=
  ∃ v6 rest, v6 ≠ [] ∧ 93 ∉ v6 ∧ host = 91 :: (v6 ++ 93 :: rest)

/-- The forms of a text, with the host and the service that it names. -/
inductive HostText : List UInt8 → List UInt8 → Option (List UInt8) → Prop
  | name {name} (hname : 58 ∉ name) (h : ¬Bracketed name) : HostText name name none
  | namePort {name port} (hne : name ≠ []) (hname : 58 ∉ name) (hport : 58 ∉ port)
    (h : ¬Bracketed (name ++ 58 :: port)) : HostText (name ++ 58 :: port) name (some port)
  | bracket {v6} (hne : v6 ≠ []) (h : 93 ∉ v6) : HostText (91 :: (v6 ++ [93])) v6 none
  | bracketPort {v6 port} (hne : v6 ≠ []) (h : 93 ∉ v6) :
    HostText (91 :: (v6 ++ 93 :: 58 :: port)) v6 (some port)
  | bare {v6} (hcount : 2 ≤ v6.count 58) (h : 91 ∉ v6) : HostText v6 v6 none

variable {host node v6 rest : List UInt8} {service : Option (List UInt8)}

theorem bracketPass_bracket (h : 93 ∉ v6) :
    bracketPass (91 :: (v6 ++ 93 :: rest)) =
      (v6, if rest.head? = some 58 then some (v6.length + 3) else none) := by
  rw [bracketPass, List.head?_cons, if_pos rfl, List.drop_one, List.tail_cons, memchr_append h]
  simp [List.getElem?_append_right, List.head?_eq_getElem?]

theorem bracketPass_nil (h : ¬Bracketed host) : (bracketPass host).1 = [] := by
  cases host with
  | nil => rfl
  | cons b text =>
    rw [bracketPass]
    split
    · rename_i hb
      cases hb
      by_cases hmem : 93 ∈ text
      · obtain ⟨v6, rest, rfl, h93⟩ := List.eq_append_cons_of_mem hmem
        have hnil : v6 = [] := by
          by_contra hne
          exact h ⟨v6, rest, hne, h93, rfl⟩
        rw [List.drop_one, List.tail_cons, memchr_append h93, hnil]
        rfl
      · rw [List.drop_one, List.tail_cons, memchr_eq_none hmem]
    · rfl

theorem colonPass_nil {x : List UInt8 × Option Nat} (hx : x.1 = []) :
    colonPass host x = colonPass host ([], none) := by
  obtain ⟨node, service⟩ := x
  cases hx
  rfl

theorem nodeService_bracket (hne : v6 ≠ []) (h : 93 ∉ v6) :
    nodeService (91 :: (v6 ++ 93 :: rest)) =
      (v6, if rest.head? = some 58 then some (v6.length + 3) else none) := by
  obtain ⟨b, v6, rfl⟩ := List.exists_cons_of_ne_nil hne
  rw [nodeService, bracketPass_bracket h]
  rfl

theorem nodeService_plain (h : ¬Bracketed host) :
    nodeService host =
      (if (colonPass host ([], none)).1 = [] then host else (colonPass host ([], none)).1,
        (colonPass host ([], none)).2) := by
  rw [nodeService, colonPass_nil (bracketPass_nil h)]

theorem request_eq (h : HostText host node service)
    (hbare : ¬(2 ≤ host.count 58 ∧ 91 ∉ host)) (family type protocol : Int) :
    request host family type protocol =
      ⟨node, service, { family, socktype := type, protocol }⟩ := by
  cases h with
  | name hname h =>
    rw [request, nodeService_plain h, colonPass, memchr_eq_none hname]
    rfl
  | namePort hne hname hport h =>
    rename_i port
    have hdrop : (node ++ 58 :: port).drop (node.length + 1) = port := by simp
    have hpass : colonPass (node ++ 58 :: port) ([], none) = (node, some (node.length + 1)) := by
      simp only [colonPass, memchr_append hname, hdrop, memchr_eq_none hport, if_true,
        List.take_left]
    rw [request, nodeService_plain h, hpass]
    dsimp only
    rw [if_neg hne, Option.map_some, hdrop]
  | bracket hne h =>
    rw [request, nodeService_bracket hne h]
    rfl
  | @bracketPort _ port hne h =>
    rw [request, nodeService_bracket hne h]
    simp
  | bare hcount h => exact absurd ⟨hcount, h⟩ hbare

/-- The service of a bare IPv6 text is the one of the search for `name:port`. -/
theorem request_bare (hcount : 2 ≤ host.count 58) (h : 91 ∉ host) (family type protocol : Int) :
    (request host family type protocol).service.isSome := by
  have hplain : ¬Bracketed host := by
    rintro ⟨v6, rest, -, -, rfl⟩
    exact h List.mem_cons_self
  have hmem : 58 ∈ host := List.count_pos_iff.mp (Nat.lt_of_lt_of_le Nat.zero_lt_two hcount)
  obtain ⟨name, port, rfl, hname⟩ := List.eq_append_cons_of_mem hmem
  rw [request, nodeService_plain hplain, colonPass, memchr_append hname]
  dsimp only
  split
  · rfl
  · rfl

theorem requests_eq (reply : Request → Except Int (List (Option Sockaddr)))
    (result : List (Option AnyAddress)) (host : List UInt8) (family type protocol : Int) :
    requests reply result host family type protocol = [request host family type protocol] := by
  rw [requests, Lookup]
  simp only [bind_assoc, pure_bind, StateT.run_bind, StateT.run_modify]
  cases reply (request host family type protocol) with
  | error e => rfl
  | ok results => rfl

/-- **The host and the service of a text** are what is asked for, except for a bare IPv6 text. -/
theorem requests_iff (h : HostText host node service)
    (reply : Request → Except Int (List (Option Sockaddr))) (result : List (Option AnyAddress))
    (family type protocol : Int) :
    requests reply result host family type protocol =
        [⟨node, service, { family, socktype := type, protocol }⟩] ↔
      ¬(2 ≤ host.count 58 ∧ 91 ∉ host) := by
  rw [requests_eq, List.cons.injEq, and_iff_left rfl]
  constructor
  · rintro heq ⟨hcount, hbracket⟩
    have hservice := request_bare hcount hbracket family type protocol
    rw [heq] at hservice
    cases h with
    | name hname _ =>
      rw [List.count_eq_zero_of_not_mem hname] at hcount
      cases hcount
    | namePort _ hname hport _ =>
      rw [List.count_append, List.count_cons_self, List.count_eq_zero_of_not_mem hname,
        List.count_eq_zero_of_not_mem hport] at hcount
      exact absurd hcount (by decide)
    | bracket _ _ => exact hbracket List.mem_cons_self
    | bracketPort _ _ => exact hbracket List.mem_cons_self
    | bare _ _ => cases hservice
  · intro hbare
    exact request_eq h hbare family type protocol

/-- `[::1]:80` -/
def loopbackText : List UInt8 := [91, 58, 58, 49, 93, 58, 56, 48]

theorem requests_iff_loopback :
    requests (fun _ => .ok []) [] loopbackText 10 0 0 =
        [⟨[58, 58, 49], some [56, 48], { family := 10, socktype := 0, protocol := 0 }⟩] ↔
      ¬(2 ≤ loopbackText.count 58 ∧ 91 ∉ loopbackText) :=
  requests_iff (@HostText.bracketPort [58, 58, 49] [56, 48] (by decide) (by decide)) _ _ _ _ _

/-- `fe80::1` -/
def linkLocalText : List UInt8 := [102, 101, 56, 48, 58, 58, 49]

/-- The service that is asked for is `::1`. -/
theorem requests_linkLocal :
    HostText linkLocalText linkLocalText none ∧
      requests (fun _ => .ok []) [] linkLocalText 10 0 0 =
        [⟨linkLocalText, some [58, 58, 49], { family := 10, socktype := 0, protocol := 0 }⟩] ∧
      requests (fun _ => .ok []) [] linkLocalText 10 0 0 ≠
        [⟨linkLocalText, none, { family := 10, socktype := 0, protocol := 0 }⟩] :=
  ⟨.bare (by decide) (by decide), by decide, by decide⟩

end Tigerkin.Address
