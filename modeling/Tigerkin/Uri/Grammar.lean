import Tigerkin.Std.RagelExec
import Tigerkin.Std.CString

/-! # The grammar of URIs

`uri.rl`: the machine `uri_parser` with its actions, and `Uri::Create`, which executes it. The
definitions of the machine that `main` does not use are left out. `mark` is an index into the
string; the actions are executed at the index `fpc`, and fail where they build a string from a null
pointer or with a negative length, or call `atoi` with a null pointer. -/

namespace Tigerkin.UriParser

open Ragel

/-! ## Letters -/

def byte (c : Char) : UInt8 := UInt8.ofNat c.toNat

def chr (c : Char) : Re UInt8 := .char (byte c)

def range (lo hi : Char) (b : UInt8) : Bool := byte lo ≤ b && b ≤ byte hi

def oneOf (cs : List Char) (b : UInt8) : Bool := cs.any fun c => b == byte c

def alpha (b : UInt8) : Bool := range 'a' 'z' b || range 'A' 'Z' b

def digit (b : UInt8) : Bool := range '0' '9' b

def xdigit (b : UInt8) : Bool := digit b || range 'a' 'f' b || range 'A' 'F' b

/-- 39 is the apostrophe. -/
def subDelims (b : UInt8) : Bool :=
  oneOf ['!', '$', '&', '(', ')', '*', '+', ',', ';', '='] b || b == 39

def unreserved (b : UInt8) : Bool := alpha b || digit b || oneOf ['-', '.', '_', '~'] b

/-- `any -- ascii` -/
def notAscii (b : UInt8) : Bool := 128 ≤ b

def pctEncoded : Re UInt8 := .seq [chr '%', .cls xdigit, .cls xdigit]

/-! ## Machines without actions -/

def scheme : Re UInt8 :=
  .cat (.cls alpha) (.star (.cls fun b => alpha b || digit b || oneOf ['+', '-', '.'] b))

def userinfo : Re UInt8 :=
  .star (.any [.cls unreserved, pctEncoded, .cls subDelims, chr ':'])

/-- The fourth alternative begins with the number 2, not with the digit. -/
def decOctet : Re UInt8 := .any [
  .cls digit,
  .seq [.cls (range '1' '9'), .cls digit],
  .seq [chr '1', .cls digit, .cls digit],
  .seq [.char 2, .cls (range '0' '4'), .cls digit],
  .seq [chr '2', chr '5', .cls (range '0' '5')]]

def ipv4Address : Re UInt8 :=
  .seq [decOctet, chr '.', decOctet, chr '.', decOctet, chr '.', decOctet]

def h16 : Re UInt8 := .between 1 4 (.cls xdigit)

def ls32 : Re UInt8 := .alt (.seq [h16, chr ':', h16]) ipv4Address

/-- `h16 ":"` -/
def h16Colon : Re UInt8 := .seq [h16, chr ':']

/-- `"::"` -/
def colons : Re UInt8 := .seq [chr ':', chr ':']

def ipv6Address : Re UInt8 := .any [
  .seq [.rep 6 h16Colon, ls32],
  .seq [colons, .rep 5 h16Colon, ls32],
  .seq [.opt h16, colons, .rep 4 h16Colon, ls32],
  .seq [.opt (.seq [.rep 1 h16Colon, h16]), colons, .rep 3 h16Colon, ls32],
  .seq [.opt (.seq [.rep 2 h16Colon, h16]), colons, .rep 2 h16Colon, ls32],
  .seq [.opt (.seq [.rep 3 h16Colon, h16]), colons, .rep 1 h16Colon, ls32],
  .seq [.opt (.seq [.rep 4 h16Colon, h16]), colons, ls32],
  .seq [.opt (.seq [.rep 5 h16Colon, h16]), colons, h16],
  .seq [.opt (.seq [.rep 6 h16Colon, h16]), colons]]

def ipvFuture : Re UInt8 :=
  .seq [chr 'v', .plus (.cls xdigit), chr '.',
    .plus (.any [.cls unreserved, .cls subDelims, chr ':'])]

def ipLiteral : Re UInt8 := .seq [chr '[', .alt ipv6Address ipvFuture, chr ']']

def regName : Re UInt8 := .star (.any [.cls unreserved, pctEncoded, .cls subDelims])

def host : Re UInt8 := .any [ipLiteral, ipv4Address, regName]

def port : Re UInt8 := .star (.cls digit)

/-- `pchar - ":"` -/
def pcharNc : Re UInt8 :=
  .any [.cls notAscii, .cls unreserved, pctEncoded, .cls subDelims, chr '@']

def pchar : Re UInt8 :=
  .any [.cls notAscii, .cls unreserved, pctEncoded, .cls subDelims, chr ':', chr '@']

def segment : Re UInt8 := .star pchar

def segmentNz : Re UInt8 := .plus pchar

def segmentNzNc : Re UInt8 := .plus pcharNc

def slashSegment : Re UInt8 := .cat (chr '/') segment

def pathAbempty : Re UInt8 := .cat (.opt slashSegment) (.star slashSegment)

def pathAbsolute : Re UInt8 := .cat (chr '/') (.opt (.cat segmentNz (.star slashSegment)))

def pathNoscheme : Re UInt8 := .cat segmentNzNc (.star slashSegment)

def pathRootless : Re UInt8 := .cat segmentNz (.star slashSegment)

def pathEmpty : Re UInt8 := .lambda

/-! ## Actions -/

inductive Action where
  | marku | markh | saveScheme | savePort | saveUserinfo | saveHost | savePath | saveQuery
  | saveFragment
  deriving DecidableEq

/-- The actions in the order in which they are embedded. `authority` and `query` and the fragment
occur twice in the grammar. -/
def acts : List Action := [
  .marku, .saveScheme, .markh, .saveUserinfo, .markh, .saveHost, .markh, .savePort,
  .markh, .savePath, .marku, .saveQuery, .marku, .saveFragment,
  .markh, .saveUserinfo, .markh, .saveHost, .markh, .savePort,
  .marku, .saveQuery, .marku, .saveFragment]

/-- The embeddings of `authority` have the numbers from `n` on. -/
def authority (n : Nat) : Expr UInt8 :=
  .enter n (.cat (.cat
    (.opt (.cat (.leave (n + 1) (.plain userinfo)) (.plain (chr '@'))))
    (.leave (n + 3) (.enter (n + 2) (.plain host))))
    (.opt (.cat (.plain (chr ':')) (.leave (n + 5) (.enter (n + 4) (.plain port))))))

def query (n : Nat) : Expr UInt8 :=
  .leave (n + 1) (.enter n (.plain (.star (.any [pchar, chr '/', chr '?']))))

def fragment (n : Nat) : Expr UInt8 :=
  .leave (n + 1) (.enter n (.plain (.star (.any [pchar, chr '/', chr '?']))))

def slashes : Re UInt8 := .seq [chr '/', chr '/']

def hierPart : Expr UInt8 := .alt (.alt (.alt
  (.cat (.cat (.plain slashes) (authority 2)) (.leave 9 (.enter 8 (.plain pathAbempty))))
  (.plain pathAbsolute)) (.plain pathRootless)) (.plain pathEmpty)

def relativePart : Expr UInt8 := .alt (.alt (.alt
  (.cat (.cat (.plain slashes) (authority 14)) (.plain pathAbempty))
  (.plain pathAbsolute)) (.plain pathNoscheme)) (.plain pathEmpty)

def relativeRef : Expr UInt8 := .cat (.cat relativePart
  (.opt (.cat (.plain (chr '?')) (query 20)))) (.opt (.cat (.plain (chr '#')) (fragment 22)))

def uri : Expr UInt8 := .cat (.cat (.cat (.cat
  (.leave 1 (.enter 0 (.plain scheme))) (.plain (chr ':'))) hierPart)
  (.opt (.cat (.plain (chr '?')) (query 10)))) (.opt (.cat (.plain (chr '#')) (fragment 12)))

def main : Expr UInt8 := .alt uri relativeRef

example : main.numbers = List.range acts.length := by decide

/-! ## `Uri::Create` -/

structure Uri where
  scheme : List UInt8 := []
  userInfo : List UInt8 := []
  host : List UInt8 := []
  port : Int := 0
  path : List UInt8 := []
  query : List UInt8 := []
  fragment : List UInt8 := []
  deriving DecidableEq

structure State where
  mark : Option Nat := none
  uri : Uri := {}

/-- `std::string(mark, fpc - mark)` -/
def string (s : List UInt8) (fpc : Nat) : Option Nat → Option (List UInt8)
  | none => none
  | some mark => if mark ≤ fpc then some ((s.drop mark).take (fpc - mark)) else none

/-- `atoi(mark)`, which reads on to the end of the number. -/
def atoi (s : List UInt8) : Option Nat → Option Int
  | none => none
  | some mark => some ((CString.strtol (s.drop mark) 10).bmod (2 ^ 32))

def execAction (s : List UInt8) (fpc : Nat) (st : State) : Action → Option State
  | .marku => some { st with mark := some fpc }
  | .markh => some { st with mark := some fpc }
  | .saveScheme => (string s fpc st.mark).map fun v =>
    { mark := none, uri := { st.uri with scheme := v } }
  | .savePort =>
    if st.mark = some fpc then some { st with mark := none }
    else (atoi s st.mark).map fun v => { mark := none, uri := { st.uri with port := v } }
  | .saveUserinfo =>
    if st.mark.isSome then (string s fpc st.mark).map fun v =>
      { mark := none, uri := { st.uri with userInfo := v } }
    else some st
  | .saveHost =>
    if st.mark.isSome then (string s fpc st.mark).map fun v =>
      { st with uri := { st.uri with host := v } }
    else some st
  | .savePath => (string s fpc st.mark).map fun v =>
    { mark := none, uri := { st.uri with path := v } }
  | .saveQuery => (string s fpc st.mark).map fun v =>
    { mark := none, uri := { st.uri with query := v } }
  | .saveFragment => (string s fpc st.mark).map fun v =>
    { mark := none, uri := { st.uri with fragment := v } }

/-- `Uri::Create`: nothing if it throws, and a null pointer for what is not a URI. -/
def create (uristr : List UInt8) : Option (Option Uri) :=
  (exec acts (execAction uristr) [main] 0 {} uristr).map (Option.map State.uri)

end Tigerkin.UriParser
