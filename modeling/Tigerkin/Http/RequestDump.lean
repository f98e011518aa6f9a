import Tigerkin.Http.Request

/-! # `HttpRequest::dump` and `HttpRequest::getCookies` -/

namespace Tigerkin.Http

open CString

def httpMethodToString (m : HttpMethod) : String :=
  ((httpMethodMap.find? fun x => x.1 == m).map Prod.snd).getD "UNKNOWN"

/-- `m.insert(std::make_pair(key, val))`: a value that is there stays. -/
def Headers.insert (key val : List UInt8) : Headers → Headers
  | [] => [(key, val)]
  | (k, v) :: h =>
    match strcasecmp key k with
    | .lt => (key, val) :: (k, v) :: h
    | .eq => (k, v) :: h
    | .gt => (k, v) :: insert key val h

/-- `StringUtils::Trim` -/
def trim (str : List UInt8) : List UInt8 :=
  let delimit (b : UInt8) : Bool := (bytes " \t\r\n").contains b
  ((str.dropWhile delimit).reverse.dropWhile delimit).reverse

def ByteClass.has (C : ByteClass) (b : UInt8) : Bool := C.any fun r => r.1 ≤ b && b ≤ r.2

/-- The bytes that `uriChars` has a 1 for. -/
def uriChars : ByteClass :=
  [ch '-', ch '.', span '0' '9', ch '=', span 'A' 'Z', ch '_', span 'a' 'z', ch '~']

def hexdigits (n : UInt8) : UInt8 := if n < 10 then 48 + n else 55 + n

/-- `StringUtils::UrlEncode`, with a plus for a space. -/
def urlEncode (str : List UInt8) : List UInt8 :=
  str.flatMap fun b =>
    if uriChars.has b then [b]
    else if b == 32 then bytes "+"
    else bytes "%" ++ [hexdigits (b >>> 4), hexdigits (b &&& 0xf)]

/-- `PARSE_PARAM`, from the position that the loop has reached. -/
def parseParam (flag : UInt8) (trim : List UInt8 → List UInt8) (m : Headers) (str : List UInt8) :
    Headers :=
  match hkey : str.dropWhile (· != 61) with
  | [] => m
  | _ :: val =>
    let m := m.insert (trim (str.takeWhile (· != 61))) (urlEncode (val.takeWhile (· != flag)))
    match hval : val.dropWhile (· != flag) with
    | [] => m
    | _ :: rest => parseParam flag trim m rest
termination_by str.length
decreasing_by
  have h1 := (List.dropWhile_suffix (· != (61 : UInt8)) (l := str)).length_le
  have h2 := (List.dropWhile_suffix (· != flag) (l := val)).length_le
  rw [hkey, List.length_cons] at h1
  rw [hval, List.length_cons] at h2
  omega

/-- `HttpRequest` with the fields that the parser leaves as the constructor sets them. -/
structure FullRequest extends HttpRequest where
  websocket : Bool := false
  parserParamFlag : UInt8 := 0
  cookies : Headers := []

namespace FullRequest

def initCookies (r : FullRequest) : FullRequest :=
  if r.parserParamFlag &&& 0x4 != 0 then r
  else
    let cookie := (r.headers.find "cookie").getD []
    if cookie.isEmpty then { r with parserParamFlag := r.parserParamFlag ||| 0x4 }
    else
      { r with
        cookies := parseParam 59 trim r.cookies cookie
        parserParamFlag := r.parserParamFlag ||| 0x4 }

def getCookies (r : FullRequest) : Headers := r.initCookies.cookies

def dump (r : FullRequest) : List UInt8 :=
  bytes (httpMethodToString r.method) ++ bytes " " ++
    r.path ++ (if r.query.isEmpty then [] else bytes "?") ++ r.query ++
    (if r.fragment.isEmpty then [] else bytes "#") ++ r.fragment ++
    bytes " " ++ versionText r.version ++ bytes "\r\n" ++
    (if r.websocket then [] else dumpConnection r.close) ++
    dumpHeaders r.websocket r.headers ++
    (if r.cookies.isEmpty then [] else
      bytes "Set-Cookie: \n" ++
        r.cookies.flatMap fun x => bytes "\t" ++ x.1 ++ bytes ":" ++ x.2 ++ bytes "\n") ++
    dumpBody r.body

end FullRequest

end Tigerkin.Http
