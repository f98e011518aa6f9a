import Tigerkin.Std.OrdMap
import Tigerkin.Util.UrlCodec

/-! # Parameters and cookies of a request

The accessors of `HttpRequest` for the maps `m_params` and `m_cookies`. The parsers insert pairs into
the maps; `pendingParams` and `pendingCookies` are the pairs that they have not inserted yet. -/

namespace Tigerkin.Http

open CString

/-- `HttpRequest` with the parameters. -/
structure ParamRequest extends FullRequest where
  params : Headers := []

namespace ParamRequest

def initQueryParam (r : ParamRequest) : ParamRequest :=
  if r.parserParamFlag &&& 0x1 != 0 then r
  else
    { r with
      params := parseParam 38 id r.params r.query
      parserParamFlag := r.parserParamFlag ||| 0x1 }

def initBodyParam (r : ParamRequest) : ParamRequest :=
  if r.parserParamFlag &&& 0x2 != 0 then r
  else
    let contentType := (r.headers.find "content-type").getD []
    if strcasestr contentType (bytes "application/x-www-form-urlencoded") then
      { r with
        params := parseParam 38 id r.params r.body
        parserParamFlag := r.parserParamFlag ||| 0x2 }
    else { r with parserParamFlag := r.parserParamFlag ||| 0x2 }

def initCookies (r : ParamRequest) : ParamRequest :=
  { r with toFullRequest := r.toFullRequest.initCookies }

def initParam (r : ParamRequest) : ParamRequest :=
  r.initQueryParam.initBodyParam.initCookies

/-- What the accessors of the parameters begin with. -/
def parsed (r : ParamRequest) : ParamRequest := r.initQueryParam.initBodyParam

def getParams (r : ParamRequest) : ParamRequest × Headers :=
  let r := r.parsed
  (r, r.params)

def getParam (r : ParamRequest) (key : List UInt8) (dflt : List UInt8) :
    ParamRequest × List UInt8 :=
  let r := r.parsed
  (r, ((OrdMap.find strcasecmp key r.params).map Prod.snd).getD dflt)

def hasParam (r : ParamRequest) (key : List UInt8) : ParamRequest × Bool :=
  let r := r.parsed
  (r, (OrdMap.find strcasecmp key r.params).isSome)

def delParam (r : ParamRequest) (key : List UInt8) : ParamRequest :=
  { r with params := OrdMap.erase strcasecmp key r.params }

def setParam (r : ParamRequest) (key val : List UInt8) : ParamRequest :=
  { r with params := OrdMap.set strcasecmp key val r.params }

def getCookies (r : ParamRequest) : ParamRequest × Headers :=
  let r := r.initCookies
  (r, r.cookies)

def getCookie (r : ParamRequest) (key : List UInt8) (dflt : List UInt8) :
    ParamRequest × List UInt8 :=
  let r := r.initCookies
  (r, ((OrdMap.find strcasecmp key r.cookies).map Prod.snd).getD dflt)

def hasCookie (r : ParamRequest) (key : List UInt8) : ParamRequest × Bool :=
  let r := r.initCookies
  (r, (OrdMap.find strcasecmp key r.cookies).isSome)

def delCookie (r : ParamRequest) (key : List UInt8) : ParamRequest :=
  { r with cookies := OrdMap.erase strcasecmp key r.cookies }

def setCookie (r : ParamRequest) (key val : List UInt8) : ParamRequest :=
  { r with cookies := OrdMap.set strcasecmp key val r.cookies }

end ParamRequest

/-! ## The loop as a list of insertions -/

theorem Headers.insert_eq (key val : List UInt8) (m : Headers) :
    m.insert key val = OrdMap.insert strcasecmp key val m := by
  induction m with
  | nil => rfl
  | cons x m ih =>
    cases h : strcasecmp key x.1 with
    | lt => simp only [Headers.insert, OrdMap.insert, h]
    | eq => simp only [Headers.insert, OrdMap.insert, h]
    | gt => simp only [Headers.insert, OrdMap.insert, h, ih]

/-- The pairs that `PARSE_PARAM` inserts. -/
def paramPairs (flag : UInt8) (trim : List UInt8 → List UInt8) (str : List UInt8) : Headers :=
  match _hkey : str.dropWhile (· != 61) with
  | [] => []
  | _ :: val =>
    (trim (str.takeWhile (· != 61)), urlEncode (val.takeWhile (· != flag))) ::
      match _hval : val.dropWhile (· != flag) with
      | [] => []
      | _ :: rest => paramPairs flag trim rest
termination_by str.length
decreasing_by
  have h1 := (List.dropWhile_suffix (· != (61 : UInt8)) (l := str)).length_le
  have h2 := (List.dropWhile_suffix (· != flag) (l := val)).length_le
  rw [_hkey, List.length_cons] at h1
  rw [_hval, List.length_cons] at h2
  omega

theorem parseParam_eq (flag : UInt8) (trim : List UInt8 → List UInt8) (m : Headers)
    (str : List UInt8) :
    parseParam flag trim m str = OrdMap.insertAll strcasecmp (paramPairs flag trim str) m := by
  fun_induction parseParam flag trim m str with
  | case1 m str h =>
    rw [paramPairs]
    split
    · rfl
    · simp_all
  | case2 m str _ val h m' h' =>
    rw [paramPairs]
    split
    · simp_all
    · rename_i heq
      obtain rfl := (List.cons.inj (h.symm.trans heq)).2
      split
      · simp only [m', Headers.insert_eq]
        rfl
      · simp_all
  | case3 m str _ val h m' _ rest h' ih =>
    rw [paramPairs, ih]
    split
    · simp_all
    · rename_i heq
      obtain rfl := (List.cons.inj (h.symm.trans heq)).2
      split
      · simp_all
      · rename_i heq'
        obtain rfl := (List.cons.inj (h'.symm.trans heq')).2
        simp only [OrdMap.insertAll, List.foldl_cons, m', Headers.insert_eq]

theorem paramPairs_nil (flag : UInt8) (trim : List UInt8 → List UInt8) :
    paramPairs flag trim [] = [] := by
  rw [paramPairs]
  rfl

/-! ## Pairs to come -/

namespace ParamRequest

variable {r : ParamRequest}

def pendingQuery (r : ParamRequest) : Headers :=
  if r.parserParamFlag &&& 0x1 != 0 then [] else paramPairs 38 id r.query

/-- The body is a form. -/
def isForm (r : ParamRequest) : Bool :=
  strcasestr ((r.headers.find "content-type").getD []) (bytes "application/x-www-form-urlencoded")

def pendingBody (r : ParamRequest) : Headers :=
  if r.parserParamFlag &&& 0x2 != 0 then []
  else if r.isForm then paramPairs 38 id r.body else []

def pendingParams (r : ParamRequest) : Headers := r.pendingQuery ++ r.pendingBody

def pendingCookies (r : ParamRequest) : Headers :=
  if r.parserParamFlag &&& 0x4 != 0 then []
  else paramPairs 59 trim ((r.headers.find "cookie").getD [])

/-- A flag that is set already stays as it is. -/
theorem or_flag {f b : UInt8} (hb : b ∈ [0x1, 0x2, 0x4]) (h : (f &&& b != 0) = true) :
    f ||| b = f := by
  have hall : ∀ f : UInt8, ∀ b ∈ [0x1, 0x2, 0x4], (f &&& b != 0) = true → f ||| b = f :=
    forall_byte (by decide +kernel)
  exact hall f b hb h

theorem initQueryParam_eq (r : ParamRequest) :
    r.initQueryParam =
      { r with
        params := OrdMap.insertAll strcasecmp r.pendingQuery r.params
        parserParamFlag := r.parserParamFlag ||| 0x1 } := by
  unfold initQueryParam pendingQuery
  split
  · rw [or_flag (by simp) ‹_›]
    rfl
  · rw [parseParam_eq]

theorem initBodyParam_eq (r : ParamRequest) :
    r.initBodyParam =
      { r with
        params := OrdMap.insertAll strcasecmp r.pendingBody r.params
        parserParamFlag := r.parserParamFlag ||| 0x2 } := by
  unfold initBodyParam pendingBody isForm
  split
  · rw [or_flag (by simp) ‹_›]
    rfl
  · dsimp only
    split
    · rw [parseParam_eq]
    · rfl

theorem initCookies_eq (r : ParamRequest) :
    r.initCookies =
      { r with
        cookies := OrdMap.insertAll strcasecmp r.pendingCookies r.cookies
        parserParamFlag := r.parserParamFlag ||| 0x4 } := by
  unfold initCookies FullRequest.initCookies pendingCookies
  dsimp only
  split
  · rw [or_flag (by simp) ‹_›]
    rfl
  · split
    · rename_i h
      rw [List.isEmpty_iff.mp h, paramPairs_nil]
      rfl
    · rw [parseParam_eq]

/-- **What the accessors of the parameters see.** -/
theorem parsed_eq (r : ParamRequest) :
    r.parsed =
      { r with
        params := OrdMap.insertAll strcasecmp r.pendingParams r.params
        parserParamFlag := r.parserParamFlag ||| 0x3 } := by
  have hflag : ∀ f : UInt8, (f ||| 0x1) &&& 0x2 = f &&& 0x2 ∧ f ||| 0x1 ||| 0x2 = f ||| 0x3 :=
    forall_byte (by decide +kernel)
  have hbody : r.initQueryParam.pendingBody = r.pendingBody := by
    simp only [initQueryParam_eq, pendingBody, isForm, (hflag r.parserParamFlag).1]
    rfl
  rw [parsed, initBodyParam_eq, hbody, initQueryParam_eq, pendingParams]
  simp only [OrdMap.insertAll, List.foldl_append, (hflag r.parserParamFlag).2]

end ParamRequest

end Tigerkin.Http
