import Tigerkin.Http.Params

/-! # Lazy parsing

Getters parse what they need, setters and deleters do not. What is set or deleted before the first
getter is compared with a request that has parsed everything at the beginning
(`ParamRequest.lazy_results`): the parser brings a deleted key back, and a key that is set first
keeps another spelling. -/

namespace Tigerkin.Http

open CString

inductive ParamOp where
  | getParam (key dflt : List UInt8)
  | hasParam (key : List UInt8)
  | setParam (key val : List UInt8)
  | delParam (key : List UInt8)
  | getParams
  | getCookie (key dflt : List UInt8)
  | hasCookie (key : List UInt8)
  | setCookie (key val : List UInt8)
  | delCookie (key : List UInt8)
  | getCookies

inductive ParamResult where
  | done
  | str (s : List UInt8)
  | bool (b : Bool)
  | map (m : Headers)
  deriving DecidableEq

/-- A deleted key is none that a parser will insert. -/
def DelSafe (pending : Headers) (key : List UInt8) : Prop :=
  OrdMap.find strcasecmp key pending = none

/-- A key that a parser will insert is there already, or is set with the same spelling. -/
def SetSafe (m pending : Headers) (key : List UInt8) : Prop :=
  OrdMap.find strcasecmp key m = none →
    ∀ x, OrdMap.find strcasecmp key pending = some x → x.1 = key

namespace ParamRequest

def call (r : ParamRequest) : ParamOp → ParamRequest × ParamResult
  | .getParam key dflt => (r.getParam key dflt).map id .str
  | .hasParam key => (r.hasParam key).map id .bool
  | .setParam key val => (r.setParam key val, .done)
  | .delParam key => (r.delParam key, .done)
  | .getParams => r.getParams.map id .map
  | .getCookie key dflt => (r.getCookie key dflt).map id .str
  | .hasCookie key => (r.hasCookie key).map id .bool
  | .setCookie key val => (r.setCookie key val, .done)
  | .delCookie key => (r.delCookie key, .done)
  | .getCookies => r.getCookies.map id .map

/-- The results of a sequence of calls. -/
def results (r : ParamRequest) : List ParamOp → List ParamResult
  | [] => []
  | op :: ops => (r.call op).2 :: results (r.call op).1 ops

/-- The condition on a call. -/
def Safe (r : ParamRequest) : ParamOp → Prop
  | .setParam key _ => SetSafe r.params r.pendingParams key
  | .delParam key => DelSafe r.pendingParams key
  | .setCookie key _ => SetSafe r.cookies r.pendingCookies key
  | .delCookie key => DelSafe r.pendingCookies key
  | _ => True

/-- Every call of the sequence meets the condition. -/
def SafeRun (r : ParamRequest) : List ParamOp → Prop
  | [] => True
  | op :: ops => r.Safe op ∧ SafeRun (r.call op).1 ops

/-- The maps are `std::map`s. -/
structure WF (r : ParamRequest) : Prop where
  params : OrdMap.Sorted strcasecmp r.params
  cookies : OrdMap.Sorted strcasecmp r.cookies

/-- The request `e` has inserted what `r` has still to insert. -/
structure Ahead (r e : ParamRequest) : Prop where
  params : e.params = OrdMap.insertAll strcasecmp r.pendingParams r.params
  cookies : e.cookies = OrdMap.insertAll strcasecmp r.pendingCookies r.cookies
  noParams : e.pendingParams = []
  noCookies : e.pendingCookies = []

end ParamRequest

variable {m pending : Headers} {key val : List UInt8} {r e : ParamRequest} {op : ParamOp}

/-! ## Maps -/

/-- Setting a key and inserting the pairs to come commute exactly for a safe key. -/
theorem set_insertAll_iff (hs : OrdMap.Sorted strcasecmp m) (pending : Headers)
    (key val : List UInt8) :
    OrdMap.set strcasecmp key val (OrdMap.insertAll strcasecmp pending m) =
      OrdMap.insertAll strcasecmp pending (OrdMap.set strcasecmp key val m) ↔
    SetSafe m pending key := by
  have hs' := hs.set key val
  have hs'' := hs.insertAll pending
  have hkey : strcasecmp key key = .eq := Headers.strcasecmp_eq_iff.mpr rfl
  constructor
  · intro h hnone x hx
    have hfind := congrArg (OrdMap.find strcasecmp key) h
    rw [hs''.find_set, hs'.find_insertAll, hs.find_insertAll, hs.find_set, if_pos hkey,
      if_pos hkey, hnone, hx] at hfind
    simpa using hfind
  · intro h
    refine (hs''.set key val).ext (hs'.insertAll pending) fun k => ?_
    rw [hs''.find_set, hs'.find_insertAll, hs.find_insertAll, hs.find_set]
    by_cases hk : strcasecmp k key = .eq
    · rw [if_pos hk, if_pos hk, OrdMap.find_congr hk, OrdMap.find_congr hk]
      cases hm : OrdMap.find strcasecmp key m with
      | some x => rfl
      | none =>
        cases hp : OrdMap.find strcasecmp key pending with
        | none => rfl
        | some x => simp [h hm x hp]
    · rw [if_neg hk, if_neg hk]

theorem erase_insertAll_iff (hs : OrdMap.Sorted strcasecmp m) (pending : Headers)
    (key : List UInt8) :
    OrdMap.erase strcasecmp key (OrdMap.insertAll strcasecmp pending m) =
      OrdMap.insertAll strcasecmp pending (OrdMap.erase strcasecmp key m) ↔
    DelSafe pending key := by
  have hs' := hs.erase key
  have hs'' := hs.insertAll pending
  have hkey : strcasecmp key key = .eq := Headers.strcasecmp_eq_iff.mpr rfl
  constructor
  · intro h
    have hfind := congrArg (OrdMap.find strcasecmp key) h
    rw [hs''.find_erase, hs'.find_insertAll, hs.find_erase, if_pos hkey, if_pos hkey] at hfind
    exact hfind.symm
  · intro h
    refine (hs''.erase key).ext (hs'.insertAll pending) fun k => ?_
    rw [hs''.find_erase, hs'.find_insertAll, hs.find_insertAll, hs.find_erase]
    by_cases hk : strcasecmp k key = .eq
    · have hnone : OrdMap.find strcasecmp k pending = none := (OrdMap.find_congr hk).trans h
      rw [if_pos hk, if_pos hk, hnone]
      rfl
    · rw [if_neg hk, if_neg hk]

namespace ParamRequest

/-! ## One call -/

theorem parsed_pending (r : ParamRequest) :
    r.parsed.pendingParams = [] ∧ r.parsed.pendingCookies = r.pendingCookies := by
  have hflag : ∀ f : UInt8, ((f ||| 0x3) &&& 0x1 != 0) = true ∧ ((f ||| 0x3) &&& 0x2 != 0) = true ∧
      (f ||| 0x3) &&& 0x4 = f &&& 0x4 := forall_byte (by decide +kernel)
  obtain ⟨h1, h2, h4⟩ := hflag r.parserParamFlag
  rw [parsed_eq]
  refine ⟨?_, ?_⟩
  · simp only [pendingParams, pendingQuery, pendingBody, if_pos h1, if_pos h2, List.append_nil]
  · simp only [pendingCookies, h4]

theorem initCookies_pending (r : ParamRequest) :
    r.initCookies.pendingParams = r.pendingParams ∧ r.initCookies.pendingCookies = [] := by
  have hflag : ∀ f : UInt8, (f ||| 0x4) &&& 0x1 = f &&& 0x1 ∧ (f ||| 0x4) &&& 0x2 = f &&& 0x2 ∧
      ((f ||| 0x4) &&& 0x4 != 0) = true := forall_byte (by decide +kernel)
  obtain ⟨h1, h2, h4⟩ := hflag r.parserParamFlag
  rw [initCookies_eq]
  refine ⟨?_, ?_⟩
  · simp only [pendingParams, pendingQuery, pendingBody, isForm, h1, h2]
    rfl
  · simp only [pendingCookies, if_pos h4]

theorem WF.call (H : r.WF) (op : ParamOp) : (r.call op).1.WF := by
  have hparsed : r.parsed.WF := by
    rw [parsed_eq]
    exact ⟨H.params.insertAll _, H.cookies⟩
  have hcookies : r.initCookies.WF := by
    rw [initCookies_eq]
    exact ⟨H.params, H.cookies.insertAll _⟩
  cases op with
  | getParam | hasParam | getParams => exact hparsed
  | getCookie | hasCookie | getCookies => exact hcookies
  | setParam key val => exact ⟨H.params.set key val, H.cookies⟩
  | delParam key => exact ⟨H.params.erase key, H.cookies⟩
  | setCookie key val => exact ⟨H.params, H.cookies.set key val⟩
  | delCookie key => exact ⟨H.params, H.cookies.erase key⟩

theorem ahead_initParam (r : ParamRequest) : Ahead r r.initParam where
  params := by rw [initParam, ← parsed, initCookies_eq, parsed_eq]
  cookies := by
    rw [initParam, ← parsed, initCookies_eq, (parsed_pending r).2, parsed_eq]
  noParams := by
    rw [initParam, ← parsed, (initCookies_pending _).1, (parsed_pending r).1]
  noCookies := by rw [initParam, ← parsed, (initCookies_pending _).2]

theorem Ahead.parsed (A : Ahead r e) :
    r.parsed.params = e.parsed.params ∧ Ahead r.parsed e.parsed := by
  obtain ⟨hr, hrc⟩ := parsed_pending r
  obtain ⟨he, hec⟩ := parsed_pending e
  have hparams : r.parsed.params = e.parsed.params := by
    simp only [parsed_eq, A.params, A.noParams]
    rfl
  refine ⟨hparams, ?_, ?_, he, hec.trans A.noCookies⟩
  · rw [hr, hparams]
    rfl
  · rw [hrc, parsed_eq, parsed_eq]
    exact A.cookies

theorem Ahead.initCookies (A : Ahead r e) :
    r.initCookies.cookies = e.initCookies.cookies ∧ Ahead r.initCookies e.initCookies := by
  obtain ⟨hrp, hr⟩ := initCookies_pending r
  obtain ⟨hep, he⟩ := initCookies_pending e
  have hcookies : r.initCookies.cookies = e.initCookies.cookies := by
    simp only [initCookies_eq, A.cookies, A.noCookies]
    rfl
  refine ⟨hcookies, ?_, ?_, hep.trans A.noParams, he⟩
  · rw [hrp, initCookies_eq, initCookies_eq]
    exact A.params
  · rw [hr, hcookies]
    rfl

/-- **A safe call** gives the same result, and the other request stays ahead. -/
theorem Ahead.call (A : Ahead r e) (H : r.WF) (hsafe : r.Safe op) :
    (r.call op).2 = (e.call op).2 ∧ Ahead (r.call op).1 (e.call op).1 := by
  obtain ⟨hparams, hparsed⟩ := A.parsed
  obtain ⟨hcookies, hcookied⟩ := A.initCookies
  cases op with
  | getParam key dflt =>
    refine ⟨?_, hparsed⟩
    simp only [ParamRequest.call, getParam, hparams, Prod.map_snd]
  | hasParam key =>
    refine ⟨?_, hparsed⟩
    simp only [ParamRequest.call, hasParam, hparams, Prod.map_snd]
  | getParams =>
    refine ⟨?_, hparsed⟩
    simp only [ParamRequest.call, getParams, hparams, Prod.map_snd]
  | getCookie key dflt =>
    refine ⟨?_, hcookied⟩
    simp only [ParamRequest.call, getCookie, hcookies, Prod.map_snd]
  | hasCookie key =>
    refine ⟨?_, hcookied⟩
    simp only [ParamRequest.call, hasCookie, hcookies, Prod.map_snd]
  | getCookies =>
    refine ⟨?_, hcookied⟩
    simp only [ParamRequest.call, getCookies, hcookies, Prod.map_snd]
  | setParam key val =>
    refine ⟨rfl, ?_, A.cookies, A.noParams, A.noCookies⟩
    exact (congrArg (OrdMap.set strcasecmp key val) A.params).trans
      ((set_insertAll_iff H.params r.pendingParams key val).mpr hsafe)
  | delParam key =>
    refine ⟨rfl, ?_, A.cookies, A.noParams, A.noCookies⟩
    exact (congrArg (OrdMap.erase strcasecmp key) A.params).trans
      ((erase_insertAll_iff H.params r.pendingParams key).mpr hsafe)
  | setCookie key val =>
    refine ⟨rfl, A.params, ?_, A.noParams, A.noCookies⟩
    exact (congrArg (OrdMap.set strcasecmp key val) A.cookies).trans
      ((set_insertAll_iff H.cookies r.pendingCookies key val).mpr hsafe)
  | delCookie key =>
    refine ⟨rfl, A.params, ?_, A.noParams, A.noCookies⟩
    exact (congrArg (OrdMap.erase strcasecmp key) A.cookies).trans
      ((erase_insertAll_iff H.cookies r.pendingCookies key).mpr hsafe)

/-- Both maps, parsed. -/
theorem results_maps (r : ParamRequest) : r.results [.getParams, .getCookies] =
    [.map (OrdMap.insertAll strcasecmp r.pendingParams r.params),
      .map (OrdMap.insertAll strcasecmp r.pendingCookies r.cookies)] := by
  simp only [results, ParamRequest.call, getParams, getCookies, Prod.map_snd, Prod.map_fst, id,
    initCookies_eq, (parsed_pending r).2]
  rw [parsed_eq]

/-- After a call that is not safe the maps differ. -/
theorem Ahead.not_safe (A : Ahead r e) (H : r.WF) (hsafe : ¬r.Safe op) :
    (r.call op).1.results [.getParams, .getCookies] ≠
      (e.call op).1.results [.getParams, .getCookies] := by
  rw [results_maps, results_maps]
  intro h
  simp only [List.cons.injEq, ParamResult.map.injEq, and_true] at h
  obtain ⟨hp, hc⟩ := h
  cases op with
  | setParam key val =>
    have h : OrdMap.insertAll strcasecmp r.pendingParams (OrdMap.set strcasecmp key val r.params) =
        OrdMap.insertAll strcasecmp e.pendingParams (OrdMap.set strcasecmp key val e.params) := hp
    rw [A.noParams, A.params] at h
    exact hsafe ((set_insertAll_iff H.params r.pendingParams key val).mp h.symm)
  | delParam key =>
    have h : OrdMap.insertAll strcasecmp r.pendingParams (OrdMap.erase strcasecmp key r.params) =
        OrdMap.insertAll strcasecmp e.pendingParams (OrdMap.erase strcasecmp key e.params) := hp
    rw [A.noParams, A.params] at h
    exact hsafe ((erase_insertAll_iff H.params r.pendingParams key).mp h.symm)
  | setCookie key val =>
    have h : OrdMap.insertAll strcasecmp r.pendingCookies
          (OrdMap.set strcasecmp key val r.cookies) =
        OrdMap.insertAll strcasecmp e.pendingCookies
          (OrdMap.set strcasecmp key val e.cookies) := hc
    rw [A.noCookies, A.cookies] at h
    exact hsafe ((set_insertAll_iff H.cookies r.pendingCookies key val).mp h.symm)
  | delCookie key =>
    have h : OrdMap.insertAll strcasecmp r.pendingCookies (OrdMap.erase strcasecmp key r.cookies) =
        OrdMap.insertAll strcasecmp e.pendingCookies
          (OrdMap.erase strcasecmp key e.cookies) := hc
    rw [A.noCookies, A.cookies] at h
    exact hsafe ((erase_insertAll_iff H.cookies r.pendingCookies key).mp h.symm)
  | _ => exact hsafe trivial

/-! ## Sequences of calls -/

theorem Ahead.results (A : Ahead r e) (H : r.WF) {ops : List ParamOp} (hsafe : r.SafeRun ops) :
    r.results ops = e.results ops := by
  induction ops generalizing r e with
  | nil => rfl
  | cons op ops ih =>
    obtain ⟨hresult, hahead⟩ := A.call H hsafe.1
    rw [ParamRequest.results, ParamRequest.results, hresult, ih hahead (H.call op) hsafe.2]

theorem Ahead.results_ne (A : Ahead r e) (H : r.WF) {ops : List ParamOp}
    (hsafe : ¬r.SafeRun ops) : ∃ ops', ops' <+: ops ∧
      r.results (ops' ++ [.getParams, .getCookies]) ≠
        e.results (ops' ++ [.getParams, .getCookies]) := by
  induction ops generalizing r e with
  | nil => exact absurd trivial hsafe
  | cons op ops ih =>
    by_cases hop : r.Safe op
    · obtain ⟨hresult, hahead⟩ := A.call H hop
      obtain ⟨ops', hpre, hne⟩ := ih hahead (H.call op) fun h => hsafe ⟨hop, h⟩
      refine ⟨op :: ops', (List.prefix_cons_inj op).mpr hpre, fun h => hne ?_⟩
      exact (List.cons.inj h).2
    · refine ⟨[op], List.prefix_append [op] ops, fun h => A.not_safe H hop ?_⟩
      exact (List.cons.inj h).2

/-- **Lazy parsing is not seen** in a sequence of safe calls; where a call is not safe, the maps are
others after it. -/
theorem lazy_results (H : r.WF) (ops : List ParamOp) :
    (r.SafeRun ops → r.results ops = r.initParam.results ops) ∧
    (¬r.SafeRun ops → ∃ ops', ops' <+: ops ∧
      r.results (ops' ++ [.getParams, .getCookies]) ≠
        r.initParam.results (ops' ++ [.getParams, .getCookies])) :=
  ⟨(ahead_initParam r).results H, (ahead_initParam r).results_ne H⟩

/-- A key that the query does not have is deleted and set. -/
theorem lazy_other_key :
    ParamRequest.results { query := bytes "a=1" }
        [.delParam (bytes "b"), .setParam (bytes "c") [], .getParams] =
      (ParamRequest.initParam { query := bytes "a=1" }).results
        [.delParam (bytes "b"), .setParam (bytes "c") [], .getParams] := by
  have hwf : WF { query := bytes "a=1" } := ⟨.nil, .nil⟩
  have hnone : ∀ key ∈ ["b", "c"], OrdMap.find strcasecmp (bytes key)
      (pendingParams { query := bytes "a=1" }) = none := by decide +kernel
  refine (lazy_results hwf _).1 ⟨hnone "b" (by simp), fun _ x hx => ?_, trivial, trivial⟩
  cases (hnone "c" (by simp)).symm.trans hx

/-- A deleted parameter is there again, and a key keeps the spelling that it was set with. -/
theorem deleted_param_returns :
    ParamRequest.results { query := bytes "a=1" }
        [.delParam (bytes "a"), .hasParam (bytes "a")] = [.done, .bool true] ∧
    (ParamRequest.initParam { query := bytes "a=1" }).results
        [.delParam (bytes "a"), .hasParam (bytes "a")] = [.done, .bool false] ∧
    ParamRequest.results { query := bytes "a=1" }
        [.setParam (bytes "A") (bytes "2"), .getParams] =
      [.done, .map [(bytes "A", bytes "2")]] ∧
    (ParamRequest.initParam { query := bytes "a=1" }).results
        [.setParam (bytes "A") (bytes "2"), .getParams] =
      [.done, .map [(bytes "a", bytes "2")]] := by
  decide +kernel

end ParamRequest

end Tigerkin.Http
