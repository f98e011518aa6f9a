import Tigerkin.Http.Params
import Tigerkin.Std.Lines

/-! # Parameters of a query

The loop of `PARSE_PARAM` in terms of the segments between the separators. It looks for the next `=`
before it looks for a separator, so a segment without `=` becomes a part of the next key
(`paramPairs_segments`); and it encodes the value once more where it should decode it
(`getParam_iff`). -/

namespace Tigerkin.Http

open CString

variable {flag : UInt8} {trim : List UInt8 → List UInt8} {key val bare str : List UInt8}

/-! ## One round -/

theorem paramPairs_of_notMem (h : 61 ∉ str) : paramPairs flag trim str = [] := by
  rw [paramPairs]
  split
  · rfl
  · rename_i heq
    rw [dropWhile_ne 61 h] at heq
    cases heq

theorem paramPairs_last (hkey : 61 ∉ key) (hval : flag ∉ val) :
    paramPairs flag trim (key ++ 61 :: val) = [(trim key, urlEncode val)] := by
  rw [paramPairs, takeWhile_ne_append 61 hkey]
  split
  · rename_i heq
    rw [dropWhile_ne_append 61 hkey] at heq
    cases heq
  · rename_i heq
    rw [dropWhile_ne_append 61 hkey] at heq
    cases heq
    rw [takeWhile_ne flag hval]
    split
    · rfl
    · rename_i heq
      rw [dropWhile_ne flag hval] at heq
      cases heq

theorem paramPairs_cons (hkey : 61 ∉ key) (hval : flag ∉ val) (rest : List UInt8) :
    paramPairs flag trim (key ++ 61 :: val ++ flag :: rest) =
      (trim key, urlEncode val) :: paramPairs flag trim rest := by
  rw [List.append_assoc, List.cons_append, paramPairs, takeWhile_ne_append 61 hkey]
  split
  · rename_i heq
    rw [dropWhile_ne_append 61 hkey] at heq
    cases heq
  · rename_i heq
    rw [dropWhile_ne_append 61 hkey] at heq
    cases heq
    rw [takeWhile_ne_append flag hval]
    split
    · rename_i heq
      rw [dropWhile_ne_append flag hval] at heq
      cases heq
    · rename_i heq
      rw [dropWhile_ne_append flag hval] at heq
      cases heq
      rfl

/-! ## Segments -/

/-- The texts between the separators. -/
def segments (q : List UInt8) : List (List UInt8) := q.splitOn 38

/-- The text before the first `=`. -/
def segmentKey (seg : List UInt8) : List UInt8 := seg.takeWhile (· != 61)

/-- The text after the first `=`. -/
def segmentValue (seg : List UInt8) : List UInt8 := (seg.dropWhile (· != 61)).tail

/-- The pairs of the segments that contain `=`. -/
def segmentPairs (segs : List (List UInt8)) : Headers :=
  (segs.filter fun seg => seg.contains 61).map fun seg => (segmentKey seg, urlEncode (segmentValue seg))

/-- The pairs that the loop makes of segments, when the text `bare` has not found its `=` yet. -/
def keyed (bare : List UInt8) : List (List UInt8) → Headers
  | [] => []
  | seg :: segs =>
    if seg.contains 61 then
      (bare ++ segmentKey seg, urlEncode (segmentValue seg)) :: keyed [] segs
    else keyed (bare ++ seg ++ [38]) segs

theorem segment_split {seg : List UInt8} (h : seg.contains 61 = true) :
    61 ∉ segmentKey seg ∧ seg = segmentKey seg ++ 61 :: segmentValue seg := by
  refine ⟨fun hmem => by simpa using List.mem_takeWhile_imp hmem, ?_⟩
  have hcat : segmentKey seg ++ seg.dropWhile (· != 61) = seg := List.takeWhile_append_dropWhile
  cases hd : seg.dropWhile (· != 61) with
  | nil =>
    rw [List.dropWhile_eq_nil_iff] at hd
    have h61 := hd 61 (List.contains_iff_mem.mp h)
    simp at h61
  | cons b val =>
    have hb : b = 61 := by
      have hne : seg.dropWhile (· != 61) ≠ [] := by simp [hd]
      have := List.dropWhile_get_zero_not (· != (61 : UInt8)) seg (List.length_pos_iff.mpr hne)
      simpa [hd] using this
    rw [segmentValue, hd, List.tail_cons]
    rw [hd, hb] at hcat
    exact hcat.symm

/-- **What the loop inserts.** -/
theorem paramPairs_segments {bare : List UInt8} {segs : List (List UInt8)} (hne : segs ≠ [])
    (hbare : 61 ∉ bare) (hsegs : ∀ seg ∈ segs, 38 ∉ seg) :
    paramPairs 38 id (bare ++ List.intercalate [38] segs) = keyed bare segs := by
  induction segs generalizing bare with
  | nil => exact absurd rfl hne
  | cons seg segs ih =>
    have hseg := hsegs seg List.mem_cons_self
    have hrest : ∀ s ∈ segs, 38 ∉ s := fun s hs => hsegs s (List.mem_cons_of_mem _ hs)
    rw [keyed]
    by_cases heq : seg.contains 61 = true
    · obtain ⟨hkey, hsplit⟩ := segment_split heq
      have hval : 38 ∉ segmentValue seg := fun h => hseg (by rw [hsplit]; simp [h])
      have hkey' : 61 ∉ bare ++ segmentKey seg := by simp [hbare, hkey]
      rw [if_pos heq]
      cases segs with
      | nil =>
        rw [List.intercalate_singleton]
        conv => lhs; rw [hsplit]
        rw [← List.append_assoc, paramPairs_last hkey' hval]
        rfl
      | cons seg' segs =>
        have hcat : bare ++ List.intercalate [38] (seg :: seg' :: segs) =
            bare ++ segmentKey seg ++ 61 :: segmentValue seg ++
              38 :: List.intercalate [38] (seg' :: segs) := by
          rw [List.intercalate_cons_cons]
          conv => lhs; rw [hsplit]
          simp
        have hih : paramPairs 38 id ([] ++ List.intercalate [38] (seg' :: segs)) = _ :=
          ih (by simp) (by simp) hrest
        rw [hcat, paramPairs_cons hkey' hval, ← hih]
        rfl
    · rw [if_neg heq]
      have h61 : 61 ∉ seg := fun h => heq (List.contains_iff_mem.mpr h)
      cases segs with
      | nil =>
        rw [List.intercalate_singleton, keyed]
        exact paramPairs_of_notMem (by simp [hbare, h61])
      | cons seg' segs =>
        rw [List.intercalate_cons_cons, ← ih (by simp) (by simp [hbare, h61]) hrest]
        congr 1
        simp

theorem notMem_segments {q seg : List UInt8} (h : seg ∈ segments q) : 38 ∉ seg := by
  unfold segments at h
  induction q generalizing seg with
  | nil =>
    rw [List.splitOn_nil, List.mem_singleton] at h
    simp [h]
  | cons b q ih =>
    rw [List.splitOn_cons_eq_if_modifyHead] at h
    split at h
    · rcases List.mem_cons.mp h with rfl | h
      · simp
      · exact ih h
    · rename_i hb
      cases hq : q.splitOn 38 with
      | nil => exact absurd hq (List.splitOn_ne_nil 38 q)
      | cons s segs =>
        rw [hq, List.modifyHead_cons] at h
        rw [hq] at ih
        rcases List.mem_cons.mp h with rfl | h
        · have hs := ih List.mem_cons_self
          simp only [beq_iff_eq] at hb
          simp only [List.mem_cons, not_or]
          exact ⟨fun h => hb h.symm, hs⟩
        · exact ih (List.mem_cons_of_mem s h)

theorem paramPairs_eq_keyed (q : List UInt8) : paramPairs 38 id q = keyed [] (segments q) := by
  have h : paramPairs 38 id ([] ++ List.intercalate [38] (segments q)) = _ :=
    paramPairs_segments (List.splitOn_ne_nil 38 q) (by simp) fun _ => notMem_segments
  rwa [List.nil_append, segments, List.intercalate_splitOn] at h

/-! ## Keys from single segments -/

/-- Every segment without `=` comes after those with `=`. -/
def BareLast (segs : List (List UInt8)) : Prop :=
  segs.Pairwise fun s t => t.contains 61 = true → s.contains 61 = true

instance (segs : List (List UInt8)) : Decidable (BareLast segs) :=
  inferInstanceAs (Decidable (List.Pairwise _ _))

theorem keyed_bareLast {segs : List (List UInt8)} (h : BareLast segs) (hall : bare = [] ∨
    ∀ seg ∈ segs, seg.contains 61 = false) : keyed bare segs = segmentPairs segs := by
  induction segs generalizing bare with
  | nil => rfl
  | cons seg segs ih =>
    obtain ⟨hseg, h⟩ := List.pairwise_cons.mp h
    rw [keyed]
    cases heq : seg.contains 61 with
    | true =>
      obtain rfl := hall.resolve_right fun hall => by
        rw [hall seg List.mem_cons_self] at heq
        cases heq
      rw [if_pos rfl, ih h (.inl rfl), List.nil_append]
      simp only [segmentPairs, List.filter_cons, heq, if_true, List.map_cons]
    | false =>
      have hnone : ∀ s ∈ segs, s.contains 61 = false := fun s hs => by
        refine Bool.eq_false_iff.mpr fun h61 => ?_
        rw [hseg s hs h61] at heq
        cases heq
      rw [if_neg Bool.false_ne_true, ih h (.inr hnone)]
      simp only [segmentPairs, List.filter_cons, heq, Bool.false_eq_true, if_false]

/-- A text that waits for its `=` becomes the beginning of a key. -/
theorem exists_keyed {segs : List (List UInt8)} (bare : List UInt8)
    (h : ∃ seg ∈ segs, seg.contains 61 = true) : ∃ x ∈ keyed bare segs, bare <+: x.1 := by
  induction segs generalizing bare with
  | nil =>
    obtain ⟨seg, hseg, -⟩ := h
    cases hseg
  | cons seg segs ih =>
    rw [keyed]
    cases heq : seg.contains 61 with
    | true =>
      rw [if_pos rfl]
      exact ⟨_, List.mem_cons_self, List.prefix_append ..⟩
    | false =>
      obtain ⟨s, hs, h61⟩ := h
      have hs' : s ∈ segs := by
        rcases List.mem_cons.mp hs with rfl | hs
        · rw [heq] at h61
          cases h61
        · exact hs
      obtain ⟨x, hx, hpre⟩ := ih (bare ++ seg ++ [38]) ⟨s, hs', h61⟩
      rw [if_neg Bool.false_ne_true]
      exact ⟨x, hx, (List.append_assoc .. ▸ List.prefix_append bare _).trans hpre⟩

theorem exists_keyed_of_not_bareLast {segs : List (List UInt8)} (h : ¬BareLast segs) :
    ∃ seg ∈ segs, seg.contains 61 = false ∧ ∃ x ∈ keyed [] segs, seg ++ [38] <+: x.1 := by
  induction segs with
  | nil => exact absurd .nil h
  | cons seg segs ih =>
    rw [keyed]
    cases heq : seg.contains 61 with
    | true =>
      have hrest : ¬BareLast segs := fun hrest =>
        h (List.pairwise_cons.mpr ⟨fun _ _ _ => heq, hrest⟩)
      obtain ⟨s, hs, hbare, x, hx, hpre⟩ := ih hrest
      rw [if_pos rfl]
      exact ⟨s, List.mem_cons_of_mem _ hs, hbare, x, List.mem_cons_of_mem _ hx, hpre⟩
    | false =>
      by_cases hlater : ∃ s ∈ segs, s.contains 61 = true
      · rw [if_neg Bool.false_ne_true]
        exact ⟨seg, List.mem_cons_self, heq, exists_keyed ([] ++ seg ++ [38]) hlater⟩
      · have hnone : ∀ s ∈ segs, ¬s.contains 61 = true := fun s hs h61 => hlater ⟨s, hs, h61⟩
        refine absurd (List.pairwise_cons.mpr ⟨fun s hs h61 => absurd h61 (hnone s hs), ?_⟩) h
        exact List.pairwise_of_forall_mem_list fun _ _ t ht h61 => absurd h61 (hnone t ht)

/-- The value that the map of the query has for a key. -/
def queryParam (q key : List UInt8) : Option (List UInt8) :=
  (OrdMap.find strcasecmp key (ParamRequest.initQueryParam { query := q }).params).map Prod.snd

/-- What the map has for a key comes from the first segment with `=` that has the key. -/
def KeysFromSegments (q : List UInt8) : Prop :=
  ∀ key, queryParam q key =
    ((segments q).find? fun seg =>
      seg.contains 61 && strcasecmp key (segmentKey seg) == .eq).map fun seg =>
        urlEncode (segmentValue seg)

theorem queryParam_eq (q key : List UInt8) :
    queryParam q key = (OrdMap.find strcasecmp key (keyed [] (segments q))).map Prod.snd := by
  have hs : OrdMap.Sorted strcasecmp ([] : Headers) := .nil
  have hinit : (ParamRequest.initQueryParam { query := q }).params = parseParam 38 id [] q := by
    simp [ParamRequest.initQueryParam]
  rw [queryParam, hinit, parseParam_eq, hs.find_insertAll, paramPairs_eq_keyed]
  rfl

theorem find_segmentPairs (key : List UInt8) (segs : List (List UInt8)) :
    (OrdMap.find strcasecmp key (segmentPairs segs)).map Prod.snd =
      (segs.find? fun seg => seg.contains 61 && strcasecmp key (segmentKey seg) == .eq).map
        fun seg => urlEncode (segmentValue seg) := by
  rw [OrdMap.find, segmentPairs, List.find?_map, List.find?_filter, Option.map_map]
  exact congrArg (Option.map fun seg => urlEncode (segmentValue seg))
    (List.find?_congr fun seg _ => Bool.eq_iff_iff.mpr (by simp))

/-- **Keys come from single segments** as long as the segments without `=` come last, and only then
if none of them contains a NUL, at which the comparison of keys stops. -/
theorem keysFromSegments_iff (q : List UInt8) :
    (BareLast (segments q) → KeysFromSegments q) ∧
    ((∀ seg ∈ segments q, seg.contains 61 = false → 0 ∉ seg) →
      KeysFromSegments q → BareLast (segments q)) := by
  constructor
  · intro h key
    rw [queryParam_eq, keyed_bareLast h (.inl rfl), find_segmentPairs]
  · intro hnul h
    by_contra hbare
    obtain ⟨seg, hseg, h61, x, hx, r, hr⟩ := exists_keyed_of_not_bareLast hbare
    have hkey := h x.1
    rw [queryParam_eq] at hkey
    -- the key of the pair has a separator before any NUL
    have hsep : (38 : UInt8) ∈ (ofMemory x.1).map toLower := by
      have h0 : ∀ b ∈ seg, (b != 0) = true := fun b hb => by
        simpa using fun hb0 : b = 0 => hnul seg hseg h61 (hb0 ▸ hb)
      refine List.mem_map.mpr ⟨38, ?_, rfl⟩
      rw [← hr, List.append_assoc, ofMemory, List.takeWhile_append_of_pos h0]
      simp
    have hnone : ((segments q).find? fun seg =>
        seg.contains 61 && strcasecmp x.1 (segmentKey seg) == .eq) = none := by
      refine List.find?_eq_none.mpr fun s hs hcmp => ?_
      rw [Bool.and_eq_true, beq_iff_eq, Headers.strcasecmp_eq_iff] at hcmp
      rw [hcmp.2] at hsep
      obtain ⟨b, hb, hlow⟩ := List.mem_map.mp hsep
      obtain rfl : b = 38 := by
        have hall : ∀ b : UInt8, toLower b = 38 → b = 38 := forall_byte (by decide +kernel)
        exact hall b hlow
      have hsub := (List.takeWhile_prefix (p := (· != (0 : UInt8))) (l := segmentKey s)).subset hb
      exact notMem_segments hs ((List.takeWhile_prefix (p := (· != (61 : UInt8)))).subset hsub)
    rw [hnone, Option.map_none, Option.map_eq_none_iff, OrdMap.find, List.find?_eq_none] at hkey
    refine hkey x hx ?_
    rw [beq_iff_eq, Headers.strcasecmp_eq_iff]

/-- The query `a&b=1` gives the key `a&b`. -/
theorem bare_segment_in_key : ¬KeysFromSegments (bytes "a&b=1") ∧
    queryParam (bytes "a&b=1") (bytes "a&b") = some (bytes "1") := by
  refine ⟨fun h => ?_, ?_⟩
  · have := h (bytes "b")
    rw [queryParam_eq] at this
    revert this
    decide
  · rw [queryParam_eq]
    decide

/-! ## Values -/

/-- `key=value` for each pair, with the value encoded. -/
def queryText (pairs : Headers) : List UInt8 :=
  List.intercalate [38] (pairs.map fun p => p.1 ++ 61 :: urlEncode p.2)

/-- Keys that can be told apart and do not disturb the segments. -/
structure GoodKeys (pairs : Headers) : Prop where
  distinct : (pairs.map fun p => p.1.map toLower).Nodup
  plain : ∀ p ∈ pairs, 61 ∉ p.1 ∧ 38 ∉ p.1 ∧ 0 ∉ p.1

/-- A request whose parameters have not been parsed. -/
structure Fresh (r : ParamRequest) : Prop where
  flag : r.parserParamFlag = 0
  params : r.params = []

theorem urlEncode_eq (s : List UInt8) : urlEncode s = StringUtils.urlEncode s true := by
  unfold urlEncode StringUtils.urlEncode
  congr 1
  funext b
  simp [StringUtils.encodeByte]

theorem notMem_urlEncode (s : List UInt8) : 38 ∉ urlEncode s := by
  have hall : ∀ b, (38 : UInt8) ∉ StringUtils.encodeByte true b := forall_byte (by decide +kernel)
  rw [urlEncode_eq, StringUtils.urlEncode, List.mem_flatMap]
  rintro ⟨b, -, hb⟩
  exact hall b hb

theorem length_urlEncode (s : List UInt8) : s.length ≤ (urlEncode s).length := by
  have hall : ∀ b, 1 ≤ (StringUtils.encodeByte true b).length := forall_byte (by decide +kernel)
  rw [urlEncode_eq, StringUtils.urlEncode]
  induction s with
  | nil => exact Nat.le_refl 0
  | cons b s ih =>
    have hb := hall b
    rw [List.flatMap_cons, List.length_append, List.length_cons]
    omega

/-- Text that is encoded twice comes back only if nothing is escaped. -/
theorem urlEncode_twice (s : List UInt8) :
    urlEncode (urlEncode s) = s ↔ ∀ b ∈ s, uriChars.has b = true := by
  have hlong : ∀ b, uriChars.has b = false →
      1 < (urlEncode (StringUtils.encodeByte true b)).length := forall_byte (by decide +kernel)
  have hcat : ∀ s t, urlEncode (s ++ t) = urlEncode s ++ urlEncode t := fun s t =>
    List.flatMap_append
  induction s with
  | nil => exact ⟨nofun, fun _ => rfl⟩
  | cons b s ih =>
    have hstep : urlEncode (b :: s) = StringUtils.encodeByte true b ++ urlEncode s := by
      rw [urlEncode_eq, StringUtils.urlEncode_cons, urlEncode_eq]
    rw [hstep, hcat, List.forall_mem_cons]
    cases hb : uriChars.has b with
    | true =>
      have hid : StringUtils.encodeByte true b = [b] := if_pos hb
      have hid' : urlEncode [b] = [b] := by simp [urlEncode, hb]
      rw [hid, hid', List.singleton_append, List.cons_inj_right]
      exact ih.trans (and_iff_right rfl).symm
    | false =>
      refine ⟨fun h => ?_, fun h => absurd h.1 Bool.false_ne_true⟩
      have hlen := congrArg List.length h
      have h1 := hlong b hb
      have h2 := length_urlEncode (urlEncode s)
      have h3 := length_urlEncode s
      rw [List.length_append, List.length_cons] at hlen
      omega

theorem segment_pair {key : List UInt8} (h : 61 ∉ key) (val : List UInt8) :
    (key ++ 61 :: val).contains 61 = true ∧ segmentKey (key ++ 61 :: val) = key ∧
      segmentValue (key ++ 61 :: val) = val := by
  refine ⟨by simp, takeWhile_ne_append 61 h val, ?_⟩
  rw [segmentValue, dropWhile_ne_append 61 h, List.tail_cons]

/-- The values are inserted with their encoding encoded. -/
theorem GoodKeys.paramPairs_eq {pairs : Headers} (H : GoodKeys pairs) :
    paramPairs 38 id (queryText pairs) =
      pairs.map fun p => (p.1, urlEncode (urlEncode p.2)) := by
  cases pairs with
  | nil => exact paramPairs_of_notMem (by simp [queryText])
  | cons p pairs =>
    have hsegs : ∀ seg ∈ (p :: pairs).map fun p => p.1 ++ 61 :: urlEncode p.2, 38 ∉ seg := by
      intro seg hseg
      obtain ⟨x, hx, rfl⟩ := List.mem_map.mp hseg
      have := (H.plain x hx).2.1
      have := notMem_urlEncode x.2
      simp_all
    have h : paramPairs 38 id ([] ++ queryText (p :: pairs)) = _ :=
      paramPairs_segments (by simp) (by simp) hsegs
    have hall : ∀ seg ∈ (p :: pairs).map fun p => p.1 ++ 61 :: urlEncode p.2,
        seg.contains 61 = true := by
      intro seg hseg
      obtain ⟨x, hx, rfl⟩ := List.mem_map.mp hseg
      exact (segment_pair (H.plain x hx).1 _).1
    have hbare : BareLast ((p :: pairs).map fun p => p.1 ++ 61 :: urlEncode p.2) :=
      List.pairwise_of_forall_mem_list fun s hs _ _ _ => hall s hs
    rw [List.nil_append, keyed_bareLast hbare (.inl rfl), segmentPairs,
      List.filter_eq_self.mpr hall, List.map_map] at h
    rw [h]
    refine List.map_congr_left fun x hx => ?_
    obtain ⟨-, hkey, hval⟩ := segment_pair (H.plain x hx).1 (urlEncode x.2)
    simp [hkey, hval]

/-- A lookup among the inserted pairs. -/
theorem GoodKeys.find {pairs : Headers} (H : GoodKeys pairs) {p : List UInt8 × List UInt8}
    (hp : p ∈ pairs) (f : List UInt8 → List UInt8) :
    OrdMap.find strcasecmp p.1 (pairs.map fun p => (p.1, f p.2)) = some (p.1, f p.2) := by
  have hmem : (p.1, f p.2) ∈ pairs.map fun p => (p.1, f p.2) := List.mem_map.mpr ⟨p, hp, rfl⟩
  refine OrdMap.find_of_mem (x := (p.1, f p.2)) (Headers.strcasecmp_eq_iff.mpr rfl) ?_ hmem
  rw [List.pairwise_map]
  have hkey : ∀ q ∈ pairs, ofMemory q.1 = q.1 := fun q hq => takeWhile_ne 0 (H.plain q hq).2.2
  refine (List.pairwise_map.mp H.distinct).imp_of_mem fun {x y} hx hy hne h => ?_
  rw [Headers.strcasecmp_eq_iff, hkey x hx, hkey y hy] at h
  exact hne h.symm

theorem getParam_found {r : ParamRequest} {key val dflt : List UInt8} (hr : r.params = [])
    (h : OrdMap.find strcasecmp key r.pendingParams = some (key, val)) :
    (r.getParam key dflt).2 = val := by
  have hs : OrdMap.Sorted strcasecmp ([] : Headers) := .nil
  simp only [ParamRequest.getParam, ParamRequest.parsed_eq, hr, hs.find_insertAll, h]
  rfl

theorem find_append (key : List UInt8) (l l' : Headers) :
    OrdMap.find strcasecmp key (l ++ l') =
      (OrdMap.find strcasecmp key l).or (OrdMap.find strcasecmp key l') :=
  List.find?_append

/-- **Values come back** only if encoding them changes nothing. -/
theorem getParam_iff {pairs : Headers} (H : GoodKeys pairs) {r : ParamRequest} (hr : Fresh r)
    (dflt : List UInt8) :
    ((∀ p ∈ pairs,
        (ParamRequest.getParam { r with query := queryText pairs } p.1 dflt).2 = p.2) ↔
      ∀ p ∈ pairs, ∀ b ∈ p.2, uriChars.has b = true) ∧
    (r.query = [] → r.isForm = true →
      ((∀ p ∈ pairs,
          (ParamRequest.getParam { r with body := queryText pairs } p.1 dflt).2 = p.2) ↔
        ∀ p ∈ pairs, ∀ b ∈ p.2, uriChars.has b = true)) := by
  have hvalue : ∀ p ∈ pairs, OrdMap.find strcasecmp p.1 (paramPairs 38 id (queryText pairs)) =
      some (p.1, urlEncode (urlEncode p.2)) := fun p hp => by
    rw [H.paramPairs_eq]
    exact H.find hp fun v => urlEncode (urlEncode v)
  constructor
  · refine forall₂_congr fun p hp => ?_
    have hget : (ParamRequest.getParam { r with query := queryText pairs } p.1 dflt).2 =
        urlEncode (urlEncode p.2) := by
      refine getParam_found hr.params ?_
      simp [ParamRequest.pendingParams, ParamRequest.pendingQuery, hr.flag, find_append,
        hvalue p hp]
    rw [hget, urlEncode_twice]
  · intro hq hform
    refine forall₂_congr fun p hp => ?_
    have hget : (ParamRequest.getParam { r with body := queryText pairs } p.1 dflt).2 =
        urlEncode (urlEncode p.2) := by
      have hform' : ParamRequest.isForm { r with body := queryText pairs } = true := hform
      have hquery : ParamRequest.pendingQuery { r with body := queryText pairs } = [] := by
        simp [ParamRequest.pendingQuery, hq, paramPairs_nil]
      have hbody : ParamRequest.pendingBody { r with body := queryText pairs } =
          paramPairs 38 id (queryText pairs) := by
        rw [ParamRequest.pendingBody, hform']
        simp [hr.flag]
      refine getParam_found hr.params ?_
      rw [ParamRequest.pendingParams, hquery, hbody]
      exact hvalue p hp
    rw [hget, urlEncode_twice]

def formRequest : ParamRequest where
  headers := [(bytes "Content-Type", bytes "application/x-www-form-urlencoded")]

theorem getParam_plain :
    (ParamRequest.getParam { formRequest with query := bytes "k=v-1" } (bytes "k") []).2 =
      bytes "v-1" ∧
    (ParamRequest.getParam { formRequest with body := bytes "k=v-1" } (bytes "k") []).2 =
      bytes "v-1" := by
  have hk : GoodKeys [(bytes "k", bytes "v-1")] := ⟨by decide, by decide⟩
  obtain ⟨h, h'⟩ := getParam_iff hk (r := formRequest) ⟨rfl, rfl⟩ []
  exact ⟨h.mpr (by decide +kernel) _ List.mem_cons_self,
    (h' rfl (by decide +kernel)).mpr (by decide +kernel) _ List.mem_cons_self⟩

/-- The value `a b` comes back as `a%2Bb`. -/
theorem value_encoded_twice :
    (ParamRequest.getParam { query := queryText [(bytes "k", bytes "a b")] } (bytes "k") []).2 =
      bytes "a%2Bb" ∧ bytes "a%2Bb" ≠ bytes "a b" := by
  refine ⟨getParam_found rfl ?_, by decide⟩
  have hk : GoodKeys [(bytes "k", bytes "a b")] := ⟨by decide, by decide⟩
  simp only [ParamRequest.pendingParams, ParamRequest.pendingQuery, ParamRequest.pendingBody]
  rw [hk.paramPairs_eq]
  decide

end Tigerkin.Http
