import Tigerkin.Http.RequestDump

/-! # The percent codec of `util.cpp`

`StringUtils::UrlEncode` writes a reserved byte as `%XY` and `StringUtils::UrlDecode` takes `%XY` for
a byte only if `Y` is a decimal digit. An escape whose second digit is a letter is left as it is
(`urlDecode_urlEncode_iff`). -/

namespace Tigerkin.StringUtils

open CString Http

def isdigit (b : UInt8) : Bool := 48 ≤ b && b ≤ 57

def isxdigit (b : UInt8) : Bool := isdigit b || 65 ≤ b && b ≤ 70 || 97 ≤ b && b ≤ 102

/-- The table `xdigitChars`. -/
def xdigitChars (b : UInt8) : UInt8 :=
  if isdigit b then b - 48
  else if 65 ≤ b && b ≤ 70 then b - 55
  else if 97 ≤ b && b ≤ 102 then b - 87
  else 0

/-- What `UrlEncode` appends for a byte. -/
def encodeByte (spaceAsPlus : Bool) (b : UInt8) : List UInt8 :=
  if uriChars.has b then [b]
  else if b == 32 && spaceAsPlus then bytes "+"
  else bytes "%" ++ [hexdigits (b >>> 4), hexdigits (b &&& 0xf)]

/-- `StringUtils::UrlEncode` -/
def urlEncode (str : List UInt8) (spaceAsPlus : Bool) : List UInt8 :=
  str.flatMap (encodeByte spaceAsPlus)

/-- `StringUtils::UrlDecode` -/
def urlDecode (str : List UInt8) (spaceAsPlus : Bool) : List UInt8 :=
  match str with
  | [] => []
  | 43 :: s => (if spaceAsPlus then 32 else 43) :: urlDecode s spaceAsPlus
  | 37 :: c :: d :: s =>
    if isxdigit c && isdigit d then
      (xdigitChars c <<< 4 ||| xdigitChars d) :: urlDecode s spaceAsPlus
    else 37 :: urlDecode (c :: d :: s) spaceAsPlus
  | b :: s => b :: urlDecode s spaceAsPlus

/-- The byte goes through unescaped, or the second digit of its escape is a decimal one. -/
def Decodable (b : UInt8) : Prop := uriChars.has b = true ∨ b &&& 0xf ≤ 9

instance (b : UInt8) : Decidable (Decodable b) := inferInstanceAs (Decidable (_ ∨ _))

variable {spaceAsPlus : Bool} {b : UInt8} {s : List UInt8}

theorem urlEncode_cons (b : UInt8) (s : List UInt8) (spaceAsPlus : Bool) :
    urlEncode (b :: s) spaceAsPlus = encodeByte spaceAsPlus b ++ urlEncode s spaceAsPlus :=
  List.flatMap_cons

theorem urlDecode_plain (hplus : b ≠ 43) (hpct : b ≠ 37) (s : List UInt8) :
    urlDecode (b :: s) spaceAsPlus = b :: urlDecode s spaceAsPlus := by
  rw [urlDecode.eq_def]
  split
  · rename_i h
    cases h
  · rename_i h
    cases h
    exact absurd rfl hplus
  · rename_i h
    cases h
    exact absurd rfl hpct
  · rename_i h
    cases h
    rfl

theorem urlDecode_escape (c d : UInt8) (s : List UInt8) :
    urlDecode (37 :: c :: d :: s) spaceAsPlus =
      if isxdigit c && isdigit d then
        (xdigitChars c <<< 4 ||| xdigitChars d) :: urlDecode s spaceAsPlus
      else 37 :: urlDecode (c :: d :: s) spaceAsPlus := by
  rw [urlDecode]

theorem has_uriChars : ∀ b, uriChars.has b = true → b ≠ 43 ∧ b ≠ 37 :=
  forall_byte (by decide +kernel)

theorem escape_digits : ∀ b : UInt8, isxdigit (hexdigits (b >>> 4)) = true ∧
    (isdigit (hexdigits (b &&& 0xf)) = true ↔ b &&& 0xf ≤ 9) ∧
    (b &&& 0xf ≤ 9 →
      xdigitChars (hexdigits (b >>> 4)) <<< 4 ||| xdigitChars (hexdigits (b &&& 0xf)) = b) :=
  forall_byte (by decide +kernel)

/-- A byte that is escaped. -/
theorem encodeByte_escape (h : uriChars.has b = false) (hsp : (b == 32 && spaceAsPlus) = false) :
    encodeByte spaceAsPlus b = [37, hexdigits (b >>> 4), hexdigits (b &&& 0xf)] := by
  rw [encodeByte, h, hsp]
  rfl

theorem urlDecode_encodeByte (h : Decodable b) (s : List UInt8) :
    urlDecode (encodeByte spaceAsPlus b ++ s) spaceAsPlus = b :: urlDecode s spaceAsPlus := by
  cases hu : uriChars.has b with
  | true =>
    obtain ⟨hplus, hpct⟩ := has_uriChars b hu
    rw [encodeByte, if_pos hu]
    exact urlDecode_plain hplus hpct s
  | false =>
    cases hsp : b == 32 && spaceAsPlus with
    | true =>
      obtain ⟨hb, rfl⟩ := Bool.and_eq_true_iff.mp hsp
      obtain rfl := eq_of_beq hb
      rfl
    | false =>
      obtain ⟨hx, hd, hval⟩ := escape_digits b
      have hle : b &&& 0xf ≤ 9 := h.resolve_left (by simp [hu])
      rw [encodeByte_escape hu hsp, List.cons_append, List.cons_append, List.cons_append,
        List.nil_append, urlDecode_escape, hx, hd.mpr hle, Bool.and_self, if_pos rfl, hval hle]

/-- The escape of another byte stays, and so does not begin with the byte. -/
theorem urlDecode_encodeByte_ne (h : ¬Decodable b) (s : List UInt8) (spaceAsPlus : Bool) :
    b ≠ 37 ∧ ∃ t, urlDecode (encodeByte spaceAsPlus b ++ s) spaceAsPlus = 37 :: t := by
  have hu : uriChars.has b = false := by
    rw [Bool.eq_false_iff]
    exact fun hu => h (.inl hu)
  have hd := mt (escape_digits b).2.1.mp fun hle => h (.inr hle)
  have hsp : (b == 32 && spaceAsPlus) = false := by
    cases hb : b == 32 with
    | true =>
      obtain rfl := eq_of_beq hb
      exact absurd (.inr (by decide)) h
    | false => rfl
  refine ⟨?_, urlDecode (hexdigits (b >>> 4) :: hexdigits (b &&& 0xf) :: s) spaceAsPlus, ?_⟩
  · rintro rfl
    exact h (.inr (by decide))
  · rw [encodeByte_escape hu hsp, List.cons_append, List.cons_append, List.cons_append,
      List.nil_append, urlDecode_escape, if_neg (by simp [hd])]

/-- **Decoding undoes encoding** exactly where no escape has a letter for its second digit. -/
theorem urlDecode_urlEncode_iff (s : List UInt8) (spaceAsPlus : Bool) :
    urlDecode (urlEncode s spaceAsPlus) spaceAsPlus = s ↔ ∀ b ∈ s, Decodable b := by
  induction s with
  | nil => exact ⟨nofun, fun _ => rfl⟩
  | cons b s ih =>
    rw [urlEncode_cons, List.forall_mem_cons]
    by_cases h : Decodable b
    · rw [urlDecode_encodeByte h, List.cons_inj_right, ih, and_iff_right h]
    · obtain ⟨hne, t, ht⟩ := urlDecode_encodeByte_ne h (urlEncode s spaceAsPlus) spaceAsPlus
      refine ⟨fun heq => ?_, fun hall => absurd hall.1 h⟩
      rw [ht] at heq
      exact absurd (List.cons.inj heq).1.symm hne

/-- The escape `%2F` of a slash is not decoded. -/
theorem slash_not_decoded : urlDecode (urlEncode (bytes "a/b") true) true = bytes "a%2Fb" ∧
    bytes "a%2Fb" ≠ bytes "a/b" := by
  decide

end Tigerkin.StringUtils
