import Mathlib.Data.List.DropRight
import Tigerkin.Http.RequestDump

/-! # Trimming

`StringUtils::Trim`, `TrimLeft` and `TrimRight` of `util.cpp` take a substring between the first and
the last character that is no delimiter. `Trim` counts the last one in; `TrimRight` ends before it,
so it drops one character too many as soon as there is one (`trimRight_eq`). -/

namespace Tigerkin.StringUtils

variable {str delimit : List UInt8}

/-- `std::string::find_first_not_of`, with `none` for `npos`. -/
def findFirstNotOf (str delimit : List UInt8) : Option Nat :=
  str.findIdx? fun c => !delimit.contains c

/-- `std::string::find_last_not_of`: the same search from the other end. -/
def findLastNotOf (str delimit : List UInt8) : Option Nat :=
  (str.reverse.findIdx? fun c => !delimit.contains c).map (str.length - 1 - ·)

/-- `std::string::substr`, at a position inside the string; `count` is `npos` by default. -/
def substr (str : List UInt8) (pos : Nat) : Option Nat → List UInt8
  | none => str.drop pos
  | some count => (str.drop pos).take count

/-- `StringUtils::Trim` -/
def trim (str delimit : List UInt8) : List UInt8 :=
  match findFirstNotOf str delimit with
  | none => []
  | some first =>
    -- one search finds something if and only if the other does
    match findLastNotOf str delimit with
    | none => []
    | some last => substr str first (some (last - first + 1))

/-- `StringUtils::TrimLeft` -/
def trimLeft (str delimit : List UInt8) : List UInt8 :=
  match findFirstNotOf str delimit with
  | none => []
  | some first => substr str first none

/-- `StringUtils::TrimRight` -/
def trimRight (str delimit : List UInt8) : List UInt8 :=
  match findLastNotOf str delimit with
  | none => []
  | some last => substr str 0 (some last)

/-! ## The two searches -/

theorem findFirstNotOf_append {pre post : List UInt8} {c : UInt8} (hpre : ∀ b ∈ pre, b ∈ delimit)
    (hc : c ∉ delimit) : findFirstNotOf (pre ++ c :: post) delimit = some pre.length := by
  have hnone : pre.findIdx? (fun c => !delimit.contains c) = none := by
    simpa [List.findIdx?_eq_none_iff] using hpre
  rw [findFirstNotOf, List.findIdx?_append, hnone, List.findIdx?_cons]
  simp [hc]

theorem findLastNotOf_append {pre post : List UInt8} {c : UInt8} (hpost : ∀ b ∈ post, b ∈ delimit)
    (hc : c ∉ delimit) : findLastNotOf (pre ++ c :: post) delimit = some pre.length := by
  have hrev : (pre ++ c :: post).reverse = post.reverse ++ c :: pre.reverse := by simp
  have hfirst : findFirstNotOf (pre ++ c :: post).reverse delimit = some post.reverse.length := by
    rw [hrev]
    exact findFirstNotOf_append (fun b hb => hpost b (List.mem_reverse.mp hb)) hc
  rw [findFirstNotOf] at hfirst
  rw [findLastNotOf, hfirst]
  simp only [Option.map_some, List.length_append, List.length_cons, List.length_reverse,
    Option.some.injEq]
  omega

theorem findFirstNotOf_none (h : ∀ b ∈ str, b ∈ delimit) : findFirstNotOf str delimit = none := by
  simpa [findFirstNotOf, List.findIdx?_eq_none_iff] using h

theorem findLastNotOf_none (h : ∀ b ∈ str, b ∈ delimit) : findLastNotOf str delimit = none := by
  have hfirst : findFirstNotOf str.reverse delimit = none :=
    findFirstNotOf_none fun b hb => h b (List.mem_reverse.mp hb)
  rw [findFirstNotOf] at hfirst
  rw [findLastNotOf, hfirst]
  rfl

/-- A string is delimiters only, or splits at its first character that is none. -/
theorem all_or_first (str delimit : List UInt8) : (∀ b ∈ str, b ∈ delimit) ∨
    ∃ pre c post, str = pre ++ c :: post ∧ (∀ b ∈ pre, b ∈ delimit) ∧ c ∉ delimit := by
  induction str with
  | nil => exact .inl fun _ hb => nomatch hb
  | cons a str ih =>
    by_cases ha : a ∈ delimit
    · rcases ih with hall | ⟨pre, c, post, rfl, hpre, hc⟩
      · exact .inl (List.forall_mem_cons.mpr ⟨ha, hall⟩)
      · exact .inr ⟨a :: pre, c, post, rfl, List.forall_mem_cons.mpr ⟨ha, hpre⟩, hc⟩
    · refine .inr ⟨[], a, str, rfl, ?_, ha⟩
      exact fun _ hb => nomatch hb

/-- A string is delimiters only, or splits at its last character that is none. -/
theorem all_or_last (str delimit : List UInt8) : (∀ b ∈ str, b ∈ delimit) ∨
    ∃ pre c post, str = pre ++ c :: post ∧ (∀ b ∈ post, b ∈ delimit) ∧ c ∉ delimit := by
  rcases all_or_first str.reverse delimit with hall | ⟨pre, c, post, hstr, hpre, hc⟩
  · exact .inl fun b hb => hall b (List.mem_reverse.mpr hb)
  · refine .inr ⟨post.reverse, c, pre.reverse, ?_, fun b hb => hpre b (List.mem_reverse.mp hb), hc⟩
    rw [← List.reverse_reverse str, hstr]
    simp

/-! ## The three functions -/

theorem dropWhile_append_cons {pre post : List UInt8} {c : UInt8} (hpre : ∀ b ∈ pre, b ∈ delimit)
    (hc : c ∉ delimit) : (pre ++ c :: post).dropWhile delimit.contains = c :: post := by
  rw [List.dropWhile_append_of_pos fun b hb => List.contains_iff_mem.mpr (hpre b hb)]
  exact List.dropWhile_cons_of_neg (by simpa using hc)

theorem rdropWhile_append_cons (pre : List UInt8) {post : List UInt8} {c : UInt8}
    (hpost : ∀ b ∈ post, b ∈ delimit) (hc : c ∉ delimit) :
    (pre ++ c :: post).rdropWhile delimit.contains = pre ++ [c] := by
  have hrev : (pre ++ c :: post).reverse = post.reverse ++ c :: pre.reverse := by simp
  rw [List.rdropWhile, hrev,
    dropWhile_append_cons (fun b hb => hpost b (List.mem_reverse.mp hb)) hc]
  simp

theorem dropWhile_eq_nil (h : ∀ b ∈ str, b ∈ delimit) : str.dropWhile delimit.contains = [] := by
  simpa using h

theorem rdropWhile_eq_nil (h : ∀ b ∈ str, b ∈ delimit) :
    str.rdropWhile delimit.contains = [] := by
  simpa using h

/-- `TrimLeft` is right. -/
theorem trimLeft_eq (str delimit : List UInt8) :
    trimLeft str delimit = str.dropWhile delimit.contains := by
  rcases all_or_first str delimit with hall | ⟨pre, c, post, rfl, hpre, hc⟩
  · rw [trimLeft, findFirstNotOf_none hall, dropWhile_eq_nil hall]
  · rw [trimLeft, findFirstNotOf_append hpre hc, dropWhile_append_cons hpre hc]
    simp [substr]

/-- `TrimRight` also drops the last character that is to stay. -/
theorem trimRight_eq (str delimit : List UInt8) :
    trimRight str delimit = (str.rdropWhile delimit.contains).dropLast := by
  rcases all_or_last str delimit with hall | ⟨pre, c, post, rfl, hpost, hc⟩
  · rw [trimRight, findLastNotOf_none hall, rdropWhile_eq_nil hall]
    rfl
  · rw [trimRight, findLastNotOf_append hpost hc, rdropWhile_append_cons pre hpost hc]
    simp [substr]

/-- `Trim` is right: it drops the prefix and the suffix. -/
theorem trim_eq (str delimit : List UInt8) :
    trim str delimit = (str.dropWhile delimit.contains).rdropWhile delimit.contains := by
  rcases all_or_first str delimit with hall | ⟨pre, c, post, rfl, hpre, hc⟩
  · rw [trim, findFirstNotOf_none hall, dropWhile_eq_nil hall]
    rfl
  · rw [dropWhile_append_cons hpre hc, trim, findFirstNotOf_append hpre hc]
    rcases all_or_last post delimit with hall | ⟨mid, e, last, rfl, hlast, he⟩
    · rw [findLastNotOf_append hall hc]
      have hone := rdropWhile_append_cons [] hall hc
      rw [List.nil_append, List.nil_append] at hone
      rw [hone]
      simp [substr]
    · have hsplit : pre ++ c :: (mid ++ e :: last) = (pre ++ c :: mid) ++ e :: last := by simp
      have hlen : (pre ++ c :: mid).length - pre.length + 1 = (c :: mid ++ [e]).length := by
        simp only [List.length_append, List.length_cons, List.length_nil]
        omega
      have hdrop := rdropWhile_append_cons (c :: mid) hlast he
      rw [List.cons_append] at hdrop
      rw [hdrop, hsplit, findLastNotOf_append hlast he]
      dsimp only
      rw [hlen, substr, ← hsplit, List.drop_left]
      have happ : c :: (mid ++ e :: last) = (c :: mid ++ [e]) ++ last := by simp
      rw [happ]
      exact List.take_left

/-- `Trim` with its default delimiters, as the cookie parser calls it. -/
theorem trim_default (str : List UInt8) : trim str (Http.bytes " \t\r\n") = Http.trim str :=
  trim_eq str _

/-! ## Consistency -/

/-- The two one-sided functions drop the longest prefix and the longest suffix of delimiters, `Trim`
is the one after the other in both orders, and a second call changes nothing. -/
structure TrimsConsistently (str delimit : List UInt8) : Prop where
  left : trimLeft str delimit = str.dropWhile delimit.contains
  right : trimRight str delimit = str.rdropWhile delimit.contains
  left_right : trim str delimit = trimLeft (trimRight str delimit) delimit
  right_left : trim str delimit = trimRight (trimLeft str delimit) delimit
  left_left : trimLeft (trimLeft str delimit) delimit = trimLeft str delimit
  right_right : trimRight (trimRight str delimit) delimit = trimRight str delimit
  trim_trim : trim (trim str delimit) delimit = trim str delimit

theorem trimLeft_eq_nil (h : ∀ b ∈ str, b ∈ delimit) : trimLeft str delimit = [] := by
  rw [trimLeft_eq, dropWhile_eq_nil h]

theorem trimRight_eq_nil (h : ∀ b ∈ str, b ∈ delimit) : trimRight str delimit = [] := by
  rw [trimRight_eq, rdropWhile_eq_nil h]
  rfl

theorem trim_eq_nil (h : ∀ b ∈ str, b ∈ delimit) : trim str delimit = [] := by
  rw [trim_eq, dropWhile_eq_nil h]
  rfl

/-- `TrimRight` is right only where nothing is to stay. -/
theorem trimRight_eq_iff :
    trimRight str delimit = str.rdropWhile delimit.contains ↔ ∀ b ∈ str, b ∈ delimit := by
  rw [trimRight_eq]
  constructor
  · intro h b hb
    have hlen := congrArg List.length h
    rw [List.length_dropLast] at hlen
    have hnil : str.rdropWhile delimit.contains = [] := List.length_eq_zero_iff.mp (by omega)
    exact List.contains_iff_mem.mp (List.rdropWhile_eq_nil_iff.mp hnil b hb)
  · intro h
    rw [rdropWhile_eq_nil h]
    rfl

/-- **Trimming is consistent only for strings of delimiters.** -/
theorem trimsConsistently_iff (str delimit : List UInt8) :
    TrimsConsistently str delimit ↔ ∀ b ∈ str, b ∈ delimit := by
  refine ⟨fun h => trimRight_eq_iff.mp h.right, fun h => ?_⟩
  have hnil : ∀ b ∈ ([] : List UInt8), b ∈ delimit := fun _ hb => nomatch hb
  have hleft := trimLeft_eq_nil h
  have hright := trimRight_eq_nil h
  have htrim := trim_eq_nil h
  constructor
  · exact trimLeft_eq str delimit
  · exact trimRight_eq_iff.mpr h
  · rw [htrim, hright, trimLeft_eq_nil hnil]
  · rw [htrim, hleft, trimRight_eq_nil hnil]
  · rw [hleft, trimLeft_eq_nil hnil]
  · rw [hright, trimRight_eq_nil hnil]
  · rw [htrim, trim_eq_nil hnil]

/-- `TrimRight("ab ")` is `"a"`. -/
theorem trimsConsistently_ab : ¬TrimsConsistently (Http.bytes "ab ") (Http.bytes " ") := by
  intro h
  have hright := h.right
  revert hright
  decide

end Tigerkin.StringUtils
