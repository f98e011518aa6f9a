import Tigerkin.Std.Lines

/-! # The components of a URI reference

RFC 3986: `[scheme ":"] ["//" authority] path ["?" query] ["#" fragment]`, over bytes. -/

namespace Tigerkin.Uri

def fragment (uri : List UInt8) : List UInt8 := after 35 uri

def query (uri : List UInt8) : List UInt8 := after 63 (before 35 uri)

/-- What follows the first colon or slash, with it. -/
def fromDelimiter (s : List UInt8) : List UInt8 := s.dropWhile fun b => b != 58 && b != 47

/-- A scheme is what a colon follows before any slash. -/
def dropScheme (s : List UInt8) : List UInt8 :=
  if (fromDelimiter s).head? = some 58 ∧ s.head? ≠ some 58 then (fromDelimiter s).tail else s

/-- The authority and the path. -/
def hierPart (uri : List UInt8) : List UInt8 := dropScheme (before 63 (before 35 uri))

def authority (uri : List UInt8) : Option (List UInt8) :=
  match hierPart uri with
  | 47 :: 47 :: s => some (before 47 s)
  | _ => none

def path (uri : List UInt8) : List UInt8 :=
  match hierPart uri with
  | 47 :: 47 :: s => s.dropWhile (· != 47)
  | s => s

theorem path_eq_hierPart_iff (uri : List UInt8) :
    path uri = hierPart uri ↔ authority uri = none := by
  unfold path authority
  split
  · rename_i s hs
    have hle := (List.dropWhile_suffix (fun b : UInt8 => b != 47) (l := s)).length_le
    rw [hs]
    refine iff_of_false (fun h => ?_) (by simp)
    rw [h, List.length_cons, List.length_cons] at hle
    omega
  · simp

/-! ## The components as bytes are added -/

variable {d s : List UInt8}

theorem fromDelimiter_append_of_notMem (h58 : 58 ∉ d) (h47 : 47 ∉ d) (s : List UInt8) :
    fromDelimiter (d ++ s) = fromDelimiter s := by
  refine List.dropWhile_append_of_pos fun b hb => ?_
  rw [Bool.and_eq_true, bne_iff_ne, bne_iff_ne]
  exact ⟨fun h => h58 (h ▸ hb), fun h => h47 (h ▸ hb)⟩

/-- Without a colon there is no scheme. -/
theorem dropScheme_of_notMem (h58 : 58 ∉ d) : dropScheme d = d := by
  refine if_neg fun h => h58 ?_
  exact (List.dropWhile_suffix _).subset (List.mem_of_mem_head? h.1)

theorem dropScheme_colon (h58 : 58 ∉ d) (h47 : 47 ∉ d) (hd : d ≠ []) :
    dropScheme (d ++ [58]) = [] := by
  obtain ⟨b, l, rfl⟩ := List.exists_cons_of_ne_nil hd
  have hb : b ≠ 58 := fun h => h58 (h ▸ List.mem_cons_self)
  rw [dropScheme, fromDelimiter_append_of_notMem h58 h47]
  exact if_pos ⟨rfl, by simpa using hb⟩

theorem dropScheme_suffix (s : List UInt8) : dropScheme s <:+ s := by
  unfold dropScheme
  split
  · exact (List.tail_suffix _).trans (List.dropWhile_suffix _)
  · exact List.suffix_rfl

/-- After a colon or a slash it is decided whether there is a scheme. -/
theorem dropScheme_append (h : 58 ∈ d ∨ 47 ∈ d) (s : List UInt8) :
    dropScheme (d ++ s) = dropScheme d ++ s := by
  have hne : fromDelimiter d ≠ [] := by
    rw [fromDelimiter, Ne, List.dropWhile_eq_nil_iff]
    rintro hall
    rcases h with h | h <;> exact absurd (hall _ h) (by decide)
  have hd : d ≠ [] := by
    rintro rfl
    exact hne rfl
  have hdrop : fromDelimiter (d ++ s) = fromDelimiter d ++ s := by
    rw [fromDelimiter, List.dropWhile_append]
    exact if_neg (mt List.isEmpty_iff.mp hne)
  have hhead {l : List UInt8} (hl : l ≠ []) : (l ++ s).head? = l.head? := by
    obtain ⟨b, l, rfl⟩ := List.exists_cons_of_ne_nil hl
    rfl
  rw [dropScheme, dropScheme, hdrop, hhead hne, hhead hd, List.tail_append_of_ne_nil hne]
  split <;> rfl

end Tigerkin.Uri
