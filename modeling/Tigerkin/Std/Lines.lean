import Mathlib.Data.List.TakeWhile

/-! # Lists that are cut at a delimiter -/

namespace Tigerkin

variable {α : Type}

/-- The first delimiter cuts a list in one way. -/
theorem append_cons_inj {a : α} {l m l' m' : List α} (hl : a ∉ l) (hm : a ∉ m)
    (h : l ++ a :: l' = m ++ a :: m') : l = m ∧ l' = m' := by
  induction l generalizing m with
  | nil =>
    cases m with
    | nil => exact ⟨rfl, (List.cons.inj h).2⟩
    | cons b m => exact absurd (List.cons.inj h).1 fun hb => hm (hb ▸ List.mem_cons_self)
  | cons b l ih =>
    cases m with
    | nil => exact absurd (List.cons.inj h).1 fun hb => hl (hb ▸ List.mem_cons_self)
    | cons c m =>
      obtain ⟨rfl, htail⟩ := List.cons.inj h
      obtain ⟨rfl, rfl⟩ := ih (fun h => hl (List.mem_cons_of_mem _ h))
        (fun h => hm (List.mem_cons_of_mem _ h)) htail
      exact ⟨rfl, rfl⟩

/-- The list is made of pieces that a delimiter ends. -/
def Ended (b : α) (l : List α) : Prop := l = [] ∨ ∃ m, l = m ++ [b]

theorem Ended.append {b : α} {l m : List α} (hl : Ended b l) (hm : Ended b m) : Ended b (l ++ m) := by
  rcases hm with rfl | ⟨m, rfl⟩
  · rwa [List.append_nil]
  · exact .inr ⟨l ++ m, (List.append_assoc ..).symm⟩

theorem Ended.flatMap {β : Type} {b : α} {f : β → List α} {l : List β}
    (h : ∀ x ∈ l, Ended b (f x)) : Ended b (l.flatMap f) := by
  induction l with
  | nil => exact .inl rfl
  | cons x l ih =>
    rw [List.flatMap_cons]
    exact (h x List.mem_cons_self).append (ih fun y hy => h y (List.mem_cons_of_mem x hy))

section

variable [BEq α] [LawfulBEq α] {str : List α}

theorem takeWhile_ne (b : α) (h : b ∉ str) : str.takeWhile (· != b) = str := by
  refine List.takeWhile_eq_self_iff.mpr fun x hx => ?_
  simpa using fun heq : x = b => h (heq ▸ hx)

theorem takeWhile_ne_append (b : α) (h : b ∉ str) (rest : List α) :
    (str ++ b :: rest).takeWhile (· != b) = str := by
  have hall : ∀ x ∈ str, (x != b) = true := fun x hx => by
    simpa using fun heq : x = b => h (heq ▸ hx)
  rw [List.takeWhile_append_of_pos hall, List.takeWhile_cons_of_neg (by simp), List.append_nil]

theorem dropWhile_ne (b : α) (h : b ∉ str) : str.dropWhile (· != b) = [] := by
  refine List.dropWhile_eq_nil_iff.mpr fun x hx => ?_
  simpa using fun heq : x = b => h (heq ▸ hx)

theorem dropWhile_ne_append (b : α) (h : b ∉ str) (rest : List α) :
    (str ++ b :: rest).dropWhile (· != b) = b :: rest := by
  have hall : ∀ x ∈ str, (x != b) = true := fun x hx => by
    simpa using fun heq : x = b => h (heq ▸ hx)
  rw [List.dropWhile_append_of_pos hall, List.dropWhile_cons_of_neg (by simp)]

def before (b : α) (l : List α) : List α := l.takeWhile (· != b)

def after (b : α) (l : List α) : List α := (l.dropWhile (· != b)).tail

theorem before_append {b : α} (h : b ∉ str) (rest : List α) :
    before b (str ++ b :: rest) = str :=
  takeWhile_ne_append b h rest

theorem after_append {b : α} (h : b ∉ str) (rest : List α) : after b (str ++ b :: rest) = rest := by
  rw [after, dropWhile_ne_append b h, List.tail_cons]

theorem before_of_notMem {b : α} (h : b ∉ str) : before b str = str :=
  takeWhile_ne b h

theorem after_of_notMem {b : α} (h : b ∉ str) : after b str = [] := by
  rw [after, dropWhile_ne b h, List.tail_nil]

/-- The pieces of a list that a delimiter ends. -/
def pieces (b : α) (l : List α) : List (List α) := (l.splitOn b).dropLast

theorem pieces_append {b : α} {l : List α} (hl : Ended b l) (m : List α) :
    pieces b (l ++ m) = pieces b l ++ pieces b m := by
  rcases hl with rfl | ⟨l, rfl⟩
  · rfl
  · have hsplit (m : List α) : (l ++ [b] ++ m).splitOn b = l.splitOn b ++ m.splitOn b := by
      rw [List.append_assoc]
      exact List.splitOn_append_cons_self l m
    have hnil := hsplit []
    rw [List.append_nil, List.splitOn_nil] at hnil
    rw [pieces, pieces, pieces, hsplit, hnil, List.dropLast_append_of_ne_nil (by simp),
      List.dropLast_concat]

/-- The piece before the first delimiter. -/
theorem pieces_cons {b : α} (h : b ∉ str) (rest : List α) :
    pieces b (str ++ b :: rest) = str :: pieces b rest := by
  have hpiece : pieces b (str ++ [b]) = [str] := by
    rw [pieces, List.splitOn_append_cons_self, List.splitOn_eq_singleton h, List.splitOn_nil]
    rfl
  have hcat : str ++ b :: rest = str ++ [b] ++ rest := by simp
  rw [hcat, pieces_append (.inr ⟨str, rfl⟩), hpiece]
  rfl

end

end Tigerkin
