import Mathlib.Data.List.TakeWhile
import Mathlib.Data.List.Nodup

/-! # Ordered sets as sorted lists

An ordered set with a Boolean strict order `lt`, kept as the list of its elements in iteration
order. The operations are the ones of a search tree that is navigated by `lt`: the lower bound of a
key is the first element that is not below it, and finding, inserting and erasing all start there.
On a list that is strictly sorted by a strict total order they are the operations of a finite set
(`mem_insert`, `find_eq`, `mem_erase`) and keep it sorted. -/

namespace Tigerkin.OrdSet

variable {α : Type}

/-- `lt` is a strict total order. -/
structure StrictTotal (lt : α → α → Bool) : Prop where
  irrefl : ∀ a, lt a a = false
  trans : ∀ {a b c}, lt a b = true → lt b c = true → lt a c = true
  total : ∀ {a b}, a ≠ b → lt a b = true ∨ lt b a = true

/-- The elements in iteration order are strictly increasing. -/
def Sorted (lt : α → α → Bool) (l : List α) : Prop := l.Pairwise fun a b => lt a b = true

/-- The elements below the key `k`. -/
def below (lt : α → α → Bool) (k : α) (l : List α) : List α := l.takeWhile (lt · k)

/-- The range from the lower bound of `k` to the end. -/
def lowerBound (lt : α → α → Bool) (k : α) (l : List α) : List α := l.dropWhile (lt · k)

/-- The element equivalent to `k`, if there is one. -/
def find (lt : α → α → Bool) (k : α) (l : List α) : Option α :=
  match lowerBound lt k l with
  | [] => none
  | x :: _ => if lt k x then none else some x

/-- Insert `k` unless an equivalent element is present. -/
def insert (lt : α → α → Bool) (k : α) (l : List α) : List α :=
  if (find lt k l).isSome then l else below lt k l ++ k :: lowerBound lt k l

/-- Remove the element at the lower bound of `k`. -/
def erase (lt : α → α → Bool) (k : α) (l : List α) : List α :=
  below lt k l ++ (lowerBound lt k l).tail

variable {lt lt' : α → α → Bool} {l : List α} {k x : α}

theorem below_append_lowerBound (lt : α → α → Bool) (k : α) (l : List α) :
    below lt k l ++ lowerBound lt k l = l :=
  List.takeWhile_append_dropWhile

theorem lt_of_mem_below (h : x ∈ below lt k l) : lt x k = true :=
  List.mem_takeWhile_imp (p := (lt · k)) h

theorem Sorted.nodup (H : StrictTotal lt) (hs : Sorted lt l) : l.Nodup :=
  hs.imp fun {a b} hab e => by
    subst e
    rw [H.irrefl] at hab
    cases hab

/-- Past the first element that fails a downward closed test, every element fails it. -/
theorem Sorted.not_of_mem_dropWhile {q : α → Bool} (hs : Sorted lt l)
    (hq : ∀ a ∈ l, ∀ b ∈ l, lt a b = true → q b = true → q a = true)
    (h : x ∈ l.dropWhile q) : q x = false := by
  induction l with
  | nil => cases h
  | cons y l ih =>
    have hs' := List.pairwise_cons.mp hs
    rw [List.dropWhile_cons] at h
    split at h
    · exact ih hs'.2 (fun a ha b hb => hq a (.tail _ ha) b (.tail _ hb)) h
    · rename_i hy
      rcases List.mem_cons.mp h with rfl | hx
      · exact Bool.eq_false_iff.mpr hy
      · exact Bool.eq_false_iff.mpr fun hqx => hy (hq y (.head _) x (.tail _ hx) (hs'.1 x hx) hqx)

/-- Elements at or above the lower bound are not below the key. -/
theorem Sorted.not_lt_of_mem_lowerBound (H : StrictTotal lt) (hs : Sorted lt l)
    (h : x ∈ lowerBound lt k l) : lt x k = false :=
  hs.not_of_mem_dropWhile (q := (lt · k)) (fun _ _ _ _ hab hb => H.trans hab hb) h

/-- In a sorted set the search finds exactly the key itself. -/
theorem Sorted.find_eq [DecidableEq α] (H : StrictTotal lt) (hs : Sorted lt l) :
    find lt k l = if k ∈ l then some k else none := by
  have hge := fun {x} => Sorted.not_lt_of_mem_lowerBound (x := x) (k := k) H hs
  have hmem : k ∈ l ↔ k ∈ lowerBound lt k l := by
    constructor
    · intro h
      rw [← below_append_lowerBound lt k l, List.mem_append] at h
      rcases h with h | h
      · have := lt_of_mem_below h
        rw [H.irrefl] at this
        cases this
      · exact h
    · exact fun h => (List.dropWhile_sublist _).subset h
  have hsub : Sorted lt (lowerBound lt k l) := List.Pairwise.sublist (List.dropWhile_sublist _) hs
  unfold find
  cases hl : lowerBound lt k l with
  | nil => rw [if_neg (by rw [hmem, hl]; simp)]
  | cons x r =>
    rw [hl] at hmem hge hsub
    simp only
    by_cases hxk : x = k
    · subst hxk
      rw [H.irrefl, if_pos (hmem.mpr List.mem_cons_self)]
      rfl
    · have hkx : lt k x = true := by
        rcases H.total hxk with h | h
        · rw [hge List.mem_cons_self] at h
          cases h
        · exact h
      have hk : k ∉ l := by
        rw [hmem]
        intro h
        rcases List.mem_cons.mp h with h | h
        · exact hxk h.symm
        · have := H.trans ((List.pairwise_cons.mp hsub).1 _ h) hkx
          rw [H.irrefl] at this
          cases this
      rw [hkx, if_neg hk]
      rfl

theorem Sorted.insert_of_notMem [DecidableEq α] (H : StrictTotal lt) (hs : Sorted lt l)
    (h : k ∉ l) : insert lt k l = below lt k l ++ k :: lowerBound lt k l := by
  rw [insert, hs.find_eq H, if_neg h]
  rfl

theorem Sorted.mem_insert [DecidableEq α] (H : StrictTotal lt) (hs : Sorted lt l) :
    x ∈ insert lt k l ↔ x = k ∨ x ∈ l := by
  by_cases h : k ∈ l
  · rw [insert, hs.find_eq H, if_pos h]
    exact ⟨.inr, fun hx => hx.elim (fun e => e ▸ h) id⟩
  · rw [hs.insert_of_notMem H h]
    conv => rhs; rw [← below_append_lowerBound lt k l]
    simp only [List.mem_append, List.mem_cons]
    exact ⟨fun hx => by rcases hx with h | h | h <;> simp [h],
      fun hx => by rcases hx with h | h | h <;> simp [h]⟩

theorem Sorted.insert [DecidableEq α] (H : StrictTotal lt) (hs : Sorted lt l) :
    Sorted lt (insert lt k l) := by
  by_cases h : k ∈ l
  · rw [OrdSet.insert, hs.find_eq H, if_pos h]
    exact hs
  · rw [hs.insert_of_notMem H h]
    have hsplit := hs
    rw [← below_append_lowerBound lt k l] at hsplit
    obtain ⟨h1, h2, h3⟩ := List.pairwise_append.mp hsplit
    have hk : ∀ y ∈ lowerBound lt k l, lt k y = true := by
      intro y hy
      rcases H.total (a := k) (b := y) (fun e => h (e ▸ (List.dropWhile_sublist _).subset hy))
        with h' | h'
      · exact h'
      · rw [hs.not_lt_of_mem_lowerBound H hy] at h'
        cases h'
    refine List.pairwise_append.mpr ⟨h1, List.pairwise_cons.mpr ⟨hk, h2⟩, ?_⟩
    intro a ha b hb
    rcases List.mem_cons.mp hb with rfl | hb
    · exact lt_of_mem_below ha
    · exact h3 a ha b hb

theorem erase_sublist : (erase lt k l).Sublist l := by
  conv => rhs; rw [← below_append_lowerBound lt k l]
  exact List.Sublist.append (List.Sublist.refl _) (List.tail_sublist _)

theorem Sorted.erase (hs : Sorted lt l) : Sorted lt (erase lt k l) :=
  List.Pairwise.sublist erase_sublist hs

/-- Erasing a present key removes it and nothing else. -/
theorem Sorted.mem_erase [DecidableEq α] (H : StrictTotal lt) (hs : Sorted lt l) (hk : k ∈ l) :
    x ∈ OrdSet.erase lt k l ↔ x ∈ l ∧ x ≠ k := by
  have hfind := hs.find_eq H (k := k)
  rw [if_pos hk, find] at hfind
  cases hl : lowerBound lt k l with
  | nil => rw [hl] at hfind; cases hfind
  | cons y r =>
    rw [hl] at hfind
    simp only at hfind
    split at hfind
    · cases hfind
    cases hfind
    have hnd : (below lt k l ++ k :: r).Nodup := by
      rw [← hl, below_append_lowerBound]
      exact hs.nodup H
    have hl' : l = below lt k l ++ k :: r := by rw [← hl, below_append_lowerBound]
    have hkn := List.nodup_middle.mp hnd
    rw [List.nodup_cons, List.mem_append] at hkn
    rw [OrdSet.erase, hl, List.tail_cons]
    conv => rhs; rw [hl']
    simp only [List.mem_append, List.mem_cons]
    constructor
    · rintro (h | h)
      · exact ⟨.inl h, fun e => hkn.1 (.inl (e ▸ h))⟩
      · exact ⟨.inr (.inr h), fun e => hkn.1 (.inr (e ▸ h))⟩
    · rintro ⟨h | h | h, hne⟩
      · exact .inl h
      · exact absurd h hne
      · exact .inr h

/-- Sortedness only depends on the order between the elements. -/
theorem Sorted.congr (hs : Sorted lt l) (h : ∀ a ∈ l, ∀ b ∈ l, lt' a b = lt a b) :
    Sorted lt' l :=
  List.Pairwise.imp_of_mem (fun {a b} ha hb hab => (h a ha b hb).trans hab) hs

end Tigerkin.OrdSet
