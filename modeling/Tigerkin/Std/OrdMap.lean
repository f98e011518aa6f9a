import Mathlib.Data.List.Sort

/-! # Ordered maps as ascending association lists

A map with a comparator on its keys, in the way of `std::map`: keys that compare equal are one key,
and an entry keeps the key that it was made with. A map is determined by its lookups
(`Sorted.ext`). -/

namespace Tigerkin.OrdMap

variable {κ ν : Type} (cmp : κ → κ → Ordering)

def Sorted (m : List (κ × ν)) : Prop := m.Pairwise fun x y => cmp x.1 y.1 = .lt

/-- The entry of a key. -/
def find (key : κ) (m : List (κ × ν)) : Option (κ × ν) := m.find? fun x => cmp key x.1 == .eq

/-- A new entry, unless the key has one. -/
def insert (key : κ) (val : ν) : List (κ × ν) → List (κ × ν)
  | [] => [(key, val)]
  | (k, v) :: m =>
    match cmp key k with
    | .lt => (key, val) :: (k, v) :: m
    | .eq => (k, v) :: m
    | .gt => (k, v) :: insert key val m

/-- A new value, in a new entry or in the one of the key. -/
def set (key : κ) (val : ν) : List (κ × ν) → List (κ × ν)
  | [] => [(key, val)]
  | (k, v) :: m =>
    match cmp key k with
    | .lt => (key, val) :: (k, v) :: m
    | .eq => (k, val) :: m
    | .gt => (k, v) :: set key val m

def erase (key : κ) (m : List (κ × ν)) : List (κ × ν) := m.eraseP fun x => cmp key x.1 == .eq

/-- New entries, each unless its key has one. -/
def insertAll (l m : List (κ × ν)) : List (κ × ν) := l.foldl (fun m x => insert cmp x.1 x.2 m) m

variable {cmp} {m m' : List (κ × ν)} {x : κ × ν} {k key : κ} {v : ν}

@[simp] theorem find_nil : find cmp key ([] : List (κ × ν)) = none := rfl

theorem find_cons_eq (h : cmp key x.1 = .eq) : find cmp key (x :: m) = some x := by
  simp [find, h]

theorem find_cons_ne (h : cmp key x.1 ≠ .eq) : find cmp key (x :: m) = find cmp key m := by
  simp [find, h]

theorem find_eq_some (h : find cmp key m = some x) : x ∈ m ∧ cmp key x.1 = .eq :=
  ⟨List.mem_of_find?_eq_some h, by simpa using List.find?_some h⟩

theorem find_eq_none (h : ∀ x ∈ m, cmp key x.1 ≠ .eq) : find cmp key m = none := by
  simpa [find, List.find?_eq_none] using h

/-- Keys that no two entries share. -/
theorem find_of_mem (hrefl : cmp x.1 x.1 = .eq) (h : m.Pairwise fun x y => cmp y.1 x.1 ≠ .eq)
    (hx : x ∈ m) : find cmp x.1 m = some x := by
  induction m with
  | nil => cases hx
  | cons y m ih =>
    obtain ⟨hy, h⟩ := List.pairwise_cons.mp h
    rcases List.mem_cons.mp hx with rfl | hx
    · exact find_cons_eq hrefl
    · rw [find_cons_ne (hy x hx), ih h hx]

theorem mem_insert (h : x ∈ insert cmp k v m) : x = (k, v) ∨ x ∈ m := by
  induction m with
  | nil => exact .inl (List.mem_singleton.mp h)
  | cons y m ih =>
    simp only [insert] at h
    split at h
    · exact List.mem_cons.mp h
    · exact .inr h
    · rcases List.mem_cons.mp h with rfl | h
      · exact .inr List.mem_cons_self
      · exact (ih h).imp_right (List.mem_cons_of_mem y)

theorem mem_set (h : x ∈ set cmp k v m) : x.1 = k ∨ ∃ y ∈ m, y.1 = x.1 := by
  induction m with
  | nil => exact .inl (List.mem_singleton.mp h ▸ rfl)
  | cons y m ih =>
    simp only [set] at h
    split at h
    · rcases List.mem_cons.mp h with rfl | h
      · exact .inl rfl
      · exact .inr ⟨x, h, rfl⟩
    · rcases List.mem_cons.mp h with rfl | h
      · exact .inr ⟨y, List.mem_cons_self, rfl⟩
      · exact .inr ⟨x, List.mem_cons_of_mem y h, rfl⟩
    · rcases List.mem_cons.mp h with rfl | h
      · exact .inr ⟨_, List.mem_cons_self, rfl⟩
      · exact (ih h).imp_right fun ⟨z, hz, hzx⟩ => ⟨z, List.mem_cons_of_mem y hz, hzx⟩

theorem Sorted.erase (hs : Sorted cmp m) (k : κ) : Sorted cmp (erase cmp k m) :=
  List.Pairwise.sublist List.eraseP_sublist hs

variable [Std.TransCmp cmp]

/-- Only the class of the key matters. -/
theorem find_congr (h : cmp k key = .eq) : find cmp k m = find cmp key m := by
  unfold find
  congr 1
  funext x
  rw [Std.TransCmp.congr_left h]

theorem Sorted.find_below (hm : ∀ x ∈ m, cmp k x.1 = .lt) (h : cmp key k = .eq) :
    find cmp key m = none := by
  refine find_eq_none fun x hx => ?_
  rw [Std.TransCmp.congr_left h, hm x hx]
  nofun

/-- What a sorted map has is what its lookups find. -/
theorem Sorted.find_iff (hs : Sorted cmp m) :
    find cmp key m = some x ↔ x ∈ m ∧ cmp key x.1 = .eq := by
  refine ⟨find_eq_some, ?_⟩
  rintro ⟨hx, heq⟩
  induction m with
  | nil => cases hx
  | cons y m ih =>
    obtain ⟨hy, hs⟩ := List.pairwise_cons.mp hs
    rcases List.mem_cons.mp hx with rfl | hx
    · exact find_cons_eq heq
    · rw [find_cons_ne, ih hs hx]
      intro h
      have := hy x hx
      rw [Std.TransCmp.congr_left (Std.OrientedCmp.eq_symm h), heq] at this
      cases this

theorem Sorted.ext (hs : Sorted cmp m) (hs' : Sorted cmp m')
    (h : ∀ key, find cmp key m = find cmp key m') : m = m' := by
  have hirr : ∀ x : κ × ν, ¬cmp x.1 x.1 = .lt := by
    intro x hx
    have : cmp x.1 x.1 = .eq := Std.ReflCmp.compare_self
    rw [this] at hx
    cases hx
  have : Std.Irrefl fun x y : κ × ν => cmp x.1 y.1 = .lt := ⟨hirr⟩
  have : Std.Antisymm fun x y : κ × ν => cmp x.1 y.1 = .lt :=
    ⟨fun a b hab hba => absurd (Std.TransCmp.lt_trans hab hba) (hirr a)⟩
  refine List.Pairwise.eq_of_mem_iff hs hs' fun x => ?_
  have hx : cmp x.1 x.1 = .eq := Std.ReflCmp.compare_self
  constructor
  · exact fun hx' => (hs'.find_iff.mp ((h x.1).symm.trans (hs.find_iff.mpr ⟨hx', hx⟩))).1
  · exact fun hx' => (hs.find_iff.mp ((h x.1).trans (hs'.find_iff.mpr ⟨hx', hx⟩))).1

/-! ## Insertion -/

theorem Sorted.find_insert (hs : Sorted cmp m) (key k : κ) (v : ν) :
    find cmp key (insert cmp k v m) =
      (find cmp key m).or (if cmp key k = .eq then some (k, v) else none) := by
  induction m with
  | nil =>
    by_cases h : cmp key k = .eq
    · rw [insert, find_cons_eq h, if_pos h]
      rfl
    · rw [insert, find_cons_ne h, if_neg h]
      rfl
  | cons x m ih =>
    obtain ⟨hx, hs⟩ := List.pairwise_cons.mp hs
    by_cases hkey : cmp key x.1 = .eq
    · rw [find_cons_eq hkey]
      cases hk : cmp k x.1 with
      | lt =>
        have hne : cmp key k ≠ .eq := fun h => by
          rw [← Std.TransCmp.congr_left h, hkey] at hk
          cases hk
        simp only [insert, hk]
        rw [find_cons_ne hne, find_cons_eq hkey]
        rfl
      | eq | gt => simp [insert, hk, find_cons_eq hkey]
    · rw [find_cons_ne hkey]
      cases hk : cmp k x.1 with
      | lt =>
        simp only [insert, hk]
        by_cases h : cmp key k = .eq
        · have hbelow : find cmp key m = none := Sorted.find_below
            (fun y hy => Std.TransCmp.lt_trans hk (hx y hy)) h
          rw [find_cons_eq h, hbelow, if_pos h]
          rfl
        · rw [find_cons_ne h, find_cons_ne hkey, if_neg h, Option.or_none]
      | eq =>
        have hne : cmp key k ≠ .eq := fun h => hkey (Std.TransCmp.eq_trans h hk)
        simp [insert, hk, find_cons_ne hkey, hne]
      | gt => simp only [insert, hk, find_cons_ne hkey, ih hs]

theorem Sorted.insert (hs : Sorted cmp m) (k : κ) (v : ν) : Sorted cmp (insert cmp k v m) := by
  induction m with
  | nil => exact List.pairwise_singleton ..
  | cons x m ih =>
    obtain ⟨hx, hs'⟩ := List.pairwise_cons.mp hs
    cases hk : cmp k x.1 with
    | lt =>
      simp only [OrdMap.insert, hk]
      refine List.pairwise_cons.mpr ⟨fun y hy => ?_, hs⟩
      rcases List.mem_cons.mp hy with rfl | hy
      · exact hk
      · exact Std.TransCmp.lt_trans hk (hx y hy)
    | eq =>
      simp only [OrdMap.insert, hk]
      exact hs
    | gt =>
      simp only [OrdMap.insert, hk]
      refine List.pairwise_cons.mpr ⟨fun y hy => ?_, ih hs'⟩
      rcases mem_insert hy with rfl | hy
      · exact Std.OrientedCmp.gt_iff_lt.mp hk
      · exact hx y hy

theorem Sorted.insertAll (hs : Sorted cmp m) (l : List (κ × ν)) :
    Sorted cmp (insertAll cmp l m) := by
  induction l generalizing m with
  | nil => exact hs
  | cons x l ih => exact ih (hs.insert x.1 x.2)

/-- The first entry of a key counts, and what the map has before them. -/
theorem Sorted.find_insertAll (hs : Sorted cmp m) (key : κ) (l : List (κ × ν)) :
    find cmp key (OrdMap.insertAll cmp l m) = (find cmp key m).or (find cmp key l) := by
  induction l generalizing m with
  | nil => exact (Option.or_none ..).symm
  | cons x l ih =>
    have hrw : find cmp key (OrdMap.insertAll cmp (x :: l) m) = _ := ih (hs.insert x.1 x.2)
    rw [hrw, hs.find_insert, Option.or_assoc]
    by_cases h : cmp key x.1 = .eq
    · rw [if_pos h, find_cons_eq h]
      rfl
    · rw [if_neg h, find_cons_ne h]
      rfl

/-! ## Assignment -/

theorem Sorted.find_set (hs : Sorted cmp m) (key k : κ) (v : ν) :
    find cmp key (set cmp k v m) =
      if cmp key k = .eq then some (((find cmp key m).map Prod.fst).getD k, v)
      else find cmp key m := by
  induction m with
  | nil =>
    by_cases h : cmp key k = .eq
    · rw [set, find_cons_eq h, if_pos h]
      rfl
    · rw [set, find_cons_ne h, if_neg h]
  | cons x m ih =>
    obtain ⟨hx, hs⟩ := List.pairwise_cons.mp hs
    cases hk : cmp k x.1 with
    | lt =>
      simp only [set, hk]
      by_cases h : cmp key k = .eq
      · have hbelow : find cmp key (x :: m) = none := by
          refine Sorted.find_below (fun y hy => ?_) h
          rcases List.mem_cons.mp hy with rfl | hy
          · exact hk
          · exact Std.TransCmp.lt_trans hk (hx y hy)
        rw [find_cons_eq h, if_pos h, hbelow]
        rfl
      · rw [find_cons_ne h, if_neg h]
    | eq =>
      have hkey : cmp key k = cmp key x.1 := Std.TransCmp.congr_right hk
      simp only [set, hk]
      by_cases h : cmp key k = .eq
      · rw [find_cons_eq (x := (x.1, v)) (hkey.symm.trans h), if_pos h,
          find_cons_eq (hkey.symm.trans h)]
        rfl
      · have h' : cmp key x.1 ≠ .eq := fun h' => h (hkey.trans h')
        rw [find_cons_ne (x := (x.1, v)) h', if_neg h, find_cons_ne h']
    | gt =>
      simp only [set, hk]
      by_cases h' : cmp key x.1 = .eq
      · have h : cmp key k ≠ .eq := fun h => by
          rw [← Std.TransCmp.congr_left h, h'] at hk
          cases hk
        rw [find_cons_eq h', find_cons_eq h', if_neg h]
      · rw [find_cons_ne h', find_cons_ne h', ih hs]

theorem Sorted.set (hs : Sorted cmp m) (k : κ) (v : ν) : Sorted cmp (set cmp k v m) := by
  induction m with
  | nil => exact List.pairwise_singleton ..
  | cons x m ih =>
    obtain ⟨hx, hs'⟩ := List.pairwise_cons.mp hs
    cases hk : cmp k x.1 with
    | lt =>
      simp only [OrdMap.set, hk]
      refine List.pairwise_cons.mpr ⟨fun y hy => ?_, hs⟩
      rcases List.mem_cons.mp hy with rfl | hy
      · exact hk
      · exact Std.TransCmp.lt_trans hk (hx y hy)
    | eq =>
      simp only [OrdMap.set, hk]
      exact List.pairwise_cons.mpr ⟨hx, hs'⟩
    | gt =>
      simp only [OrdMap.set, hk]
      refine List.pairwise_cons.mpr ⟨fun y hy => ?_, ih hs'⟩
      rcases mem_set hy with h | ⟨z, hz, h⟩
      · rw [h]
        exact Std.OrientedCmp.gt_iff_lt.mp hk
      · rw [← h]
        exact hx z hz

/-! ## Removal -/

theorem Sorted.find_erase (hs : Sorted cmp m) (key k : κ) :
    find cmp key (OrdMap.erase cmp k m) =
      if cmp key k = .eq then none else find cmp key m := by
  induction m with
  | nil => simp [OrdMap.erase]
  | cons x m ih =>
    obtain ⟨hx, hs⟩ := List.pairwise_cons.mp hs
    by_cases hk : cmp k x.1 = .eq
    · have hkey : cmp key k = cmp key x.1 := Std.TransCmp.congr_right hk
      rw [OrdMap.erase, List.eraseP_cons_of_pos (by simpa using hk)]
      by_cases h : cmp key k = .eq
      · rw [if_pos h]
        exact Sorted.find_below hx (hkey.symm.trans h)
      · rw [if_neg h, find_cons_ne fun h' => h (hkey.trans h')]
    · rw [OrdMap.erase, List.eraseP_cons_of_neg (by simpa using hk)]
      by_cases h' : cmp key x.1 = .eq
      · have h : cmp key k ≠ .eq := fun h => hk (Std.TransCmp.congr_left h ▸ h')
        rw [find_cons_eq h', find_cons_eq h', if_neg h]
      · rw [find_cons_ne h', find_cons_ne h']
        exact ih hs

end Tigerkin.OrdMap
