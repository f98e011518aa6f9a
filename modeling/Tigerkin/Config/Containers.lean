import Mathlib.Data.Finset.Lattice.Lemmas
import Tigerkin.Config.Basic
import Tigerkin.Std.CString

/-! # The conversions of containers

The specialisations of `LexicalCast` of `config.h` for the types that are built from `int`. A
conversion to a string prints one YAML node, in which the containers that are empty are null nodes;
the conversion back prints the children of the node again and converts them one by one. -/

namespace Tigerkin

/-- What the conversions use of `boost::lexical_cast` and of yaml-cpp. -/
structure YamlCpp where
  intToString : Int32 → List UInt8
  /-- Fails where `boost::lexical_cast<int>` throws. -/
  intOfString : List UInt8 → Option Int32
  /-- `YAML::Load` -/
  load : List UInt8 → YamlNode
  /-- `<<` -/
  emit : YamlNode → List UInt8
  pushBack : YamlNode → YamlNode → YamlNode
  /-- `node[key] = value` -/
  assign : YamlNode → List UInt8 → YamlNode → YamlNode
  /-- `node[i]` for `i` below `node.size()`. -/
  elements : YamlNode → List YamlNode
  /-- What the iterators of a node give, with the `Scalar()` of the keys. -/
  members : YamlNode → List (List UInt8 × YamlNode)

/-- A null node becomes a sequence or a map when something is added to it, and has no children. -/
structure YamlCpp.Documented (y : YamlCpp) : Prop where
  intOfString_intToString : ∀ n, y.intOfString (y.intToString n) = some n
  emit_int : ∀ n, y.emit (.scalar (y.intToString n)) = y.intToString n
  pushBack_null : ∀ x, y.pushBack .null x = .sequence [x]
  pushBack_sequence : ∀ xs x, y.pushBack (.sequence xs) x = .sequence (xs ++ [x])
  assign_null : ∀ key x, y.assign .null key x = .map [(key, x)]
  assign_map : ∀ ms key x, key ∉ ms.map Prod.fst →
    y.assign (.map ms) key x = .map (ms ++ [(key, x)])
  elements_null : y.elements .null = []
  elements_sequence : ∀ xs, y.elements (.sequence xs) = xs
  members_null : y.members .null = []
  members_map : ∀ ms, y.members (.map ms) = ms

inductive CfgType where
  | int
  | vector (t : CfgType)
  | list (t : CfgType)
  | set (t : CfgType)
  | unorderedSet (t : CfgType)
  /-- The keys of the maps are strings. -/
  | map (t : CfgType)
  | unorderedMap (t : CfgType)
  deriving DecidableEq

namespace CfgType

/-- An object, where a container is what iterating over it gives. -/
def Obj : CfgType → Type
  | int => Int32
  | vector t | list t | set t | unorderedSet t => List t.Obj
  | map t | unorderedMap t => { l : List (List UInt8 × t.Obj) // (l.map Prod.fst).Nodup }

/-- The values that `==` tells apart: the order of a set or of a map does not count. -/
def Val : CfgType → Type
  | int => Int32
  | vector t | list t => List t.Val
  | set t | unorderedSet t => Finset t.Val
  | map t | unorderedMap t => Finset (List UInt8 × t.Val)

instance decEqVal : (t : CfgType) → DecidableEq t.Val
  | int => inferInstanceAs (DecidableEq Int32)
  | vector t | list t =>
    have := decEqVal t
    inferInstanceAs (DecidableEq (List t.Val))
  | set t | unorderedSet t =>
    have := decEqVal t
    inferInstanceAs (DecidableEq (Finset t.Val))
  | map t | unorderedMap t =>
    have := decEqVal t
    inferInstanceAs (DecidableEq (Finset (List UInt8 × t.Val)))

def val : (t : CfgType) → t.Obj → t.Val
  | int, n => n
  | vector t, v | list t, v => List.map t.val v
  | set t, v | unorderedSet t, v => (List.map t.val v).toFinset
  | map t, v | unorderedMap t, v => (v.1.map fun x => (x.1, t.val x.2)).toFinset

end CfgType

namespace LexicalCast

variable (y : YamlCpp)

/-- `LexicalCast<T, std::string>` -/
def toString : (t : CfgType) → t.Obj → List UInt8
  | .int, n => y.intToString n
  | .vector t, v | .list t, v | .set t, v | .unorderedSet t, v =>
    y.emit (List.foldl (fun node it => y.pushBack node (y.load (toString t it))) .null v)
  | .map t, v | .unorderedMap t, v =>
    y.emit (v.1.foldl (fun node it => y.assign node it.1 (y.load (toString t it.2))) .null)

/-- `insert` of a map: a key that is there already keeps its value. -/
def insertNew {α : Type} [DecidableEq α] (s : Finset (List UInt8 × α)) (x : List UInt8 × α) :
    Finset (List UInt8 × α) :=
  if ∃ y ∈ s, y.1 = x.1 then s else insert x s

section

variable {α : Type} (f : List UInt8 → Option α) (s : List UInt8)

/-- To a `vector` or a `list`, with `f` for the elements. -/
def fromSequence : Option (List α) :=
  (y.elements (y.load s)).foldlM (fun vec node => (f (y.emit node)).map fun x => vec ++ [x]) []

variable [DecidableEq α]

/-- To a `set` or an `unordered_set`. -/
def fromSet : Option (Finset α) :=
  (y.elements (y.load s)).foldlM (fun res node => (f (y.emit node)).map fun x => insert x res) ∅

/-- To a `map` or an `unordered_map`. -/
def fromMap : Option (Finset (List UInt8 × α)) :=
  (y.members (y.load s)).foldlM (fun res it =>
    (f (y.emit it.2)).map fun x => insertNew res (it.1, x)) ∅

end

/-- `LexicalCast<std::string, T>`, which fails where it throws. -/
def fromString : (t : CfgType) → List UInt8 → Option t.Val
  | .int, s => y.intOfString s
  | .vector t, s | .list t, s => fromSequence y (fromString t) s
  | .set t, s | .unorderedSet t, s => fromSet y (fromString t) s
  | .map t, s | .unorderedMap t, s => fromMap y (fromString t) s

/-! ## The nodes of a value -/

/-- The sequence of the items; null without any. -/
def ofItems : List YamlNode → YamlNode
  | [] => .null
  | items => .sequence items

def ofMembers : List (List UInt8 × YamlNode) → YamlNode
  | [] => .null
  | members => .map members

def tree : (t : CfgType) → t.Obj → YamlNode
  | .int, n => .scalar (y.intToString n)
  | .vector t, v | .list t, v | .set t, v | .unorderedSet t, v => ofItems (List.map (tree t) v)
  | .map t, v | .unorderedMap t, v => ofMembers (v.1.map fun x => (x.1, tree t x.2))

/-- The nodes that are printed for a value: its own, and those of its parts. -/
def nodes : (t : CfgType) → t.Obj → List YamlNode
  | .int, n => [.scalar (y.intToString n)]
  | .vector t, v | .list t, v | .set t, v | .unorderedSet t, v =>
    ofItems (List.map (tree y t) v) :: List.flatMap (nodes t) v
  | .map t, v | .unorderedMap t, v =>
    ofMembers (v.1.map fun x => (x.1, tree y t x.2)) :: v.1.flatMap fun x => nodes t x.2

theorem tree_mem_nodes (t : CfgType) (v : t.Obj) : tree y t v ∈ nodes y t v := by
  cases t <;> exact List.mem_cons_self

variable {y} {α β : Type}

/-! ## Printing -/

theorem foldl_pushBack (hy : y.Documented) (f : α → YamlNode) (v : List α) :
    v.foldl (fun node it => y.pushBack node (f it)) .null = ofItems (v.map f) := by
  have hrest : ∀ (v : List α) (xs : List YamlNode),
      v.foldl (fun node it => y.pushBack node (f it)) (.sequence xs) =
        .sequence (xs ++ v.map f) := by
    intro v
    induction v with
    | nil => simp
    | cons a v ih =>
      intro xs
      rw [List.foldl_cons, hy.pushBack_sequence, ih, List.map_cons, List.append_assoc,
        List.singleton_append]
  cases v with
  | nil => rfl
  | cons a v =>
    rw [List.foldl_cons, hy.pushBack_null, hrest]
    rfl

theorem foldl_assign (hy : y.Documented) (f : α → YamlNode) {v : List (List UInt8 × α)}
    (h : (v.map Prod.fst).Nodup) :
    v.foldl (fun node it => y.assign node it.1 (f it.2)) .null =
      ofMembers (v.map fun x => (x.1, f x.2)) := by
  have hrest : ∀ (v : List (List UInt8 × α)) (ms : List (List UInt8 × YamlNode)),
      (ms.map Prod.fst ++ v.map Prod.fst).Nodup →
      v.foldl (fun node it => y.assign node it.1 (f it.2)) (.map ms) =
        .map (ms ++ v.map fun x => (x.1, f x.2)) := by
    intro v
    induction v with
    | nil => simp
    | cons a v ih =>
      intro ms hms
      have hnew : a.1 ∉ ms.map Prod.fst := fun hmem =>
        (List.nodup_append.mp hms).2.2 _ hmem _ List.mem_cons_self rfl
      rw [List.foldl_cons, hy.assign_map ms _ _ hnew, ih, List.map_cons, List.append_assoc,
        List.singleton_append]
      simpa using hms
  cases v with
  | nil => rfl
  | cons a v =>
    rw [List.foldl_cons, hy.assign_null, hrest v [(a.1, f a.2)] h]
    rfl

/-- A value is printed as its tree. -/
theorem toString_eq (hy : y.Documented) {t : CfgType} {v : t.Obj}
    (h : ∀ node ∈ nodes y t v, y.load (y.emit node) = node) :
    toString y t v = y.emit (tree y t v) := by
  have hpart : ∀ {t : CfgType} {x : t.Obj}, (∀ node ∈ nodes y t x, y.load (y.emit node) = node) →
      toString y t x = y.emit (tree y t x) → y.load (toString y t x) = tree y t x := by
    intro t x hx heq
    rw [heq, hx _ (tree_mem_nodes y t x)]
  induction t with
  | int => exact (hy.emit_int v).symm
  | vector t ih | list t ih | set t ih | unorderedSet t ih =>
    have hmap : List.map (fun it => y.load (toString y t it)) v = List.map (tree y t) v :=
      List.map_congr_left fun x hx => by
        have hx' := fun node hn =>
          h node (List.mem_cons_of_mem _ (List.mem_flatMap.mpr ⟨x, hx, hn⟩))
        exact hpart hx' (ih hx')
    exact congrArg y.emit ((foldl_pushBack hy (fun it => y.load (toString y t it)) v).trans
      (congrArg ofItems hmap))
  | map t ih | unorderedMap t ih =>
    have hmap : v.1.map (fun x => (x.1, y.load (toString y t x.2))) =
        v.1.map fun x => (x.1, tree y t x.2) :=
      List.map_congr_left fun x hx => by
        have hx' := fun node hn =>
          h node (List.mem_cons_of_mem _ (List.mem_flatMap.mpr ⟨x, hx, hn⟩))
        rw [hpart hx' (ih hx')]
    exact congrArg y.emit ((foldl_assign hy (fun it => y.load (toString y t it)) v.2).trans
      (congrArg ofMembers hmap))

/-! ## Reading -/

theorem elements_ofItems (hy : y.Documented) (items : List YamlNode) :
    y.elements (ofItems items) = items := by
  cases items with
  | nil => exact hy.elements_null
  | cons x items => exact hy.elements_sequence _

theorem members_ofMembers (hy : y.Documented) (ms : List (List UInt8 × YamlNode)) :
    y.members (ofMembers ms) = ms := by
  cases ms with
  | nil => exact hy.members_null
  | cons x ms => exact hy.members_map _

/-- A loop in which no conversion fails. -/
theorem foldlM_some {γ δ : Type} {f : γ → Option α} {g : γ → α} {l : List γ}
    (h : ∀ x ∈ l, f x = some (g x)) (push : δ → γ → α → δ) (init : δ) :
    l.foldlM (fun res x => (f x).map (push res x)) init =
      some (l.foldl (fun res x => push res x (g x)) init) := by
  induction l generalizing init with
  | nil => rfl
  | cons x l ih =>
    rw [List.foldlM_cons, h x List.mem_cons_self, List.foldl_cons]
    exact ih (fun z hz => h z (List.mem_cons_of_mem _ hz)) _

section

variable {f : List UInt8 → Option α} {g : β → YamlNode} {h : β → α} {v : List β}

theorem fromSequence_emit (hy : y.Documented)
    (hload : y.load (y.emit (ofItems (v.map g))) = ofItems (v.map g))
    (hf : ∀ x ∈ v, f (y.emit (g x)) = some (h x)) :
    fromSequence y f (y.emit (ofItems (v.map g))) = some (v.map h) := by
  rw [fromSequence, hload, elements_ofItems hy, List.foldlM_map,
    foldlM_some hf fun vec _ x => vec ++ [x], List.foldl_append_eq_append, List.nil_append,
    ← List.flatMap_def, ← List.map_eq_flatMap]

variable [DecidableEq α]

theorem fromSet_emit (hy : y.Documented)
    (hload : y.load (y.emit (ofItems (v.map g))) = ofItems (v.map g))
    (hf : ∀ x ∈ v, f (y.emit (g x)) = some (h x)) :
    fromSet y f (y.emit (ofItems (v.map g))) = some (v.map h).toFinset := by
  have hinsert : ∀ (v : List β) (s : Finset α),
      v.foldl (fun res x => insert (h x) res) s = s ∪ (v.map h).toFinset := by
    intro v
    induction v with
    | nil => simp
    | cons x v ih =>
      intro s
      rw [List.foldl_cons, ih, List.map_cons, List.toFinset_cons, Finset.union_insert,
        Finset.insert_union]
  rw [fromSet, hload, elements_ofItems hy, List.foldlM_map,
    foldlM_some hf fun res _ x => insert x res, hinsert, Finset.empty_union]

theorem fromMap_emit (hy : y.Documented) {v : List (List UInt8 × β)}
    (hv : (v.map Prod.fst).Nodup)
    (hload : y.load (y.emit (ofMembers (v.map fun x => (x.1, g x.2)))) =
      ofMembers (v.map fun x => (x.1, g x.2)))
    (hf : ∀ x ∈ v, f (y.emit (g x.2)) = some (h x.2)) :
    fromMap y f (y.emit (ofMembers (v.map fun x => (x.1, g x.2)))) =
      some (v.map fun x => (x.1, h x.2)).toFinset := by
  have hinsert : ∀ (v : List (List UInt8 × β)) (s : Finset (List UInt8 × α)),
      (v.map Prod.fst).Nodup → (∀ x ∈ v, ∀ z ∈ s, z.1 ≠ x.1) →
      v.foldl (fun res x => insertNew res (x.1, h x.2)) s =
        s ∪ (v.map fun x => (x.1, h x.2)).toFinset := by
    intro v
    induction v with
    | nil => simp
    | cons x v ih =>
      intro s hv hs
      obtain ⟨hx, hv⟩ := List.nodup_cons.mp hv
      have hnew : ¬∃ z ∈ s, z.1 = x.1 := fun ⟨z, hz, heq⟩ => hs x List.mem_cons_self z hz heq
      rw [List.foldl_cons, insertNew, if_neg hnew, ih _ hv, List.map_cons, List.toFinset_cons,
        Finset.union_insert, Finset.insert_union]
      intro w hw z hz heq
      rcases Finset.mem_insert.mp hz with rfl | hz
      · exact hx (List.mem_map.mpr ⟨w, hw, heq.symm⟩)
      · exact hs w (List.mem_cons_of_mem _ hw) z hz heq
  rw [fromMap, hload, members_ofMembers hy, List.foldlM_map,
    foldlM_some hf fun res z x => insertNew res (z.1, x), hinsert v ∅ hv (by simp),
    Finset.empty_union]

end

/-- The tree of a value is read back as the value. -/
theorem fromString_emit (hy : y.Documented) {t : CfgType} {v : t.Obj}
    (h : ∀ node ∈ nodes y t v, y.load (y.emit node) = node) :
    fromString y t (y.emit (tree y t v)) = some (t.val v) := by
  induction t with
  | int => exact (congrArg y.intOfString (hy.emit_int v)).trans (hy.intOfString_intToString v)
  | vector t ih | list t ih =>
    exact fromSequence_emit hy (h _ (tree_mem_nodes ..)) fun x hx =>
      ih fun node hn => h node (List.mem_cons_of_mem _ (List.mem_flatMap.mpr ⟨x, hx, hn⟩))
  | set t ih | unorderedSet t ih =>
    exact fromSet_emit hy (h _ (tree_mem_nodes ..)) fun x hx =>
      ih fun node hn => h node (List.mem_cons_of_mem _ (List.mem_flatMap.mpr ⟨x, hx, hn⟩))
  | map t ih | unorderedMap t ih =>
    exact fromMap_emit hy v.2 (h _ (tree_mem_nodes ..)) fun x hx =>
      ih fun node hn => h node (List.mem_cons_of_mem _ (List.mem_flatMap.mpr ⟨x, hx, hn⟩))

/-- **The conversions of containers round trip**, if the nodes that are printed do. -/
theorem fromString_toString (hy : y.Documented) {t : CfgType} {v : t.Obj}
    (h : ∀ node ∈ nodes y t v, y.load (y.emit node) = node) :
    fromString y t (toString y t v) = some (t.val v) := by
  rw [toString_eq hy h, fromString_emit hy h]

open CString in
/-- Printing and reading as far as they are needed for a map of the keys `a` and `b`. -/
def twoKeys : YamlCpp where
  intToString n := if n.toInt < 0 then 45 :: showNat n.toInt.natAbs else showNat n.toInt.natAbs
  intOfString
    | 45 :: s => some (Int32.ofInt (-(value 10 s)))
    | s => some (Int32.ofInt (value 10 s))
  load s :=
    -- `- 1`, `- -2`
    let sequence : YamlNode := .sequence [.scalar [49], .scalar [45, 50]]
    if s = [126] then .null
    else if s = [45, 32, 49, 10, 45, 32, 45, 50] then sequence
    -- `a: ~`, `b:` and the sequence
    else if s =
        [97, 58, 32, 126, 10, 98, 58, 10, 32, 32, 45, 32, 49, 10, 32, 32, 45, 32, 45, 50] then
      .map [([97], .null), ([98], sequence)]
    else .scalar s
  emit
    | .null => [126]
    | .scalar s => s
    | .sequence _ => [45, 32, 49, 10, 45, 32, 45, 50]
    | .map _ => [97, 58, 32, 126, 10, 98, 58, 10, 32, 32, 45, 32, 49, 10, 32, 32, 45, 32, 45, 50]
  pushBack
    | .sequence xs, x => .sequence (xs ++ [x])
    | _, x => .sequence [x]
  assign
    | .map ms, key, x => .map (ms.filter (·.1 ≠ key) ++ [(key, x)])
    | _, key, x => .map [(key, x)]
  elements
    | .sequence xs => xs
    | _ => []
  members
    | .map ms => ms
    | _ => []

open CString in
theorem twoKeys_documented : twoKeys.Documented where
  intOfString_intToString n := by
    obtain ⟨hne, hdigits, hvalue⟩ := showNat_eq n.toInt.natAbs
    by_cases hneg : n.toInt < 0
    · have hs : twoKeys.intToString n = 45 :: showNat n.toInt.natAbs := if_pos hneg
      have hread : ∀ s, twoKeys.intOfString (45 :: s) = some (Int32.ofInt (-(value 10 s))) :=
        fun _ => rfl
      rw [hs, hread, hvalue, Int.ofNat_natAbs_of_nonpos (by omega), Int.neg_neg, Int32.ofInt_toInt]
    · have hs : twoKeys.intToString n = showNat n.toInt.natAbs := if_neg hneg
      obtain ⟨b, s, hcons⟩ := List.exists_cons_of_ne_nil hne
      have hb := (hdigits b (hcons ▸ List.mem_cons_self)).bounds.2.1
      have hread : twoKeys.intOfString (b :: s) = some (Int32.ofInt (value 10 (b :: s))) := by
        dsimp only [twoKeys]
        split
        · rename_i heq
          exact absurd (List.cons.inj heq).1 hb
        · rfl
      rw [hs, hcons, hread, ← hcons, hvalue, Int.natAbs_of_nonneg (by omega), Int32.ofInt_toInt]
  emit_int _ := rfl
  pushBack_null _ := rfl
  pushBack_sequence _ _ := rfl
  assign_null _ _ := rfl
  assign_map ms key x h := by
    have hfilter : ms.filter (fun z => z.1 ≠ key) = ms :=
      List.filter_eq_self.mpr fun z hz => decide_eq_true fun heq =>
        h (List.mem_map.mpr ⟨z, hz, heq⟩)
    exact congrArg (fun l => YamlNode.map (l ++ [(key, x)])) hfilter
  elements_null := rfl
  elements_sequence _ := rfl
  members_null := rfl
  members_map _ := rfl

/-- `a` is an empty vector, `b` the vector of 1 and -2. -/
def twoKeysMap : (CfgType.map (.vector .int)).Obj :=
  ⟨[([97], ([] : List Int32)), ([98], ([1, -2] : List Int32))], by decide⟩

theorem fromString_toString_twoKeys :
    fromString twoKeys (.map (.vector .int)) (toString twoKeys (.map (.vector .int)) twoKeysMap) =
      some (CfgType.val (.map (.vector .int)) twoKeysMap) := by
  refine fromString_toString twoKeys_documented ?_
  have hnodes : nodes twoKeys (.map (.vector .int)) twoKeysMap =
      [.map [([97], .null), ([98], .sequence [.scalar [49], .scalar [45, 50]])], .null,
        .sequence [.scalar [49], .scalar [45, 50]], .scalar [49], .scalar [45, 50]] := rfl
  rw [hnodes]
  simp only [List.forall_mem_cons, List.not_mem_nil, false_imp_iff, implies_true, and_true]
  exact ⟨rfl, rfl, rfl, rfl, rfl⟩

end LexicalCast

end Tigerkin
