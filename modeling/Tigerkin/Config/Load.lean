import Tigerkin.Config.Basic

/-! # Loading a tree

`preorder` lists all nodes of a tree with the keys that lead to them. The variable of a dotted path
ends up with the last conversion that succeeds among the nodes at this path, and nothing else
changes (`loadFromYaml_spec`). -/

namespace Tigerkin

mutual

/-- The nodes of a tree in pre-order, each with the keys that lead to it. -/
def YamlNode.preorder : YamlNode → List (List (List UInt8) × YamlNode)
  | .map members => ([], .map members) :: preorderMembers members
  | node => [([], node)]

def preorderMembers : List (List UInt8 × YamlNode) → List (List (List UInt8) × YamlNode)
  | [] => []
  | (key, value) :: members =>
    value.preorder.map (fun (keys, node) => (key :: keys, node)) ++ preorderMembers members

end

namespace Config

variable {ι : Type} {T : ι → Type} (fromStr : ∀ i, List UInt8 → Option (T i))
  (dump : YamlNode → List UInt8)

/-- The components of a path, joined by full stops. -/
def dotted (name : List UInt8) (keys : List (List UInt8)) : List UInt8 :=
  keys.foldl (fun path key => path ++ 46 :: key) name

/-- All components of a path are valid names, and the first one is not empty. -/
def ValidPath (name : List UInt8) (keys : List (List UInt8)) : Prop :=
  name ≠ [] ∧ ∀ component ∈ name :: keys, isValidName component = true

instance (name : List UInt8) (keys : List (List UInt8)) : Decidable (ValidPath name keys) :=
  inferInstanceAs (Decidable (_ ∧ _))

/-- The nodes of the tree whose dotted path is `path`, in pre-order. -/
def nodesAt (name : List UInt8) (root : YamlNode) (path : List UInt8) : List YamlNode :=
  root.preorder.filterMap fun (keys, node) =>
    if ValidPath name keys ∧ dotted name keys = path then some node else none

/-- The last conversion that succeeds among those of the given nodes, or the value itself. -/
def lastValue (v : ConfigVar T) (nodes : List YamlNode) : T v.type :=
  ((nodes.filterMap fun node => fromStr v.type (text dump node)).getLast?).getD v.val

/-! ## The list of members -/

theorem isValidName_append (s t : List UInt8) :
    isValidName (s ++ t) = (isValidName s && isValidName t) := List.all_append

theorem isValidName_join (path key : List UInt8) :
    isValidName (path ++ 46 :: key) = (isValidName path && isValidName key) := by
  rw [isValidName_append]
  rfl

theorem validPath_cons {name key : List UInt8} {keys : List (List UInt8)} (hne : name ≠ [])
    (hv : isValidName name = true) :
    ValidPath name (key :: keys) ↔ ValidPath (name ++ 46 :: key) keys := by
  simp [ValidPath, hne, hv, isValidName_join]

theorem not_validPath {name : List UInt8} (h : (!isValidName name || name.isEmpty) = true)
    (keys : List (List UInt8)) : ¬ValidPath name keys := by
  rintro ⟨hne, hv⟩
  have := hv name List.mem_cons_self
  simp [this, hne] at h

/-- What `listAllMember` makes of a node of the tree. -/
def member (name : List UInt8) (e : List (List UInt8) × YamlNode) :
    Option (List UInt8 × YamlNode) :=
  if ValidPath name e.1 then some (dotted name e.1, e.2) else none

theorem filterMap_member_eq_nil {name : List UInt8}
    (h : (!isValidName name || name.isEmpty) = true) (l : List (List (List UInt8) × YamlNode)) :
    l.filterMap (member name) = [] := by
  rw [List.filterMap_eq_nil_iff]
  intro e _
  exact if_neg (not_validPath h e.1)

theorem valid_of_not {name : List UInt8} (h : ¬(!isValidName name || name.isEmpty) = true) :
    name ≠ [] ∧ isValidName name = true := by
  simpa [and_comm] using h

theorem member_root {name : List UInt8} (h : ¬(!isValidName name || name.isEmpty) = true)
    (node : YamlNode) : member name ([], node) = some (name, node) := by
  obtain ⟨hne, hv⟩ := valid_of_not h
  exact if_pos ⟨hne, by simpa using hv⟩

mutual

/-- `listAllMember` lists the nodes with a valid path, in pre-order. -/
theorem listAllMember_eq (name : List UInt8) (node : YamlNode) :
    listAllMember name node = node.preorder.filterMap (member name) := by
  cases node with
  | map members =>
    unfold listAllMember
    split
    · exact (filterMap_member_eq_nil ‹_› _).symm
    · rename_i h
      obtain ⟨hne, hv⟩ := valid_of_not h
      rw [YamlNode.preorder, List.filterMap_cons, member_root h, listMembers_eq hne hv]
  | _ =>
    unfold listAllMember
    split
    · exact (filterMap_member_eq_nil ‹_› _).symm
    · rw [YamlNode.preorder, List.filterMap_cons, member_root ‹_›, List.filterMap_nil]
      all_goals simp

theorem listMembers_eq {name : List UInt8} (hne : name ≠ []) (hv : isValidName name = true)
    (members : List (List UInt8 × YamlNode)) :
    listMembers name members = (preorderMembers members).filterMap (member name) := by
  cases members with
  | nil => rfl
  | cons e members =>
    obtain ⟨key, value⟩ := e
    have hkey : ∀ e : List (List UInt8) × YamlNode,
        member name (key :: e.1, e.2) = member (name ++ 46 :: key) e := by
      intro e
      unfold member
      simp only [validPath_cons hne hv]
      rfl
    rw [listMembers, if_neg (by simpa using hne), listAllMember_eq, listMembers_eq hne hv members,
      preorderMembers, List.filterMap_append, List.filterMap_map]
    congr 1
    exact List.filterMap_congr fun e _ => (hkey e).symm

end

/-! ## The loop over the members -/

variable {fromStr dump} {c : Config T} {name path : List UInt8} {p : Nat} {v : ConfigVar T}

theorem datas_inj {path' : List UInt8} (h : c.datas path = some p) (h' : c.datas path' = some p) :
    path = path' :=
  Option.some.inj ((c.named path p h).symm.trans (c.named path' p h'))

@[simp] theorem loadNode_datas (c : Config T) (e : List UInt8 × YamlNode) :
    (loadNode fromStr dump c e).datas = c.datas := by
  unfold loadNode
  split
  · rfl
  · cases c.lookupBase e.1 <;> rfl

/-- What one round does to an object. -/
theorem loadNode_vars (c : Config T) (e : List UInt8 × YamlNode) (p : Nat) :
    (loadNode fromStr dump c e).vars[p]? = (c.vars[p]?).map fun v =>
      if e.1 ≠ [] ∧ c.datas e.1 = some p then v.fromString fromStr (text dump e.2) else v := by
  unfold loadNode lookupBase
  split
  · have : e.1 = [] := by simpa using ‹e.1.isEmpty = true›
    simp [this]
  · have hne : e.1 ≠ [] := by simpa using ‹¬e.1.isEmpty = true›
    cases hd : c.datas e.1 with
    | none => simp
    | some q =>
      simp only [fromString, modify, List.getElem?_modify, Option.map_eq_map]
      by_cases hq : q = p <;> simp [hq, hne]

/-- The nodes of a list of members that are at a path. -/
def membersAt (l : List (List UInt8 × YamlNode)) (path : List UInt8) : List YamlNode :=
  l.filterMap fun e => if e.1 ≠ [] ∧ e.1 = path then some e.2 else none

theorem membersAt_cons (e : List UInt8 × YamlNode) (l : List (List UInt8 × YamlNode))
    (path : List UInt8) : membersAt (e :: l) path =
      if e.1 ≠ [] ∧ e.1 = path then e.2 :: membersAt l path else membersAt l path := by
  by_cases h : e.1 ≠ [] ∧ e.1 = path
  · rw [if_pos h]
    exact List.filterMap_cons_some (if_pos h)
  · rw [if_neg h]
    exact List.filterMap_cons_none (if_neg h)

theorem lastValue_cons (v : ConfigVar T) (node : YamlNode) (nodes : List YamlNode) :
    { v with val := lastValue fromStr dump v (node :: nodes) } =
      { v.fromString fromStr (text dump node) with
        val := lastValue fromStr dump (v.fromString fromStr (text dump node)) nodes } := by
  unfold ConfigVar.fromString lastValue
  cases h : fromStr v.type (text dump node) with
  | none => simp [h]
  | some x => simp [h, ConfigVar.setValue, List.getLast?_cons]

theorem foldl_loadNode_datas (l : List (List UInt8 × YamlNode)) (c : Config T) :
    (l.foldl (loadNode fromStr dump) c).datas = c.datas := by
  induction l generalizing c with
  | nil => rfl
  | cons e l ih => rw [List.foldl_cons, ih, loadNode_datas]

/-- An object that no name leads to is left alone. -/
theorem foldl_loadNode_other (l : List (List UInt8 × YamlNode)) (c : Config T)
    (h : ∀ path, c.datas path ≠ some p) :
    (l.foldl (loadNode fromStr dump) c).vars[p]? = c.vars[p]? := by
  induction l generalizing c with
  | nil => rfl
  | cons e l ih =>
    rw [List.foldl_cons, ih _ (by simpa using h), loadNode_vars]
    simp [h]

/-- The object of a path receives the values of the members at this path one after another. -/
theorem foldl_loadNode_var (l : List (List UInt8 × YamlNode)) (hd : c.datas path = some p)
    (hv : c.vars[p]? = some v) :
    (l.foldl (loadNode fromStr dump) c).vars[p]? =
      some { v with val := lastValue fromStr dump v (membersAt l path) } := by
  induction l generalizing c v with
  | nil =>
    rw [List.foldl_nil, hv]
    rfl
  | cons e l ih =>
    have hround : (loadNode fromStr dump c e).vars[p]? = some
        (if e.1 ≠ [] ∧ c.datas e.1 = some p then v.fromString fromStr (text dump e.2) else v) := by
      rw [loadNode_vars, hv, Option.map_some]
    rw [List.foldl_cons, ih (by simpa using hd) hround]
    by_cases he : e.1 ≠ [] ∧ e.1 = path
    · rw [if_pos ⟨he.1, he.2 ▸ hd⟩, membersAt_cons, if_pos he]
      exact congrArg some (lastValue_cons v e.2 _).symm
    · have hother : ¬(e.1 ≠ [] ∧ c.datas e.1 = some p) := fun h => he ⟨h.1, datas_inj h.2 hd⟩
      rw [if_neg hother, membersAt_cons, if_neg he]

theorem dotted_ne_nil (keys : List (List UInt8)) (h : name ≠ []) : dotted name keys ≠ [] := by
  induction keys generalizing name with
  | nil => exact h
  | cons key keys ih =>
    have hne : name ++ 46 :: key ≠ [] := by simp
    exact ih hne

/-- The members at a path are the nodes of the tree at this path. -/
theorem membersAt_listAllMember (name path : List UInt8) (root : YamlNode) :
    membersAt (listAllMember name root) path = nodesAt name root path := by
  rw [membersAt, listAllMember_eq, List.filterMap_filterMap, nodesAt]
  refine List.filterMap_congr fun e _ => ?_
  by_cases h : ValidPath name e.1
  · simp [member, h, dotted_ne_nil e.1 h.1]
  · simp [member, h]

/-- **Loading a tree** gives the variable of every path the last conversion that succeeds among the
nodes at this path; no other object and no name changes. -/
theorem loadFromYaml_spec (fromStr : ∀ i, List UInt8 → Option (T i))
    (dump : YamlNode → List UInt8) (c : Config T) (root : YamlNode) (name : List UInt8) :
    (c.loadFromYaml fromStr dump root name).datas = c.datas ∧
    (∀ path p v, c.datas path = some p → c.vars[p]? = some v →
      (c.loadFromYaml fromStr dump root name).vars[p]? =
        some { v with val := lastValue fromStr dump v (nodesAt name root path) }) ∧
    (∀ p, (∀ path, c.datas path ≠ some p) →
      (c.loadFromYaml fromStr dump root name).vars[p]? = c.vars[p]?) := by
  refine ⟨foldl_loadNode_datas _ c, fun path p v hd hv => ?_, fun p h =>
    foldl_loadNode_other _ c h⟩
  rw [loadFromYaml, foldl_loadNode_var _ hd hv, membersAt_listAllMember]

end Config

end Tigerkin
