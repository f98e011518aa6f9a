import Mathlib.Data.List.Basic

/-! # Configuration variables

`Config` and `ConfigVar` of `config.h` and `config.cpp`. The types of variables have codes `ι`, and
`T i` are the values of the type `i`; its `FromStr` is a partial function, which fails where the
conversion throws. A shared pointer to a variable is its number in the list of all variables that
were ever created. YAML nodes are a tree, with the text that a node prints as a parameter. -/

namespace Tigerkin

inductive YamlNode where
  | null
  | scalar (text : List UInt8)
  | sequence (items : List YamlNode)
  /-- The members with the `Scalar()` of their keys. -/
  | map (members : List (List UInt8 × YamlNode))

structure ConfigVar {ι : Type} (T : ι → Type) where
  name : List UInt8
  type : ι
  val : T type

namespace ConfigVar

variable {ι : Type} {T : ι → Type} (fromStr : ∀ i, List UInt8 → Option (T i))

/-- `ConfigVar::setValue` -/
def setValue (v : ConfigVar T) (x : T v.type) : ConfigVar T := { v with val := x }

/-- `ConfigVar::fromString` -/
def fromString (v : ConfigVar T) (val : List UInt8) : ConfigVar T :=
  match fromStr v.type val with
  | some x => v.setValue x
  | none => v

theorem fromString_name (v : ConfigVar T) (val : List UInt8) :
    (v.fromString fromStr val).name = v.name := by
  unfold fromString
  cases fromStr v.type val <;> rfl

end ConfigVar

/-- The registry `s_datas`, in which a name leads to a variable of this name. -/
structure Config {ι : Type} (T : ι → Type) where
  vars : List (ConfigVar T)
  datas : List UInt8 → Option Nat
  named : ∀ name p, datas name = some p → (vars[p]?).map (·.name) = some name

namespace Config

/-- A letter, a digit, a full stop or an underscore. -/
def isNameChar (b : UInt8) : Bool :=
  97 ≤ b && b ≤ 122 || 65 ≤ b && b ≤ 90 || b == 46 || b == 95 || 48 ≤ b && b ≤ 57

def isValidName (name : List UInt8) : Bool := name.all isNameChar

mutual

def listAllMember (pfx : List UInt8) : YamlNode → List (List UInt8 × YamlNode)
  | .map members =>
    if !isValidName pfx || pfx.isEmpty then []
    else (pfx, .map members) :: listMembers pfx members
  | node => if !isValidName pfx || pfx.isEmpty then [] else [(pfx, node)]

/-- The loop of `listAllMember` over the members of a map. -/
def listMembers (pfx : List UInt8) : List (List UInt8 × YamlNode) → List (List UInt8 × YamlNode)
  | [] => []
  | (key, value) :: members =>
    listAllMember (if pfx.isEmpty then key else pfx ++ 46 :: key) value ++ listMembers pfx members

end

variable {ι : Type} {T : ι → Type}

/-- `Config::LookupBase` -/
def lookupBase (c : Config T) (name : List UInt8) : Option Nat := c.datas name

theorem modify_named {c : Config T} {f : ConfigVar T → ConfigVar T} (hf : ∀ v, (f v).name = v.name)
    (q : Nat) (name : List UInt8) (p : Nat) (h : c.datas name = some p) :
    ((c.vars.modify q f)[p]?).map (·.name) = some name := by
  rw [List.getElem?_modify, Option.map_eq_map, Option.map_map, ← c.named name p h]
  congr 1
  funext v
  by_cases hp : q = p <;> simp [hp, hf]

/-- A change of a variable that leaves its name alone. -/
def modify (c : Config T) (q : Nat) (f : ConfigVar T → ConfigVar T)
    (hf : ∀ v, (f v).name = v.name) : Config T :=
  { c with vars := c.vars.modify q f, named := modify_named hf q }

variable (fromStr : ∀ i, List UInt8 → Option (T i)) (dump : YamlNode → List UInt8)

/-- `var->fromString(val)` -/
def fromString (c : Config T) (q : Nat) (val : List UInt8) : Config T :=
  c.modify q (·.fromString fromStr val) fun v => v.fromString_name fromStr val

/-- The text of a node that is handed to `fromString`: the scalar, or what `<<` prints. -/
def text : YamlNode → List UInt8
  | .scalar s => s
  | node => dump node

/-- The body of the loop of `LoadFromYaml`. -/
def loadNode (c : Config T) (i : List UInt8 × YamlNode) : Config T :=
  if i.1.isEmpty then c
  else
    match c.lookupBase i.1 with
    | some var => c.fromString fromStr var (text dump i.2)
    | none => c

/-- `Config::LoadFromYaml` -/
def loadFromYaml (c : Config T) (root : YamlNode) (name : List UInt8) : Config T :=
  (listAllMember name root).foldl (loadNode fromStr dump) c

end Config

end Tigerkin
