import Tigerkin.Std.Bytes

/-! # Byte arrays

`ByteArray` of `bytearray.cpp`: a linked list of nodes of `m_baseSize` bytes with a current node,
and the typed reads and writes over it. A pointer to a node is its index in the list; an index past
the end is the null pointer, and following it ends the operation with `nullNode`. Floating-point
values are their bit patterns. -/

namespace Tigerkin

namespace ByteArray

inductive Error where
  /-- `std::out_of_range`. -/
  | outOfRange (what : String)
  | nullNode
  deriving DecidableEq

def TIGERKIN_LITTLE_ENDIAN : UInt8 := 1
def TIGERKIN_BIG_ENDIAN : UInt8 := 2

/-- The byte order of the machine. -/
def TIGERKIN_BYTE_ORDER : UInt8 := TIGERKIN_LITTLE_ENDIAN

end ByteArray

open Tigerkin.ByteArray

structure ByteArray where
  endian : UInt8 := TIGERKIN_LITTLE_ENDIAN
  baseSize : Nat
  baseSize_pos : 0 < baseSize
  size : Nat := 0
  capacity : Nat := 0
  offset : Nat := 0
  /-- The nodes from `m_rootNode` on. -/
  nodes : List (List UInt8) := []
  curNode : Nat := 0
  /-- What the memory of a new node happens to hold. -/
  fill : UInt8 := 0

namespace ByteArray

/-- `new ByteArray::Node(m_baseSize)`; the bytes are not initialised. -/
def newNode (s : ByteArray) : List UInt8 := List.replicate s.baseSize s.fill

def getEnableReadSize (s : ByteArray) : Nat := s.size - s.offset

/-- The loop of `addCapacityTo`, of at most `n` rounds. -/
def addNodes (s : ByteArray) (capacity : Nat) : Nat → ByteArray
  | 0 => s
  | n + 1 =>
    if s.capacity < capacity then
      addNodes { s with nodes := s.nodes ++ [s.newNode], capacity := s.capacity + s.baseSize }
        capacity n
    else s

def addCapacityTo (s : ByteArray) (capacity : Nat) : ByteArray :=
  let s := if s.nodes.isEmpty then
    { s with nodes := [s.newNode], curNode := 0, size := 0, offset := 0, capacity := s.baseSize }
    else s
  if capacity ≤ s.capacity then s else s.addNodes capacity (capacity - s.capacity)

/-- The node a read or a write begins with: at a node boundary the current node is exhausted. -/
def startNode (s : ByteArray) : Nat :=
  if s.offset % s.baseSize = 0 ∧ 0 < s.offset ∧ s.curNode + 1 < s.nodes.length then s.curNode + 1
  else s.curNode

/-- The loop of `write` from a node and an offset in it on: the nodes with `buf` written, and how
often it moved to the next node. -/
def writeNodes : List (List UInt8) → Nat → List UInt8 → Except Error (List (List UInt8) × Nat)
  | [], _, _ => .error .nullNode
  | n :: l, nodeOffset, buf =>
    let nodeRemain := n.length - nodeOffset
    if buf.length > nodeRemain then do
      let (l, k) ← writeNodes l 0 (buf.drop nodeRemain)
      return ((n.take nodeOffset ++ buf.take nodeRemain) :: l, k + 1)
    else
      return ((n.take nodeOffset ++ buf ++ n.drop (nodeOffset + buf.length)) :: l, 0)

def write (s : ByteArray) (buf : List UInt8) : Except Error ByteArray :=
  if buf.length = 0 then .ok s
  else do
    let s := s.addCapacityTo (s.size + buf.length)
    let cur := s.startNode
    let (l, k) ← writeNodes (s.nodes.drop cur) (s.offset % s.baseSize) buf
    let size := s.size + buf.length
    let offset := s.offset + buf.length
    return { s with
      nodes := s.nodes.take cur ++ l
      curNode := cur + k
      size := if offset > size then offset else size
      offset }

/-- The loop of `read`. -/
def readNodes : List (List UInt8) → Nat → Nat → Except Error (List UInt8 × Nat)
  | [], _, _ => .error .nullNode
  | n :: l, nodeOffset, size =>
    let nodeRemain := n.length - nodeOffset
    if size > nodeRemain then do
      let (buf, k) ← readNodes l 0 (size - nodeRemain)
      return ((n.drop nodeOffset).take nodeRemain ++ buf, k + 1)
    else
      return ((n.drop nodeOffset).take size, 0)

def read (s : ByteArray) (size : Nat) : Except Error (List UInt8 × ByteArray) :=
  if size > s.getEnableReadSize then .error (.outOfRange "READ OUT OF RANGE")
  else do
    let cur := s.startNode
    let (buf, k) ← readNodes (s.nodes.drop cur) (s.offset % s.baseSize) size
    return (buf, { s with curNode := cur + k, offset := s.offset + size })

def setOffset (s : ByteArray) (offset : Nat) : Except Error ByteArray :=
  if offset > s.capacity then .error (.outOfRange "SET OFFSET OUT OF RANGE")
  else
    let nodeCnt := offset / s.baseSize
    .ok { s with
      size := if offset > s.size then offset else s.size
      curNode := nodeCnt - 1
      offset }

/-- The `read` that leaves the array as it is. -/
def readAt (s : ByteArray) (size offset : Nat) : Except Error (List UInt8) :=
  if size > s.getEnableReadSize then .error (.outOfRange "READ OUT OF RANGE")
  else do
    let cur := { s with offset }.startNode
    let (buf, _) ← readNodes (s.nodes.drop cur) (offset % s.baseSize) size
    return buf

def toString (s : ByteArray) : Except Error (List UInt8) :=
  if s.getEnableReadSize = 0 then .ok [] else s.readAt s.getEnableReadSize s.offset

/-- The loop of `writeToFile` from a node on: the bytes it appends to the file. -/
def fileNodes (baseSize : Nat) : List (List UInt8) → Nat → Nat → Except Error (List UInt8)
  | _, _, 0 => .ok []
  | [], _, _ + 1 => .error .nullNode
  | n :: l, nodeOffset, len + 1 =>
    let nodeRemain := baseSize - nodeOffset
    if len + 1 > nodeRemain then do
      let buf ← fileNodes baseSize l 0 (len + 1 - nodeRemain)
      return (n.drop nodeOffset).take nodeRemain ++ buf
    else
      return (n.drop nodeOffset).take (len + 1)

/-- What `writeToFile` leaves in the file, once it is open. -/
def writeToFile (s : ByteArray) : Except Error (List UInt8) :=
  fileNodes s.baseSize (s.nodes.drop s.startNode) (s.offset % s.baseSize) s.getEnableReadSize

/-- The loop of `readFromFile` over the bytes `file` that are left, of at most `n` rounds: the round
that gets fewer than `m_baseSize` bytes meets the end of the file. -/
def readRounds (s : ByteArray) (file : List UInt8) : Nat → Except Error ByteArray
  | 0 => .ok s
  | n + 1 => do
    let s' ← s.write (file.take s.baseSize)
    if file.length < s.baseSize then return s' else s'.readRounds (file.drop s.baseSize) n

/-- `readFromFile`, once the file is open. -/
def readFromFile (s : ByteArray) (file : List UInt8) : Except Error ByteArray :=
  s.readRounds file (file.length + 1)

/-! ## Typed writes -/

/-- The pattern of the writes of more than one byte. -/
def writeSwapped (s : ByteArray) (n value : Nat) : Except Error ByteArray :=
  s.write (toBytes n (if s.endian ≠ TIGERKIN_BYTE_ORDER then byteswap n value else value))

def writeUint8 (s : ByteArray) (value : UInt8) := s.write (toBytes 1 value.toNat)
def writeUint16 (s : ByteArray) (value : UInt16) := s.writeSwapped 2 value.toNat
def writeUint32 (s : ByteArray) (value : UInt32) := s.writeSwapped 4 value.toNat
def writeUint64 (s : ByteArray) (value : UInt64) := s.writeSwapped 8 value.toNat
def writeInt8 (s : ByteArray) (value : Int8) := s.write (toBytes 1 value.toUInt8.toNat)
def writeInt16 (s : ByteArray) (value : Int16) := s.writeSwapped 2 value.toUInt16.toNat
def writeInt32 (s : ByteArray) (value : Int32) := s.writeSwapped 4 value.toUInt32.toNat
def writeInt64 (s : ByteArray) (value : Int64) := s.writeSwapped 8 value.toUInt64.toNat
def writeFloat (s : ByteArray) (value : UInt32) := s.writeUint32 value
def writeDouble (s : ByteArray) (value : UInt64) := s.writeUint64 value

def writeString16 (s : ByteArray) (str : List UInt8) : Except Error ByteArray := do
  let s ← s.writeUint16 (UInt16.ofNat str.length)
  s.write str

def writeString32 (s : ByteArray) (str : List UInt8) : Except Error ByteArray := do
  let s ← s.writeUint32 (UInt32.ofNat str.length)
  s.write str

def writeString64 (s : ByteArray) (str : List UInt8) : Except Error ByteArray := do
  let s ← s.writeUint64 (UInt64.ofNat str.length)
  s.write str

def writeStringVint (s : ByteArray) (str : List UInt8) : Except Error ByteArray := do
  let s ← s.writeUint64 (UInt64.ofNat str.length)
  s.write str

/-! ## Typed reads -/

def readSwapped (s : ByteArray) (n : Nat) : Except Error (Nat × ByteArray) := do
  let (buf, s) ← s.read n
  return (if s.endian ≠ TIGERKIN_BYTE_ORDER then byteswap n (ofBytes buf) else ofBytes buf, s)

def readUint8 (s : ByteArray) : Except Error (UInt8 × ByteArray) := do
  let (buf, s) ← s.read 1
  return (UInt8.ofNat (ofBytes buf), s)

def readUint16 (s : ByteArray) : Except Error (UInt16 × ByteArray) := do
  let (v, s) ← s.readSwapped 2
  return (UInt16.ofNat v, s)

def readUint32 (s : ByteArray) : Except Error (UInt32 × ByteArray) := do
  let (v, s) ← s.readSwapped 4
  return (UInt32.ofNat v, s)

def readUint64 (s : ByteArray) : Except Error (UInt64 × ByteArray) := do
  let (v, s) ← s.readSwapped 8
  return (UInt64.ofNat v, s)

def readInt8 (s : ByteArray) : Except Error (Int8 × ByteArray) := do
  let (buf, s) ← s.read 1
  return ((UInt8.ofNat (ofBytes buf)).toInt8, s)

def readInt16 (s : ByteArray) : Except Error (Int16 × ByteArray) := do
  let (v, s) ← s.readSwapped 2
  return ((UInt16.ofNat v).toInt16, s)

def readInt32 (s : ByteArray) : Except Error (Int32 × ByteArray) := do
  let (v, s) ← s.readSwapped 4
  return ((UInt32.ofNat v).toInt32, s)

def readInt64 (s : ByteArray) : Except Error (Int64 × ByteArray) := do
  let (v, s) ← s.readSwapped 8
  return ((UInt64.ofNat v).toInt64, s)

def readFloat (s : ByteArray) := s.readUint32
def readDouble (s : ByteArray) := s.readUint64

def readString16 (s : ByteArray) : Except Error (List UInt8 × ByteArray) := do
  let (len, s) ← s.readUint16
  s.read len.toNat

def readString32 (s : ByteArray) : Except Error (List UInt8 × ByteArray) := do
  let (len, s) ← s.readUint32
  s.read len.toNat

def readString64 (s : ByteArray) : Except Error (List UInt8 × ByteArray) := do
  let (len, s) ← s.readUint64
  s.read len.toNat

def readStringVint (s : ByteArray) : Except Error (List UInt8 × ByteArray) := do
  let (len, s) ← s.readUint64
  s.read len.toNat

/-! ## Sequences of values -/

/-- The types with a write and a read of their own. -/
inductive Kind where
  | uint8 | uint16 | uint32 | uint64 | int8 | int16 | int32 | int64 | float | double
  | string16 | string32 | string64 | stringVint
  deriving DecidableEq

inductive Value where
  | uint8 (v : UInt8)
  | uint16 (v : UInt16)
  | uint32 (v : UInt32)
  | uint64 (v : UInt64)
  | int8 (v : Int8)
  | int16 (v : Int16)
  | int32 (v : Int32)
  | int64 (v : Int64)
  | float (v : UInt32)
  | double (v : UInt64)
  | string16 (str : List UInt8)
  | string32 (str : List UInt8)
  | string64 (str : List UInt8)
  | stringVint (str : List UInt8)
  deriving DecidableEq

def Value.kind : Value → Kind
  | .uint8 _ => .uint8
  | .uint16 _ => .uint16
  | .uint32 _ => .uint32
  | .uint64 _ => .uint64
  | .int8 _ => .int8
  | .int16 _ => .int16
  | .int32 _ => .int32
  | .int64 _ => .int64
  | .float _ => .float
  | .double _ => .double
  | .string16 _ => .string16
  | .string32 _ => .string32
  | .string64 _ => .string64
  | .stringVint _ => .stringVint

def writeValue (s : ByteArray) : Value → Except Error ByteArray
  | .uint8 v => s.writeUint8 v
  | .uint16 v => s.writeUint16 v
  | .uint32 v => s.writeUint32 v
  | .uint64 v => s.writeUint64 v
  | .int8 v => s.writeInt8 v
  | .int16 v => s.writeInt16 v
  | .int32 v => s.writeInt32 v
  | .int64 v => s.writeInt64 v
  | .float v => s.writeFloat v
  | .double v => s.writeDouble v
  | .string16 str => s.writeString16 str
  | .string32 str => s.writeString32 str
  | .string64 str => s.writeString64 str
  | .stringVint str => s.writeStringVint str

def readValue (s : ByteArray) : Kind → Except Error (Value × ByteArray)
  | .uint8 => do let (v, s) ← s.readUint8; return (.uint8 v, s)
  | .uint16 => do let (v, s) ← s.readUint16; return (.uint16 v, s)
  | .uint32 => do let (v, s) ← s.readUint32; return (.uint32 v, s)
  | .uint64 => do let (v, s) ← s.readUint64; return (.uint64 v, s)
  | .int8 => do let (v, s) ← s.readInt8; return (.int8 v, s)
  | .int16 => do let (v, s) ← s.readInt16; return (.int16 v, s)
  | .int32 => do let (v, s) ← s.readInt32; return (.int32 v, s)
  | .int64 => do let (v, s) ← s.readInt64; return (.int64 v, s)
  | .float => do let (v, s) ← s.readFloat; return (.float v, s)
  | .double => do let (v, s) ← s.readDouble; return (.double v, s)
  | .string16 => do let (v, s) ← s.readString16; return (.string16 v, s)
  | .string32 => do let (v, s) ← s.readString32; return (.string32 v, s)
  | .string64 => do let (v, s) ← s.readString64; return (.string64 v, s)
  | .stringVint => do let (v, s) ← s.readStringVint; return (.stringVint v, s)

def writeValues (s : ByteArray) : List Value → Except Error ByteArray
  | [] => .ok s
  | v :: vs => do (← s.writeValue v).writeValues vs

def readValues (s : ByteArray) : List Kind → Except Error (List Value)
  | [] => .ok []
  | k :: ks => do
    let (v, s) ← s.readValue k
    return v :: (← s.readValues ks)

/-- Write the values to a fresh array, go back to its beginning and read them. -/
def writeAndRead (b : Nat) (hb : 0 < b) (endian : UInt8) (vs : List Value) :
    Except Error (List Value) := do
  let s ← writeValues { baseSize := b, baseSize_pos := hb, endian } vs
  (← s.setOffset 0).readValues (vs.map Value.kind)

end ByteArray

end Tigerkin
