import Tigerkin.ByteArray.Buffers
import Tigerkin.Std.Throw

/-! # Calls that leave the array behind

The operations of a byte array once more, as calls that leave the array as it is at a throw, so that
the caller can go on with it. Here memory is not there for the asking: nodes and strings can be
refused. Where the memory suffices a call does what the operation does (`refines_write` and those
that follow). -/

namespace Tigerkin.ByteArray

/-- How a call ends that does not return. -/
inductive Exit where
  /-- `std::out_of_range`. -/
  | outOfRange (what : String)
  /-- `std::bad_alloc` or `std::length_error`. -/
  | noMemory
  /-- A pointer is followed that is null or leads to a deleted node. -/
  | undefined
  deriving DecidableEq

/-- What the heap gives during a call. -/
structure Heap where
  /-- The bytes that the nodes of an array can take: less than half of what `size_t` can count. -/
  nodes : Nat
  nodes_lt : nodes < 2 ^ 63
  /-- The lengths that a `std::string` can take. -/
  string : Nat → Bool
  /-- Whether `readFromFile` gets its buffer. -/
  buffer : Bool
  /-- Whether a deleted node still has its `nxt`. -/
  keepsDeleted : Bool

abbrev Call := EStateM Exit ByteArray

namespace Call

variable (h : Heap)

/-- Follow the nodes, to a null pointer perhaps. -/
def follow {α : Type} : Except Error α → Call α
  | .ok a => return a
  | .error _ => throw .undefined

/-- `new ByteArray::Node(m_baseSize)` -/
def newNode : Call (List UInt8) := do
  let s ← get
  if s.capacity + s.baseSize ≤ h.nodes then return s.newNode else throw .noMemory

/-- The loop of `addCapacityTo`, of at most `n` rounds. -/
def addNodes (capacity : Nat) : Nat → Call Unit
  | 0 => return
  | n + 1 => do
    let s ← get
    if s.capacity < capacity then
      let node ← newNode h
      set { s with nodes := s.nodes ++ [node], capacity := s.capacity + s.baseSize }
      addNodes capacity n
    else return

/-- The first node. -/
def addRoot : Call Unit := do
  let s ← get
  if s.nodes.isEmpty then
    let node ← newNode h
    set { s with nodes := [node], curNode := 0, size := 0, offset := 0, capacity := s.baseSize }
  else return

def addCapacityTo (capacity : Nat) : Call Unit := do
  addRoot h
  let s ← get
  addNodes h capacity (capacity - s.capacity)

def write (buf : List UInt8) : Call Unit := do
  if buf.length = 0 then return
  else
    let s ← get
    addCapacityTo h (s.size + buf.length)
    let s ← get
    let cur := s.startNode
    let (l, k) ← follow (writeNodes (s.nodes.drop cur) (s.offset % s.baseSize) buf)
    let size := s.size + buf.length
    let offset := s.offset + buf.length
    set { s with
      nodes := s.nodes.take cur ++ l
      curNode := cur + k
      size := if offset > size then offset else size
      offset }

def read (size : Nat) : Call (List UInt8) := do
  let s ← get
  if size > s.getEnableReadSize then throw (.outOfRange "READ OUT OF RANGE")
  else
    let cur := s.startNode
    let (buf, k) ← follow (readNodes (s.nodes.drop cur) (s.offset % s.baseSize) size)
    set { s with curNode := cur + k, offset := s.offset + size }
    return buf

def setOffset (offset : Nat) : Call Unit := do
  let s ← get
  if offset > s.capacity then throw (.outOfRange "SET OFFSET OUT OF RANGE")
  else
    let nodeCnt := offset / s.baseSize
    set { s with
      size := if offset > s.size then offset else s.size
      curNode := nodeCnt - 1
      offset }

/-- The loop of `clear` from a node on, which may be deleted already: a round takes the `nxt` of its
node and deletes the node that it leads to. -/
def clearNodes : Bool → List (List UInt8) → Bool
  | _, [] => true
  | deleted, _ :: l => (!deleted || h.keepsDeleted) && clearNodes true l

def clear : Call Unit := do
  let s ← get
  if clearNodes h false s.nodes then
    set { s with nodes := [], curNode := 0, capacity := 0, offset := 0, size := 0 }
  else throw .undefined

/-- The loop of `readFromFile` over the bytes `file` that are left, of at most `n` rounds. -/
def readRounds (file : List UInt8) : Nat → Call Unit
  | 0 => return
  | n + 1 => do
    let s ← get
    write h (file.take s.baseSize)
    if file.length < s.baseSize then return else readRounds (file.drop s.baseSize) n

/-- `readFromFile` of a file that cannot be opened, or that holds `file`. -/
def readFromFile : Option (List UInt8) → Call Bool
  | none => return false
  | some file => do
    if h.buffer then
      readRounds h file (file.length + 1)
      return true
    else throw .noMemory

/-- `getWriteBuffers(buffers, len)`; the sum `m_offset + len` is one of 64 bits. -/
def getWriteBuffers (buffers : List IoVec) (len : UInt64) : Call (List IoVec × UInt64) := do
  if len = 0 then return (buffers, 0)
  else
    let s ← get
    addCapacityTo h (UInt64.ofNat s.offset + len).toNat
    let s ← get
    let (bufs, rst) ←
      follow (bufferNodes s.curNode (s.nodes.drop s.curNode) (s.offset % s.baseSize) len.toNat)
    return (buffers ++ bufs, intResult rst)

/-! ## Typed writes -/

def writeSwapped (n value : Nat) : Call Unit := do
  let s ← get
  write h (toBytes n (if s.endian ≠ TIGERKIN_BYTE_ORDER then byteswap n value else value))

def writeUint8 (value : UInt8) := write h (toBytes 1 value.toNat)
def writeUint16 (value : UInt16) := writeSwapped h 2 value.toNat
def writeUint32 (value : UInt32) := writeSwapped h 4 value.toNat
def writeUint64 (value : UInt64) := writeSwapped h 8 value.toNat
def writeInt8 (value : Int8) := write h (toBytes 1 value.toUInt8.toNat)
def writeInt16 (value : Int16) := writeSwapped h 2 value.toUInt16.toNat
def writeInt32 (value : Int32) := writeSwapped h 4 value.toUInt32.toNat
def writeInt64 (value : Int64) := writeSwapped h 8 value.toUInt64.toNat
def writeFloat (value : UInt32) := writeUint32 h value
def writeDouble (value : UInt64) := writeUint64 h value

def writeString16 (str : List UInt8) : Call Unit := do
  writeUint16 h (UInt16.ofNat str.length)
  write h str

def writeString32 (str : List UInt8) : Call Unit := do
  writeUint32 h (UInt32.ofNat str.length)
  write h str

def writeString64 (str : List UInt8) : Call Unit := do
  writeUint64 h (UInt64.ofNat str.length)
  write h str

def writeStringVint (str : List UInt8) : Call Unit := do
  writeUint64 h (UInt64.ofNat str.length)
  write h str

def writeString (str : List UInt8) := write h str

def writeValue : Value → Call Unit
  | .uint8 v => writeUint8 h v
  | .uint16 v => writeUint16 h v
  | .uint32 v => writeUint32 h v
  | .uint64 v => writeUint64 h v
  | .int8 v => writeInt8 h v
  | .int16 v => writeInt16 h v
  | .int32 v => writeInt32 h v
  | .int64 v => writeInt64 h v
  | .float v => writeFloat h v
  | .double v => writeDouble h v
  | .string16 str => writeString16 h str
  | .string32 str => writeString32 h str
  | .string64 str => writeString64 h str
  | .stringVint str => writeStringVint h str

/-! ## Typed reads -/

def readSwapped (n : Nat) : Call Nat := do
  let buf ← read n
  let s ← get
  return if s.endian ≠ TIGERKIN_BYTE_ORDER then byteswap n (ofBytes buf) else ofBytes buf

def readUint8 : Call UInt8 := return UInt8.ofNat (ofBytes (← read 1))
def readUint16 : Call UInt16 := return UInt16.ofNat (← readSwapped 2)
def readUint32 : Call UInt32 := return UInt32.ofNat (← readSwapped 4)
def readUint64 : Call UInt64 := return UInt64.ofNat (← readSwapped 8)
def readInt8 : Call Int8 := return (UInt8.ofNat (ofBytes (← read 1))).toInt8
def readInt16 : Call Int16 := return (UInt16.ofNat (← readSwapped 2)).toInt16
def readInt32 : Call Int32 := return (UInt32.ofNat (← readSwapped 4)).toInt32
def readInt64 : Call Int64 := return (UInt64.ofNat (← readSwapped 8)).toInt64
def readFloat : Call UInt32 := readUint32
def readDouble : Call UInt64 := readUint64

/-- `buff.resize(len)` -/
def resize (len : Nat) : Call Unit := if h.string len then return else throw .noMemory

def readString16 : Call (List UInt8) := do
  let len ← readUint16
  resize h len.toNat
  read len.toNat

def readString32 : Call (List UInt8) := do
  let len ← readUint32
  resize h len.toNat
  read len.toNat

def readString64 : Call (List UInt8) := do
  let len ← readUint64
  resize h len.toNat
  read len.toNat

def readStringVint : Call (List UInt8) := do
  let len ← readUint64
  resize h len.toNat
  read len.toNat

def readValue : Kind → Call Value
  | .uint8 => return .uint8 (← readUint8)
  | .uint16 => return .uint16 (← readUint16)
  | .uint32 => return .uint32 (← readUint32)
  | .uint64 => return .uint64 (← readUint64)
  | .int8 => return .int8 (← readInt8)
  | .int16 => return .int16 (← readInt16)
  | .int32 => return .int32 (← readInt32)
  | .int64 => return .int64 (← readInt64)
  | .float => return .float (← readFloat)
  | .double => return .double (← readDouble)
  | .string16 => return .string16 (← readString16 h)
  | .string32 => return .string32 (← readString32 h)
  | .string64 => return .string64 (← readString64 h)
  | .stringVint => return .stringVint (← readStringVint h)

end Call

/-! ## Calls and operations -/

open Throw

/-- The error of the operation, if the call throws one of its own. -/
def Exit.toError : Exit → Option Error
  | .outOfRange what => some (.outOfRange what)
  | .noMemory | .undefined => none

namespace Call

variable {h : Heap} {s t : ByteArray}

/-- An operation that returns nothing but the array. -/
def effect (f : ByteArray → Except Error ByteArray) (s : ByteArray) :
    Except Error (Unit × ByteArray) := (f s).map fun t => ((), t)

@[simp] theorem run_newNode : (newNode h).run s =
    if s.capacity + s.baseSize ≤ h.nodes then .ok s.newNode s else .error .noMemory s := by
  simp only [newNode, EStateM.run_bind, EStateM.run_get]
  split <;> rfl

theorem refines_addNodes (capacity n : Nat) :
    Refines Exit.toError (addNodes h capacity n) fun s => .ok ((), s.addNodes capacity n) := by
  induction n with
  | zero => exact .pure ()
  | succ n ih =>
    refine .bind_get fun s => ?_
    by_cases hc : s.capacity < capacity
    · by_cases hm : s.capacity + s.baseSize ≤ h.nodes
      · have := ih { s with nodes := s.nodes ++ [s.newNode], capacity := s.capacity + s.baseSize }
        simpa [hc, hm, ByteArray.addNodes] using this
      · simp [hc, hm, Exit.toError]
    · simp [hc, ByteArray.addNodes]

theorem refines_addCapacityTo (capacity : Nat) :
    Refines Exit.toError (addCapacityTo h capacity) fun s => .ok ((), s.addCapacityTo capacity) := by
  have hroot : Refines Exit.toError (addRoot h) fun s => .ok ((), if s.nodes.isEmpty then
      { s with nodes := [s.newNode], curNode := 0, size := 0, offset := 0, capacity := s.baseSize }
      else s) := by
    refine .bind_get fun s => ?_
    by_cases hn : s.nodes.isEmpty
    · by_cases hm : s.capacity + s.baseSize ≤ h.nodes <;> simp [hn, hm, Exit.toError]
    · simp [hn]
  have hrest : Refines Exit.toError (get >>= fun s => addNodes h capacity (capacity - s.capacity))
      fun s => .ok ((), s.addNodes capacity (capacity - s.capacity)) :=
    .bind_get fun s => refines_addNodes capacity (capacity - s.capacity) s
  intro s
  simp only [ByteArray.addCapacityTo, ByteArray.addCapacityTo_eq]
  exact hroot.bind (fun _ => hrest) s

theorem run_follow {α : Type} (x : Except Error α) :
    (follow x).run s = match x with
      | .ok a => .ok a s
      | .error _ => .error .undefined s := by
  cases x <;> rfl

theorem refines_write (buf : List UInt8) :
    Refines Exit.toError (write h buf) (effect fun s => s.write buf) := by
  intro s
  unfold write ByteArray.write effect
  by_cases hbuf : buf.length = 0
  · simp [hbuf, Except.map]
  simp only [hbuf, if_false, EStateM.run_bind, EStateM.run_get]
  have hgrow := refines_addCapacityTo (h := h) (s.size + buf.length) s
  split at hgrow <;> rename_i hrun
  · obtain rfl : s.addCapacityTo (s.size + buf.length) = _ := congrArg Prod.snd (Except.ok.inj hgrow)
    generalize s.addCapacityTo (s.size + buf.length) = t at hrun
    simp only [hrun, run_follow]
    cases writeNodes (t.nodes.drop t.startNode) (t.offset % t.baseSize) buf with
    | ok p => rfl
    | error e => rintro e' ⟨⟩
  · simp only [hrun]
    intro e' he'
    cases hgrow e' he'

theorem refines_read (n : Nat) : Refines Exit.toError (read n) fun s => s.read n := by
  refine .bind_get fun s => ?_
  unfold ByteArray.read
  by_cases hn : n > s.getEnableReadSize
  · simp [hn, Exit.toError]
  · simp only [hn, if_false, EStateM.run_bind, run_follow]
    cases readNodes (s.nodes.drop s.startNode) (s.offset % s.baseSize) n with
    | ok p => rfl
    | error e => rintro e' ⟨⟩

theorem refines_setOffset (n : Nat) :
    Refines Exit.toError (setOffset n) (effect fun s => s.setOffset n) := by
  refine .bind_get fun s => ?_
  unfold ByteArray.setOffset effect
  by_cases hn : n > s.capacity
  · simp [hn, Exit.toError, Except.map]
  · simp [hn, Except.map]

theorem refines_writeSwapped (n value : Nat) :
    Refines Exit.toError (writeSwapped h n value) (effect fun s => s.writeSwapped n value) :=
  .bind_get fun s => refines_write _ s

theorem effect_bind (f g : ByteArray → Except Error ByteArray) :
    effect (fun s => f s >>= g) = fun s => effect f s >>= fun p => effect g p.2 := by
  funext s
  simp only [effect]
  cases f s <;> rfl

/-- Two operations, one after the other. -/
theorem refines_effect_bind {c d : Call Unit} {f g : ByteArray → Except Error ByteArray}
    (hc : Refines Exit.toError c (effect f)) (hd : Refines Exit.toError d (effect g)) :
    Refines Exit.toError (c >>= fun _ => d) (effect fun s => f s >>= g) := by
  rw [effect_bind]
  exact hc.bind fun _ => hd

theorem refines_writeValue (v : Value) :
    Refines Exit.toError (writeValue h v) (effect fun s => s.writeValue v) := by
  cases v with
  | uint8 v => exact refines_write (toBytes 1 v.toNat)
  | int8 v => exact refines_write (toBytes 1 v.toUInt8.toNat)
  | uint16 v | uint32 v | uint64 v | float v | double v => exact refines_writeSwapped _ v.toNat
  | int16 v => exact refines_writeSwapped 2 v.toUInt16.toNat
  | int32 v => exact refines_writeSwapped 4 v.toUInt32.toNat
  | int64 v => exact refines_writeSwapped 8 v.toUInt64.toNat
  | string16 str | string32 str | string64 str | stringVint str =>
    exact refines_effect_bind (refines_writeSwapped _ _) (refines_write str)

theorem refines_readSwapped (n : Nat) :
    Refines Exit.toError (readSwapped n) fun s => s.readSwapped n := by
  intro s
  have hread := refines_read n s
  simp only [readSwapped, EStateM.run_bind, ByteArray.readSwapped]
  split at hread <;> rename_i hrun
  · simp only [hrun, hread]
    rfl
  · simp only [hrun]
    intro e' he'
    simp only [hread e' he']
    rfl

theorem refines_resize (n : Nat) :
    Refines Exit.toError (resize h n >>= fun _ => read n) fun s => s.read n := by
  intro s
  unfold resize
  cases h.string n with
  | true => exact refines_read n s
  | false => nofun

theorem refines_readString {len : Type} {c : Call len} {f : ByteArray → Except Error (len × ByteArray)}
    (toNat : len → Nat) (hc : Refines Exit.toError c f) :
    Refines Exit.toError (c >>= fun len => resize h (toNat len) >>= fun _ => read (toNat len))
      fun s => f s >>= fun p => p.2.read (toNat p.1) :=
  hc.bind fun len => refines_resize (toNat len)

theorem refines_readValue (k : Kind) :
    Refines Exit.toError (readValue h k) fun s => s.readValue k := by
  have h1 {α : Type} (f : Nat → α) := (refines_read 1).map fun buf => f (ofBytes buf)
  have hn {α : Type} (n : Nat) (f : Nat → α) := (refines_readSwapped n).map f
  cases k with
  | uint8 => exact (h1 UInt8.ofNat).map Value.uint8
  | int8 => exact (h1 fun v => (UInt8.ofNat v).toInt8).map Value.int8
  | uint16 => exact (hn 2 UInt16.ofNat).map Value.uint16
  | uint32 => exact (hn 4 UInt32.ofNat).map Value.uint32
  | uint64 => exact (hn 8 UInt64.ofNat).map Value.uint64
  | int16 => exact (hn 2 fun v => (UInt16.ofNat v).toInt16).map Value.int16
  | int32 => exact (hn 4 fun v => (UInt32.ofNat v).toInt32).map Value.int32
  | int64 => exact (hn 8 fun v => (UInt64.ofNat v).toInt64).map Value.int64
  | float => exact (hn 4 UInt32.ofNat).map Value.float
  | double => exact (hn 8 UInt64.ofNat).map Value.double
  | string16 => exact (refines_readString UInt16.toNat (hn 2 UInt16.ofNat)).map Value.string16
  | string32 => exact (refines_readString UInt32.toNat (hn 4 UInt32.ofNat)).map Value.string32
  | string64 => exact (refines_readString UInt64.toNat (hn 8 UInt64.ofNat)).map Value.string64
  | stringVint => exact (refines_readString UInt64.toNat (hn 8 UInt64.ofNat)).map Value.stringVint

theorem refines_readRounds (file : List UInt8) (n : Nat) :
    Refines Exit.toError (readRounds h file n) (effect fun s => s.readRounds file n) := by
  induction n generalizing file with
  | zero => exact .pure ()
  | succ n ih =>
    refine .bind_get fun s => ?_
    refine refines_effect_bind (g := fun s' => if file.length < s.baseSize then pure s' else
      s'.readRounds (file.drop s.baseSize) n) (refines_write (file.take s.baseSize)) ?_ s
    split
    · exact .pure ()
    · exact ih (file.drop s.baseSize)

/-- `readFromFile` of a file that can be opened. -/
theorem refines_readFromFile (file : List UInt8) :
    Refines Exit.toError (readFromFile h (some file)) fun s =>
      effect (fun s => s.readFromFile file) s >>= fun p => pure (true, p.2) := by
  intro s
  simp only [readFromFile]
  cases h.buffer with
  | true => exact ((refines_readRounds file (file.length + 1)).map fun _ => true) s
  | false => nofun

end Call

end Tigerkin.ByteArray
