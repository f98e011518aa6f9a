import Tigerkin.Std.Bytes

/-! # `IpV4Address` and `IpV6Address`

The socket addresses as the code keeps them: ports and IPv4 addresses in network byte order, read as
the integers of a little-endian machine. A result that is not defined by the language (a shift by
the width of its operand, an index outside of an array) is `none`. -/

namespace Tigerkin.Address

def byteswapOnLittleEndian (v : UInt32) : UInt32 := UInt32.ofNat (byteswap 4 v.toNat)

/-- `CreateMask<T>` for a `T` of `size` bytes. The `1` that is shifted is an `int`, and the shift
amount a `size_t`. -/
def CreateMask (size : Nat) (bits : UInt32) : Option Nat :=
  let shift := (size * 8 + 2 ^ 64 - bits.toNat) % 2 ^ 64
  if shift < 32 then some ((1#32 <<< shift - 1#32).toNat % 2 ^ (8 * size)) else none

def AF_INET : UInt16 := 2

structure SockaddrIn where
  family : UInt16
  port : UInt16
  addr : UInt32
  zero : UInt64
  deriving DecidableEq

structure IpV4Address where
  addr : SockaddrIn
  deriving DecidableEq

namespace IpV4Address

/-- The inner `none` is `nullptr`. -/
def broadcastAddress (a : IpV4Address) (prefixLen : UInt32) : Option (Option IpV4Address) :=
  if prefixLen > 32 then some none
  else (CreateMask 4 prefixLen).map fun mask =>
    some ⟨{ a.addr with addr := a.addr.addr ||| byteswapOnLittleEndian (UInt32.ofNat mask) }⟩

def networkAddress (a : IpV4Address) (prefixLen : UInt32) : Option (Option IpV4Address) :=
  if prefixLen > 32 then some none
  else (CreateMask 4 prefixLen).map fun mask =>
    some ⟨{ a.addr with addr := a.addr.addr &&& byteswapOnLittleEndian (UInt32.ofNat mask) }⟩

def subnetMask (_ : IpV4Address) (prefixLen : UInt32) : Option IpV4Address :=
  (CreateMask 4 prefixLen).map fun mask =>
    ⟨{ family := AF_INET
       port := 0
       addr := ~~~byteswapOnLittleEndian (UInt32.ofNat mask)
       zero := 0 }⟩

end IpV4Address

def AF_INET6 : UInt16 := 10

structure SockaddrIn6 where
  family : UInt16
  port : UInt16
  flowinfo : UInt32
  addr : Vector UInt8 16
  scopeId : UInt32
  deriving DecidableEq

structure IpV6Address where
  addr : SockaddrIn6
  deriving DecidableEq

/-- The assignment to the byte with the end of the prefix, and the loop over the bytes after it. -/
def fillFrom (bytes : Vector UInt8 16) (prefixLen : UInt32) (edit : UInt8 → UInt8) (fill : UInt8) :
    Option (Vector UInt8 16) :=
  let k := prefixLen.toNat / 8
  if h : k < 16 then
    some ((bytes.set k (edit bytes[k])).mapIdx fun i b => if k + 1 ≤ i then fill else b)
  else none

namespace IpV6Address

def broadcastAddress (a : IpV6Address) (prefixLen : UInt32) : Option IpV6Address := do
  let mask ← CreateMask 1 (prefixLen % 8)
  let addr ← fillFrom a.addr.addr prefixLen (· ||| UInt8.ofNat mask) 0xff
  some ⟨{ a.addr with addr }⟩

def networkAddress (a : IpV6Address) (prefixLen : UInt32) : Option IpV6Address := do
  let mask ← CreateMask 1 (prefixLen % 8)
  let addr ← fillFrom a.addr.addr prefixLen (· &&& UInt8.ofNat mask) 0x00
  some ⟨{ a.addr with addr }⟩

def subnetMask (_ : IpV6Address) (prefixLen : UInt32) : Option IpV6Address := do
  let mask ← CreateMask 1 (prefixLen % 8)
  let addr ← fillFrom (Vector.replicate 16 0) prefixLen (fun _ => ~~~UInt8.ofNat mask) 0xff
  some ⟨{ family := AF_INET6, port := 0, flowinfo := 0, addr, scopeId := 0 }⟩

end IpV6Address

theorem CreateMask_eq {size : Nat} {bits : UInt32} (hbits : bits.toNat ≤ 8 * size)
    (hsize : size ≤ 4) :
    CreateMask size bits =
      if 8 * size - bits.toNat < 32 then some ((2 ^ (8 * size - bits.toNat) - 1) % 2 ^ (8 * size))
      else none := by
  have hshift : (size * 8 + 2 ^ 64 - bits.toNat) % 2 ^ 64 = 8 * size - bits.toNat := by
    omega
  rw [CreateMask, hshift]
  split
  · rename_i hlt
    have hmask : (1#32 <<< (8 * size - bits.toNat) - 1#32).toNat =
        2 ^ (8 * size - bits.toNat) - 1 := by
      have hpow := Nat.pow_lt_pow_right (by decide : 1 < 2) hlt
      have hpos := Nat.two_pow_pos (8 * size - bits.toNat)
      rw [BitVec.toNat_sub, BitVec.toNat_shiftLeft, BitVec.toNat_ofNat, Nat.shiftLeft_eq]
      omega
    rw [hmask]
  · rfl

theorem getLsbD_byteswapOnLittleEndian (v : UInt32) {i : Nat} (hi : i < 32) :
    (byteswapOnLittleEndian v).toBitVec.getLsbD i =
      v.toBitVec.getLsbD (8 * (3 - i / 8) + i % 8) := by
  rw [byteswapOnLittleEndian, UInt32.toBitVec_ofNat', BitVec.getLsbD_ofNat, decide_eq_true hi,
    Bool.true_and, testBit_byteswap (n := 4) hi]
  rfl

end Tigerkin.Address
