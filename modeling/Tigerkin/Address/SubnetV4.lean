import Tigerkin.Address.Basic

/-! # Subnets of IPv4 addresses

`CreateMask` has the bits of the host part. `subnetMask` and `broadcastAddress` use it as such, and
`networkAddress` takes it for the mask of the network part. For the prefix length 0 the shift is
not defined. -/

namespace Tigerkin.Address.IpV4Address

/-- The mask of the host part. -/
def hostMask (p : UInt32) : UInt32 :=
  byteswapOnLittleEndian (UInt32.ofNat ((2 ^ (32 - p.toNat) - 1) % 2 ^ 32))

/-- An address with `p` leading one bits and zeros after them. -/
def IsMask (p : UInt32) (m : IpV4Address) : Prop :=
  ∀ i < 32, (byteswapOnLittleEndian m.addr.addr).toBitVec.getMsbD i = decide (i < p.toNat)

/-- What the three functions are for. The results are there: no shift reaches the width of `int`. -/
structure SubnetAlgebra (a : IpV4Address) (p : UInt32) (m n b : IpV4Address) : Prop where
  subnetMask : a.subnetMask p = some m
  isMask : IsMask p m
  networkAddress : a.networkAddress p = some (some n)
  network : n.addr = { a.addr with addr := a.addr.addr &&& m.addr.addr }
  broadcastAddress : a.broadcastAddress p = some (some b)
  broadcast : b.addr = { a.addr with addr := a.addr.addr ||| ~~~m.addr.addr }
  networkAgain : n.networkAddress p = some (some n)
  broadcastAgain : b.broadcastAddress p = some (some b)

variable {a : IpV4Address} {p : UInt32}

theorem CreateMask_zero : CreateMask 4 0 = none := rfl

theorem CreateMask_pos (hp : p ≤ 32) (h0 : p ≠ 0) :
    CreateMask 4 p = some ((2 ^ (32 - p.toNat) - 1) % 2 ^ 32) := by
  have hle : p.toNat ≤ 32 := UInt32.le_iff_toNat_le.mp hp
  have hpos : 0 < p.toNat := Nat.pos_of_ne_zero fun h => h0 (UInt32.toNat.inj h)
  rw [CreateMask_eq hle (by decide), if_pos (by omega)]

theorem getLsbD_hostMask (p : UInt32) {i : Nat} (hi : i < 32) :
    (byteswapOnLittleEndian (hostMask p)).toBitVec.getLsbD i = decide (i < 32 - p.toNat) := by
  have hindex : 8 * (3 - (8 * (3 - i / 8) + i % 8) / 8) + (8 * (3 - i / 8) + i % 8) % 8 = i := by
    omega
  rw [getLsbD_byteswapOnLittleEndian _ hi, hostMask, getLsbD_byteswapOnLittleEndian _ (by omega),
    hindex, UInt32.toBitVec_ofNat', BitVec.getLsbD_ofNat, Nat.testBit_mod_two_pow,
    Nat.testBit_two_pow_sub_one, decide_eq_true hi, Bool.true_and, Bool.true_and]

theorem subnetMask_eq (hp : p ≤ 32) (h0 : p ≠ 0) (a : IpV4Address) :
    a.subnetMask p = some ⟨⟨AF_INET, 0, ~~~hostMask p, 0⟩⟩ := by
  rw [subnetMask, CreateMask_pos hp h0]
  rfl

theorem broadcastAddress_eq (hp : p ≤ 32) (h0 : p ≠ 0) (a : IpV4Address) :
    a.broadcastAddress p =
      some (some ⟨{ a.addr with addr := a.addr.addr ||| hostMask p }⟩) := by
  rw [broadcastAddress, if_neg (UInt32.not_lt.mpr hp), CreateMask_pos hp h0]
  rfl

theorem networkAddress_eq (hp : p ≤ 32) (h0 : p ≠ 0) (a : IpV4Address) :
    a.networkAddress p = some (some ⟨{ a.addr with addr := a.addr.addr &&& hostMask p }⟩) := by
  rw [networkAddress, if_neg (UInt32.not_lt.mpr hp), CreateMask_pos hp h0]
  rfl

theorem subnetMask_isMask (hp : p ≤ 32) :
    IsMask p ⟨⟨AF_INET, 0, ~~~hostMask p, 0⟩⟩ := by
  intro i hi
  have hle : p.toNat ≤ 32 := UInt32.le_iff_toNat_le.mp hp
  have hhost := getLsbD_hostMask p (i := 31 - i) (by omega)
  rw [getLsbD_byteswapOnLittleEndian _ (by omega)] at hhost
  rw [BitVec.getMsbD, decide_eq_true hi, Bool.true_and, getLsbD_byteswapOnLittleEndian _ (by omega)]
  have hbit : 8 * (3 - (32 - 1 - i) / 8) + (32 - 1 - i) % 8 < 32 := by omega
  rw [UInt32.toBitVec_not, BitVec.getLsbD_not, decide_eq_true hbit, Bool.true_and, hhost,
    ← decide_not, decide_eq_decide]
  omega

theorem and_eq_and_not_iff {x m : UInt32} : x &&& m = x &&& ~~~m ↔ x = 0 := by
  constructor
  · intro h
    apply UInt32.toBitVec_inj.mp
    apply BitVec.eq_of_getLsbD_eq
    intro i hi
    have hbit := congrArg (fun v => v.toBitVec.getLsbD i) h
    simp only [UInt32.toBitVec_and, UInt32.toBitVec_not, BitVec.getLsbD_and, BitVec.getLsbD_not,
      decide_eq_true hi, Bool.true_and] at hbit
    have hzero : (0 : UInt32).toBitVec.getLsbD i = false := BitVec.getLsbD_zero
    rw [hzero]
    cases hx : x.toBitVec.getLsbD i with
    | false => rfl
    | true =>
      rw [hx] at hbit
      cases hm : m.toBitVec.getLsbD i <;> rw [hm] at hbit <;> cases hbit
  · rintro rfl
    rw [UInt32.zero_and, UInt32.zero_and]

/-- **The subnet algebra of IPv4** holds for the address 0 only: the mask and the broadcast address
are right for every other address too, and the network address is not. -/
theorem subnetAlgebra_iff (hp : p ≤ 32) :
    (∃ m n b, SubnetAlgebra a p m n b) ↔ p ≠ 0 ∧ a.addr.addr = 0 := by
  constructor
  · rintro ⟨m, n, b, h⟩
    have h0 : p ≠ 0 := by
      rintro rfl
      cases h.subnetMask
    have hm := h.subnetMask
    have hn := h.networkAddress
    rw [subnetMask_eq hp h0] at hm
    rw [networkAddress_eq hp h0] at hn
    cases hm
    cases hn
    exact ⟨h0, and_eq_and_not_iff.mp (congrArg SockaddrIn.addr h.network)⟩
  · rintro ⟨h0, hzero⟩
    have hnot : ~~~(~~~hostMask p) = hostMask p := UInt32.not_not
    refine ⟨_, _, _, subnetMask_eq hp h0 a, subnetMask_isMask hp, networkAddress_eq hp h0 a, ?_,
      broadcastAddress_eq hp h0 a, ?_, ?_, ?_⟩
    · dsimp only
      rw [and_eq_and_not_iff.mpr hzero]
    · dsimp only
      rw [hnot]
    · rw [networkAddress_eq hp h0]
      dsimp only
      rw [UInt32.and_assoc, UInt32.and_self]
    · rw [broadcastAddress_eq hp h0]
      dsimp only
      rw [UInt32.or_assoc, UInt32.or_self]

theorem subnetAlgebra_iff_any :
    ∃ m n b, SubnetAlgebra ⟨⟨AF_INET, 80, 0, 0⟩⟩ 24 m n b :=
  (subnetAlgebra_iff (by decide)).mpr (by decide)

/-- The network address of 192.168.1.10/24 is 0.0.0.10, and there is no mask of the length 0. -/
theorem networkAddress_host :
    networkAddress ⟨⟨AF_INET, 80, 0x0A01A8C0, 0⟩⟩ 24 = some (some ⟨⟨AF_INET, 80, 0x0A000000, 0⟩⟩) ∧
      subnetMask ⟨⟨AF_INET, 80, 0x0A01A8C0, 0⟩⟩ 24 = some ⟨⟨AF_INET, 0, 0x00FFFFFF, 0⟩⟩ ∧
      (¬∃ m n b, SubnetAlgebra ⟨⟨AF_INET, 80, 0x0A01A8C0, 0⟩⟩ 24 m n b) ∧
      subnetMask ⟨⟨AF_INET, 80, 0x0A01A8C0, 0⟩⟩ 0 = none := by
  have hn : networkAddress ⟨⟨AF_INET, 80, 0x0A01A8C0, 0⟩⟩ 24 =
      some (some ⟨⟨AF_INET, 80, 0x0A000000, 0⟩⟩) := by
    decide +kernel
  have hm : subnetMask ⟨⟨AF_INET, 80, 0x0A01A8C0, 0⟩⟩ 24 =
      some ⟨⟨AF_INET, 0, 0x00FFFFFF, 0⟩⟩ := by
    decide +kernel
  refine ⟨hn, hm, ?_, rfl⟩
  rintro ⟨m, n, b, h⟩
  cases hm.symm.trans h.subnetMask
  cases hn.symm.trans h.networkAddress
  exact absurd h.network (by decide)

end Tigerkin.Address.IpV4Address
