import Tigerkin.Address.Basic

/-! # Subnets of IPv6 addresses

`networkAddress` takes the mask of the host part for that of the network part, as for IPv4, and
`subnetMask` fills the bytes after the prefix and leaves those before it. -/

namespace Tigerkin.Address.IpV6Address

/-- The bit `r` of the byte `q`, from the first of each. -/
def bitAt (bytes : Vector UInt8 16) (q r : Nat) : Bool :=
  (bytes[q]?.getD 0).toBitVec.getLsbD (7 - r)

def bit (a : IpV6Address) (i : Nat) : Bool := bitAt a.addr.addr (i / 8) (i % 8)

/-- A result that is defined, with the bits `f`. -/
def HasBits (result : Option IpV6Address) (f : Nat → Bool) : Prop :=
  ∃ m, result = some m ∧ ∀ i < 128, m.bit i = f i

def MaskRight (a : IpV6Address) (p : UInt32) : Prop :=
  HasBits (a.subnetMask p) fun i => decide (i < p.toNat)

def NetworkRight (a : IpV6Address) (p : UInt32) : Prop :=
  HasBits (a.networkAddress p) fun i => decide (i < p.toNat) && a.bit i

def BroadcastRight (a : IpV6Address) (p : UInt32) : Prop :=
  HasBits (a.broadcastAddress p) fun i => !decide (i < p.toNat) || a.bit i

/-- What the three functions are for. The results are there: every index is below 16. -/
structure SubnetAlgebra (a : IpV6Address) (p : UInt32) : Prop where
  mask : MaskRight a p
  network : NetworkRight a p
  broadcast : BroadcastRight a p

/-! ## The masks -/

/-- The mask of the host part in the byte with the end of the prefix. -/
def hostMask (p : UInt32) : UInt8 := UInt8.ofNat (2 ^ (8 - p.toNat % 8) - 1)

theorem CreateMask_byte (p : UInt32) :
    ∃ mask, CreateMask 1 (p % 8) = some mask ∧ UInt8.ofNat mask = hostMask p := by
  have hmod : (p % 8).toNat = p.toNat % 8 := UInt32.toNat_mod ..
  refine ⟨_, (CreateMask_eq (by omega) (by decide)).trans (if_pos (by omega)), ?_⟩
  apply UInt8.toNat.inj
  rw [hmod, hostMask, UInt8.toNat_ofNat', UInt8.toNat_ofNat', Nat.mod_mod]

variable {a : IpV6Address} {p : UInt32} {r : Nat}

theorem hostMask_bit (hr : r < 8) :
    (hostMask p).toBitVec.getLsbD (7 - r) = !decide (r < p.toNat % 8) := by
  have hj : 7 - r < 8 := by omega
  rw [hostMask, UInt8.toBitVec_ofNat', BitVec.getLsbD_ofNat, decide_eq_true hj, Bool.true_and,
    Nat.testBit_two_pow_sub_one, ← decide_not, decide_eq_decide]
  omega

theorem ones_bit (hr : r < 8) : (0xff : UInt8).toBitVec.getLsbD (7 - r) = true := by
  revert r
  decide

theorem zeros_bit : (0x00 : UInt8).toBitVec.getLsbD (7 - r) = false := BitVec.getLsbD_zero

/-! ## The bytes that are filled -/

variable {bytes : Vector UInt8 16} {edit : UInt8 → UInt8} {fill : UInt8}

theorem fillFrom_eq_none (hp : 128 ≤ p.toNat) : fillFrom bytes p edit fill = none :=
  dif_neg (by omega)

variable (bytes edit fill) in
theorem fillFrom_bits (hp : p.toNat < 128) :
    ∃ v, fillFrom bytes p edit fill = some v ∧ ∀ q < 16, ∀ r, bitAt v q r =
      if q < p.toNat / 8 then bitAt bytes q r
      else if q = p.toNat / 8 then (edit (bytes[q]?.getD 0)).toBitVec.getLsbD (7 - r)
      else fill.toBitVec.getLsbD (7 - r) := by
  have hk : p.toNat / 8 < 16 := by omega
  refine ⟨_, dif_pos hk, fun q hq r => ?_⟩
  rw [bitAt, bitAt, Vector.getElem?_eq_getElem hq, Vector.getElem?_eq_getElem hq, Option.getD_some,
    Option.getD_some, Vector.getElem_mapIdx, Vector.getElem_set]
  rcases Nat.lt_trichotomy q (p.toNat / 8) with hlt | rfl | hgt
  · rw [if_neg (by omega), if_neg (by omega), if_pos hlt]
  · rw [if_neg (by omega), if_pos rfl, if_neg (by omega), if_pos rfl]
  · rw [if_pos (by omega), if_neg (by omega), if_neg (by omega)]

/-- The bits of the prefix, byte by byte. -/
theorem prefix_bit {q r : Nat} (hr : r < 8) : decide (8 * q + r < p.toNat) =
    (decide (q < p.toNat / 8) || decide (q = p.toNat / 8) && decide (r < p.toNat % 8)) := by
  rw [← Bool.decide_and, ← Bool.decide_or, decide_eq_decide]
  omega

theorem hasBits_iff {result : Option IpV6Address} {f : Nat → Bool} :
    HasBits result f ↔
      ∃ m, result = some m ∧ ∀ q < 16, ∀ r < 8, bitAt m.addr.addr q r = f (8 * q + r) := by
  refine exists_congr fun m => and_congr_right fun _ => ⟨fun h q hq r hr => ?_, fun h i hi => ?_⟩
  · have hbit := h (8 * q + r) (by omega)
    have hplace : (8 * q + r) / 8 = q ∧ (8 * q + r) % 8 = r := by omega
    rwa [bit, hplace.1, hplace.2] at hbit
  · rw [bit, h (i / 8) (by omega) (i % 8) (by omega), Nat.div_add_mod]

theorem bit_place {q r : Nat} (hr : r < 8) : a.bit (8 * q + r) = bitAt a.addr.addr q r := by
  have hplace : (8 * q + r) / 8 = q ∧ (8 * q + r) % 8 = r := by omega
  rw [bit, hplace.1, hplace.2]

/-! ## The three functions -/

theorem broadcastRight_iff : BroadcastRight a p ↔ p.toNat < 128 := by
  obtain ⟨mask, hmask, heq⟩ := CreateMask_byte p
  rw [BroadcastRight, hasBits_iff]
  constructor
  · rintro ⟨m, hm, -⟩
    by_contra hp
    simp only [broadcastAddress, hmask, Option.bind_eq_bind, Option.bind_some,
      fillFrom_eq_none (Nat.le_of_not_lt hp)] at hm
    cases hm
  · intro hp
    obtain ⟨v, hv, hbits⟩ := fillFrom_bits a.addr.addr (· ||| UInt8.ofNat mask) 0xff hp
    refine ⟨_, by rw [broadcastAddress, hmask, Option.bind_eq_bind, Option.bind_some, hv]; rfl,
      fun q hq r hr => ?_⟩
    rw [hbits q hq, heq, UInt8.toBitVec_or, BitVec.getLsbD_or, hostMask_bit hr, ones_bit hr,
      prefix_bit hr, bit_place hr, bitAt]
    rcases Nat.lt_trichotomy q (p.toNat / 8) with hlt | rfl | hgt
    · simp [hlt]
    · simp [Bool.or_comm]
    · simp [Nat.lt_asymm hgt, Nat.ne_of_gt hgt]

/-- The byte with the end of the prefix keeps its host part, and no other. -/
theorem networkRight_iff :
    NetworkRight a p ↔ p.toNat < 128 ∧ a.addr.addr[p.toNat / 8]?.getD 0 = 0 := by
  obtain ⟨mask, hmask, heq⟩ := CreateMask_byte p
  rw [NetworkRight, hasBits_iff]
  by_cases hp : p.toNat < 128
  · obtain ⟨v, hv, hbits⟩ := fillFrom_bits a.addr.addr (· &&& UInt8.ofNat mask) 0x00 hp
    have hresult : a.networkAddress p = some ⟨{ a.addr with addr := v }⟩ := by
      rw [networkAddress, hmask, Option.bind_eq_bind, Option.bind_some, hv]
      rfl
    simp only [heq, UInt8.toBitVec_and, BitVec.getLsbD_and] at hbits
    constructor
    · rintro ⟨m, hm, hright⟩
      cases hresult.symm.trans hm
      refine ⟨hp, UInt8.toBitVec_inj.mp (BitVec.eq_of_getLsbD_eq fun j hj => ?_)⟩
      have hr : 7 - j < 8 := by omega
      have hbit := (hbits (p.toNat / 8) (by omega) (7 - j)).symm.trans
        (hright (p.toNat / 8) (by omega) (7 - j) hr)
      rw [if_neg (Nat.lt_irrefl _), if_pos rfl, hostMask_bit hr, prefix_bit hr, bit_place hr, bitAt,
        decide_eq_false (Nat.lt_irrefl _), decide_eq_true rfl, Nat.sub_sub_self (by omega)] at hbit
      have hzero : (0 : UInt8).toBitVec.getLsbD j = false := BitVec.getLsbD_zero
      rw [hzero]
      cases hx : (a.addr.addr[p.toNat / 8]?.getD 0).toBitVec.getLsbD j with
      | false => rfl
      | true =>
        rw [hx] at hbit
        cases hin : decide (7 - j < p.toNat % 8) <;> rw [hin] at hbit <;> cases hbit
    · rintro ⟨-, hzero⟩
      refine ⟨_, hresult, fun q hq r hr => ?_⟩
      rw [hbits q hq, hostMask_bit hr, zeros_bit, prefix_bit hr, bit_place hr, bitAt]
      rcases Nat.lt_trichotomy q (p.toNat / 8) with hlt | rfl | hgt
      · simp [hlt]
      · simp [hzero]
      · simp [Nat.lt_asymm hgt, Nat.ne_of_gt hgt]
  · refine iff_of_false ?_ fun h => hp h.1
    rintro ⟨m, hm, -⟩
    simp only [networkAddress, hmask, Option.bind_eq_bind, Option.bind_some,
      fillFrom_eq_none (Nat.le_of_not_lt hp)] at hm
    cases hm

/-- The mask has the bytes after the prefix, and lacks those before it: the first and the last byte
are not both right. -/
theorem not_maskRight (a : IpV6Address) (p : UInt32) : ¬MaskRight a p := by
  obtain ⟨mask, hmask, -⟩ := CreateMask_byte p
  rw [MaskRight, hasBits_iff]
  rintro ⟨m, hm, hright⟩
  by_cases hp : p.toNat < 128
  · obtain ⟨v, hv, hbits⟩ := fillFrom_bits (Vector.replicate 16 0)
      (fun _ => ~~~UInt8.ofNat mask) 0xff hp
    simp only [subnetMask, hmask, Option.bind_eq_bind, Option.bind_some, hv] at hm
    cases hm
    by_cases hlast : p.toNat / 8 < 15
    · have hbit := (hbits 15 (by decide) 0).symm.trans (hright 15 (by decide) 0 (by decide))
      rw [if_neg (by omega), if_neg (by omega), decide_eq_false (by omega)] at hbit
      cases hbit
    · have hbit := (hbits 0 (by decide) 0).symm.trans (hright 0 (by decide) 0 (by decide))
      rw [if_pos (by omega), decide_eq_true (by omega)] at hbit
      cases hbit
  · simp only [subnetMask, hmask, Option.bind_eq_bind, Option.bind_some,
      fillFrom_eq_none (Nat.le_of_not_lt hp)] at hm
    cases hm

/-- **The subnet algebra of IPv6** holds for no address and no prefix length. The broadcast address
is right below the length 128, where the index leaves the array; the network address is right only
if the byte with the end of the prefix is 0. -/
theorem not_subnetAlgebra (a : IpV6Address) (p : UInt32) :
    ¬SubnetAlgebra a p ∧ ¬MaskRight a p ∧
      (NetworkRight a p ↔ p.toNat < 128 ∧ a.addr.addr[p.toNat / 8]?.getD 0 = 0) ∧
      (BroadcastRight a p ↔ p.toNat < 128) :=
  ⟨fun h => not_maskRight a p h.mask, not_maskRight a p, networkRight_iff, broadcastRight_iff⟩

def loopback : IpV6Address :=
  ⟨⟨AF_INET6, 80, 0, #v[0, 0, 0, 0, 0, 0, 0, 0, 0, 0, 0, 0, 0, 0, 0, 1], 0⟩⟩

/-- The mask of the length 64 is `::ff:ffff:ffff:ffff`, and that of the length 128 leaves the
array. -/
theorem loopback_subnets :
    loopback.subnetMask 64 = some ⟨⟨AF_INET6, 0, 0,
      #v[0, 0, 0, 0, 0, 0, 0, 0, 0, 0xff, 0xff, 0xff, 0xff, 0xff, 0xff, 0xff], 0⟩⟩ ∧
      loopback.subnetMask 128 = none ∧ ¬SubnetAlgebra loopback 64 := by
  have hmask : loopback.subnetMask 64 = some ⟨⟨AF_INET6, 0, 0,
      #v[0, 0, 0, 0, 0, 0, 0, 0, 0, 0xff, 0xff, 0xff, 0xff, 0xff, 0xff, 0xff], 0⟩⟩ := by
    decide +kernel
  refine ⟨hmask, by decide +kernel, fun h => ?_⟩
  obtain ⟨m, hm, hbits⟩ := h.mask
  cases hmask.symm.trans hm
  exact absurd (hbits 0 (by decide)) (by decide +kernel)

end Tigerkin.Address.IpV6Address
