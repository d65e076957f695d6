/-
# Addresses, masks and gateways

`upnp/igd/wanipc.c`: the checks of an IP configuration, on words in network order. The mask is brought to the order of
the host before it is looked at, but it is compared with bits that are brought there as well, though they have been
made in it. On a little-endian host the mask is thus looked at in the wrong order.

`ipConfig_iff` says for which masks this makes a difference.

An address is a number whose highest octet comes first; `ntohl e a` is the word that stands for it on a host with the
order `e`.
-/
import RouterFirmware.Lib.Bits
import RouterFirmware.Lib.Octets
import RouterFirmware.Netconf.Iptables

namespace Router
namespace Igd
namespace IpConfig

open Octets
open Netconf (Addr)

/-! ### The code -/

/-- The byte order of the host. -/
inductive Endian where
  | big
  | little
deriving DecidableEq

/-- `ntohl(x)`. -/
def ntohl : Endian → BitVec 32 → BitVec 32
  | .big, x => x
  | .little, x => swap x

variable (e : Endian)

/-- `IsValidIPAddress(ip)`. -/
def isValidIPAddress (ip : BitVec 32) : Bool :=
  !(ip == 0#32 || (ip &&& ntohl e 0xFF000000#32) == ntohl e 0x7F000000#32 ||
    decide (ip &&& ntohl e 0xFF000000#32 ≥ ntohl e 0xE0000000#32))

/-- The loop that looks for the first one in `hmask`, with `n` turns left at `i`. -/
def maskLoop (hmask : BitVec 32) : ℕ → ℕ → BitVec 32 → BitVec 32
  | 0, _, dwContiguousMask => dwContiguousMask
  | n + 1, i, dwContiguousMask =>
    let dwContiguousMask := dwContiguousMask ||| ntohl e (1#32 <<< i)
    if dwContiguousMask &&& hmask ≠ 0#32 then dwContiguousMask else maskLoop hmask n (i + 1) dwContiguousMask

/-- `IsContiguousSubnet(mask)`. -/
def isContiguousSubnet (mask : BitVec 32) : Bool :=
  let hmask := ntohl e mask
  let dwContiguousMask := maskLoop e hmask 32 0 0#32
  let dwContiguousMask := hmask ||| ~~~dwContiguousMask
  hmask == dwContiguousMask

/-- `IsValidIPConfig(address, mask, gateway)`. -/
def isValidIPConfig (address mask gateway : BitVec 32) : Bool :=
  if !isValidIPAddress e address || !isValidIPAddress e gateway then false
  else if !isContiguousSubnet e mask then false
  else if address &&& mask ≠ gateway &&& mask then false
  else if address = address &&& mask then false
  else if ~~~mask + (address &&& mask) = address then false
  else true

/-! ### What the checks are for -/

/-- The first of the four numbers of an address. -/
def firstNumber (a : Addr) : ℕ := a.toNat / 2 ^ 24

/-- An address of one host: not 0.0.0.0, no multicast, not reserved and no broadcast. -/
def Unicast (a : Addr) : Prop := a ≠ 0#32 ∧ firstNumber a < 224

def Loopback (a : Addr) : Prop := firstNumber a = 127

instance : DecidablePred Unicast := fun a => inferInstanceAs (Decidable (a ≠ 0#32 ∧ firstNumber a < 224))

instance : DecidablePred Loopback := fun a => inferInstanceAs (Decidable (firstNumber a = 127))

/-- The address of the subnet. -/
def network (a mask : Addr) : Addr := a &&& mask

/-- The address of all hosts of the subnet. -/
def broadcast (a mask : Addr) : Addr := network a mask ||| ~~~mask

/-- The address `a`, the mask `m` and the gateway `g` make sense. -/
structure Sensible (a m g : Addr) : Prop where
  address : Unicast a ∧ ¬Loopback a
  gateway : Unicast g ∧ ¬Loopback g
  mask : Leading m
  subnet : network a m = network g m
  ne_network : a ≠ network a m
  ne_broadcast : a ≠ broadcast a m

/-- The checks say what they are for. -/
structure Judged (a m g : Addr) : Prop where
  mask : isContiguousSubnet e (ntohl e m) = true ↔ Leading m
  config : isValidIPConfig e (ntohl e a) (ntohl e m) (ntohl e g) = true ↔ Sensible a m g

/-! ### Byte order -/

variable {e} {x y : BitVec 32} {a : Addr}

theorem ntohl_inj : ntohl e x = ntohl e y ↔ x = y := by
  cases e with
  | big => exact Iff.rfl
  | little => exact swap_inj

theorem ntohl_zero : ntohl e 0#32 = 0#32 := by cases e <;> rfl

theorem ntohl_and (x y : BitVec 32) : ntohl e (x &&& y) = ntohl e x &&& ntohl e y := by
  cases e with
  | big => rfl
  | little => exact swap_and x y

theorem ntohl_or (x y : BitVec 32) : ntohl e (x ||| y) = ntohl e x ||| ntohl e y := by
  cases e with
  | big => rfl
  | little => exact swap_or x y

theorem ntohl_not (x : BitVec 32) : ntohl e (~~~x) = ~~~ntohl e x := by
  cases e with
  | big => rfl
  | little => exact swap_not x

/-! ### The mask -/

/-- The loop has the order on its outside. -/
theorem maskLoop_ntohl : ∀ (n i : ℕ) (x y : BitVec 32),
    maskLoop e (ntohl e x) n i (ntohl e y) = ntohl e (maskLoop .big x n i y)
  | 0, _, _, _ => rfl
  | n + 1, i, x, y => by
    have hzero : ntohl e (y ||| 1#32 <<< i) &&& ntohl e x ≠ 0#32 ↔ (y ||| 1#32 <<< i) &&& x ≠ 0#32 := by
      rw [← ntohl_and, ← @ntohl_zero e, ne_eq, ne_eq, ntohl_inj, ntohl_zero]
    rw [maskLoop, maskLoop, ← ntohl_or, show ntohl .big (1#32 <<< i) = 1#32 <<< i from rfl, apply_ite (ntohl e),
      ← maskLoop_ntohl n]
    exact if_congr hzero rfl rfl

/-- The loop marks the bits with no one below. -/
theorem getLsbD_maskLoop : ∀ {n i : ℕ} {y : BitVec 32}, i + n = 32 → (∀ j < 32, y.getLsbD j = decide (j < i)) →
    (∀ j < i, x.getLsbD j = false) → ∀ j < 32,
      (maskLoop .big x n i y).getLsbD j = true ↔ ∀ k < j, x.getLsbD k = false
  | 0, i, y, hn, hy, hx, j, hj => by
    rw [maskLoop, hy j hj, decide_eq_true_eq]
    exact ⟨fun hji k hk => hx k (hk.trans hji), fun _ => by omega⟩
  | n + 1, i, y, hn, hy, hx, j, hj => by
    have hor : ∀ k < 32, (y ||| 1#32 <<< i).getLsbD k = decide (k < i + 1) := by
      intro k hk
      rw [BitVec.getLsbD_or, hy k hk, ← BitVec.twoPow_eq, BitVec.getLsbD_twoPow, Bool.eq_iff_iff]
      simp only [Bool.or_eq_true, Bool.and_eq_true, decide_eq_true_eq]
      omega
    have hbit : (y ||| 1#32 <<< i) &&& x ≠ 0#32 ↔ x.getLsbD i = true := by
      constructor
      · intro hne
        by_contra hi
        apply hne
        apply BitVec.eq_of_getLsbD_eq
        intro k hk
        rw [BitVec.getLsbD_and, hor k hk, BitVec.getLsbD_zero, Bool.and_eq_false_iff, decide_eq_false_iff_not]
        rcases Nat.lt_trichotomy k i with hlt | rfl | hgt
        · exact .inr (hx k hlt)
        · exact .inr (Bool.eq_false_of_not_eq_true hi)
        · exact .inl (by omega)
      · intro hi hzero
        have hbit := congrArg (·.getLsbD i) hzero
        simp only [BitVec.getLsbD_and, hor i (by omega), hi, BitVec.getLsbD_zero] at hbit
        simp at hbit
    rw [maskLoop, show ntohl .big (1#32 <<< i) = 1#32 <<< i from rfl]
    by_cases hi : x.getLsbD i = true
    · rw [if_pos (hbit.mpr hi), hor j hj, decide_eq_true_eq]
      constructor
      · exact fun hji k hk => hx k (by omega)
      · intro hbelow
        by_contra hgt
        have hfalse := hbelow i (by omega)
        rw [hi] at hfalse
        cases hfalse
    · rw [if_neg (mt hbit.mp hi)]
      apply getLsbD_maskLoop (by omega) hor _ j hj
      intro k hk
      rcases Nat.lt_succ_iff_lt_or_eq.mp hk with hlt | rfl
      · exact hx k hlt
      · exact Bool.eq_false_of_not_eq_true hi

/-- The mask is looked at as the word that it is, and not as the number that it stands for. -/
theorem isContiguousSubnet_iff {mask : BitVec 32} : isContiguousSubnet e mask = true ↔ Leading mask := by
  have hmarks : ∀ j < 32, (maskLoop .big mask 32 0 0#32).getLsbD j = true ↔ ∀ k < j, mask.getLsbD k = false :=
    getLsbD_maskLoop rfl (fun j _ => by simp) (fun j hj => absurd hj j.not_lt_zero)
  have hfill : isContiguousSubnet e mask = true ↔ mask = mask ||| ~~~maskLoop .big mask 32 0 0#32 := by
    rw [isContiguousSubnet, ← @ntohl_zero e, maskLoop_ntohl, ntohl_zero, ← ntohl_not, ← ntohl_or, beq_iff_eq, ntohl_inj]
  rw [hfill, leading_iff]
  constructor
  · intro h i j hij hj hi
    have hunmarked : (maskLoop .big mask 32 0 0#32).getLsbD j = false := by
      rw [← Bool.not_eq_true, hmarks j hj]
      intro hbelow
      rw [hbelow i hij] at hi
      cases hi
    rw [h, BitVec.getLsbD_or, BitVec.getLsbD_not, hunmarked, decide_eq_true hj]
    exact Bool.or_true _
  · intro hup
    apply BitVec.eq_of_getLsbD_eq
    intro j hj
    rw [BitVec.getLsbD_or, BitVec.getLsbD_not, decide_eq_true hj, Bool.true_and]
    by_cases hmark : (maskLoop .big mask 32 0 0#32).getLsbD j = true
    · rw [hmark]
      exact (Bool.or_false _).symm
    · rw [hmarks j hj] at hmark
      push Not at hmark
      obtain ⟨k, hk, hone⟩ := hmark
      rw [hup k j hk hj (Bool.eq_true_of_not_eq_false hone)]
      rfl

/-! ### Addresses -/

theorem firstNumber_eq (a : Addr) : firstNumber a = (a.extractLsb' 24 8).toNat := by
  have hlt := a.isLt
  rw [firstNumber, BitVec.extractLsb'_toNat, Nat.shiftRight_eq_div_pow]
  omega

theorem and_firstOctet (a : Addr) : a &&& 0xFF000000#32 = a.extractLsb' 24 8 ++ 0#24 := by
  apply BitVec.eq_of_getLsbD_eq
  intro i hi
  rw [BitVec.getLsbD_and, BitVec.getLsbD_append, show 0xFF000000#32 = BitVec.allOnes 32 <<< 24 from rfl,
    BitVec.getLsbD_shiftLeft, BitVec.getLsbD_allOnes, decide_eq_true hi]
  split_ifs with hlow
  · simp [hlow]
  · rw [BitVec.getLsbD_extractLsb', decide_eq_false hlow, decide_eq_true (show i - 24 < 32 by omega),
      decide_eq_true (show i - 24 < 8 by omega), show 24 + (i - 24) = i by omega, Bool.true_and]
    exact Bool.and_true _

/-- In either order, words with nothing but a first octet are in the order of these. -/
theorem toNat_firstOctet (e : Endian) : ∃ k, 0 < k ∧ ∀ o : BitVec 8, (ntohl e (o ++ 0#24)).toNat = o.toNat * k := by
  cases e with
  | big =>
    refine ⟨2 ^ 24, by decide, fun o => ?_⟩
    rw [ntohl, BitVec.toNat_append, BitVec.toNat_zero, Nat.or_zero, Nat.shiftLeft_eq]
  | little =>
    refine ⟨1, by decide, fun o => ?_⟩
    have hswap : swap (o ++ 0#24) = o.setWidth 32 := by
      apply BitVec.eq_of_getLsbD_eq
      intro i hi
      rw [getLsbD_swap hi, BitVec.getLsbD_append, BitVec.getLsbD_setWidth, decide_eq_true hi, Bool.true_and]
      split_ifs with hlow
      · rw [BitVec.getLsbD_zero, BitVec.getLsbD_of_ge _ _ (by omega)]
      · congr 1
        omega
    rw [ntohl, hswap, BitVec.toNat_setWidth, Nat.mul_one]
    exact Nat.mod_eq_of_lt (o.isLt.trans (by decide))

theorem isValidIPAddress_iff : isValidIPAddress e (ntohl e a) = true ↔ Unicast a ∧ ¬Loopback a := by
  obtain ⟨k, hk, hfirst⟩ := toNat_firstOctet e
  have hand : ntohl e a &&& ntohl e 0xFF000000#32 = ntohl e (a.extractLsb' 24 8 ++ 0#24) := by
    rw [← ntohl_and, and_firstOctet]
  have hzero : ntohl e a = 0#32 ↔ a = 0#32 := by
    rw [← @ntohl_zero e, ntohl_inj, ntohl_zero]
  have hloop : ntohl e (a.extractLsb' 24 8 ++ 0#24) = ntohl e 0x7F000000#32 ↔ firstNumber a = 127 := by
    rw [BitVec.toNat_eq, show 0x7F000000#32 = 127#8 ++ 0#24 from rfl, hfirst, hfirst, Nat.mul_left_inj hk.ne',
      firstNumber_eq]
    rfl
  have hhigh : ntohl e (a.extractLsb' 24 8 ++ 0#24) ≥ ntohl e 0xE0000000#32 ↔ 224 ≤ firstNumber a := by
    rw [ge_iff_le, BitVec.le_def, show 0xE0000000#32 = 224#8 ++ 0#24 from rfl, hfirst, hfirst,
      Nat.mul_le_mul_right_iff hk, firstNumber_eq]
    rfl
  rw [isValidIPAddress, hand, Bool.not_eq_true', Bool.or_eq_false_iff, Bool.or_eq_false_iff, beq_eq_false_iff_ne,
    beq_eq_false_iff_ne, decide_eq_false_iff_not, ne_eq, ne_eq, hzero, hloop, hhigh, Unicast, Loopback, not_le]
  tauto

/-! ### Which configurations are judged right -/

/-- But for the mask, all is judged right. -/
theorem isValidIPConfig_iff {m g : Addr} : isValidIPConfig e (ntohl e a) (ntohl e m) (ntohl e g) = true ↔
    (Unicast a ∧ ¬Loopback a) ∧ (Unicast g ∧ ¬Loopback g) ∧ isContiguousSubnet e (ntohl e m) = true ∧
      network a m = network g m ∧ a ≠ network a m ∧ a ≠ broadcast a m := by
  have hnetwork : ∀ b : Addr, ntohl e b &&& ntohl e m = ntohl e (network b m) := fun b => (ntohl_and b m).symm
  have hbroadcast : ~~~ntohl e m + ntohl e (network a m) = ntohl e (broadcast a m) := by
    rw [← hnetwork, Bits.not_add_and, hnetwork, BitVec.or_comm, ← ntohl_not, ← ntohl_or]
    rfl
  rw [isValidIPConfig, hnetwork, hnetwork, hbroadcast, ← @isValidIPAddress_iff e a, ← @isValidIPAddress_iff e g]
  simp only [ntohl_inj, ne_eq]
  cases isValidIPAddress e (ntohl e a)
  · simp
  · cases isValidIPAddress e (ntohl e g)
    · simp
    · cases isContiguousSubnet e (ntohl e m)
      · simp
      · simp [@eq_comm _ (broadcast a m)]

theorem judged_iff_mask {m g : Addr} : Judged e a m g ↔ (Leading (ntohl e m) ↔ Leading m) := by
  constructor
  · intro h
    rw [← h.mask, isContiguousSubnet_iff]
  · intro h
    refine ⟨isContiguousSubnet_iff.trans h, ?_⟩
    rw [isValidIPConfig_iff, isContiguousSubnet_iff, h]
    constructor
    · rintro ⟨haddress, hgateway, hmask, hsubnet, hnetwork, hbroadcast⟩
      exact ⟨haddress, hgateway, hmask, hsubnet, hnetwork, hbroadcast⟩
    · exact fun h => ⟨h.address, h.gateway, h.mask, h.subnet, h.ne_network, h.ne_broadcast⟩

/-- **Which masks are judged right**, in every configuration and on both kinds of hosts. -/
theorem ipConfig_iff (e : Endian) (a m g : Addr) :
    Judged e a m g ↔ e = .big ∨ m = 0#32 ∨ m = BitVec.allOnes 32 ∨ ¬Leading m ∧ ¬Leading (swap m) := by
  rw [judged_iff_mask]
  cases e with
  | big => exact iff_of_true Iff.rfl (.inl rfl)
  | little =>
    rw [or_iff_right (by decide : Endian.little ≠ .big), ntohl]
    constructor
    · intro h
      by_cases hlead : Leading m
      · exact (leading_swap hlead (h.mpr hlead)).elim .inl fun hall => .inr (.inl hall)
      · exact .inr (.inr ⟨hlead, mt h.mp hlead⟩)
    · rintro (rfl | rfl | ⟨hmask, hswap⟩)
      · exact Iff.rfl
      · rw [show swap (BitVec.allOnes 32) = BitVec.allOnes 32 from rfl]
      · exact iff_of_false hswap hmask

/-- The mask 255.255.255.0 on a little-endian host. -/
theorem class_c_refused : Sensible 0xC0A80102#32 0xFFFFFF00#32 0xC0A80101#32 ∧
    isContiguousSubnet .little (ntohl .little 0xFFFFFF00#32) = false ∧
    isValidIPConfig .little (ntohl .little 0xC0A80102#32) (ntohl .little 0xFFFFFF00#32) (ntohl .little 0xC0A80101#32) =
      false ∧ ¬Judged .little 0xC0A80102#32 0xFFFFFF00#32 0xC0A80101#32 := by
  have hsensible : Sensible 0xC0A80102#32 0xFFFFFF00#32 0xC0A80101#32 := by
    constructor
    · decide
    · decide
    · exact ⟨24, by decide⟩
    · rfl
    · decide
    · decide
  have hmask : isContiguousSubnet .little (ntohl .little 0xFFFFFF00#32) = false := by decide
  refine ⟨hsensible, hmask, by decide, fun h => ?_⟩
  have htrue := h.mask.mpr hsensible.mask
  rw [hmask] at htrue
  cases htrue

end IpConfig
end Igd
end Router
