/-
# Addresses in rules

What `iptables.c` reads behind `-s` and `-d`, and the two functions of `router/rc/firewall_ex.c` that print it.

`iprange_ex_conv` writes a 0 for each `*` and counts them, so the stars have to be the last components (`exact_iff`).
`ip2class` compares the mask in the order of the host with two numbers. One of them lacks a digit, and the other is the
mask of a class B network on a big-endian host only (`covers_iff`).

Left out are the names of hosts and networks, which are looked up when a text is no address, and what is read behind the
end of a text that fills its buffer.
-/
import RouterFirmware.Igd.IpConfig
import RouterFirmware.Nvparse.RoundTrip
import RouterFirmware.Rc.Firewall

namespace Router
namespace Rc
namespace Addresses

open CMem CText Netconf Octets
open Igd.IpConfig (Endian ntohl ntohl_and)
open Nvram (VarMap)
open Nvparse (Libc Undef nvramSafeGet numbered cut dottedLibc)

/-! ### `iptables.c` -/

/-- `strtol(s, &end, 0)`: the number, and what is left. -/
def strtol (s : Bytes) : ℤ × Bytes :=
  let t := sign (s.dropWhile isSpace)
  let b := baseOf t.2
  let digits := b.2.takeWhile fun c => digitOf c < b.1
  if digits = [] then (0, s)
  else
    let n : ℤ := digits.foldl (fun n c => b.1 * n + digitOf c) 0
    (max (-2 ^ 31) (min (if t.1 then -n else n) (2 ^ 31 - 1)), b.2.drop digits.length)

/-- `string_to_number(s, 0, max, &ret)`, for a `max` that is small. -/
def stringToNumber (s : Bytes) (max : ℕ) : Option ℕ :=
  let r := strtol s
  if r.2 = [] ∧ s ≠ [] ∧ 0 ≤ r.1 ∧ r.1 ≤ max then some r.1.toNat else none

def onebyte (s : Bytes) : Option (BitVec 8) := (stringToNumber s 255).map (BitVec.ofNat 8)

/-- `dotted_to_addr(dotted)`. -/
def dottedToAddr (dotted : Bytes) : Option Addr := do
  let (p, s) ← cut "." (dotted.take 19)
  let b0 ← onebyte p
  let (p, s) ← cut "." s
  let b1 ← onebyte p
  let (p, s) ← cut "." s
  let b2 ← onebyte p
  let b3 ← onebyte s
  some (b0 ++ b1 ++ b2 ++ b3)

/-- `bits` ones, followed by zeros. -/
def ones (bits : ℕ) : Addr := 0xFFFFFFFF#32 <<< (32 - bits)

/-- `parse_mask(mask)`. -/
def parseMask : Option Bytes → Option Addr
  | none => some 0xFFFFFFFF#32
  | some mask => dottedToAddr mask <|> (stringToNumber mask 32).map fun bits => if bits ≠ 0 then ones bits else 0#32

/-- `parse_hostnetworkmask(name, &addr, &mask, &naddrs)`, where the name is an address. -/
def parseHostnetworkmask (name : Bytes) : Option (Addr × Addr) := do
  let buf := name.take 255
  -- the last slash
  let (p, front) := strsep (bytes "/") buf.reverse
  let mask ← parseMask (front.map fun _ => p.reverse)
  let addr ← dottedToAddr (if mask = 0#32 then bytes "0.0.0.0" else (front.map List.reverse).getD buf)
  some (addr &&& mask, mask)

/-- `ip_packet_match`: which addresses have what is read in a text. -/
def readsAddr (text : Bytes) (a : Addr) : Bool := (parseHostnetworkmask text).any fun r => a &&& r.2 == r.1

/-! ### Numbers and addresses that were printed -/

theorem stringToNumber_byte : ∀ n : Fin 256, stringToNumber (decimal n) 255 = some n.val := by
  decide +kernel

theorem stringToNumber_bits : ∀ n : Fin 33, stringToNumber (decimal n) 32 = some n.val := by
  decide +kernel

theorem onebyte_decimal (b : BitVec 8) : onebyte (decimal b.toNat) = some b := by
  rw [onebyte, stringToNumber_byte ⟨b.toNat, b.isLt⟩, Option.map_some, BitVec.ofNat_toNat, BitVec.setWidth_eq]

/-- The octets of an address, the highest first. -/
def octet (a : Addr) (i : Fin 4) : BitVec 8 := a.extractLsb' (24 - 8 * i.val) 8

/-- The address with these octets. -/
def ofOctets (o : Fin 4 → BitVec 8) : Addr := o 0 ++ o 1 ++ o 2 ++ o 3

/-- A bit of an octet is a bit of the address. -/
theorem getLsbD_octet (a : Addr) (i : Fin 4) {r : ℕ} (hr : r < 8) :
    (octet a i).getLsbD r = a.getLsbD (24 - 8 * i.val + r) := by
  rw [octet, BitVec.getLsbD_extractLsb', decide_eq_true hr, Bool.true_and]

theorem ofOctets_octet (a : Addr) : ofOctets (octet a) = a := by
  apply BitVec.eq_of_getLsbD_eq
  intro j hj
  unfold ofOctets
  simp only [BitVec.getLsbD_append]
  split_ifs with h1 h2 h3
  -- the octets, the lowest first
  · rw [getLsbD_octet a 3 h1]
    exact congrArg _ (by simp)
  · rw [getLsbD_octet a 2 h2]
    exact congrArg _ (by simp; omega)
  · rw [getLsbD_octet a 1 h3]
    exact congrArg _ (by simp; omega)
  · rw [getLsbD_octet a 0 (by omega)]
    exact congrArg _ (by simp; omega)

theorem octet_ofOctets (o : Fin 4 → BitVec 8) (i : Fin 4) : octet (ofOctets o) i = o i := by
  apply BitVec.eq_of_getLsbD_eq
  intro r hr
  rw [getLsbD_octet _ i hr]
  unfold ofOctets
  simp only [BitVec.getLsbD_append]
  fin_cases i <;> dsimp only
  · rw [if_neg (by omega), if_neg (by omega), if_neg (by omega), show 24 - 8 * 0 + r - 8 - 8 - 8 = r by omega]
    rfl
  · rw [if_neg (by omega), if_neg (by omega), if_pos (by omega), show 24 - 8 * 1 + r - 8 - 8 = r by omega]
    rfl
  · rw [if_neg (by omega), if_pos (by omega), show 24 - 8 * 2 + r - 8 = r by omega]
    rfl
  · rw [if_pos (by omega), show 24 - 8 * 3 + r = r by omega]
    rfl

theorem toNat_octet (a : Addr) (i : Fin 4) : (octet a i).toNat = a.toNat / 2 ^ (24 - 8 * i.val) % 2 ^ 8 := by
  rw [octet, BitVec.extractLsb'_toNat, Nat.shiftRight_eq_div_pow]

theorem inetNtoa_eq (a : Addr) : inetNtoa a = decimal (octet a 0).toNat ++ (bytes "." ++
    (decimal (octet a 1).toNat ++ (bytes "." ++ (decimal (octet a 2).toNat ++ (bytes "." ++
      decimal (octet a 3).toNat))))) := by
  have htop : a.toNat / 2 ^ 24 = a.toNat / 2 ^ 24 % 2 ^ 8 := by
    have hlt := a.isLt
    omega
  have hlow : a.toNat % 256 = a.toNat / 2 ^ 0 % 2 ^ 8 := by omega
  unfold inetNtoa
  rw [htop, hlow]
  simp only [toNat_octet, List.append_assoc]
  rfl

theorem length_decimal_byte (b : BitVec 8) : (decimal b.toNat).length ≤ 3 :=
  length_decimal_le (k := 2) (b.isLt.trans (by decide))

theorem length_inetNtoa (a : Addr) : (inetNtoa a).length ≤ 15 := by
  have h0 := length_decimal_byte (octet a 0)
  have h1 := length_decimal_byte (octet a 1)
  have h2 := length_decimal_byte (octet a 2)
  have h3 := length_decimal_byte (octet a 3)
  rw [inetNtoa_eq]
  simp only [List.length_append, show (bytes ".").length = 1 from rfl]
  omega

/-- An address is read as it was printed. -/
theorem dottedToAddr_inetNtoa (a : Addr) : dottedToAddr (inetNtoa a) = some a := by
  have hdot : ∀ n, Nvparse.Without "." (decimal n) := Nvparse.without_decimal (by decide)
  unfold dottedToAddr
  rw [List.take_of_length_le ((length_inetNtoa a).trans (by decide)), inetNtoa_eq,
    Nvparse.cut_append (c := 46) _ rfl (by decide) (hdot _)]
  simp only [Option.bind_eq_bind, Option.bind_some, onebyte_decimal]
  rw [Nvparse.cut_append (c := 46) _ rfl (by decide) (hdot _)]
  simp only [Option.bind_some, onebyte_decimal]
  rw [Nvparse.cut_append (c := 46) _ rfl (by decide) (hdot _)]
  simp only [Option.bind_some, onebyte_decimal]
  exact congrArg some (ofOctets_octet a)

/-! ### Addresses and networks -/

theorem getLsbD_ones (n : ℕ) {j : ℕ} (hj : j < 32) : (ones n).getLsbD j = decide (32 - n ≤ j) := by
  have hall : (0xFFFFFFFF#32 : Addr) = BitVec.allOnes 32 := rfl
  rw [ones, hall, BitVec.getLsbD_shiftLeft, BitVec.getLsbD_allOnes, decide_eq_true hj,
    decide_eq_true (show j - (32 - n) < 32 by omega), Bool.true_and, Bool.and_true, ← decide_not]
  exact decide_eq_decide.mpr Nat.not_lt

/-- The same network, bit by bit. -/
theorem and_ones (n : ℕ) (a v : Addr) :
    a &&& ones n = v &&& ones n ↔ ∀ j < 32, 32 - n ≤ j → a.getLsbD j = v.getLsbD j := by
  constructor
  · intro h j hj hnj
    have hbit := congrArg (fun x => x.getLsbD j) h
    simp only [BitVec.getLsbD_and, getLsbD_ones n hj, decide_eq_true hnj, Bool.and_true] at hbit
    exact hbit
  · intro h
    apply BitVec.eq_of_getLsbD_eq
    intro j hj
    rw [BitVec.getLsbD_and, BitVec.getLsbD_and, getLsbD_ones n hj]
    by_cases hnj : 32 - n ≤ j
    · rw [h j hj hnj]
    · rw [decide_eq_false hnj, Bool.and_false, Bool.and_false]

/-- The same network, if it has whole octets. -/
theorem and_ones_octets {m : ℕ} (hm : m ≤ 4) (a v : Addr) :
    a &&& ones (8 * m) = v &&& ones (8 * m) ↔ ∀ i : Fin 4, i.val < m → octet a i = octet v i := by
  rw [and_ones]
  constructor
  · intro h i hi
    apply BitVec.eq_of_getLsbD_eq
    intro r hr
    rw [getLsbD_octet a i hr, getLsbD_octet v i hr]
    exact h _ (by omega) (by omega)
  · intro h j hj hmj
    have hr : j % 8 < 8 := Nat.mod_lt j (by decide)
    have hbit := congrArg (fun o => o.getLsbD (j % 8)) (h ⟨3 - j / 8, by omega⟩ (by dsimp only; omega))
    rw [getLsbD_octet a _ hr, getLsbD_octet v _ hr] at hbit
    rwa [show 24 - 8 * (3 - j / 8) + j % 8 = j by omega] at hbit

theorem notMem_slash (a : Addr) : (47 : UInt8) ∉ inetNtoa a := notMem_inetNtoa (by decide) (by decide) a

/-- An address alone is one host. -/
theorem readsAddr_host (v a : Addr) : readsAddr (inetNtoa v) a = true ↔ a = v := by
  have hslash : ∀ x ∈ (inetNtoa v).reverse, x ∉ bytes "/" := by
    intro x hx hmem
    rw [List.mem_singleton.mp hmem, List.mem_reverse] at hx
    exact notMem_slash v hx
  have hall : ∀ x : Addr, x &&& 0xFFFFFFFF#32 = x := fun x => BitVec.and_allOnes
  have hparse : parseHostnetworkmask (inetNtoa v) = some (v, 0xFFFFFFFF#32) := by
    unfold parseHostnetworkmask
    dsimp only
    rw [List.take_of_length_le ((length_inetNtoa v).trans (by decide)), strsep_eq_none hslash]
    simp only [Option.map_none, parseMask, Option.bind_eq_bind, Option.bind_some, Option.getD_none]
    rw [if_neg (by decide), dottedToAddr_inetNtoa, Option.bind_some, hall]
  rw [readsAddr, hparse, Option.any_some, beq_iff_eq, hall]

theorem parseMask_decimal {n : ℕ} (h0 : 0 < n) (hn : n ≤ 32) : parseMask (some (decimal n)) = some (ones n) := by
  have hdot : Nvparse.Without "." (decimal n) := Nvparse.without_decimal (by decide) n
  have hdotted : dottedToAddr (decimal n) = none := by
    have hlen : (decimal n).length ≤ 19 := (length_decimal_le (k := 1) (by omega)).trans (by decide)
    rw [dottedToAddr, List.take_of_length_le hlen, cut, strsep_eq_none hdot]
    rfl
  rw [parseMask, hdotted, stringToNumber_bits ⟨n, by omega⟩]
  change some (if n ≠ 0 then ones n else 0#32) = some (ones n)
  rw [if_pos (by omega)]

/-- An address and a number of bits are a network. -/
theorem readsAddr_net (v a : Addr) {n : ℕ} (h0 : 0 < n) (hn : n ≤ 32) :
    readsAddr (inetNtoa v ++ bytes "/" ++ decimal n) a = true ↔ a &&& ones n = v &&& ones n := by
  have hslash : ∀ x ∈ (decimal n).reverse, x ∉ bytes "/" := by
    intro x hx hmem
    rw [List.mem_singleton.mp hmem, List.mem_reverse] at hx
    exact notMem_decimal (by decide) n hx
  have hrev : (inetNtoa v ++ bytes "/" ++ decimal n).reverse = (decimal n).reverse ++ 47 :: (inetNtoa v).reverse := by
    simp [bytes]
  have hlen : (inetNtoa v ++ bytes "/" ++ decimal n).length ≤ 255 := by
    have haddr := length_inetNtoa v
    have hnum : (decimal n).length ≤ 2 := length_decimal_le (k := 1) (by omega)
    simp only [List.length_append, show (bytes "/").length = 1 from rfl]
    omega
  have hones : ones n ≠ 0#32 := by
    intro hzero
    have hbit := getLsbD_ones n (show 31 < 32 by decide)
    rw [hzero, BitVec.getLsbD_zero, decide_eq_true (by omega)] at hbit
    exact Bool.false_ne_true hbit
  have hparse : parseHostnetworkmask (inetNtoa v ++ bytes "/" ++ decimal n) = some (v &&& ones n, ones n) := by
    unfold parseHostnetworkmask
    dsimp only
    rw [List.take_of_length_le hlen, hrev, strsep_append (c := 47) (by decide) _ hslash]
    simp only [Option.map_some, List.reverse_reverse, parseMask_decimal h0 hn, Option.bind_eq_bind, Option.bind_some,
      Option.getD_some]
    rw [if_neg hones, dottedToAddr_inetNtoa, Option.bind_some]
  rw [readsAddr, hparse, Option.any_some, beq_iff_eq]

/-! ### `iprange_ex_conv` -/

/-- Four components, each a byte or a `*`. -/
abbrev Pattern := Fin 4 → Option (BitVec 8)

namespace Pattern

variable (p : Pattern)

def component : Option (BitVec 8) → Bytes
  | none => bytes "*"
  | some b => decimal b.toNat

def text : Bytes := component (p 0) ++ (bytes "." ++ (component (p 1) ++ (bytes "." ++ (component (p 2) ++ (bytes "." ++
  component (p 3))))))

/-- The address has the bytes of the pattern. -/
def Agrees (a : Addr) : Prop := ∀ i b, p i = some b → octet a i = b

/-- What comes behind a `*` is a `*`. -/
def Trailing : Prop := ∀ i j, i ≤ j → p i = none → p j = none

end Pattern

/-- The addresses that a text stands for in a rule; no text is no condition. -/
def Specified (text : Bytes) (a : Addr) : Prop := text = [] ∨ readsAddr text a = true

/-- The variable holds the pattern. -/
def Stored (nv : VarMap) (name : String) (idx : ℕ) (p : Pattern) : Prop :=
  (nv.lookup (numbered name idx)).map CStr.bytes = some p.text

/-- What is printed for the pattern stands for the addresses that agree with it, and in a rule it is met by the packets
that come from them, or go to them. -/
structure Exact (p : Pattern) : Prop where
  spec : ∀ nv name idx, Stored nv name idx p → ∀ a, Specified (iprangeExConv nv name idx) a ↔ p.Agrees a
  src : ∀ nv name idx, Stored nv name idx p → ∀ R token k, R.addr = readsAddr →
    (meets R token k (filterConv [] [] (iprangeExConv nv name idx) [] [] []) = true ↔ p.Agrees k.saddr)
  dst : ∀ nv name idx, Stored nv name idx p → ∀ R token k, R.addr = readsAddr →
    (meets R token k (filterConv [] [] [] [] (iprangeExConv nv name idx) []) = true ↔ p.Agrees k.daddr)

section Conv

variable (p : Pattern)

/-- The address with a 0 for each `*`. -/
def filled : Addr := ofOctets fun i => (p i).getD 0#8

def stars : ℕ := (List.finRange 4).countP fun i => (p i).isNone

theorem component_map (c : Option (BitVec 8)) :
    (Pattern.component c).map (fun c => if c = 42 then 48 else c) = decimal (c.getD 0#8).toNat := by
  cases c with
  | none => rfl
  | some b =>
    have hid : ∀ c ∈ decimal b.toNat, (if c = 42 then 48 else c) = c := by
      intro c hc
      refine if_neg fun hstar => ?_
      exact notMem_decimal (by decide) b.toNat (hstar ▸ hc)
    rw [Pattern.component, Option.getD_some, List.map_congr_left hid, List.map_id']

theorem component_count (c : Option (BitVec 8)) :
    (Pattern.component c).count 42 = if c.isNone then 1 else 0 := by
  cases c with
  | none => rfl
  | some b => exact List.count_eq_zero.mpr (notMem_decimal (by decide) b.toNat)

theorem text_map : p.text.map (fun c => if c = 42 then 48 else c) = inetNtoa (filled p) := by
  have hdot : (bytes ".").map (fun c => if c = 42 then 48 else c) = bytes "." := rfl
  rw [inetNtoa_eq, Pattern.text]
  simp only [List.map_append, component_map, hdot, filled, octet_ofOctets]

theorem text_count : p.text.count 42 = stars p := by
  have hdot : (bytes ".").count 42 = 0 := rfl
  have hsum : ∀ s : Fin 4 → Bool, (if s 0 = true then 1 else 0) + (0 + ((if s 1 = true then 1 else 0) +
      (0 + ((if s 2 = true then 1 else 0) + (0 + if s 3 = true then 1 else 0))))) = (List.finRange 4).countP s := by
    decide
  rw [Pattern.text]
  simp only [List.count_append, component_count, hdot]
  exact hsum fun i => (p i).isNone

theorem stars_le : stars p ≤ 4 := List.countP_le_length

theorem iprangeExConv_eq {nv : VarMap} {name : String} {idx : ℕ} (h : Stored nv name idx p) :
    iprangeExConv nv name idx = if stars p = 0 then inetNtoa (filled p) else if stars p = 4 then []
      else inetNtoa (filled p) ++ bytes "/" ++ decimal (8 * (4 - stars p)) := by
  have hget : nvramSafeGet nv (numbered name idx) = p.text := by
    obtain ⟨v, hv, htext⟩ := Option.map_eq_some_iff.mp h
    rw [nvramSafeGet, hv, Option.map_some, Option.getD_some, htext]
  have hle := stars_le p
  unfold iprangeExConv
  dsimp only
  rw [hget, text_map, text_count]
  split_ifs with h32 h0 h0 h0' h4 h0 h4
  · rfl
  · omega
  · omega
  · omega
  · rfl
  · omega
  · omega
  · omega
  · rw [show (32 : ℤ) - 8 * (stars p : ℤ) = ((8 * (4 - stars p) : ℕ) : ℤ) by omega, intText_natCast]

/-- The first components are compared, as many as are no star. -/
theorem specified_iff {nv : VarMap} {name : String} {idx : ℕ} (h : Stored nv name idx p) (a : Addr) :
    Specified (iprangeExConv nv name idx) a ↔ ∀ i : Fin 4, i.val < 4 - stars p → octet a i = (p i).getD 0#8 := by
  have hfilled : ∀ i, octet (filled p) i = (p i).getD 0#8 := octet_ofOctets _
  have hne : inetNtoa (filled p) ≠ [] := by
    rw [inetNtoa_eq]
    exact List.append_ne_nil_of_left_ne_nil (decimal_ne_nil _) _
  have hle := stars_le p
  rw [iprangeExConv_eq p h, Specified]
  split_ifs with h0 h4
  · -- an address
    have hall : ∀ x : Addr, x &&& ones (8 * 4) = x := fun x => BitVec.and_allOnes
    have hoctets := and_ones_octets (m := 4) le_rfl a (filled p)
    rw [hall, hall] at hoctets
    simp only [readsAddr_host, hoctets, hne, false_or, h0, hfilled]
  · -- no text
    simp [h4]
  · have happ : inetNtoa (filled p) ++ bytes "/" ++ decimal (8 * (4 - stars p)) ≠ [] :=
      List.append_ne_nil_of_right_ne_nil _ (decimal_ne_nil _)
    have hnet := readsAddr_net (filled p) a (n := 8 * (4 - stars p)) (by omega) (by omega)
    have hoctets := and_ones_octets (m := 4 - stars p) (by omega) a (filled p)
    simp only [hnet, hoctets, happ, false_or, hfilled]

theorem trailing_iff : p.Trailing ↔ ∀ i : Fin 4, p i = none → 4 - stars p ≤ i.val := by
  have hcount : ∀ s : Fin 4 → Bool, (∀ i j, i ≤ j → s i = true → s j = true) ↔
      ∀ i, s i = true → 4 - (List.finRange 4).countP s ≤ i.val := by
    decide
  simpa only [Pattern.Trailing, stars, Option.isNone_iff_eq_none] using hcount fun i => (p i).isNone

theorem lt_of_trailing (h : p.Trailing) {i : Fin 4} (hi : p i ≠ none) : i.val < 4 - stars p := by
  have hcount : ∀ s : Fin 4 → Bool, (∀ i j, i ≤ j → s i = true → s j = true) →
      ∀ i, s i ≠ true → i.val < 4 - (List.finRange 4).countP s := by
    decide
  refine hcount (fun i => (p i).isNone) ?_ i ?_
  · simpa only [Pattern.Trailing, Option.isNone_iff_eq_none] using h
  · simpa only [ne_eq, Option.isNone_iff_eq_none] using hi

/-- Only a dash makes a range of a text. -/
theorem notMem_dash {nv : VarMap} {name : String} {idx : ℕ} (h : Stored nv name idx p) :
    (45 : UInt8) ∉ iprangeExConv nv name idx := by
  have haddr : (45 : UInt8) ∉ inetNtoa (filled p) := notMem_inetNtoa (by decide) (by decide) _
  rw [iprangeExConv_eq p h]
  split_ifs
  · exact haddr
  · exact List.not_mem_nil
  · simp only [List.mem_append, not_or]
    exact ⟨⟨haddr, by decide⟩, notMem_decimal (by decide) _⟩

end Conv

/-- Every pattern is stored somewhere. -/
theorem exists_stored (p : Pattern) (name : String) (idx : ℕ) : ∃ nv, Stored nv name idx p := by
  have hcomponent : ∀ c, (0 : UInt8) ∉ Pattern.component c := by
    intro c
    cases c with
    | none => decide
    | some b => exact notMem_decimal (by decide) _
  have hdot : (0 : UInt8) ∉ bytes "." := by decide
  have hnul : (0 : UInt8) ∉ p.text := by
    simp [Pattern.text, hcomponent, hdot]
  refine ⟨(∅ : VarMap).insert (numbered name idx) ⟨p.text, hnul⟩, ?_⟩
  have hlookup : ((∅ : VarMap).insert (numbered name idx) ⟨p.text, hnul⟩).lookup (numbered name idx) =
      some ⟨p.text, hnul⟩ := Finmap.lookup_insert _
  rw [Stored, hlookup]
  rfl

/-- What `filter_conv` prints for one address is met by the packets that have it. -/
theorem meets_address {text : Bytes} (hdash : (45 : UInt8) ∉ text) (R : Reading) (token : ℕ → Bool) (k : Packet)
    (hR : R.addr = readsAddr) :
    (meets R token k (filterConv [] [] text [] [] []) = true ↔ Specified text k.saddr) ∧
      (meets R token k (filterConv [] [] [] [] text []) = true ↔ Specified text k.daddr) := by
  by_cases hnil : text = [] <;> simp [filterConv, meets, Specified, Match.holds, hR, hdash, hnil]

/-- A star before a byte is read as a 0. -/
theorem not_exact {p : Pattern} (h : ¬p.Trailing) : ¬Exact p := by
  intro hexact
  rw [trailing_iff] at h
  push Not at h
  obtain ⟨i, hstar, hlt⟩ := h
  obtain ⟨nv, hstored⟩ := exists_stored p "" 0
  -- an address that has another number there
  have hagrees : p.Agrees (ofOctets fun j => if j = i then 1#8 else (p j).getD 0#8) := by
    intro j b hb
    have hj : j ≠ i := by
      rintro rfl
      rw [hstar] at hb
      cases hb
    rw [octet_ofOctets, if_neg hj, hb, Option.getD_some]
  have hread := (specified_iff p hstored _).mp ((hexact.spec nv "" 0 hstored _).mpr hagrees) i hlt
  rw [octet_ofOctets, if_pos rfl, hstar, Option.getD_none] at hread
  exact absurd hread (by decide)

/-- **Which patterns are exact**: those whose stars come last. -/
theorem exact_iff (p : Pattern) : Exact p ↔ p.Trailing := by
  constructor
  · intro hexact
    by_contra h
    exact not_exact h hexact
  · intro h
    have hspec : ∀ nv name idx, Stored nv name idx p → ∀ a,
        Specified (iprangeExConv nv name idx) a ↔ p.Agrees a := by
      intro nv name idx hstored a
      rw [specified_iff p hstored]
      constructor
      · intro hfirst i b hb
        rw [hfirst i (lt_of_trailing p h (by rw [hb]; exact Option.some_ne_none b)), hb, Option.getD_some]
      · intro hagrees i hi
        obtain ⟨b, hb⟩ : ∃ b, p i = some b := by
          rw [← Option.ne_none_iff_exists']
          intro hnone
          exact absurd ((trailing_iff p).mp h i hnone) (Nat.not_le.mpr hi)
        rw [hagrees i b hb, hb, Option.getD_some]
    refine ⟨hspec, fun nv name idx hstored R token k hR => ?_, fun nv name idx hstored R token k hR => ?_⟩
    · rw [(meets_address (notMem_dash p hstored) R token k hR).1, hspec nv name idx hstored]
    · rw [(meets_address (notMem_dash p hstored) R token k hR).2, hspec nv name idx hstored]

/-- `*.1.2.3` becomes `0.1.2.3/24`, in which there are the addresses from `0.1.2.0` on. -/
theorem first_star_not_exact : ¬Exact ![none, some 1#8, some 2#8, some 3#8] := by
  refine not_exact fun h => ?_
  exact absurd (h 0 1 (by decide) rfl) (by decide)

/-! ### `ip2class` -/

/-- The masks that `ip2class` is for. -/
inductive NetClass where
  | classA
  | classB
  | classC

def NetClass.bits : NetClass → ℕ
  | classA => 8
  | classB => 16
  | classC => 24

/-- `ip2class(lan_ip, netmask, buf)`, on a host with this byte order. -/
def ip2classOn (e : Endian) (L : Libc) (lanIp netmask : Bytes) : Bytes :=
  let val := ntohl e (inetAddr L netmask)
  let ip := ntohl e (inetAddr L lanIp)
  let net := inetNtoa (ntohl e (ip &&& val))
  if val = 0xff00000 then net ++ bytes "/8"
  else if val = 0xffff0000 then net ++ bytes "/16"
  else net ++ bytes "/24"

/-- The rule of `nat_setting` for the packets that leave on the LAN side. -/
def lanToLan (e : Endian) (L : Libc) (lanIf lanIp netmask : Bytes) : Line :=
  let lanClass := ip2classOn e L lanIp netmask
  add .postrouting [.outIf lanIf, .src lanClass, .dst lanClass] .masquerade

theorem ip2class_eq (L : Libc) (lanIp netmask : Bytes) :
    ip2class L lanIp netmask = ip2classOn .little L lanIp netmask := by
  have hswap : ∀ a, swapWord a = ntohl .little a := fun _ => rfl
  have hback : ∀ a, ntohl .little (ntohl .little a) = a := swap_swap
  unfold ip2class ip2classOn
  simp only [hswap, ntohl_and, hback]

/-- The rule is written if there is translation, after all others. -/
theorem natSetting_lanToLan {L : Libc} {u : Undef} {wanIf wanIp lanIf lanIp : Bytes} {logaccept : Action} {nv : VarMap}
    {nats forwards : List Line} (h : natSetting L u wanIf wanIp lanIf lanIp logaccept nv = some (nats, forwards))
    (hnat : nvramMatch nv "wan_nat_X" "1" = true) :
    nats.getLast? = some (lanToLan .little L lanIf lanIp (nvramText nv "lan_netmask")) := by
  unfold natSetting at h
  obtain ⟨vts, -, h⟩ := Option.bind_eq_some_iff.mp h
  have hnats := (Prod.mk.inj (Option.some.inj h)).1
  rw [← hnats, hnat]
  simp [lanToLan, ip2class_eq]

/-- The text has the addresses of the LAN, and the rule is met by each packet between two hosts of it that leaves on the
LAN side. -/
structure Covers (e : Endian) (L : Libc) (a : Addr) (c : NetClass) : Prop where
  net : ∀ x, readsAddr (ip2classOn e L (inetNtoa a) (inetNtoa (ones c.bits))) x = true ↔
    x &&& ones c.bits = a &&& ones c.bits
  packet : ∀ R token k lanIf, R.addr = readsAddr → k.outdev.str.bytes = lanIf →
    k.saddr &&& ones c.bits = a &&& ones c.bits → k.daddr &&& ones c.bits = a &&& ones c.bits →
    meets R token k (lanToLan e L lanIf (inetNtoa a) (inetNtoa (ones c.bits))).parts = true

section Covers

variable {e : Endian} {L : Libc} {a : Addr} {c : NetClass}

/-- The bits that are printed behind the address. -/
def printedBits (e : Endian) : NetClass → ℕ
  | .classA => 24
  | .classB => if e = .big then 16 else 24
  | .classC => 24

theorem ip2classOn_eq (e : Endian) (L : Libc) (a : Addr) (c : NetClass) :
    ip2classOn e L (inetNtoa a) (inetNtoa (ones c.bits)) =
      inetNtoa (a &&& ones c.bits) ++ bytes "/" ++ decimal (printedBits e c) := by
  have haddr : ∀ x, inetAddr L (inetNtoa x) = x := by
    intro x
    rw [inetAddr, L.aton_ntoa, Option.getD_some]
  have hback : ∀ x, ntohl e (ntohl e x) = x := by
    intro x
    cases e with
    | big => rfl
    | little => exact swap_swap x
  unfold ip2classOn
  simp only [haddr, ← ntohl_and, hback]
  have h8 : ntohl e (ones c.bits) ≠ 0xff00000 := by cases e <;> cases c <;> decide
  rw [if_neg h8, List.append_assoc]
  cases e <;> cases c <;> rfl

theorem reads_ip2class (x : Addr) : readsAddr (ip2classOn e L (inetNtoa a) (inetNtoa (ones c.bits))) x = true ↔
    x &&& ones (printedBits e c) = a &&& ones c.bits &&& ones (printedBits e c) := by
  rw [ip2classOn_eq]
  apply readsAddr_net
  · cases e <;> cases c <;> decide
  · cases e <;> cases c <;> decide

/-- A LAN with a shorter mask has hosts that are not in the network. -/
theorem not_covers (h : printedBits e c ≠ c.bits) : ¬Covers e L a c := by
  intro hcovers
  have hprinted : printedBits e c = 24 ∧ c.bits ≤ 16 := by
    cases e <;> cases c <;> first | exact absurd rfl h | decide
  have hout : (ones c.bits).getLsbD 8 = false := by
    rw [getLsbD_ones _ (by decide), decide_eq_false (by omega)]
  have hmask : ∀ x : Addr, (x ||| 256#32) &&& ones c.bits = x &&& ones c.bits := by
    intro x
    rw [and_ones]
    intro j hj hin
    have hbit : (256#32).getLsbD j = false := by
      have hone : (256#32 : Addr) = BitVec.twoPow 32 8 := rfl
      rw [hone, BitVec.getLsbD_twoPow, decide_eq_false (show 8 ≠ j by omega), Bool.and_false]
    rw [BitVec.getLsbD_or, hbit, Bool.or_false]
  -- a host of the LAN with this bit
  have hread := (reads_ip2class _).mp ((hcovers.net (a ||| 256#32)).mpr (hmask a))
  have hbit := congrArg (fun x => x.getLsbD 8) hread
  have hin : (ones 24).getLsbD 8 = true := by decide
  simp only [hprinted.1, BitVec.getLsbD_and, hout, hin, BitVec.getLsbD_or, Bool.and_false,
    Bool.and_true] at hbit
  rw [show (256#32 : Addr).getLsbD 8 = true by decide, Bool.or_true] at hbit
  exact Bool.noConfusion hbit

/-- **When the LAN is covered**: with 24 bits, and with 16 on a big-endian host. -/
theorem covers_iff (e : Endian) (L : Libc) (a : Addr) (c : NetClass) :
    Covers e L a c ↔ c = .classC ∨ c = .classB ∧ e = .big := by
  have hbits : printedBits e c = c.bits ↔ c = .classC ∨ c = .classB ∧ e = .big := by
    cases e <;> cases c <;> simp [printedBits, NetClass.bits]
  rw [← hbits]
  constructor
  · intro hcovers
    by_contra h
    exact not_covers h hcovers
  · intro h
    have hnet : ∀ x, readsAddr (ip2classOn e L (inetNtoa a) (inetNtoa (ones c.bits))) x = true ↔
        x &&& ones c.bits = a &&& ones c.bits := by
      intro x
      rw [reads_ip2class, h, BitVec.and_assoc, BitVec.and_self]
    refine ⟨hnet, fun R token k lanIf hR hout hsrc hdst => ?_⟩
    have hs := (hnet k.saddr).mpr hsrc
    have hd := (hnet k.daddr).mpr hdst
    simp [meets, lanToLan, add, Match.holds, hR, hout, hs, hd]

/-- The LAN 10.0.0.0/8 becomes 10.0.0.0/24. -/
theorem ten_not_covered : ¬Covers .little dottedLibc 0x0A000001#32 .classA := not_covers (by decide)

end Covers

end Addresses
end Rc
end Router
