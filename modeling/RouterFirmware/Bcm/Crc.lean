/-
# The CRC routines

`hndcrc8`, `hndcrc16` and `hndcrc32` of `shared/bcmutils.c` against the polynomials documented for them: each is the
division of the bytes, low bits first, and leaves its good value when its complement is checked too (`crc_residues`).

`hndcrc32` has a path for MIPS that takes the bytes up to a word boundary, then whole words, and then the rest. It
does what the plain loop does for a buffer that reaches the boundary, and for no other one (`agrees_iff`): in a
shorter one the length runs below zero, and four bytes behind the buffer are taken. Pointers and lengths are words of 32
bits; `tmp` is read in the order of memory.
-/
import RouterFirmware.Bcm.Utils
import RouterFirmware.Lib.Bits
import RouterFirmware.Lib.CMem
import RouterFirmware.Lib.Crc

namespace Router
namespace Bcm

open Crc

/-! ### CRC-32 -/

/-- `crc32_table`. -/
def crc32Table : List UInt32 :=
  [0x00000000, 0x77073096, 0xEE0E612C, 0x990951BA, 0x076DC419, 0x706AF48F, 0xE963A535, 0x9E6495A3,
    0x0EDB8832, 0x79DCB8A4, 0xE0D5E91E, 0x97D2D988, 0x09B64C2B, 0x7EB17CBD, 0xE7B82D07, 0x90BF1D91,
    0x1DB71064, 0x6AB020F2, 0xF3B97148, 0x84BE41DE, 0x1ADAD47D, 0x6DDDE4EB, 0xF4D4B551, 0x83D385C7,
    0x136C9856, 0x646BA8C0, 0xFD62F97A, 0x8A65C9EC, 0x14015C4F, 0x63066CD9, 0xFA0F3D63, 0x8D080DF5,
    0x3B6E20C8, 0x4C69105E, 0xD56041E4, 0xA2677172, 0x3C03E4D1, 0x4B04D447, 0xD20D85FD, 0xA50AB56B,
    0x35B5A8FA, 0x42B2986C, 0xDBBBC9D6, 0xACBCF940, 0x32D86CE3, 0x45DF5C75, 0xDCD60DCF, 0xABD13D59,
    0x26D930AC, 0x51DE003A, 0xC8D75180, 0xBFD06116, 0x21B4F4B5, 0x56B3C423, 0xCFBA9599, 0xB8BDA50F,
    0x2802B89E, 0x5F058808, 0xC60CD9B2, 0xB10BE924, 0x2F6F7C87, 0x58684C11, 0xC1611DAB, 0xB6662D3D,
    0x76DC4190, 0x01DB7106, 0x98D220BC, 0xEFD5102A, 0x71B18589, 0x06B6B51F, 0x9FBFE4A5, 0xE8B8D433,
    0x7807C9A2, 0x0F00F934, 0x9609A88E, 0xE10E9818, 0x7F6A0DBB, 0x086D3D2D, 0x91646C97, 0xE6635C01,
    0x6B6B51F4, 0x1C6C6162, 0x856530D8, 0xF262004E, 0x6C0695ED, 0x1B01A57B, 0x8208F4C1, 0xF50FC457,
    0x65B0D9C6, 0x12B7E950, 0x8BBEB8EA, 0xFCB9887C, 0x62DD1DDF, 0x15DA2D49, 0x8CD37CF3, 0xFBD44C65,
    0x4DB26158, 0x3AB551CE, 0xA3BC0074, 0xD4BB30E2, 0x4ADFA541, 0x3DD895D7, 0xA4D1C46D, 0xD3D6F4FB,
    0x4369E96A, 0x346ED9FC, 0xAD678846, 0xDA60B8D0, 0x44042D73, 0x33031DE5, 0xAA0A4C5F, 0xDD0D7CC9,
    0x5005713C, 0x270241AA, 0xBE0B1010, 0xC90C2086, 0x5768B525, 0x206F85B3, 0xB966D409, 0xCE61E49F,
    0x5EDEF90E, 0x29D9C998, 0xB0D09822, 0xC7D7A8B4, 0x59B33D17, 0x2EB40D81, 0xB7BD5C3B, 0xC0BA6CAD,
    0xEDB88320, 0x9ABFB3B6, 0x03B6E20C, 0x74B1D29A, 0xEAD54739, 0x9DD277AF, 0x04DB2615, 0x73DC1683,
    0xE3630B12, 0x94643B84, 0x0D6D6A3E, 0x7A6A5AA8, 0xE40ECF0B, 0x9309FF9D, 0x0A00AE27, 0x7D079EB1,
    0xF00F9344, 0x8708A3D2, 0x1E01F268, 0x6906C2FE, 0xF762575D, 0x806567CB, 0x196C3671, 0x6E6B06E7,
    0xFED41B76, 0x89D32BE0, 0x10DA7A5A, 0x67DD4ACC, 0xF9B9DF6F, 0x8EBEEFF9, 0x17B7BE43, 0x60B08ED5,
    0xD6D6A3E8, 0xA1D1937E, 0x38D8C2C4, 0x4FDFF252, 0xD1BB67F1, 0xA6BC5767, 0x3FB506DD, 0x48B2364B,
    0xD80D2BDA, 0xAF0A1B4C, 0x36034AF6, 0x41047A60, 0xDF60EFC3, 0xA867DF55, 0x316E8EEF, 0x4669BE79,
    0xCB61B38C, 0xBC66831A, 0x256FD2A0, 0x5268E236, 0xCC0C7795, 0xBB0B4703, 0x220216B9, 0x5505262F,
    0xC5BA3BBE, 0xB2BD0B28, 0x2BB45A92, 0x5CB36A04, 0xC2D7FFA7, 0xB5D0CF31, 0x2CD99E8B, 0x5BDEAE1D,
    0x9B64C2B0, 0xEC63F226, 0x756AA39C, 0x026D930A, 0x9C0906A9, 0xEB0E363F, 0x72076785, 0x05005713,
    0x95BF4A82, 0xE2B87A14, 0x7BB12BAE, 0x0CB61B38, 0x92D28E9B, 0xE5D5BE0D, 0x7CDCEFB7, 0x0BDBDF21,
    0x86D3D2D4, 0xF1D4E242, 0x68DDB3F8, 0x1FDA836E, 0x81BE16CD, 0xF6B9265B, 0x6FB077E1, 0x18B74777,
    0x88085AE6, 0xFF0F6A70, 0x66063BCA, 0x11010B5C, 0x8F659EFF, 0xF862AE69, 0x616BFFD3, 0x166CCF45,
    0xA00AE278, 0xD70DD2EE, 0x4E048354, 0x3903B3C2, 0xA7672661, 0xD06016F7, 0x4969474D, 0x3E6E77DB,
    0xAED16A4A, 0xD9D65ADC, 0x40DF0B66, 0x37D83BF0, 0xA9BCAE53, 0xDEBB9EC5, 0x47B2CF7F, 0x30B5FFE9,
    0xBDBDF21C, 0xCABAC28A, 0x53B39330, 0x24B4A3A6, 0xBAD03605, 0xCDD70693, 0x54DE5729, 0x23D967BF,
    0xB3667A2E, 0xC4614AB8, 0x5D681B02, 0x2A6F2B94, 0xB40BBE37, 0xC30C8EA1, 0x5A05DF1B, 0x2D02EF8D]

/-- `CRC32_INIT_VALUE`. -/
def crc32InitValue : UInt32 := 0xffffffff

/-- `CRC32_GOOD_VALUE`. -/
def crc32GoodValue : UInt32 := 0xdebb20e3

/-- `CRC8_GOOD_VALUE`. -/
def crc8GoodValue : UInt8 := 0x9f

/-- `CRC_INNER_LOOP(32, crc, b)`. -/
def crc32Step (crc : UInt32) (b : UInt8) : UInt32 :=
  (crc >>> 8) ^^^ crc32Table.getD ((crc ^^^ b.toUInt32) &&& 0xff).toNat 0

/-- `hndcrc32(pdata, nbytes, crc)`, a byte at a time. -/
def hndcrc32 (pdata : List UInt8) (crc : UInt32) : UInt32 := pdata.foldl crc32Step crc

/-! ### The division -/

/-- The polynomials, as they are documented. -/
def crc8Poly : BitVec 8 := reflected 8 [8, 7, 6, 4, 2, 0]
def crc16Poly : BitVec 16 := reflected 16 [16, 12, 5, 0]
def crc32Poly : BitVec 32 := reflected 32 [32, 26, 23, 22, 16, 12, 11, 10, 8, 7, 5, 4, 2, 1, 0]

theorem crcTables_eq :
    crc8Table.map UInt8.toBitVec = (List.range 256).map (fun n => steps crc8Poly 8 (BitVec.ofNat 8 n)) ∧
      crc16Table.map UInt16.toBitVec = (List.range 256).map (fun n => steps crc16Poly 8 (BitVec.ofNat 16 n)) ∧
      crc32Table.map UInt32.toBitVec = (List.range 256).map fun n => steps crc32Poly 8 (BitVec.ofNat 32 n) :=
  ⟨by decide +kernel, by decide +kernel, by decide +kernel⟩

theorem crc8Step_eq (crc b : UInt8) :
    (crc8Table.getD (crc ^^^ b).toNat 0).toBitVec = divide crc8Poly (bits 8 b.toBitVec) crc.toBitVec := by
  have h := @tableStep_eq 8 crc8Poly le_rfl (fun n => (crc8Table.getD n 0).toBitVec)
    (getD_of_map crcTables_eq.1 0) crc.toBitVec b.toBitVec
  rw [BitVec.setWidth_eq, BitVec.ushiftRight_eq_zero le_rfl, BitVec.zero_xor, Nat.mod_eq_of_lt (BitVec.isLt _)] at h
  exact h

theorem crc16Step_eq (crc : UInt16) (b : UInt8) :
    (crc16Step crc b).toBitVec = divide crc16Poly (bits 8 b.toBitVec) crc.toBitVec := by
  have hindex : ((crc ^^^ b.toUInt16) &&& 0xff).toNat = (crc.toBitVec ^^^ b.toBitVec.setWidth 16).toNat % 256 := by
    rw [UInt16.toNat_and]
    exact Nat.and_two_pow_sub_one_eq_mod _ 8
  rw [crc16Step, hindex]
  exact @tableStep_eq 16 crc16Poly (by decide) (fun n => (crc16Table.getD n 0).toBitVec)
    (getD_of_map crcTables_eq.2.1 0) _ _

theorem crc32Step_eq (crc : UInt32) (b : UInt8) :
    (crc32Step crc b).toBitVec = divide crc32Poly (bits 8 b.toBitVec) crc.toBitVec := by
  have hindex : ((crc ^^^ b.toUInt32) &&& 0xff).toNat = (crc.toBitVec ^^^ b.toBitVec.setWidth 32).toNat % 256 := by
    rw [UInt32.toNat_and]
    exact Nat.and_two_pow_sub_one_eq_mod _ 8
  rw [crc32Step, hindex]
  exact @tableStep_eq 32 crc32Poly (by decide) (fun n => (crc32Table.getD n 0).toBitVec)
    (getD_of_map crcTables_eq.2.2 0) _ _

/-- A loop over the bytes is the division, if its turn is. -/
theorem foldl_eq_divide {w : ℕ} {poly : BitVec w} {α : Type*} {step : α → UInt8 → α} {register : α → BitVec w}
    (hstep : ∀ c b, register (step c b) = divide poly (bits 8 b.toBitVec) (register c)) :
    ∀ (l : List UInt8) (c : α), register (l.foldl step c) = divide poly (messageBits l) (register c)
  | [], c => rfl
  | b :: l, c => by
    rw [List.foldl_cons, foldl_eq_divide hstep l, hstep, divide_cons]

theorem hndcrc8_eq (l : List UInt8) (crc : UInt8) :
    (hndcrc8 l crc).toBitVec = divide crc8Poly (messageBits l) crc.toBitVec := foldl_eq_divide crc8Step_eq l crc

theorem hndcrc16_eq (l : List UInt8) (crc : UInt16) :
    (hndcrc16 l crc).toBitVec = divide crc16Poly (messageBits l) crc.toBitVec := foldl_eq_divide crc16Step_eq l crc

theorem hndcrc32_eq (l : List UInt8) (crc : UInt32) :
    (hndcrc32 l crc).toBitVec = divide crc32Poly (messageBits l) crc.toBitVec := foldl_eq_divide crc32Step_eq l crc

/-! ### Residues -/

/-- What is appended to a message: the bytes of the complemented CRC, the least significant one first. -/
theorem divide_appended {w : ℕ} {poly : BitVec w} {l : List UInt8} {c : BitVec w} {n : ℕ} (hn : 8 * n = w) :
    divide poly (messageBits (l ++ wordBytes n (~~~divide poly (messageBits l) c))) c =
      steps poly w (BitVec.allOnes w) := by
  rw [messageBits_append, divide_append, messageBits_wordBytes, hn, divide_complement]

theorem singleton_eq (x : UInt8) : [x] = wordBytes 1 x.toBitVec := by
  simp [wordBytes]

theorem bytes16_eq (x : UInt16) : bytes16 x = wordBytes 2 x.toBitVec := by
  rfl

theorem bytes32_eq (x : UInt32) : CMem.bytes32 x = wordBytes 4 x.toBitVec := by
  have hbyte : ∀ k, UInt8.ofBitVec ((x.toBitVec >>> k).setWidth 8) = UInt8.ofNat (x.toNat / 2 ^ k) := by
    intro k
    apply UInt8.toNat_inj.mp
    rw [UInt8.toNat_ofBitVec, BitVec.toNat_setWidth, BitVec.toNat_ushiftRight, Nat.shiftRight_eq_div_pow,
      UInt8.toNat_ofNat']
    rfl
  rw [wordBytes, List.map_congr_left fun i _ => hbyte (8 * i)]
  simp [CMem.bytes32, List.range_succ]

/-- What is left of a register of ones. -/
theorem steps_allOnes : steps crc8Poly 8 (BitVec.allOnes 8) = crc8GoodValue.toBitVec ∧
    steps crc16Poly 16 (BitVec.allOnes 16) = crc16GoodValue.toBitVec ∧
    steps crc32Poly 32 (BitVec.allOnes 32) = crc32GoodValue.toBitVec := by
  decide +kernel

/-- **A CRC and its complement** leave the good value. -/
theorem hndcrc16_complement (crc : UInt16) : hndcrc16 (bytes16 (~~~crc)) crc = crc16GoodValue := by
  apply UInt16.toBitVec_inj.mp
  rw [hndcrc16_eq, bytes16_eq, UInt16.toBitVec_not, messageBits_wordBytes, @divide_complement 16]
  exact steps_allOnes.2.1

/-- **The CRC routines**: each is the division by its polynomial, and has its residue. -/
theorem crc_residues (l : List UInt8) :
    ((hndcrc8 l crc8InitValue).toBitVec = divide crc8Poly (messageBits l) crc8InitValue.toBitVec ∧
      hndcrc8 (l ++ [~~~hndcrc8 l crc8InitValue]) crc8InitValue = crc8GoodValue) ∧
    ((hndcrc16 l crc16InitValue).toBitVec = divide crc16Poly (messageBits l) crc16InitValue.toBitVec ∧
      hndcrc16 (l ++ bytes16 (~~~hndcrc16 l crc16InitValue)) crc16InitValue = crc16GoodValue) ∧
    ((hndcrc32 l crc32InitValue).toBitVec = divide crc32Poly (messageBits l) crc32InitValue.toBitVec ∧
      hndcrc32 (l ++ CMem.bytes32 (~~~hndcrc32 l crc32InitValue)) crc32InitValue = crc32GoodValue) := by
  refine ⟨⟨hndcrc8_eq l _, ?_⟩, ⟨hndcrc16_eq l _, ?_⟩, hndcrc32_eq l _, ?_⟩
  · apply UInt8.toBitVec_inj.mp
    rw [hndcrc8_eq, singleton_eq, UInt8.toBitVec_not, hndcrc8_eq, @divide_appended 8 crc8Poly l _ 1 rfl]
    exact steps_allOnes.1
  · apply UInt16.toBitVec_inj.mp
    rw [hndcrc16_eq, bytes16_eq, UInt16.toBitVec_not, hndcrc16_eq, @divide_appended 16 crc16Poly l _ 2 rfl]
    exact steps_allOnes.2.1
  · apply UInt32.toBitVec_inj.mp
    rw [hndcrc32_eq, bytes32_eq, UInt32.toBitVec_not, hndcrc32_eq, @divide_appended 32 crc32Poly l _ 4 rfl]
    exact steps_allOnes.2.2

/-! ### The path for MIPS -/

namespace Mips

/-- Memory at addresses of 32 bits. -/
abbrev Memory := UInt32 → UInt8

/-- `while (pdata < pend)`, a byte a turn: the pointer and the CRC. -/
def bytesLoop (m : Memory) (pend : UInt32) : ℕ → UInt32 → UInt32 → UInt32 × UInt32
  | 0, pdata, crc => (pdata, crc)
  | fuel + 1, pdata, crc =>
    if pdata < pend then bytesLoop m pend fuel (pdata + 1) (crc32Step crc (m pdata)) else (pdata, crc)

/-- The same, a word a turn. -/
def wordsLoop (m : Memory) (pend : UInt32) : ℕ → UInt32 → UInt32 → UInt32 × UInt32
  | 0, pdata, crc => (pdata, crc)
  | fuel + 1, pdata, crc =>
    if pdata < pend then
      let tmp := [m pdata, m (pdata + 1), m (pdata + 2), m (pdata + 3)]
      wordsLoop m pend fuel (pdata + 4) (tmp.foldl crc32Step crc)
    else (pdata, crc)

/-- `hndcrc32(pdata, nbytes, crc)` with `__mips__`. No loop has more turns than there are bytes up to its end. -/
def hndcrc32Mips (m : Memory) (pdata nbytes crc : UInt32) : UInt32 :=
  -- in case the beginning of the buffer isn't aligned
  let pend := (pdata + 3) &&& 0xfffffffc
  let nbytes := nbytes - (pend - pdata)
  let s := bytesLoop m pend (pend - pdata).toNat pdata crc
  -- handle bulk of data as 32-bit words
  let pend := s.1 + (nbytes &&& 0xfffffffc)
  let s := wordsLoop m pend (pend - s.1).toNat s.1 s.2
  -- 1-3 bytes at end of buffer
  let pend := s.1 + (nbytes &&& 0x03)
  (bytesLoop m pend (pend - s.1).toNat s.1 s.2).2

/-- The bytes of a buffer. -/
def bufferAt (m : Memory) (pdata : UInt32) (n : ℕ) : List UInt8 :=
  (List.range n).map fun i => m (pdata + UInt32.ofNat i)

/-- How far it is to the next word. -/
def toWord (pdata : UInt32) : ℕ := (4 - pdata.toNat % 4) % 4

section Loops

variable {m : Memory} {pdata pend : UInt32}

theorem bufferAt_succ (m : Memory) (pdata : UInt32) (n : ℕ) :
    bufferAt m pdata (n + 1) = m pdata :: bufferAt m (pdata + 1) n := by
  unfold bufferAt
  rw [List.range_succ_eq_map, List.map_cons, List.map_map]
  congr 1
  · congr 1
    exact UInt32.add_zero pdata
  · refine List.map_congr_left fun i _ => ?_
    rw [Function.comp_apply, UInt32.add_assoc, Nat.succ_eq_add_one, UInt32.ofNat_add, UInt32.add_comm 1]
    rfl

theorem bufferAt_add (m : Memory) (pdata : UInt32) (n k : ℕ) :
    bufferAt m pdata (n + k) = bufferAt m pdata n ++ bufferAt m (pdata + UInt32.ofNat n) k := by
  induction n generalizing pdata with
  | zero =>
    rw [Nat.zero_add]
    exact congrArg (bufferAt m · k) (UInt32.add_zero pdata).symm
  | succ n ih =>
    rw [Nat.add_right_comm, bufferAt_succ, bufferAt_succ, ih, List.cons_append, UInt32.add_assoc, ← UInt32.ofNat_one,
      ← UInt32.ofNat_add, Nat.add_comm 1]

/-- A loop over the bytes in front of a pointer that is not below. -/
theorem bytesLoop_eq (m : Memory) : ∀ (k fuel : ℕ) (pdata pend crc : UInt32), pend.toNat = pdata.toNat + k → k ≤ fuel →
    bytesLoop m pend fuel pdata crc = (pend, hndcrc32 (bufferAt m pdata k) crc)
  | 0, fuel, pdata, pend, crc, hpend, _ => by
    have heq : pend = pdata := UInt32.toNat_inj.mp hpend
    subst heq
    cases fuel with
    | zero => rfl
    | succ fuel =>
      rw [bytesLoop, if_neg (UInt32.lt_irrefl pend)]
      rfl
  | k + 1, 0, _, _, _, _, hfuel => absurd hfuel (by omega)
  | k + 1, fuel + 1, pdata, pend, crc, hpend, hfuel => by
    have hlt := pend.toNat_lt
    have hnext : (pdata + 1).toNat = pdata.toNat + 1 := by
      rw [UInt32.toNat_add, UInt32.toNat_one]
      omega
    rw [bytesLoop, if_pos (UInt32.lt_iff_toNat_lt.mpr (by omega)), bufferAt_succ,
      bytesLoop_eq m k fuel (pdata + 1) pend _ (by omega) (by omega)]
    rfl

/-- One that is below has no turns. -/
theorem bytesLoop_of_le {crc : UInt32} (h : pend ≤ pdata) (fuel : ℕ) : bytesLoop m pend fuel pdata crc = (pdata, crc) := by
  cases fuel with
  | zero => rfl
  | succ fuel => rw [bytesLoop, if_neg (UInt32.not_lt.mpr h)]

theorem wordsLoop_of_le {crc : UInt32} (h : pend ≤ pdata) (fuel : ℕ) : wordsLoop m pend fuel pdata crc = (pdata, crc) := by
  cases fuel with
  | zero => rfl
  | succ fuel => rw [wordsLoop, if_neg (UInt32.not_lt.mpr h)]

theorem wordsLoop_eq (m : Memory) : ∀ (k fuel : ℕ) (pdata pend crc : UInt32), pend.toNat = pdata.toNat + 4 * k →
    k ≤ fuel → wordsLoop m pend fuel pdata crc = (pend, hndcrc32 (bufferAt m pdata (4 * k)) crc)
  | 0, fuel, pdata, pend, crc, hpend, _ => by
    have heq : pend = pdata := UInt32.toNat_inj.mp hpend
    rw [heq, wordsLoop_of_le UInt32.le_rfl]
    rfl
  | k + 1, 0, _, _, _, _, hfuel => absurd hfuel (by omega)
  | k + 1, fuel + 1, pdata, pend, crc, hpend, hfuel => by
    have hlt := pend.toNat_lt
    have hnext : (pdata + 4).toNat = pdata.toNat + 4 := by
      rw [UInt32.toNat_add]
      show (pdata.toNat + 4) % 2 ^ 32 = _
      omega
    have hword : bufferAt m pdata 4 = [m pdata, m (pdata + 1), m (pdata + 2), m (pdata + 3)] := by
      show [m (pdata + 0), _, _, _] = _
      rw [UInt32.add_zero]
      rfl
    rw [wordsLoop, if_pos (UInt32.lt_iff_toNat_lt.mpr (by omega)), Nat.mul_succ, Nat.add_comm, bufferAt_add, hword,
      wordsLoop_eq m k fuel (pdata + 4) pend _ (by omega) (by omega)]
    rw [hndcrc32, hndcrc32, List.foldl_append]
    rfl

end Loops

/-! ### Where the two paths agree -/

/-- A change of one byte is seen. -/
theorem hndcrc32_ne {b b' : UInt8} (hne : b ≠ b') (l l' : List UInt8) (crc : UInt32) :
    hndcrc32 (l ++ b :: l') crc ≠ hndcrc32 (l ++ b' :: l') crc := by
  intro h
  have hdivide := congrArg UInt32.toBitVec h
  rw [hndcrc32_eq, hndcrc32_eq] at hdivide
  exact divide_ne (by decide) (by decide) hne l l' _ hdivide

/-- The masks of a word. -/
theorem toNat_masks (x : UInt32) : (x &&& 0xfffffffc).toNat = x.toNat - x.toNat % 4 ∧ (x &&& 0x03).toNat = x.toNat % 4 := by
  have hlow : (x &&& 0x03).toNat = x.toNat % 4 := by
    rw [UInt32.toNat_and]
    exact Nat.and_two_pow_sub_one_eq_mod _ 2
  have hsum : (x &&& 0xfffffffc).toNat + (x &&& 0x03).toNat = x.toNat := Bits.toNat_and_not x.toBitVec 3#32
  omega

section Agreement

variable {m : Memory} {pdata : UInt32} {n : ℕ} {crc : UInt32}

/-- A pointer that is so far behind another one. -/
theorem eq_add_ofNat {p q : UInt32} {k : ℕ} (h : q.toNat = p.toNat + k) : q = p + UInt32.ofNat k := by
  have hlt := q.toNat_lt
  have hk : (UInt32.ofNat k).toNat = k := UInt32.toNat_ofNat_of_lt' (lt_of_le_of_lt (by omega) hlt)
  apply UInt32.toNat_inj.mp
  rw [UInt32.toNat_add, hk, h, Nat.mod_eq_of_lt (by omega)]

theorem toNat_sub_of_eq {p q : UInt32} {k : ℕ} (h : q.toNat = p.toNat + k) : (q - p).toNat = k := by
  rw [UInt32.toNat_sub_of_le q p (UInt32.le_iff_toNat_le.mpr (by omega)), h, Nat.add_sub_cancel_left]

theorem toNat_add_lt {p q : UInt32} (h : p.toNat + q.toNat < 2 ^ 32) : (p + q).toNat = p.toNat + q.toNat := by
  rw [UInt32.toNat_add, Nat.mod_eq_of_lt h]

theorem toWord_lt (pdata : UInt32) : toWord pdata < 4 := Nat.mod_lt _ (by decide)

theorem word_aligned (pdata : UInt32) : (pdata.toNat + toWord pdata) % 4 = 0 := by
  unfold toWord
  omega

/-- Rounded up, unless this goes over the end of the addresses. -/
theorem toNat_align (h3 : pdata.toNat + 3 < 2 ^ 32) :
    ((pdata + 3) &&& 0xfffffffc).toNat = pdata.toNat + toWord pdata := by
  have h : (pdata + 3).toNat = pdata.toNat + 3 := toNat_add_lt h3
  rw [(toNat_masks _).1, h]
  unfold toWord
  omega

/-- The three loops, from where they end. -/
theorem hndcrc32Mips_of_ends {mid last stop : UInt32} {a k b : ℕ} (hmid : (pdata + 3) &&& 0xfffffffc = mid)
    (hmidNat : mid.toNat = pdata.toNat + a)
    (hlast : mid + ((UInt32.ofNat n - (mid - pdata)) &&& 0xfffffffc) = last) (hlastNat : last.toNat = mid.toNat + 4 * k)
    (hstop : last + ((UInt32.ofNat n - (mid - pdata)) &&& 0x03) = stop) (hstopNat : stop.toNat = last.toNat + b) :
    hndcrc32Mips m pdata (UInt32.ofNat n) crc = hndcrc32 (bufferAt m pdata (a + (4 * k + b))) crc := by
  unfold hndcrc32Mips
  dsimp only
  rw [hmid, bytesLoop_eq m a _ _ _ _ hmidNat (toNat_sub_of_eq hmidNat).ge]
  dsimp only
  rw [hlast, wordsLoop_eq m k _ _ _ _ hlastNat (by rw [toNat_sub_of_eq hlastNat]; omega)]
  dsimp only
  rw [hstop, bytesLoop_eq m b _ _ _ _ hstopNat (toNat_sub_of_eq hstopNat).ge, bufferAt_add, bufferAt_add,
    ← eq_add_ofNat hmidNat, ← eq_add_ofNat hlastNat]
  simp only [hndcrc32, List.foldl_append]

/-- The words end where they begin, if the length is below zero. -/
theorem hndcrc32Mips_of_below {mid stop : UInt32} {a b : ℕ} (hmid : (pdata + 3) &&& 0xfffffffc = mid)
    (hmidNat : mid.toNat = pdata.toNat + a)
    (hlast : mid + ((UInt32.ofNat n - (mid - pdata)) &&& 0xfffffffc) ≤ mid)
    (hstop : mid + ((UInt32.ofNat n - (mid - pdata)) &&& 0x03) = stop) (hstopNat : stop.toNat = mid.toNat + b) :
    hndcrc32Mips m pdata (UInt32.ofNat n) crc = hndcrc32 (bufferAt m pdata (a + b)) crc := by
  unfold hndcrc32Mips
  dsimp only
  rw [hmid, bytesLoop_eq m a _ _ _ _ hmidNat (toNat_sub_of_eq hmidNat).ge]
  dsimp only
  rw [wordsLoop_of_le hlast]
  dsimp only
  rw [hstop, bytesLoop_eq m b _ _ _ _ hstopNat (toNat_sub_of_eq hstopNat).ge, bufferAt_add, ← eq_add_ofNat hmidNat]
  simp only [hndcrc32, List.foldl_append]

/-- A buffer that does not reach the boundary is read four bytes too far. -/
theorem hndcrc32Mips_eq (h3 : pdata.toNat + 3 < 2 ^ 32) (h : pdata.toNat + n < 2 ^ 32) :
    hndcrc32Mips m pdata (UInt32.ofNat n) crc =
      hndcrc32 (bufferAt m pdata (if toWord pdata ≤ n then n else n + 4)) crc := by
  have hd := toWord_lt pdata
  have hmod := word_aligned pdata
  obtain ⟨mid, hmid⟩ : ∃ mid, (pdata + 3) &&& 0xfffffffc = mid := ⟨_, rfl⟩
  have hmidNat : mid.toNat = pdata.toNat + toWord pdata := by rw [← hmid, toNat_align h3]
  have hmidLt := mid.toNat_lt
  obtain ⟨left, hleft⟩ : ∃ left, UInt32.ofNat n - (mid - pdata) = left := ⟨_, rfl⟩
  have hleftNat : left.toNat = (4294967296 - toWord pdata + n) % 4294967296 := by
    rw [← hleft, UInt32.toNat_sub, toNat_sub_of_eq hmidNat, UInt32.toNat_ofNat_of_lt' (lt_of_le_of_lt (Nat.le_add_left ..) h)]
  obtain ⟨hwords, htail⟩ := toNat_masks left
  by_cases hle : toWord pdata ≤ n
  · have hlastNat : (mid + (left &&& 0xfffffffc)).toNat = mid.toNat + 4 * ((n - toWord pdata) / 4) := by
      rw [toNat_add_lt (by omega), hwords]
      omega
    have hstopNat : (mid + (left &&& 0xfffffffc) + (left &&& 0x03)).toNat =
        (mid + (left &&& 0xfffffffc)).toNat + (n - toWord pdata) % 4 := by
      rw [toNat_add_lt (by omega), htail]
      omega
    rw [hndcrc32Mips_of_ends hmid hmidNat rfl (hleft ▸ hlastNat) rfl (hleft ▸ hstopNat), if_pos hle]
    congr 2
    omega
  · -- the length is below zero, and the end of the words in front of them
    have hlast : mid + (left &&& 0xfffffffc) ≤ mid := by
      rw [UInt32.le_iff_toNat_le, UInt32.toNat_add, hwords]
      omega
    have hstopNat : (mid + (left &&& 0x03)).toNat = mid.toNat + (n + 4 - toWord pdata) := by
      rw [toNat_add_lt (by omega), htail]
      omega
    rw [hndcrc32Mips_of_below hmid hmidNat (hleft ▸ hlast) rfl (hleft ▸ hstopNat), if_neg hle]
    congr 2
    omega

/-- In the last three bytes of the addresses rounding up gives 0, and no byte is taken before the tail. -/
theorem hndcrc32Mips_top (h3 : 2 ^ 32 ≤ pdata.toNat + 3) (h : pdata.toNat + n < 2 ^ 32) :
    hndcrc32Mips m pdata (UInt32.ofNat n) crc =
      hndcrc32 (bufferAt m pdata (if 2 * toWord pdata ≤ n + 4 then 0 else n + 4 - toWord pdata)) crc := by
  have hlt := pdata.toNat_lt
  have hd : pdata.toNat + toWord pdata = 4294967296 := by
    unfold toWord
    omega
  have hmid : (pdata + 3) &&& 0xfffffffc = 0 := by
    apply UInt32.toNat_inj.mp
    rw [(toNat_masks _).1, UInt32.toNat_add]
    show (pdata.toNat + 3) % 2 ^ 32 - (pdata.toNat + 3) % 2 ^ 32 % 4 = 0
    omega
  obtain ⟨left, hleft⟩ : ∃ left, UInt32.ofNat n - (0 - pdata) = left := ⟨_, rfl⟩
  have hleftNat : left.toNat = 4294967296 + n - toWord pdata := by
    rw [← hleft, UInt32.toNat_sub, UInt32.toNat_sub, UInt32.toNat_ofNat_of_lt' (lt_of_le_of_lt (Nat.le_add_left ..) h)]
    show (2 ^ 32 - (2 ^ 32 - pdata.toNat + 0) % 2 ^ 32 + n) % 2 ^ 32 = _
    omega
  obtain ⟨hwords, htail⟩ := toNat_masks left
  have hlast : pdata + (left &&& 0xfffffffc) ≤ pdata := by
    rw [UInt32.le_iff_toNat_le, UInt32.toNat_add, hwords]
    omega
  unfold hndcrc32Mips
  dsimp only
  rw [hmid, hleft, @bytesLoop_of_le m pdata 0 crc (UInt32.le_iff_toNat_le.mpr (Nat.zero_le _))]
  dsimp only
  rw [wordsLoop_of_le hlast]
  dsimp only
  split_ifs with hwrap
  · rw [bytesLoop_of_le]
    · rfl
    · rw [UInt32.le_iff_toNat_le, UInt32.toNat_add, htail]
      omega
  · have hstopNat : (pdata + (left &&& 0x03)).toNat = pdata.toNat + (n + 4 - toWord pdata) := by
      rw [toNat_add_lt (by omega), htail]
      omega
    rw [bytesLoop_eq m _ _ _ _ _ hstopNat (toNat_sub_of_eq hstopNat).ge]

end Agreement

/-- Both paths give the same, whatever is in the buffer and behind it. -/
def Agrees (pdata : UInt32) (n : ℕ) : Prop :=
  ∀ (m : Memory) (crc : UInt32), hndcrc32Mips m pdata (UInt32.ofNat n) crc = hndcrc32 (bufferAt m pdata n) crc

/-- Addresses so close to each other differ. -/
theorem add_ofNat_ne (pdata : UInt32) {i j : ℕ} (hi : i < 2 ^ 32) (hj : j < 2 ^ 32) (hne : i ≠ j) :
    pdata + UInt32.ofNat i ≠ pdata + UInt32.ofNat j := by
  intro h
  have heq := (UInt32.add_right_inj pdata).mp h
  apply hne
  rw [← UInt32.toNat_ofNat_of_lt' hi, heq, UInt32.toNat_ofNat_of_lt' hj]

/-- What is read behind the buffer does not go unnoticed. -/
theorem exists_ne (pdata : UInt32) {n : ℕ} (hn : n + 4 < 2 ^ 32) : ∃ m m' : Memory,
    bufferAt m pdata n = bufferAt m' pdata n ∧
      hndcrc32 (bufferAt m pdata (n + 4)) 0 ≠ hndcrc32 (bufferAt m' pdata (n + 4)) 0 := by
  have hsame : ∀ i, i < n + 4 → i ≠ n →
      (0 : UInt8) = if pdata + UInt32.ofNat i = pdata + UInt32.ofNat n then 1 else 0 := fun i hi hne => by
    rw [if_neg (add_ofNat_ne pdata (by omega) (by omega) hne)]
  have hfront : bufferAt (fun _ => 0) pdata n =
      bufferAt (fun a => if a = pdata + UInt32.ofNat n then 1 else 0) pdata n := by
    refine List.map_congr_left fun i hi => ?_
    have := List.mem_range.mp hi
    exact hsame i (by omega) (by omega)
  refine ⟨fun _ => 0, fun a => if a = pdata + UInt32.ofNat n then 1 else 0, hfront, ?_⟩
  have htail : ∀ m : Memory, bufferAt m pdata (n + 4) = bufferAt m pdata n ++
      m (pdata + UInt32.ofNat n) :: (List.range 3).map fun i => m (pdata + UInt32.ofNat (n + (i + 1))) := by
    intro m
    unfold bufferAt
    rw [List.range_add, List.map_append, List.map_map]
    rfl
  rw [htail, htail, ← hfront, if_pos rfl]
  have hrest : ((List.range 3).map fun _ => (0 : UInt8)) = (List.range 3).map fun i =>
      if pdata + UInt32.ofNat (n + (i + 1)) = pdata + UInt32.ofNat n then 1 else 0 := by
    refine List.map_congr_left fun i hi => ?_
    have := List.mem_range.mp hi
    exact hsame _ (by omega) (by omega)
  rw [← hrest]
  exact hndcrc32_ne (by decide) _ _ 0

/-- **Where the paths agree**: the buffer reaches the next word, or it is empty and at the very end of the addresses. -/
theorem agrees_iff {pdata : UInt32} {n : ℕ} (h : pdata.toNat + n < 2 ^ 32) :
    Agrees pdata n ↔ toWord pdata ≤ n ∨ n = 0 ∧ 2 ^ 32 - 2 ≤ pdata.toNat := by
  by_cases h3 : pdata.toNat + 3 < 2 ^ 32
  · constructor
    · intro hagrees
      by_contra hnot
      have hlt : ¬toWord pdata ≤ n := fun hle => hnot (.inl hle)
      have hd := toWord_lt pdata
      obtain ⟨m, m', hsame, hne⟩ := @exists_ne pdata n (by omega)
      have hm := hagrees m 0
      have hm' := hagrees m' 0
      rw [hndcrc32Mips_eq h3 h, if_neg hlt] at hm hm'
      rw [hm, hm', hsame] at hne
      exact hne rfl
    · rintro (hle | hend) m crc
      · rw [hndcrc32Mips_eq h3 h, if_pos hle]
      · omega
  · -- rounding up goes over the end
    have hd : pdata.toNat + toWord pdata = 4294967296 := by
      have := pdata.toNat_lt
      unfold toWord
      omega
    have hall : ∀ a b : Fin 3, hndcrc32 (List.replicate a 0) 1 = hndcrc32 (List.replicate b 0) 1 → a = b := by
      decide
    have hzeros : ∀ k, bufferAt (fun _ => 0) pdata k = List.replicate k 0 := fun k => by
      rw [bufferAt, List.map_const', List.length_range]
    constructor
    · intro hagrees
      have hcount := hagrees (fun _ => 0) 1
      rw [hndcrc32Mips_top (by omega) h, hzeros, hzeros] at hcount
      have heq := hall ⟨if 2 * toWord pdata ≤ n + 4 then 0 else n + 4 - toWord pdata, by split_ifs <;> omega⟩ ⟨n, by omega⟩ hcount
      have heq := congrArg Fin.val heq
      dsimp only at heq
      split_ifs at heq
      · omega
      · omega
    · rintro (hle | ⟨rfl, hend⟩) m crc
      · omega
      · rw [hndcrc32Mips_top (by omega) h, if_pos (by omega)]

/-- A buffer that begins one byte in front of a word. -/
theorem agrees_iff_three : Agrees 3 1 ↔ toWord 3 ≤ 1 ∨ 1 = 0 ∧ 2 ^ 32 - 2 ≤ (3 : UInt32).toNat := agrees_iff (by decide)

/-- An empty buffer at an odd address. -/
theorem not_agrees_empty : ¬Agrees 1 0 := by
  intro hagrees
  have h := hagrees (fun _ => 0) 1
  rw [hndcrc32Mips_eq (by decide) (by decide)] at h
  exact absurd h (by decide)

end Mips
end Bcm
end Router
