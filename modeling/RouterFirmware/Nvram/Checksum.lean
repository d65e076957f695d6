/-
# What the checksum of an image sees

`nvram_calc_crc` goes over the bytes of an image from behind its own place in the header to the length in it
(`nvramCalcCrc_eq`). The check is a division, and two images of one length that differ there in a single byte
have different checksums (`nvramCalcCrc_ne`).
-/
import RouterFirmware.Bcm.Crc
import RouterFirmware.Nvram.Image

namespace Router
namespace Nvram

open CMem Bcm Crc

/-- `NVRAM_CRC_START_POSITION`: magic, len and crc8 are skipped. -/
def nvramCrcStartPosition : ℕ := 9

/-- A word without its low byte. -/
theorem bytes32_mask (v : UInt32) : bytes32 (v &&& 0xffffff00) = 0 :: (bytes32 v).drop 1 := by
  have hlow : (v &&& 0xff).toNat = v.toNat % 256 := by
    rw [UInt32.toNat_and]
    exact Nat.and_two_pow_sub_one_eq_mod _ 8
  have hsum : (v &&& 0xffffff00).toNat + (v &&& 0xff).toNat = v.toNat := Bits.toNat_and_not v.toBitVec 255#32
  have hv := v.toNat_lt
  show [_, _, _, _] = [_, _, _, _]
  have hbyte : ∀ a b : ℕ, a % 256 = b % 256 → UInt8.ofNat a = UInt8.ofNat b := fun a b h => by
    apply UInt8.toNat_inj.mp
    rw [UInt8.toNat_ofNat', UInt8.toNat_ofNat']
    exact h
  rw [hbyte (v &&& 0xffffff00).toNat 0 (by omega), hbyte ((v &&& 0xffffff00).toNat / 2 ^ 8) (v.toNat / 2 ^ 8) (by omega),
    hbyte ((v &&& 0xffffff00).toNat / 2 ^ 16) (v.toNat / 2 ^ 16) (by omega),
    hbyte ((v &&& 0xffffff00).toNat / 2 ^ 24) (v.toNat / 2 ^ 24) (by omega)]
  rfl

/-- **The bytes under the checksum**, one after the other. -/
theorem nvramCalcCrc_eq {m : Mem} (h : headerSize ≤ (le32 m lenAt).toNat) :
    nvramCalcCrc m =
      hndcrc8 (bytesAt m nvramCrcStartPosition ((le32 m lenAt).toNat - nvramCrcStartPosition)) crc8InitValue := by
  have hword : ∀ p, bytes32 (le32 m p) = bytesAt m p 4 := fun p => (bytesAt_of_holds (holds_bytes32 m p)).symm
  have hlen : (le32 m lenAt - 20).toNat = (le32 m lenAt).toNat - 20 :=
    UInt32.toNat_sub_of_le _ _ (UInt32.le_iff_toNat_le.mpr h)
  have hheader : (bytes32 (le32 m crcVerInitAt &&& 0xffffff00) ++ bytes32 (le32 m configRefreshAt) ++
      bytes32 (le32 m configNcdlAt)).drop 1 = bytesAt m nvramCrcStartPosition 11 := by
    rw [bytes32_mask, hword, hword, hword]
    rfl
  have hall : (le32 m lenAt).toNat - nvramCrcStartPosition = 11 + ((le32 m lenAt).toNat - 20) := by
    unfold nvramCrcStartPosition
    have : 20 ≤ (le32 m lenAt).toNat := h
    omega
  rw [hall, ← bytesAt_append, nvramCalcCrc, hheader, hlen, hndcrc8, hndcrc8, hndcrc8, List.foldl_append]
  rfl

/-- A byte of a block that is changed. -/
theorem bytesAt_change {m m' : Mem} {p q n : ℕ} (hle : p ≤ q) (hlt : q < p + n)
    (hsame : ∀ i, p ≤ i → i < p + n → i ≠ q → m' i = m i) :
    bytesAt m p n = bytesAt m p (q - p) ++ m q :: bytesAt m (q + 1) (p + n - (q + 1)) ∧
      bytesAt m' p n = bytesAt m p (q - p) ++ m' q :: bytesAt m (q + 1) (p + n - (q + 1)) := by
  have hsplit : ∀ m : Mem, bytesAt m p n = bytesAt m p (q - p) ++ m q :: bytesAt m (q + 1) (p + n - (q + 1)) := by
    intro m
    have hn : n = (q - p) + ((p + n - (q + 1)) + 1) := by omega
    conv_lhs => rw [hn, ← bytesAt_append, Nat.add_sub_cancel' hle, bytesAt_succ]
  have hfront : bytesAt m' p (q - p) = bytesAt m p (q - p) :=
    List.map_congr_left fun i hi => by
      have := List.mem_range.mp hi
      exact hsame _ (by omega) (by omega) (by omega)
  have hbehind : bytesAt m' (q + 1) (p + n - (q + 1)) = bytesAt m (q + 1) (p + n - (q + 1)) :=
    List.map_congr_left fun i hi => by
      have := List.mem_range.mp hi
      exact hsame _ (by omega) (by omega) (by omega)
  refine ⟨hsplit m, ?_⟩
  rw [hsplit m', hfront, hbehind]

/-- **One byte changed** under the checksum gives another checksum. -/
theorem nvramCalcCrc_ne {m m' : Mem} {q : ℕ} (hlen : le32 m' lenAt = le32 m lenAt)
    (hheader : headerSize ≤ (le32 m lenAt).toNat) (hq : nvramCrcStartPosition ≤ q) (hend : q < (le32 m lenAt).toNat)
    (hne : m' q ≠ m q)
    (hsame : ∀ i, nvramCrcStartPosition ≤ i → i < (le32 m lenAt).toNat → i ≠ q → m' i = m i) :
    nvramCalcCrc m' ≠ nvramCalcCrc m := by
  have hn : nvramCrcStartPosition + ((le32 m lenAt).toNat - nvramCrcStartPosition) = (le32 m lenAt).toNat := by omega
  obtain ⟨hm, hm'⟩ := @bytesAt_change m m' nvramCrcStartPosition q ((le32 m lenAt).toNat - nvramCrcStartPosition) hq
    (by omega) (by rwa [hn])
  intro h
  rw [nvramCalcCrc_eq hheader, nvramCalcCrc_eq (hlen ▸ hheader), hlen, hm, hm'] at h
  have hdivide := congrArg UInt8.toBitVec h
  rw [hndcrc8_eq, hndcrc8_eq] at hdivide
  exact divide_ne le_rfl (by decide +kernel) hne _ _ _ hdivide

/-- A byte of the data of a short image. -/
theorem nvramCalcCrc_ne_short :
    nvramCalcCrc (fun i => if i = 4 then 24 else if i = 20 then 97 else 0) ≠
      nvramCalcCrc (fun i => if i = 4 then 24 else 0) := by
  refine @nvramCalcCrc_ne _ _ 20 rfl (by decide) (by decide) (by decide) (by decide) fun i h9 _ hi => ?_
  rw [if_neg hi]

end Nvram
end Router
