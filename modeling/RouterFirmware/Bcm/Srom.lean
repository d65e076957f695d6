/-
# Writing the SPROM

`srom_read`, `srom_write` and `sprom_read_pci` of `shared/bcmsrom.c`, for a part on the PCI bus: 256 words of 16 bits. The
image is put together in `image[]`; the answer of `sromWrite` is `none` where an access lies outside of it.

What is written is the words that the old signature says, or as many as are given at once, with the CRC in the last one.
How many the reader checks is what the new signature says. `sromWrite_correct_iff` is what has to hold for the two to meet
and for nothing to be dropped on the way.
-/
import RouterFirmware.Bcm.Crc

namespace Router
namespace Bcm
namespace Srom

/-- `SPROM_SIZE`, in words. -/
def spromSize : ℕ := 256

/-- `SPROM_CRC_RANGE`, in words. -/
def spromCrcRange : ℕ := 64

/-- `SROM4_WORDS`, `SROM4_SIGN`, `SROM4_SIGNATURE`. -/
def srom4Words : ℕ := 220
def srom4Sign : ℕ := 32
def srom4Signature : UInt16 := 0x5372

/-- The words of the part or of a buffer. -/
abbrev Words := ℕ → UInt16

/-- The first `n` words as they lie in memory. -/
def bytes (m : Words) (n : ℕ) : List UInt8 := (List.range n).flatMap fun i => bytes16 (m i)

/-- `sprom_read_pci(osh, sprom, wordoff, buf, nwords, check_crc)`: what is returned, and `buf`. -/
def spromReadPci (sprom : Words) (wordoff : ℕ) (buf : Words) (nwords : ℕ) (checkCrc : Bool) : ℕ × Words :=
  let buf : Words := fun i => if i < nwords then sprom (wordoff + i) else buf i
  if checkCrc then
    -- the hardware thinks that an srom that starts with 0xffff is blank
    if buf 0 = 0xffff then (1, buf)
    else if hndcrc8 (bytes buf nwords) crc8InitValue ≠ crc8GoodValue then (1, buf)
    else (0, buf)
  else (0, buf)

/-- `srom_read(sbh, bustype, curmap, osh, byteoff, nbytes, buf)`. -/
def sromRead (srom : Words) (byteoff nbytes : UInt32) (buf : Words) : ℕ × Words :=
  if byteoff.toNat % 2 = 1 ∨ nbytes.toNat % 2 = 1 ∨ (byteoff + nbytes).toNat > spromSize * 2 then (1, buf)
  else
    let (err, buf) := spromReadPci srom (byteoff.toNat / 2) buf (nbytes.toNat / 2) false
    if err ≠ 0 then (1, buf) else (0, buf)

/-- Whether `n` words from `off` on lie in `image[]`. -/
def Inside (off n : ℕ) : Prop := n = 0 ∨ off + n ≤ spromSize

instance (off n : ℕ) : Decidable (Inside off n) := inferInstanceAs (Decidable (_ ∨ _))

/-- `bcopy` of `n` words to `off`. -/
def overlay (m : Words) (off n : ℕ) (buf : Words) : Words :=
  fun i => if off ≤ i ∧ i < off + n then buf (i - off) else m i

/-- The CRC in the last word of the image. -/
def setCrc (image : Words) (nw crcRange : ℕ) : Words :=
  let crc := ~~~hndcrc8 ((bytes image (crcRange / 2)).take (crcRange - 1)) crc8InitValue
  fun i => if i = nw - 1 then crc.toUInt16 <<< 8 ||| image i &&& 0xff else image i

/-- `srom_write` from the calculation of the CRC on: what is returned, and the part. -/
def writeImage (srom image : Words) (nw crcRange : ℕ) : Option (ℕ × Words) :=
  if Inside 0 nw then
    let image := if crcRange ≠ 0 then setCrc image nw crcRange else image
    some (0, fun i => if i < nw then image i else srom i)
  else none

/-- The image of the part, as `srom_write` reads it before it changes words: what `srom_read` returns, `image[]`, and `nw`. -/
def readImage (srom image : Words) : ℕ × Words × ℕ :=
  let (err, image) := sromRead srom 0 128 image
  if err ≠ 0 then (err, image, spromCrcRange)
  else if image srom4Sign = srom4Signature then
    let (err, image) := sromRead srom 0 440 image
    (err, image, srom4Words)
  else (0, image, spromCrcRange)

/-- Whether the whole thing is written at once. -/
def Whole (byteoff nbytes : UInt32) : Prop :=
  byteoff = 0 ∧ (nbytes.toNat = spromSize ∨ nbytes.toNat = spromCrcRange * 2 ∨ nbytes.toNat = srom4Words * 2)

instance (byteoff nbytes : UInt32) : Decidable (Whole byteoff nbytes) := inferInstanceAs (Decidable (_ ∧ _))

/-- `srom_write(sbh, bustype, curmap, osh, byteoff, nbytes, buf)`, with what lies in `image[]` at first. -/
def sromWrite (srom image : Words) (byteoff nbytes : UInt32) (buf : Words) : Option (ℕ × Words) :=
  if byteoff.toNat % 2 = 1 ∨ nbytes.toNat % 2 = 1 then some (1, srom)
  else if byteoff = 0x55aa then
    -- erase request
    if Inside 0 (nbytes.toNat / 2) then
      writeImage srom (overlay image 0 (nbytes.toNat / 2) fun _ => 0xffff) (nbytes.toNat / 2) 0
    else none
  else if Whole byteoff nbytes then
    if Inside 0 (nbytes.toNat / 2) then
      writeImage srom (overlay image 0 (nbytes.toNat / 2) buf) (nbytes.toNat / 2) nbytes.toNat
    else none
  else if (byteoff + nbytes).toNat > spromSize * 2 then some (1, srom)
  else
    let (err, image, nw) := readImage srom image
    if err ≠ 0 then some (1, srom)
    else if Inside (byteoff.toNat / 2) (nbytes.toNat / 2) then
      writeImage srom (overlay image (byteoff.toNat / 2) (nbytes.toNat / 2) buf) nw (nw * 2)
    else none

/-- The CRC check of `initvars_srom_pci`, with what lies in the buffer at first. -/
def crcCheck (srom b : Words) : ℕ :=
  let (err, b) := spromReadPci srom 0 b spromCrcRange true
  if b srom4Sign = srom4Signature then (spromReadPci srom 0 b srom4Words true).1 else err

/-! ### What is asked of a write -/

/-- How many words a reader checks. -/
def readWords (srom : Words) : ℕ := if srom srom4Sign = srom4Signature then srom4Words else spromCrcRange

/-- How many words the image has that is written. -/
def imageWords (srom : Words) (byteoff nbytes : UInt32) : ℕ :=
  if Whole byteoff nbytes then nbytes.toNat / 2 else readWords srom

/-- The part as it is to be, but for the CRC. -/
def wanted (srom : Words) (byteoff nbytes : UInt32) (buf : Words) : Words :=
  overlay srom (byteoff.toNat / 2) (nbytes.toNat / 2) buf

/-- No access lies outside of `image[]`, and if 0 is returned, the part holds the buffer and else what it held, but for
the CRC, and is readable. -/
def Correct (srom image : Words) (byteoff nbytes : UInt32) (buf : Words) : Prop :=
  ∃ err srom', sromWrite srom image byteoff nbytes buf = some (err, srom') ∧ (err = 0 →
    (∀ i < spromSize, i ≠ imageWords srom byteoff nbytes - 1 → srom' i = wanted srom byteoff nbytes buf i) ∧
    (∀ i, i = imageWords srom byteoff nbytes - 1 → srom' i &&& 0xff = wanted srom byteoff nbytes buf i &&& 0xff) ∧
    (srom' 0 ≠ 0xffff → ∀ b, crcCheck srom' b = 0))

/-- What the reader checks is covered by the CRC. -/
def Covered (o : Words) (nw : ℕ) : Prop :=
  o 0 = 0xffff ∨ readWords o = nw ∨
    readWords o < nw ∧ hndcrc8 (bytes o (readWords o)) crc8InitValue = crc8GoodValue ∨
    nw < readWords o ∧ hndcrc8 (bytes (fun i => o (nw + i)) (readWords o - nw)) crc8GoodValue = crc8GoodValue

/-- When a write is right. -/
def Fits (srom : Words) (byteoff nbytes : UInt32) (buf : Words) : Prop :=
  -- it is refused
  byteoff.toNat % 2 = 1 ∨ nbytes.toNat % 2 = 1 ∨ ¬Whole byteoff nbytes ∧ (byteoff + nbytes).toNat > spromSize * 2 ∨
  -- it does not wrap around, changes nothing behind the image, and its CRC covers what is read
  byteoff.toNat + nbytes.toNat < 2 ^ 32 ∧
    (∀ i, imageWords srom byteoff nbytes ≤ i → i < spromSize → wanted srom byteoff nbytes buf i = srom i) ∧
    Covered (wanted srom byteoff nbytes buf) (imageWords srom byteoff nbytes)

/-! ### Bytes and their CRC -/

theorem bytes_succ (m : Words) (n : ℕ) : bytes m (n + 1) = bytes m n ++ bytes16 (m n) := by
  rw [bytes, List.range_succ, List.flatMap_append, List.flatMap_singleton, bytes]

theorem bytes_add (m : Words) (a : ℕ) : ∀ b, bytes m (a + b) = bytes m a ++ bytes (fun i => m (a + i)) b
  | 0 => (List.append_nil _).symm
  | b + 1 => by rw [← Nat.add_assoc, bytes_succ, bytes_succ, bytes_add m a b, List.append_assoc]

theorem bytes_congr {m m' : Words} {n : ℕ} (h : ∀ i < n, m i = m' i) : bytes m n = bytes m' n := by
  unfold bytes
  rw [List.flatMap_congr]
  intro i hi
  rw [h i (List.mem_range.mp hi)]

@[simp] theorem length_bytes (m : Words) (n : ℕ) : (bytes m n).length = 2 * n := by
  induction n with
  | zero => rfl
  | succ n ih =>
    rw [bytes_succ, List.length_append, ih]
    rfl

theorem hndcrc8_append (l l' : List UInt8) (crc : UInt8) : hndcrc8 (l ++ l') crc = hndcrc8 l' (hndcrc8 l crc) :=
  List.foldl_append ..

/-- The complement of a CRC leaves the good value. -/
theorem hndcrc8_complement (crc : UInt8) : hndcrc8 [~~~crc] crc = crc8GoodValue := by
  have hxor : crc ^^^ ~~~crc = 255 := by
    apply UInt8.toBitVec_inj.mp
    rw [UInt8.toBitVec_xor, UInt8.toBitVec_not, ← BitVec.not_xor_right, BitVec.xor_self]
    rfl
  change crc8Table.getD (crc ^^^ ~~~crc).toNat 0 = _
  rw [hxor]
  rfl

/-- The bytes of the last word: the low one as it was, and the CRC. -/
theorem bytes16_crc (w : UInt16) (crc : UInt8) : bytes16 (crc.toUInt16 <<< 8 ||| w &&& 0xff) = [w.toUInt8, crc] := by
  have hlow : (crc.toUInt16 <<< 8 ||| w &&& 0xff).toUInt8 = w.toUInt8 := by
    apply UInt8.toBitVec_inj.mp
    ext i hi
    interval_cases i <;> simp
  have hhigh : ((crc.toUInt16 <<< 8 ||| w &&& 0xff) >>> 8).toUInt8 = crc := by
    apply UInt8.toBitVec_inj.mp
    ext i hi
    interval_cases i <;> simp
  rw [bytes16, hlow, hhigh]

theorem and_crc (w : UInt16) (crc : UInt8) : (crc.toUInt16 <<< 8 ||| w &&& 0xff) &&& 0xff = w &&& 0xff := by
  apply UInt16.toBitVec_inj.mp
  ext i hi
  interval_cases i <;> simp

theorem setCrc_of_ne {image : Words} {nw crcRange i : ℕ} (h : i ≠ nw - 1) : setCrc image nw crcRange i = image i :=
  if_neg h

theorem setCrc_last (image : Words) (nw crcRange : ℕ) : setCrc image nw crcRange (nw - 1) =
    (~~~hndcrc8 ((bytes image (crcRange / 2)).take (crcRange - 1)) crc8InitValue).toUInt16 <<< 8 |||
      image (nw - 1) &&& 0xff := if_pos rfl

theorem setCrc_and (image : Words) (nw crcRange : ℕ) : setCrc image nw crcRange (nw - 1) &&& 0xff = image (nw - 1) &&& 0xff := by
  rw [setCrc_last]
  exact and_crc _ _

/-- **The image is good**, with the CRC of all that is in front of it. -/
theorem hndcrc8_setCrc (image : Words) {n : ℕ} (hn : 0 < n) :
    hndcrc8 (bytes (setCrc image n (n * 2)) n) crc8InitValue = crc8GoodValue := by
  obtain ⟨n, rfl⟩ := Nat.exists_eq_add_of_lt hn
  rw [Nat.zero_add] at *
  -- all bytes but the last
  have hfront : (bytes image (n + 1)).take (2 * n + 1) = bytes image n ++ [(image n).toUInt8] := by
    rw [bytes_succ, ← length_bytes image n, List.take_append, List.take_of_length_le (by omega), Nat.add_sub_cancel_left]
    rfl
  have hlast : setCrc image (n + 1) ((n + 1) * 2) n =
      (~~~hndcrc8 (bytes image n ++ [(image n).toUInt8]) crc8InitValue).toUInt16 <<< 8 ||| image n &&& 0xff := by
    have h := setCrc_last image (n + 1) ((n + 1) * 2)
    rw [Nat.add_sub_cancel, Nat.mul_div_cancel _ (by decide), show (n + 1) * 2 - 1 = 2 * n + 1 by omega, hfront] at h
    exact h
  have hrest : bytes (setCrc image (n + 1) ((n + 1) * 2)) n = bytes image n :=
    bytes_congr fun i hi => setCrc_of_ne (by omega)
  rw [bytes_succ, hlast, bytes16_crc, hrest, List.append_cons, hndcrc8_append, hndcrc8_complement]

/-! ### What is written -/

theorem overlay_congr {m m' : Words} {off n k : ℕ} (buf : Words) (h : ∀ i < k, m i = m' i) :
    ∀ i < k, overlay m off n buf i = overlay m' off n buf i := by
  intro i hi
  unfold overlay
  rw [h i hi]

theorem setCrc_congr {m m' : Words} {nw : ℕ} (h : ∀ i < nw, m i = m' i) :
    ∀ i < nw, setCrc m nw (nw * 2) i = setCrc m' nw (nw * 2) i := by
  intro i hi
  unfold setCrc
  rw [Nat.mul_div_cancel _ (by decide), bytes_congr h, h i hi]

/-- Only the words that are written matter. -/
theorem writeImage_eq (srom : Words) {image o : Words} {nw : ℕ} (hnw : 0 < nw) (hsize : nw ≤ spromSize)
    (h : ∀ i < nw, image i = o i) :
    writeImage srom image nw (nw * 2) = some (0, fun i => if i < nw then setCrc o nw (nw * 2) i else srom i) := by
  have hinside : Inside 0 nw := .inr (by omega)
  unfold writeImage
  rw [if_pos hinside]
  dsimp only
  rw [if_pos (by omega)]
  congr 2
  funext i
  split_ifs with hi
  · exact setCrc_congr h i hi
  · rfl

/-- The words that are written. -/
theorem imageWords_pos (srom : Words) (byteoff nbytes : UInt32) :
    33 < imageWords srom byteoff nbytes ∧ imageWords srom byteoff nbytes ≤ spromSize := by
  unfold imageWords readWords
  split_ifs with hwhole hsign
  · obtain ⟨-, h | h | h⟩ := hwhole <;> rw [h] <;> decide
  · decide
  · decide

/-- A read from the start. -/
theorem sromRead_eq (srom : Words) {nbytes : UInt32} (buf : Words) (h : nbytes = 128 ∨ nbytes = 440) :
    sromRead srom 0 nbytes buf = (0, fun i => if i < nbytes.toNat / 2 then srom i else buf i) := by
  have haccept : ¬((0 : UInt32).toNat % 2 = 1 ∨ nbytes.toNat % 2 = 1 ∨ (0 + nbytes).toNat > spromSize * 2) := by
    rcases h with rfl | rfl <;> decide
  unfold sromRead
  rw [if_neg haccept]
  simp [spromReadPci]

theorem readImage_eq (srom image : Words) :
    ∃ image', readImage srom image = (0, image', readWords srom) ∧ ∀ i < readWords srom, image' i = srom i := by
  unfold readImage readWords
  rw [sromRead_eq srom _ (.inl rfl)]
  have hword : (if srom4Sign < UInt32.toNat 128 / 2 then srom srom4Sign else image srom4Sign) = srom srom4Sign :=
    if_pos (by decide)
  dsimp only
  rw [if_neg (by decide)]
  by_cases hsign : srom srom4Sign = srom4Signature
  · rw [if_pos (hword.trans hsign), if_pos hsign, sromRead_eq srom _ (.inr rfl)]
    exact ⟨_, rfl, fun i hi => if_pos hi⟩
  · rw [if_neg (fun hs => hsign (hword.symm.trans hs)), if_neg hsign]
    exact ⟨_, rfl, fun i hi => if_pos hi⟩

theorem inside_of_whole {byteoff nbytes : UInt32} (h : Whole byteoff nbytes) :
    Inside (byteoff.toNat / 2) (nbytes.toNat / 2) ∧ byteoff.toNat / 2 = 0 := by
  obtain ⟨rfl, h⟩ := h
  refine ⟨.inr ?_, rfl⟩
  rcases h with h | h | h <;> rw [h] <;> decide

/-- **What `srom_write` does** with a request that is not to erase. -/
theorem sromWrite_eq (srom image : Words) {byteoff nbytes : UInt32} (buf : Words) (h : byteoff ≠ 0x55aa) :
    sromWrite srom image byteoff nbytes buf =
      if byteoff.toNat % 2 = 1 ∨ nbytes.toNat % 2 = 1 ∨
        ¬Whole byteoff nbytes ∧ (byteoff + nbytes).toNat > spromSize * 2 then some (1, srom)
      else if Inside (byteoff.toNat / 2) (nbytes.toNat / 2) then
        some (0, fun i => if i < imageWords srom byteoff nbytes then
          setCrc (wanted srom byteoff nbytes buf) (imageWords srom byteoff nbytes) (imageWords srom byteoff nbytes * 2) i
          else srom i)
      else none := by
  obtain ⟨hpos, hsize⟩ := imageWords_pos srom byteoff nbytes
  unfold sromWrite
  by_cases hodd : byteoff.toNat % 2 = 1 ∨ nbytes.toNat % 2 = 1
  · rw [if_pos hodd, if_pos (hodd.imp_right Or.inl)]
  rw [if_neg hodd, if_neg h]
  obtain ⟨hoff, hn⟩ := not_or.mp hodd
  by_cases hwhole : Whole byteoff nbytes
  · obtain ⟨hinside, hzero⟩ := inside_of_whole hwhole
    have hrefused : ¬(byteoff.toNat % 2 = 1 ∨ nbytes.toNat % 2 = 1 ∨
        ¬Whole byteoff nbytes ∧ (byteoff + nbytes).toNat > spromSize * 2) := by
      rintro (ho | ho | ho)
      exacts [hoff ho, hn ho, ho.1 hwhole]
    have hnw : imageWords srom byteoff nbytes = nbytes.toNat / 2 := if_pos hwhole
    have hrange : nbytes.toNat = nbytes.toNat / 2 * 2 := by omega
    rw [if_pos hwhole, if_neg hrefused, if_pos hinside]
    rw [hzero] at hinside
    rw [if_pos hinside, hnw]
    conv_lhs => rw [hrange, Nat.mul_div_cancel _ (show 0 < 2 by decide)]
    refine writeImage_eq srom (by omega) (by omega) fun i hi => ?_
    rw [wanted, hzero, overlay, overlay, if_pos (by omega), if_pos (by omega)]
  · rw [if_neg hwhole]
    by_cases hbig : (byteoff + nbytes).toNat > spromSize * 2
    · rw [if_pos hbig, if_pos (.inr (.inr ⟨hwhole, hbig⟩))]
    have hrefused : ¬(byteoff.toNat % 2 = 1 ∨ nbytes.toNat % 2 = 1 ∨
        ¬Whole byteoff nbytes ∧ (byteoff + nbytes).toNat > spromSize * 2) := by
      rintro (ho | ho | ho)
      exacts [hoff ho, hn ho, hbig ho.2]
    have hnw : imageWords srom byteoff nbytes = readWords srom := if_neg hwhole
    obtain ⟨image', hread, himage⟩ := readImage_eq srom image
    rw [if_neg hbig, if_neg hrefused, hread]
    dsimp only
    rw [if_neg (by decide)]
    by_cases hinside : Inside (byteoff.toNat / 2) (nbytes.toNat / 2)
    · rw [if_pos hinside, if_pos hinside, hnw]
      rw [hnw] at hpos hsize
      exact writeImage_eq srom (by omega) hsize (overlay_congr buf himage)
    · rw [if_neg hinside, if_neg hinside]

/-- A request that is not refused lies inside of `image[]` if it does not wrap around. -/
theorem inside_iff {byteoff nbytes : UInt32} (hn : ¬nbytes.toNat % 2 = 1)
    (h : ¬(¬Whole byteoff nbytes ∧ (byteoff + nbytes).toNat > spromSize * 2)) :
    Inside (byteoff.toNat / 2) (nbytes.toNat / 2) ↔ byteoff.toNat + nbytes.toNat < 2 ^ 32 := by
  have hlt := nbytes.toNat_lt
  by_cases hwhole : Whole byteoff nbytes
  · refine iff_of_true (inside_of_whole hwhole).1 ?_
    rw [hwhole.1]
    simpa using hlt
  · have hle : (byteoff + nbytes).toNat ≤ 512 := Nat.not_lt.mp fun hgt => h ⟨hwhole, hgt⟩
    rw [UInt32.toNat_add] at hle
    have hlt' := byteoff.toNat_lt
    unfold Inside spromSize
    omega

/-! ### What is read -/

theorem spromReadPci_eq (srom b : Words) {n : ℕ} (hn : 0 < n) : spromReadPci srom 0 b n true =
    (if srom 0 = 0xffff then 1 else if hndcrc8 (bytes srom n) crc8InitValue = crc8GoodValue then 0 else 1,
      fun i => if i < n then srom i else b i) := by
  have hbytes : bytes (fun i => if i < n then srom i else b i) n = bytes srom n := bytes_congr fun i hi => if_pos hi
  unfold spromReadPci
  simp only [Nat.zero_add, hbytes, hn, if_true]
  by_cases h0 : srom 0 = 0xffff
  · simp only [h0, if_true]
  · by_cases hgood : hndcrc8 (bytes srom n) crc8InitValue = crc8GoodValue
    · simp only [h0, hgood, ne_eq, not_true_eq_false, if_false, if_true]
    · simp only [h0, hgood, ne_eq, not_false_eq_true, if_false, if_true]

/-- The CRC check looks at as many words as the signature says. -/
theorem crcCheck_eq (srom b : Words) : crcCheck srom b = if srom 0 = 0xffff then 1
    else if hndcrc8 (bytes srom (readWords srom)) crc8InitValue = crc8GoodValue then 0 else 1 := by
  have hword : (if srom4Sign < spromCrcRange then srom srom4Sign else b srom4Sign) = srom srom4Sign := if_pos (by decide)
  unfold crcCheck readWords
  rw [spromReadPci_eq srom b (show 0 < spromCrcRange by decide)]
  dsimp only
  by_cases hsign : srom srom4Sign = srom4Signature
  · rw [if_pos (hword.trans hsign), if_pos hsign, spromReadPci_eq srom _ (show 0 < srom4Words by decide)]
  · rw [if_neg (fun hs => hsign (hword.symm.trans hs)), if_neg hsign]

/-- The part behind the write. -/
def written (srom o : Words) (nw : ℕ) : Words := fun i => if i < nw then setCrc o nw (nw * 2) i else srom i

theorem written_of_lt {srom o : Words} {nw i : ℕ} (h : i < nw - 1) : written srom o nw i = o i := by
  rw [written, if_pos (by omega), setCrc_of_ne (by omega)]

/-- The CRC of the words that are read. -/
theorem good_iff_covered {srom o : Words} {nw : ℕ} (hnw : 33 < nw) (ho : ∀ i, nw ≤ i → i < spromSize → o i = srom i)
    (h0 : o 0 ≠ 0xffff) : hndcrc8 (bytes (written srom o nw) (readWords o)) crc8InitValue = crc8GoodValue ↔
      Covered o nw := by
  have hread : readWords o ≤ spromSize := by
    unfold readWords
    split_ifs <;> decide
  have himage : hndcrc8 (bytes (written srom o nw) nw) crc8InitValue = crc8GoodValue := by
    have hbytes : bytes (written srom o nw) nw = bytes (setCrc o nw (nw * 2)) nw := bytes_congr fun i hi => if_pos hi
    rw [hbytes]
    exact hndcrc8_setCrc o (by omega)
  unfold Covered
  rcases Nat.lt_trichotomy (readWords o) nw with hlt | heq | hgt
  · rw [bytes_congr fun i hi => written_of_lt (show i < nw - 1 by omega)]
    constructor
    · intro h
      exact .inr (.inr (.inl ⟨hlt, h⟩))
    · rintro (h | h | h | h)
      · exact absurd h h0
      · omega
      · exact h.2
      · omega
  · rw [heq]
    exact iff_of_true himage (.inr (.inl rfl))
  · -- the words behind the image are as they were
    obtain ⟨k, hk⟩ := Nat.exists_eq_add_of_lt hgt
    have hbehind : bytes (fun i => written srom o nw (nw + i)) (k + 1) = bytes (fun i => o (nw + i)) (k + 1) :=
      bytes_congr fun i hi => by rw [written, if_neg (by omega), ho _ (by omega) (by omega)]
    rw [hk, Nat.add_assoc, bytes_add, hndcrc8_append, himage, hbehind, Nat.add_sub_cancel_left]
    constructor
    · intro h
      exact .inr (.inr (.inr ⟨by omega, h⟩))
    · rintro (h | h | h | h)
      · exact absurd h h0
      · omega
      · omega
      · exact h.2

theorem readWords_written {srom o : Words} {nw : ℕ} (hnw : 33 < nw) : readWords (written srom o nw) = readWords o := by
  have hsign : srom4Sign < nw - 1 := by
    unfold srom4Sign
    omega
  rw [readWords, written_of_lt hsign, readWords]

/-- The part is readable behind the write. -/
theorem readable_iff {srom o : Words} {nw : ℕ} (hnw : 33 < nw) (ho : ∀ i, nw ≤ i → i < spromSize → o i = srom i) :
    (written srom o nw 0 ≠ 0xffff → ∀ b, crcCheck (written srom o nw) b = 0) ↔ Covered o nw := by
  have h0 : written srom o nw 0 = o 0 := written_of_lt (by omega)
  by_cases hblank : o 0 = 0xffff
  · exact iff_of_true (fun h => absurd (h0.trans hblank) h) (.inl hblank)
  · rw [← good_iff_covered hnw ho hblank, ← @readWords_written srom _ _ hnw]
    constructor
    · intro h
      have hcheck := h (by rwa [h0]) (fun _ => 0)
      rw [crcCheck_eq, h0, if_neg hblank] at hcheck
      by_contra hbad
      rw [if_neg hbad] at hcheck
      exact absurd hcheck (by decide)
    · intro h _ b
      rw [crcCheck_eq, h0, if_neg hblank, if_pos h]

/-- **When the write of an SPROM is right.** -/
theorem sromWrite_correct_iff (srom image : Words) {byteoff nbytes : UInt32} (buf : Words) (h : byteoff ≠ 0x55aa) :
    Correct srom image byteoff nbytes buf ↔ Fits srom byteoff nbytes buf := by
  obtain ⟨hnw, -⟩ := imageWords_pos srom byteoff nbytes
  unfold Correct Fits
  rw [sromWrite_eq srom image buf h]
  by_cases hrefused : byteoff.toNat % 2 = 1 ∨ nbytes.toNat % 2 = 1 ∨
      ¬Whole byteoff nbytes ∧ (byteoff + nbytes).toNat > spromSize * 2
  · rw [if_pos hrefused]
    refine iff_of_true ⟨1, srom, rfl, fun h => absurd h (by decide)⟩ ?_
    exact hrefused.imp_right (Or.imp_right Or.inl)
  rw [if_neg hrefused]
  obtain ⟨hoff, hn, hsum⟩ : ¬byteoff.toNat % 2 = 1 ∧ ¬nbytes.toNat % 2 = 1 ∧
      ¬(¬Whole byteoff nbytes ∧ (byteoff + nbytes).toNat > spromSize * 2) := by
    exact ⟨fun ho => hrefused (.inl ho), fun ho => hrefused (.inr (.inl ho)), fun ho => hrefused (.inr (.inr ho))⟩
  rw [or_iff_right hoff, or_iff_right hn, or_iff_right hsum, ← inside_iff hn hsum]
  by_cases hinside : Inside (byteoff.toNat / 2) (nbytes.toNat / 2)
  · rw [if_pos hinside]
    set o := wanted srom byteoff nbytes buf
    set nw := imageWords srom byteoff nbytes
    constructor
    · rintro ⟨err, srom', heq, hright⟩
      obtain ⟨rfl, rfl⟩ := Prod.mk.inj (Option.some.inj heq)
      obtain ⟨hdata, -, hread⟩ := hright rfl
      have ho : ∀ i, nw ≤ i → i < spromSize → o i = srom i := fun i hi hlt => by
        exact (hdata i hlt (by omega)).symm.trans (if_neg (by omega))
      exact ⟨hinside, ho, (readable_iff hnw ho).mp hread⟩
    · rintro ⟨-, ho, hcovered⟩
      refine ⟨0, written srom o nw, rfl, fun _ => ⟨fun i hlt hne => ?_, fun i hi => ?_, (readable_iff hnw ho).mpr hcovered⟩⟩
      · by_cases hi : i < nw
        · exact written_of_lt (by omega)
        · rw [written, if_neg hi, ho i (by omega) hlt]
      · rw [hi, written, if_pos (by omega), setCrc_and]
  · rw [if_neg hinside]
    exact iff_of_false (fun ⟨_, _, heq, _⟩ => absurd heq (Option.some_ne_none _).symm) fun h => hinside h.1

/-- A write within the image. -/
theorem sromWrite_correct_iff_word : Correct (fun _ => 0) (fun _ => 0) 40 2 (fun _ => 7) ↔ Fits (fun _ => 0) 40 2 fun _ => 7 :=
  sromWrite_correct_iff _ _ _ (by decide)

/-- A part without signature: the CRC is that of 127 bytes that are 0. -/
def blankPart : Words := fun i => if i = 63 then (~~~hndcrc8 (List.replicate 127 0) crc8InitValue).toUInt16 <<< 8 else 0

/-- A word behind the image is dropped. -/
theorem sromWrite_dropped : hndcrc8 (bytes blankPart (readWords blankPart)) crc8InitValue = crc8GoodValue ∧
    (sromWrite blankPart (fun _ => 0) 200 2 fun _ => 1).map (fun r => (r.1, r.2 100)) = some (0, 0) ∧
      ¬Correct blankPart (fun _ => 0) 200 2 fun _ => 1 := by
  have hdropped : (sromWrite blankPart (fun _ => 0) 200 2 fun _ => 1).map (fun r => (r.1, r.2 100)) = some (0, 0) := by
    decide +kernel
  refine ⟨by decide +kernel, hdropped, ?_⟩
  rintro ⟨err, srom', heq, hright⟩
  rw [heq] at hdropped
  obtain ⟨herr, hword⟩ := Prod.mk.inj (Option.some.inj hdropped)
  have hwanted := (hright herr).1 100 (by decide) (by decide +kernel)
  rw [show srom' 100 = 0 from hword] at hwanted
  exact absurd hwanted (by decide +kernel)

end Srom
end Bcm
end Router
