/-
# Writing an image to flash

`mtd_write` of `rc/mtd.c`: the TRX header of a file is examined, and then the file is
written block after block, with a running CRC-32. A block is as large as the buffer:
the image rounded up to erase blocks if there is memory for it, and one erase block
otherwise. The CRC is compared at a block that has as many bytes as the image.

That is so at the first block or it may not be so at all: `mtd_write_sound_iff` says for
which sizes an image with a wrong CRC is never reported as written. With bytes behind the
image, the block that holds its end has too many of them (`profile_hides_crc`).

The file can be opened and does not change meanwhile (a URL is another matter: the length
of it is not known). The processor has the low byte of a word first.
-/
import RouterFirmware.Lib.CMem

namespace Router
namespace Rc

open CMem

/-! ### CRC-32 -/

/-- `crc32_table`. -/
def crc32Table : List UInt32 :=
  [0x00000000, 0x77073096, 0xEE0E612C, 0x990951BA, 0x076DC419, 0x706AF48F, 0xE963A535, 0x9E6495A3,
    0x0EDB8832, 0x79DCB8A4, 0xE0D5E91E, 0x97D2D988, 0x09B64C2B, 0x7EB17CBD, 0xE7B82D07, 0x90BF1D91,
    0x1DB71064, 0x6AB020F2, 0xF3B97148, 0x84BE41DE, 0x1ADAD47D, 0x6DDDE4EB, 0xF4D4B551, 0x83D385C7,
    0x136C9856, 0x646BA8C0, 0xFD62F97A, 0x8A65C9EC, 0x14015C4F, 0x63066CD9, 0xFA0F3D63, 0x8D080DF5,
    0x3B6E20C8, 0x4C69105E, 0xD56041E4, 0xA2677172, 0x3C03E4D1, 0x4B04D447, 0xD20D85FD, 0xA50AB56B,
    0x35B5A8FA, 0x42B2986C, 0xDBBBC9D6, 0xACBCF940, 0x32D86CE3, 0x45DF5C75, 0xDCD60DCF, 0xABD13D59,
    0x26D930AC, 0x51DE003A, 0xC8D75180, 0xBFD06116, 0x21B4F4B5, 0x56B3C423, 0xCFBA9599, 0xB8BDA50F,
    0x2802B89E, 0x5F058808, 0xC60CD9B2, 0xB10BE924, 0x2F6F7C87, 0x58684C11, 0xC1611DAB, 0xB6662D3D,
    0x76DC4190, 0x01DB7106, 0x98D220BC, 0xEFD5102A, 0x71B18589, 0x06B6B51F, 0x9FBFE4A5, 0xE8B8D433,
    0x7807C9A2, 0x0F00F934, 0x9609A88E, 0xE10E9818, 0x7F6A0DBB, 0x086D3D2D, 0x91646C97, 0xE6635C01,
    0x6B6B51F4, 0x1C6C6162, 0x856530D8, 0xF262004E, 0x6C0695ED, 0x1B01A57B, 0x8208F4C1, 0xF50FC457,
    0x65B0D9C6, 0x12B7E950, 0x8BBEB8EA, 0xFCB9887C, 0x62DD1DDF, 0x15DA2D49, 0x8CD37CF3, 0xFBD44C65,
    0x4DB26158, 0x3AB551CE, 0xA3BC0074, 0xD4BB30E2, 0x4ADFA541, 0x3DD895D7, 0xA4D1C46D, 0xD3D6F4FB,
    0x4369E96A, 0x346ED9FC, 0xAD678846, 0xDA60B8D0, 0x44042D73, 0x33031DE5, 0xAA0A4C5F, 0xDD0D7CC9,
    0x5005713C, 0x270241AA, 0xBE0B1010, 0xC90C2086, 0x5768B525, 0x206F85B3, 0xB966D409, 0xCE61E49F,
    0x5EDEF90E, 0x29D9C998, 0xB0D09822, 0xC7D7A8B4, 0x59B33D17, 0x2EB40D81, 0xB7BD5C3B, 0xC0BA6CAD,
    0xEDB88320, 0x9ABFB3B6, 0x03B6E20C, 0x74B1D29A, 0xEAD54739, 0x9DD277AF, 0x04DB2615, 0x73DC1683,
    0xE3630B12, 0x94643B84, 0x0D6D6A3E, 0x7A6A5AA8, 0xE40ECF0B, 0x9309FF9D, 0x0A00AE27, 0x7D079EB1,
    0xF00F9344, 0x8708A3D2, 0x1E01F268, 0x6906C2FE, 0xF762575D, 0x806567CB, 0x196C3671, 0x6E6B06E7,
    0xFED41B76, 0x89D32BE0, 0x10DA7A5A, 0x67DD4ACC, 0xF9B9DF6F, 0x8EBEEFF9, 0x17B7BE43, 0x60B08ED5,
    0xD6D6A3E8, 0xA1D1937E, 0x38D8C2C4, 0x4FDFF252, 0xD1BB67F1, 0xA6BC5767, 0x3FB506DD, 0x48B2364B,
    0xD80D2BDA, 0xAF0A1B4C, 0x36034AF6, 0x41047A60, 0xDF60EFC3, 0xA867DF55, 0x316E8EEF, 0x4669BE79,
    0xCB61B38C, 0xBC66831A, 0x256FD2A0, 0x5268E236, 0xCC0C7795, 0xBB0B4703, 0x220216B9, 0x5505262F,
    0xC5BA3BBE, 0xB2BD0B28, 0x2BB45A92, 0x5CB36A04, 0xC2D7FFA7, 0xB5D0CF31, 0x2CD99E8B, 0x5BDEAE1D,
    0x9B64C2B0, 0xEC63F226, 0x756AA39C, 0x026D930A, 0x9C0906A9, 0xEB0E363F, 0x72076785, 0x05005713,
    0x95BF4A82, 0xE2B87A14, 0x7BB12BAE, 0x0CB61B38, 0x92D28E9B, 0xE5D5BE0D, 0x7CDCEFB7, 0x0BDBDF21,
    0x86D3D2D4, 0xF1D4E242, 0x68DDB3F8, 0x1FDA836E, 0x81BE16CD, 0xF6B9265B, 0x6FB077E1, 0x18B74777,
    0x88085AE6, 0xFF0F6A70, 0x66063BCA, 0x11010B5C, 0x8F659EFF, 0xF862AE69, 0x616BFFD3, 0x166CCF45,
    0xA00AE278, 0xD70DD2EE, 0x4E048354, 0x3903B3C2, 0xA7672661, 0xD06016F7, 0x4969474D, 0x3E6E77DB,
    0xAED16A4A, 0xD9D65ADC, 0x40DF0B66, 0x37D83BF0, 0xA9BCAE53, 0xDEBB9EC5, 0x47B2CF7F, 0x30B5FFE9,
    0xBDBDF21C, 0xCABAC28A, 0x53B39330, 0x24B4A3A6, 0xBAD03605, 0xCDD70693, 0x54DE5729, 0x23D967BF,
    0xB3667A2E, 0xC4614AB8, 0x5D681B02, 0x2A6F2B94, 0xB40BBE37, 0xC30C8EA1, 0x5A05DF1B, 0x2D02EF8D]

/-- `CRC32_INIT_VALUE`. -/
def crc32InitValue : UInt32 := 0xffffffff

/-- `CRC_INNER_LOOP(32, crc, b)`. -/
def crc32Step (crc : UInt32) (b : UInt8) : UInt32 :=
  (crc >>> 8) ^^^ crc32Table.getD ((crc ^^^ b.toUInt32) &&& 0xff).toNat 0

/-- `crc32(pdata, nbytes, crc)`. -/
def crc32 (pdata : List UInt8) (crc : UInt32) : UInt32 := pdata.foldl crc32Step crc

theorem crc32_append (l l' : List UInt8) (crc : UInt32) : crc32 (l ++ l') crc = crc32 l' (crc32 l crc) :=
  List.foldl_append ..

/-- The entry of the table is chosen by the low byte. -/
theorem crc32Step_eq (crc : UInt32) (b : UInt8) :
    crc32Step crc b = (crc >>> 8) ^^^ crc32Table.getD (crc.toUInt8 ^^^ b).toNat 0 := by
  have hlow : (crc ^^^ b.toUInt32) &&& 0xff = (crc.toUInt8 ^^^ b).toUInt32 := by
    have hx : ∀ x : UInt32, x &&& 0xff = x.toUInt8.toUInt32 := by
      intro x
      apply UInt32.toNat_inj.mp
      rw [UInt32.toNat_and, UInt8.toNat_toUInt32, UInt32.toNat_toUInt8]
      exact Nat.and_two_pow_sub_one_eq_mod x.toNat 8
    rw [hx, UInt32.toUInt8_xor, UInt8.toUInt8_toUInt32]
  rw [crc32Step, hlow, UInt8.toNat_toUInt32]

/-- The two bytes that take the first and the second entry of the table leave different CRCs. -/
theorem exists_crc32Step_ne (crc v : UInt32) : ∃ b, crc32Step crc b ≠ v := by
  by_cases h : crc32Step crc crc.toUInt8 = v
  · refine ⟨crc.toUInt8 ^^^ 1, fun h' => ?_⟩
    rw [← h, crc32Step_eq, crc32Step_eq, UInt32.xor_right_inj, ← UInt8.xor_assoc, UInt8.xor_self] at h'
    revert h'
    decide
  · exact ⟨_, h⟩

/-! ### The image -/

/-- `TRX_MAGIC`, 'HDR0'. -/
def trxMagic : UInt32 := 0x30524448

/-- `TRX_MAX_LEN`. -/
def trxMaxLen : ℕ := 0x7D0000

/-- `TRX_NO_HEADER`. -/
def trxNoHeader : UInt32 := 1

/-- `sizeof(struct trx_header)`, and where `flag_version` is in it. -/
def headerSize : ℕ := 28

def flagVersionAt : ℕ := 12

/-- A word of a file. -/
def wordAt (file : List UInt8) (p : ℕ) : UInt32 := le32 (fun i => file.getD i 0) p

/-- `struct trx_header`, but for the offsets. -/
structure TrxHeader where
  magic : UInt32
  len : UInt32
  crc32 : UInt32
  flagVersion : UInt32

/-- The header of a file. -/
def trxHeader (file : List UInt8) : TrxHeader :=
  ⟨wordAt file 0, wordAt file 4, wordAt file 8, wordAt file flagVersionAt⟩

/-- `trx.flag_version & TRX_NO_HEADER`. -/
def TrxHeader.noHeader (trx : TrxHeader) : Bool := trx.flagVersion &&& trxNoHeader != 0

/-- The CRC over the first `n` bytes of a file, from `flag_version` on. -/
def fileCrc (file : List UInt8) (n : ℕ) : UInt32 := crc32 ((file.take n).drop flagVersionAt) crc32InitValue

/-! ### `mtd_write` -/

/-- What `mtd_write` finds: whether the device opens and answers, its erase size, how much memory is free,
and whether the buffers can be allocated. -/
structure Host where
  opened : Bool
  erasesize : ℕ
  erasesize_lt : erasesize < 2 ^ 31
  freeram : ℕ
  mallocFile : Bool
  mallocBlock : Bool

/-- `ROUNDUP(x, y)`. -/
def roundup (x y : ℕ) : ℕ := (x + (y - 1)) / y * y

/-- `erase_info.length`, the size of the buffer, if there is one. -/
def bufferSize (h : Host) (trxLen : ℕ) : Option ℕ :=
  if h.freeram ≥ trxLen ∧ h.mallocFile then some (roundup trxLen h.erasesize)
  else if h.mallocBlock then some h.erasesize else none

/-- Erasing and writing the block at a position: nothing if it succeeds, and otherwise what the device is
left with. -/
abbrev Faults := ℕ → Option Mem

/-- The loop of `mtd_write`, from `start` on, where the file is read from `pos` on; `none` if it has not
ended after so many turns. `trxLen` is `trx.len`, less the header if there is none to write. -/
def writeLoop (file : List UInt8) (trxLen : ℕ) (length : ℕ) (ops : Faults) :
    ℕ → ℕ → ℕ → UInt32 → Mem → Option (ℤ × Mem)
  | 0, _, _, _, _ => none
  | fuel + 1, start, pos, crc, dev =>
    if start < file.length then
      let len := min length (file.length - start)
      let off := if (trxHeader file).noHeader ∨ start ≠ 0 then 0 else headerSize
      let data := (file.drop pos).take (len - off)
      let count := off + data.length
      if count < len then some (-1, dev)
      else
        let crc := crc32 data crc
        if count = trxLen ∧ crc ≠ (trxHeader file).crc32 then some (-1, dev)
        else
          match ops start with
          | some dev => some (-1, dev)
          | none =>
            let dev := write dev start (List.replicate length 0xff)
            writeLoop file trxLen length ops fuel (start + count) (pos + data.length) crc
              (write dev start (file.take off ++ data))
    else some (0, dev)

/-- The header is one of an image. -/
def GoodHeader (trx : TrxHeader) : Prop :=
  trx.magic = trxMagic ∧ trx.len.toNat ≤ trxMaxLen ∧ headerSize ≤ trx.len.toNat

instance (trx : TrxHeader) : Decidable (GoodHeader trx) := inferInstanceAs (Decidable (_ ∧ _))

/-- `mtd_write(path, mtd)`: what it returns, and the device. -/
def mtdWrite (h : Host) (file : List UInt8) (ops : Faults) (fuel : ℕ) (dev : Mem) : Option (ℤ × Mem) :=
  let trx := trxHeader file
  if file.length < headerSize ∨ ¬GoodHeader trx ∨ ¬h.opened ∨ h.erasesize < headerSize then some (-1, dev)
  else
    match bufferSize h trx.len.toNat with
    | none => some (-1, dev)
    | some length =>
      let crc := crc32 ((file.take headerSize).drop flagVersionAt) crc32InitValue
      let trxLen := if trx.noHeader then trx.len.toNat - headerSize else trx.len.toNat
      writeLoop file trxLen length ops fuel 0 headerSize crc dev

/-! ### One block -/

variable {file : List UInt8} {trxLen length : ℕ} {ops : Faults}

/-- The device holds the first `n` bytes of the file. -/
def Agrees (dev : Mem) (file : List UInt8) (n : ℕ) : Prop := ∀ i < n, dev i = file.getD i 0

theorem agrees_write {dev : Mem} {start n : ℕ} (h : Agrees dev file start) (hn : start + n ≤ file.length)
    (erased : List UInt8) :
    Agrees (write (write dev start erased) start ((file.drop start).take n)) file (start + n) := by
  have hlen : ((file.drop start).take n).length = n := by
    rw [List.length_take, List.length_drop]
    omega
  intro i hi
  by_cases hlt : i < start
  · rw [write_of_lt hlt, write_of_lt hlt]
    exact h i hlt
  · have hholds := holds_iff.mp (holds_write_same (write dev start erased) start ((file.drop start).take n))
      (i - start) (by omega)
    rw [Nat.add_sub_cancel' (by omega)] at hholds
    rw [hholds, List.getElem_take, List.getElem_drop, List.getD_eq_getElem _ _ (by omega)]
    congr 1
    omega

/-- The CRC is carried on by the bytes that follow. -/
theorem fileCrc_append {pos n : ℕ} (hpos : flagVersionAt ≤ pos) (hfile : pos ≤ file.length) :
    crc32 ((file.drop pos).take n) (fileCrc file pos) = fileCrc file (pos + n) := by
  have hsplit : file.take (pos + n) = file.take pos ++ (file.drop pos).take n := List.take_add
  have hdrop : flagVersionAt - (file.take pos).length = 0 := by
    rw [List.length_take]
    omega
  unfold fileCrc
  rw [← crc32_append, hsplit, List.drop_append, hdrop, List.drop_zero]

/-- A turn of the loop that writes the header: the block is the next bytes of the file, and the CRC that of
all bytes up to its end. -/
theorem writeLoop_turn (hno : (trxHeader file).noHeader = false) (hfile : headerSize ≤ file.length)
    (hlength : headerSize ≤ length) {start : ℕ} (hstart : start = 0 ∨ headerSize ≤ start)
    (hlt : start < file.length) (fuel : ℕ) (dev : Mem) :
    writeLoop file trxLen length ops (fuel + 1) start (max start headerSize)
        (fileCrc file (max start headerSize)) dev =
      let n := min length (file.length - start)
      if n = trxLen ∧ fileCrc file (start + n) ≠ (trxHeader file).crc32 then some (-1, dev)
      else
        match ops start with
        | some dev => some (-1, dev)
        | none =>
          writeLoop file trxLen length ops fuel (start + n) (max (start + n) headerSize)
            (fileCrc file (max (start + n) headerSize))
            (write (write dev start (List.replicate length 0xff)) start ((file.drop start).take n)) := by
  unfold headerSize at *
  set n := min length (file.length - start) with hn
  have hoff : (if (trxHeader file).noHeader = true ∨ start ≠ 0 then 0 else 28) = max start 28 - start := by
    simp only [hno, Bool.false_eq_true, false_or]
    split_ifs <;> omega
  have hlen : ((file.drop (max start 28)).take (n - (max start 28 - start))).length =
      n - (max start 28 - start) := by
    rw [List.length_take, List.length_drop]
    omega
  have hcount : max start 28 - start + (n - (max start 28 - start)) = n := by omega
  have hpos : max start 28 + (n - (max start 28 - start)) = start + n := by omega
  have hmax : max (start + n) 28 = start + n := by omega
  have hblock : file.take (max start 28 - start) ++ (file.drop (max start 28)).take (n - (max start 28 - start)) =
      (file.drop start).take n := by
    rcases hstart with rfl | hstart
    · conv_rhs => rw [← hcount, List.take_add]
      rfl
    · rw [max_eq_left hstart, Nat.sub_self]
      rfl
  rw [writeLoop, if_pos hlt]
  simp only [← hn, headerSize, hoff, hlen, hcount, hpos, hmax, hblock, lt_irrefl, if_false]
  rw [fileCrc_append (by unfold flagVersionAt; omega) (by omega), hpos]

/-! ### A run -/

/-- The loop ends, in at most one turn for each byte. -/
theorem writeLoop_ends (hno : (trxHeader file).noHeader = false) (hfile : headerSize ≤ file.length)
    (hlength : headerSize ≤ length) :
    ∀ fuel {start : ℕ} (dev : Mem), start = 0 ∨ headerSize ≤ start → start ≤ file.length →
      file.length < start + fuel → ∃ r, writeLoop file trxLen length ops fuel start (max start headerSize)
        (fileCrc file (max start headerSize)) dev = some r
  | 0, start, dev, _, hle, hfuel => absurd hfuel (by omega)
  | fuel + 1, start, dev, hstart, hle, hfuel => by
    by_cases hlt : start < file.length
    · rw [writeLoop_turn hno hfile hlength hstart hlt]
      dsimp only
      split_ifs
      · exact ⟨_, rfl⟩
      · cases ops start with
        | some dev => exact ⟨_, rfl⟩
        | none =>
          unfold headerSize at *
          exact writeLoop_ends hno hfile hlength fuel _ (by unfold headerSize; omega) (by omega) (by omega)
    · rw [writeLoop, if_neg hlt]
      exact ⟨_, rfl⟩

/-- A run that returns 0 has written all bytes of the file. -/
theorem writeLoop_agrees (hno : (trxHeader file).noHeader = false) (hfile : headerSize ≤ file.length)
    (hlength : headerSize ≤ length) :
    ∀ fuel {start : ℕ} {dev dev' : Mem}, start = 0 ∨ headerSize ≤ start → start ≤ file.length →
      Agrees dev file start →
      writeLoop file trxLen length ops fuel start (max start headerSize)
        (fileCrc file (max start headerSize)) dev = some (0, dev') → Agrees dev' file file.length
  | fuel + 1, start, dev, dev', hstart, hle, hdev, hrun => by
    by_cases hlt : start < file.length
    · rw [writeLoop_turn hno hfile hlength hstart hlt] at hrun
      dsimp only at hrun
      split_ifs at hrun with hbad
      · simp at hrun
      cases hops : ops start with
      | some dev => simp [hops] at hrun
      | none =>
        rw [hops] at hrun
        refine writeLoop_agrees hno hfile hlength fuel ?_ ?_ (agrees_write hdev ?_ _) hrun
        · unfold headerSize at *
          omega
        · omega
        · omega
    · rw [writeLoop, if_neg hlt] at hrun
      cases hrun
      rwa [show file.length = start by omega]

/-- If the compare cannot fail, nor the device, the loop returns 0. -/
theorem writeLoop_of_pass (hno : (trxHeader file).noHeader = false) (hfile : headerSize ≤ file.length)
    (hlength : headerSize ≤ length)
    (hpass : ∀ start < file.length, min length (file.length - start) = trxLen →
      start + trxLen = file.length ∧ fileCrc file file.length = (trxHeader file).crc32) :
    ∀ fuel {start : ℕ} (dev : Mem) r, start = 0 ∨ headerSize ≤ start →
      writeLoop file trxLen length (fun _ => none) fuel start (max start headerSize)
        (fileCrc file (max start headerSize)) dev = some r → r.1 = 0
  | fuel + 1, start, dev, r, hstart, hrun => by
    by_cases hlt : start < file.length
    · rw [writeLoop_turn hno hfile hlength hstart hlt] at hrun
      dsimp only at hrun
      rw [if_neg] at hrun
      · refine writeLoop_of_pass hno hfile hlength hpass fuel _ r ?_ hrun
        unfold headerSize at *
        omega
      · rintro ⟨hn, hbad⟩
        obtain ⟨hend, hcrc⟩ := hpass start hlt hn
        rw [hn, hend] at hbad
        exact hbad hcrc
    · rw [writeLoop, if_neg hlt] at hrun
      cases hrun
      rfl

/-- Without a header to write, the file is read from behind it, and is found to be truncated. -/
theorem writeLoop_noHeader (hno : (trxHeader file).noHeader = true) (hlength : 0 < length) :
    ∀ fuel {start : ℕ} (crc : UInt32) (dev : Mem) r, start < file.length →
      writeLoop file trxLen length ops fuel start (start + headerSize) crc dev = some r → r.1 ≠ 0
  | fuel + 1, start, crc, dev, r, hlt, hrun => by
    rw [writeLoop, if_pos hlt] at hrun
    simp only [hno, true_or, if_true, Nat.sub_zero, Nat.zero_add] at hrun
    split_ifs at hrun with htrunc hbad
    · cases hrun
      simp
    · cases hrun
      simp
    · cases hops : ops start with
      | some dev =>
        rw [hops] at hrun
        cases hrun
        simp
      | none =>
        rw [hops] at hrun
        dsimp only at hrun
        rw [List.length_take, List.length_drop] at htrunc hrun
        unfold headerSize at *
        rw [Nat.add_right_comm] at hrun
        exact writeLoop_noHeader hno hlength fuel _ _ r (by omega) hrun

/-! ### Which images are checked -/

/-- What a return of 0 should say: the CRC of the image is right, the image is complete, and the device holds
the bytes of the file. -/
def Sound (file : List UInt8) (r : ℤ × Mem) : Prop :=
  r.1 = 0 → fileCrc file (trxHeader file).len.toNat = (trxHeader file).crc32 ∧
    (trxHeader file).len.toNat ≤ file.length ∧ Agrees r.2 file file.length

/-- A file of `n` bytes that says it has `len` is written, through a buffer of `length` bytes. -/
structure Starts (h : Host) (n : ℕ) (len : UInt32) (length : ℕ) : Prop where
  header : headerSize ≤ n
  le_len : headerSize ≤ len.toNat
  len_le : len.toNat ≤ trxMaxLen
  opened : h.opened
  erase : headerSize ≤ h.erasesize
  buffer : bufferSize h len.toNat = some length

/-- The first block is the image, if anything is written; or there is no header to write. -/
def Checked (h : Host) (n : ℕ) (len flagVersion : UInt32) : Prop :=
  ∀ length, Starts h n len length → flagVersion &&& trxNoHeader ≠ 0 ∨ min length n = len.toNat

variable {h : Host} {n : ℕ} {len : UInt32}

theorem Starts.headerSize_le (hstarts : Starts h n len length) : headerSize ≤ length := by
  have hsize := hstarts.buffer
  unfold bufferSize at hsize
  split_ifs at hsize
  · cases hsize
    have herase := hstarts.erase
    have hlen := hstarts.le_len
    have hdiv := Nat.div_add_mod (len.toNat + (h.erasesize - 1)) h.erasesize
    have hmod := Nat.mod_lt (len.toNat + (h.erasesize - 1)) (y := h.erasesize) (by unfold headerSize at *; omega)
    rw [Nat.mul_comm] at hdiv
    unfold roundup
    omega
  · cases hsize
    exact hstarts.erase

/-- `mtd_write` is its loop, once it has come so far. -/
theorem mtdWrite_of_starts (hmagic : (trxHeader file).magic = trxMagic)
    (hstarts : Starts h file.length (trxHeader file).len length) (fuel : ℕ) (dev : Mem) :
    mtdWrite h file ops fuel dev =
      writeLoop file
        (if (trxHeader file).noHeader then (trxHeader file).len.toNat - headerSize else (trxHeader file).len.toNat)
        length ops fuel 0 headerSize (fileCrc file headerSize) dev := by
  obtain ⟨hfile, hmin, hmax, hopened, herase, hsize⟩ := hstarts
  unfold mtdWrite
  dsimp only
  rw [if_neg]
  · rw [hsize]
    rfl
  · simp only [not_or, not_not, Nat.not_lt]
    exact ⟨hfile, ⟨hmagic, hmax, hmin⟩, hopened, herase⟩

/-- It comes so far, or fails. -/
theorem mtdWrite_cases {fuel : ℕ} {dev : Mem} {r : ℤ × Mem} (hrun : mtdWrite h file ops fuel dev = some r) :
    r = (-1, dev) ∨
      (trxHeader file).magic = trxMagic ∧ ∃ length, Starts h file.length (trxHeader file).len length := by
  unfold mtdWrite at hrun
  dsimp only at hrun
  by_cases hfail : file.length < headerSize ∨ ¬GoodHeader (trxHeader file) ∨ ¬h.opened ∨ h.erasesize < headerSize
  · rw [if_pos hfail] at hrun
    exact .inl (Option.some.inj hrun).symm
  · rw [if_neg hfail] at hrun
    simp only [not_or, not_not, Nat.not_lt] at hfail
    obtain ⟨hfile, ⟨hmagic, hmax, hmin⟩, hopened, herase⟩ := hfail
    cases hsize : bufferSize h (trxHeader file).len.toNat with
    | none =>
      rw [hsize] at hrun
      exact .inl (Option.some.inj hrun).symm
    | some length => exact .inr ⟨hmagic, length, hfile, hmin, hmax, hopened, herase, hsize⟩

theorem noHeader_eq_false_iff {trx : TrxHeader} :
    trx.noHeader = false ↔ ¬trx.flagVersion &&& trxNoHeader ≠ 0 := by
  simp [TrxHeader.noHeader]

/-- The first block of a run that returns 0 has the right CRC, if it has as many bytes as the image. -/
theorem crc_of_first_block (hno : (trxHeader file).noHeader = false) (hfile : headerSize ≤ file.length)
    (hlength : headerSize ≤ length) (hfirst : min length file.length = trxLen) {fuel : ℕ} {dev dev' : Mem}
    (hrun : writeLoop file trxLen length ops fuel 0 headerSize (fileCrc file headerSize) dev = some (0, dev')) :
    fileCrc file trxLen = (trxHeader file).crc32 := by
  cases fuel with
  | zero => cases hrun
  | succ fuel =>
    have hturn := @writeLoop_turn file trxLen length ops hno hfile hlength 0 (.inl rfl)
      (by unfold headerSize at hfile; omega) fuel dev
    dsimp only at hturn
    rw [Nat.zero_max, hrun, Nat.sub_zero, hfirst, Nat.zero_add] at hturn
    by_contra hbad
    rw [if_pos ⟨rfl, hbad⟩] at hturn
    simp at hturn

/-- An image in the sizes that are checked is reported as written only if it is. -/
theorem sound_of_checked {fuel : ℕ} {dev : Mem} {r : ℤ × Mem}
    (hchecked : Checked h file.length (trxHeader file).len (trxHeader file).flagVersion)
    (hrun : mtdWrite h file ops fuel dev = some r) : Sound file r := by
  intro hret
  rcases mtdWrite_cases hrun with rfl | ⟨hmagic, length, hstarts⟩
  · simp at hret
  rw [mtdWrite_of_starts hmagic hstarts] at hrun
  have hfile := hstarts.header
  have hlength := hstarts.headerSize_le
  cases hno : (trxHeader file).noHeader with
  | true =>
    unfold headerSize at hfile hlength
    exact absurd hret (writeLoop_noHeader hno (by omega) fuel _ dev r (by omega) hrun)
  | false =>
    have hfirst := (hchecked length hstarts).resolve_left (noHeader_eq_false_iff.mp hno)
    obtain ⟨ret, dev'⟩ := r
    cases hret
    rw [if_neg (by simp [hno])] at hrun
    refine ⟨crc_of_first_block hno hfile hlength hfirst hrun, by omega, ?_⟩
    refine writeLoop_agrees hno hfile hlength fuel (.inl rfl) (Nat.zero_le _) ?_ hrun
    intro i hi
    omega

/-! ### An image that is not checked -/

/-- A file with a header, of which the offsets are a part of the body. -/
def imageFile (len crc flagVersion : UInt32) (body : List UInt8) : List UInt8 :=
  bytes32 trxMagic ++ bytes32 len ++ bytes32 crc ++ bytes32 flagVersion ++ body

variable {crc flagVersion : UInt32} {body : List UInt8}

theorem length_imageFile : (imageFile len crc flagVersion body).length = 16 + body.length := by
  simp only [imageFile, List.length_append, length_bytes32]

theorem wordAt_append (pre suf : List UInt8) (v : UInt32) : wordAt (pre ++ bytes32 v ++ suf) pre.length = v := by
  apply le32_of_holds
  rw [holds_iff]
  intro i hi
  rw [List.append_assoc, List.getD_append_right _ _ _ _ (by omega), Nat.add_sub_cancel_left,
    List.getD_append _ _ _ _ hi, List.getD_eq_getElem]

theorem trxHeader_imageFile : trxHeader (imageFile len crc flagVersion body) = ⟨trxMagic, len, crc, flagVersion⟩ := by
  have hmagic : wordAt (imageFile len crc flagVersion body) 0 = trxMagic :=
    wordAt_append [] (bytes32 len ++ bytes32 crc ++ bytes32 flagVersion ++ body) trxMagic
  have hlen : wordAt (imageFile len crc flagVersion body) 4 = len :=
    wordAt_append (bytes32 trxMagic) (bytes32 crc ++ bytes32 flagVersion ++ body) len
  have hcrc : wordAt (imageFile len crc flagVersion body) 8 = crc :=
    wordAt_append (bytes32 trxMagic ++ bytes32 len) (bytes32 flagVersion ++ body) crc
  have hflag : wordAt (imageFile len crc flagVersion body) flagVersionAt = flagVersion :=
    wordAt_append (bytes32 trxMagic ++ bytes32 len ++ bytes32 crc) body flagVersion
  rw [trxHeader, hmagic, hlen, hcrc, hflag]

theorem fileCrc_imageFile (k : ℕ) : fileCrc (imageFile len crc flagVersion body) k =
    crc32 ((bytes32 flagVersion ++ body).take (k - flagVersionAt)) crc32InitValue := by
  rw [fileCrc, List.drop_take]
  rfl

/-- There is an image of each size with a wrong CRC, but with that of the whole file if the file is longer. -/
theorem exists_bad_image (len flagVersion : UInt32) (hn : headerSize ≤ n) :
    ∃ file, file.length = n ∧ (trxHeader file).magic = trxMagic ∧ (trxHeader file).len = len ∧
      (trxHeader file).flagVersion = flagVersion ∧ fileCrc file len.toNat ≠ (trxHeader file).crc32 ∧
      (len.toNat < n → fileCrc file n = (trxHeader file).crc32) := by
  unfold headerSize at hn
  by_cases hlt : len.toNat < n
  · -- the last byte is behind the image, and changes the CRC
    set zeros := bytes32 flagVersion ++ List.replicate (n - 17) 0 with hzeros
    have hlength : zeros.length = n - flagVersionAt - 1 := by
      rw [hzeros, List.length_append, length_bytes32, List.length_replicate, flagVersionAt]
      omega
    obtain ⟨b, hb⟩ := exists_crc32Step_ne (crc32 zeros crc32InitValue)
      (crc32 (zeros.take (len.toNat - flagVersionAt)) crc32InitValue)
    refine ⟨imageFile len (crc32Step (crc32 zeros crc32InitValue) b) flagVersion (List.replicate (n - 17) 0 ++ [b]),
      ?_, ?_⟩
    · rw [length_imageFile, List.length_append, List.length_replicate, List.length_singleton]
      omega
    · rw [trxHeader_imageFile, fileCrc_imageFile, fileCrc_imageFile, ← List.append_assoc, ← hzeros]
      refine ⟨rfl, rfl, rfl, ?_, fun _ => ?_⟩
      · rw [List.take_append_of_le_length (by unfold flagVersionAt at *; omega)]
        exact Ne.symm hb
      · rw [List.take_of_length_le, crc32_append]
        · rfl
        · rw [List.length_append, hlength, List.length_singleton]
          unfold flagVersionAt
          omega
  · set crc := crc32 ((bytes32 flagVersion ++ List.replicate (n - 16) 0).take (len.toNat - flagVersionAt))
      crc32InitValue with hcrc
    refine ⟨imageFile len (crc + 1) flagVersion (List.replicate (n - 16) 0), ?_, ?_⟩
    · rw [length_imageFile, List.length_replicate]
      omega
    · rw [trxHeader_imageFile, fileCrc_imageFile, ← hcrc]
      refine ⟨rfl, rfl, rfl, ?_, fun h => absurd h hlt⟩
      simp

/-- **An image with a wrong CRC is never reported as written, if and only if the sizes are such that the first
block is the image.** For every file of `n` bytes whose header says `len` and `flagVersion`, whatever the device
does: a return of 0 says that the image is complete, that its CRC is right and that the device holds the file. -/
theorem mtd_write_sound_iff (h : Host) (n : ℕ) (len flagVersion : UInt32) :
    (∀ file : List UInt8, file.length = n → (trxHeader file).len = len →
        (trxHeader file).flagVersion = flagVersion →
        ∀ (ops : Faults) (fuel : ℕ) (dev : Mem) (r : ℤ × Mem),
          mtdWrite h file ops fuel dev = some r → Sound file r) ↔
      Checked h n len flagVersion := by
  constructor
  · intro hsound length hstarts
    by_contra hnot
    rw [not_or] at hnot
    obtain ⟨hflag, hfirst⟩ := hnot
    have hmin := hstarts.headerSize_le
    obtain ⟨file, rfl, hmagic, rfl, rfl, hcrc, hwhole⟩ := exists_bad_image len flagVersion hstarts.header
    have hno := noHeader_eq_false_iff.mpr hflag
    obtain ⟨r, hrun⟩ := @writeLoop_ends file (trxHeader file).len.toNat length (fun _ => none) hno
      hstarts.header hmin (file.length + 1) 0 (fun _ => 0) (.inl rfl) (Nat.zero_le _) (by omega)
    have hret : r.1 = 0 := by
      refine writeLoop_of_pass hno hstarts.header hmin (fun start hlt hturn => ?_) _ _ r (.inl rfl) hrun
      have hend : start + (trxHeader file).len.toNat = file.length := by omega
      refine ⟨hend, hwhole ?_⟩
      omega
    have hmtd : mtdWrite h file (fun _ => none) (file.length + 1) (fun _ => 0) = some r := by
      rw [mtdWrite_of_starts hmagic hstarts, if_neg (by simp [hno])]
      exact hrun
    exact hcrc (hsound file rfl rfl rfl _ _ _ r hmtd hret).1
  · rintro hchecked file rfl rfl rfl ops fuel dev r hrun
    exact sound_of_checked hchecked hrun

/-- Twenty bytes behind an image of forty, and sectors of 64 KiB: the wrong CRC is not seen. -/
theorem profile_hides_crc : ∃ r,
    mtdWrite ⟨true, 0x10000, by decide, 0x100000, true, true⟩ (imageFile 40 0 0 (List.replicate 44 0)) (fun _ => none)
      2 (fun _ => 0) = some r ∧ ¬Sound (imageFile 40 0 0 (List.replicate 44 0)) r := by
  have hret : (mtdWrite ⟨true, 0x10000, by decide, 0x100000, true, true⟩
      (imageFile 40 0 0 (List.replicate 44 0)) (fun _ => none) 2 (fun _ => 0)).map Prod.fst = some 0 := by
    decide +kernel
  obtain ⟨r, hrun, hret⟩ := Option.map_eq_some_iff.mp hret
  refine ⟨r, hrun, fun hsound => ?_⟩
  have hcrc := (hsound hret).1
  rw [trxHeader_imageFile, fileCrc_imageFile] at hcrc
  exact absurd hcrc (by decide +kernel)

end Rc
end Router
