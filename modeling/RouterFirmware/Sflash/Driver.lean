/-
# The serial flash driver

`sflash_init`, `sflash_read`, `sflash_poll`, `sflash_write` and `sflash_erase`.
What a write sends to the flash (`sflashSend`) stands apart from what becomes
of it, which the flash decides (`Hardware`): it takes the command and is busy
for some polls, or rejects it, or, where the chip select stays asserted, does
what it likes. A call writes no further than the next page, one byte where
the chip has no chip select to hold (`sflashSend_spec`), and the driver keeps
the chip select only behind a single byte that begins a page
(`sflashSend_cs`).

Not covered: the wait for buffer 1 of the Atmel chips, which only an assertion
looks at.
-/
import RouterFirmware.Nvram.Image
import RouterFirmware.Lib.Flash

namespace Router
namespace SerialFlash

open CMem Flash
open Nvram (bytesAt bytesAt_append)

/-! ### The chips -/

/-- `SFLASH_ST` and `SFLASH_AT`. -/
inductive FlashType
  | sflashSt
  | sflashAt
deriving DecidableEq

/-- `struct sflash`: pages of 256 bytes or more, a power of two to the block. -/
structure Sflash where
  type : FlashType
  blocksize : ℕ
  numblocks : ℕ
  pages : ∃ k, 8 ≤ k ∧ blocksize = 2 ^ k
  numblocks_pos : 0 < numblocks

/-- A chip with blocks of `2 ^ k` bytes. -/
def found (type : FlashType) (k numblocks : ℕ)
    (h : 8 ≤ k ∧ 0 < numblocks := by decide) : Sflash where
  type := type
  blocksize := 2 ^ k
  numblocks := numblocks
  pages := ⟨k, h.1, rfl⟩
  numblocks_pos := h.2

/-- The sectors of an ST M25P20. -/
theorem m25p20_sectors : 8 ≤ 16 ∧ 0 < 4 := by decide

def Sflash.size (sfl : Sflash) : ℕ := sfl.blocksize * sfl.numblocks

/-- `sflash_init`, with what the chip answers to `SFLASH_ST_RES` or
`SFLASH_AT_STATUS`, and to `SFLASH_ST_RES` at address 1. -/
def sflashInit (type : FlashType) (id id2 : ℕ) : Option Sflash :=
  match type with
  | .sflashSt =>
    match id with
    | 0x11 => some (found .sflashSt 16 4)
    | 0x12 => some (found .sflashSt 16 8)
    | 0x13 => some (found .sflashSt 16 16)
    | 0x14 => some (found .sflashSt 16 32)
    | 0x15 => some (found .sflashSt 16 64)
    | 0x16 => some (found .sflashSt 16 128)
    | 0xbf => if id2 = 0x44 then some (found .sflashSt 16 8) else none
    | _ => none
  | .sflashAt =>
    match id &&& 0x3c with
    | 0xc => some (found .sflashAt 8 512)
    | 0x14 => some (found .sflashAt 8 1024)
    | 0x1c => some (found .sflashAt 8 2048)
    | 0x24 => some (found .sflashAt 8 4096)
    | 0x2c => some (found .sflashAt 9 4096)
    | 0x34 => some (found .sflashAt 9 8192)
    | 0x3c => some (found .sflashAt 10 8192)
    | _ => none

/-- What the driver reads of the board: `cc->chipid` and `sbh->ccrev`. -/
structure Sb where
  chipid : ℕ
  ccrev : ℕ

def bcm4712ChipId : ℕ := 0x4712
def cidIdMask : ℕ := 0xffff
def cidRevMask : ℕ := 0xf0000
def cidRevShift : ℕ := 16

/-- `is4712b0`, in `sflash_write`. -/
def Sb.is4712b0 (sbh : Sb) : Bool :=
  sbh.chipid &&& cidIdMask = bcm4712ChipId ∧ sbh.chipid &&& cidRevMask = 3 <<< cidRevShift

/-- Whether `sflash_write` holds the chip select of an ST chip over a page. -/
def Sb.holdsCs (sbh : Sb) : Bool := sbh.is4712b0 || 20 ≤ sbh.ccrev

/-- The flash: its cells, and buffer 1 of an Atmel chip. -/
structure Chip where
  mem : Mem
  buf1 : Mem

/-! ### Reading -/

/-- How many bytes `sflash_read` goes for: up to an aligned offset, up to an
aligned buffer, or all. -/
def readCnt (offset len buf : ℕ) : ℕ :=
  if 4 ≤ len ∧ offset &&& 3 ≠ 0 then 4 - (offset &&& 3)
  else if 4 ≤ len ∧ buf &&& 3 ≠ 0 then 4 - (buf &&& 3)
  else len

/-- The words read while `cnt >= 4`. -/
def readWords (f : Mem) (offset : ℕ) : ℕ → List UInt8
  | cnt + 4 =>
    f offset :: f (offset + 1) :: f (offset + 2) :: f (offset + 3) :: readWords f (offset + 4) cnt
  | _ => []

/-- `sflash_read` into the buffer at `buf`: what it returns and what it stores. -/
def sflashRead (sfl : Sflash) (f : Mem) (offset len buf : ℕ) : ℤ × List UInt8 :=
  if len = 0 then (0, [])
  else if sfl.size < offset + len then (-22, [])
  else if readCnt offset len buf < 4 then
    (readCnt offset len buf, bytesAt f offset (readCnt offset len buf))
  else
    ((len - readCnt offset len buf % 4 : ℕ), readWords f offset (readCnt offset len buf))

/-! ### Writing -/

/-- The chip select behind the last byte: the controller's own, or dropped by
the driver, which then looks at the flash for the page at `offset` and fails
with `err`, or still asserted. -/
inductive Cs
  | own
  | drop (offset : ℕ) (err : ℤ)
  | kept
deriving DecidableEq

/-- What one `sflash_write` sends: `data` programmed at `page`, `ret` bytes of
the buffer. -/
structure Sent where
  page : ℕ
  data : List UInt8
  ret : ℕ
  cs : Cs
  buf1 : Mem

/-- The bytes behind the first of a page program, with the chip select held. -/
def csBytes (offset ret : ℕ) : List UInt8 → ℕ × Cs
  | [] => (ret, if offset &&& 255 ≠ 1 then .drop offset (-12) else .kept)
  | _ :: buf => if offset &&& 255 = 0 then (ret, .drop offset (-11)) else csBytes (offset + 1) (ret + 1) buf

/-- The bytes written into buffer 1 from `byte` on. -/
def bufBytes (blocksize byte : ℕ) (buf1 : Mem) : List UInt8 → ℕ × Mem
  | [] => (0, buf1)
  | b :: buf =>
    if byte < blocksize then
      let r := bufBytes blocksize (byte + 1) (write buf1 byte [b]) buf
      (r.1 + 1, r.2)
    else (0, buf1)

/-- What `sflash_write` sends of a buffer that is not empty. -/
def sflashSend (sfl : Sflash) (sbh : Sb) (c : Chip) (offset : ℕ) (buf : List UInt8) : Sent :=
  match sfl.type with
  | .sflashSt =>
    if sbh.holdsCs then
      let r := csBytes (offset + 1) 1 buf.tail
      ⟨offset, buf.take r.1, r.1, r.2, c.buf1⟩
    else ⟨offset, buf.take 1, 1, .own, c.buf1⟩
  | .sflashAt =>
    let mask := sfl.blocksize - 1
    let byte := offset &&& mask
    let page := offset - byte
    -- main memory page into buffer 1, if not all of it is written
    let buf1 := if byte ≠ 0 ∨ buf.length < sfl.blocksize then (fun i => c.mem (page + i)) else c.buf1
    let r := bufBytes sfl.blocksize byte buf1 buf
    ⟨page, bytesAt r.2 0 sfl.blocksize, r.1, .own, r.2⟩

/-! ### What becomes of a command -/

/-- The flash to a command: done after so many polls, `left` the bits that are
not, as long as it is busy; or rejected. -/
inductive Reply
  | accepted (busy : ℕ) (left : Mem)
  | rejected

/-- The flash and the clock: the replies by offset, how often the driver polls
within a time-out (in jiffies), and what a page program is masked with whose
chip select stays asserted. -/
structure Hardware where
  reply : ℕ → Reply
  polls : ℕ → ℕ
  kept : Mem

/-- `HZ`. -/
def hz : ℕ := 100

/-- The command at `offset` is over within the time-out. -/
def Hardware.Done (h : Hardware) (timeout offset : ℕ) : Prop :=
  match h.reply offset with
  | .accepted busy _ => busy ≤ h.polls timeout
  | .rejected => True

/-- The bytes `l` programmed at `p`, but for the bits `left`. -/
def programBut (f : Mem) (p : ℕ) (l : List UInt8) (left : Mem) : Mem :=
  fun i => if p ≤ i ∧ i < p + l.length then f i &&& (l.getD (i - p) 0 ||| left i) else f i

/-- The page program of what `sflash_write` sent for `offset`, when the driver
has done with it. -/
def Hardware.program (h : Hardware) (f : Mem) (offset : ℕ) (s : Sent) : Mem :=
  match h.reply offset with
  | .accepted busy left =>
    if busy ≤ h.polls (hz / 10) then Flash.program f s.page s.data else programBut f s.page s.data left
  | .rejected => f

/-- The write in progress bit, right behind the command at `offset`. -/
def Hardware.wip (h : Hardware) (offset : ℕ) : Bool :=
  match h.reply offset with
  | .accepted _ _ => true
  | .rejected => false

/-- `sflash_poll`, the flash showing `wip`. -/
def sflashPoll (sfl : Sflash) (wip : Bool) (offset : ℕ) : ℤ :=
  if sfl.size ≤ offset then -22 else if wip then 1 else 0

/-- `sflash_write`: what it returns, and the flash. -/
def sflashWrite (sfl : Sflash) (sbh : Sb) (h : Hardware) (c : Chip) (offset : ℕ)
    (buf : List UInt8) : ℤ × Chip :=
  if buf.length = 0 then (0, c)
  else if sfl.size < offset + buf.length then (-22, c)
  else
    let s := sflashSend sfl sbh c offset buf
    match s.cs with
    | .own => (s.ret, ⟨h.program c.mem offset s, s.buf1⟩)
    | .drop o err =>
      -- flash rejected command
      if sflashPoll sfl (h.wip offset) o = 0 then (err, c)
      else (s.ret, ⟨h.program c.mem offset s, s.buf1⟩)
    | .kept => (s.ret, ⟨fun i => c.mem i &&& h.kept i, s.buf1⟩)

/-- The block at `p` erased, when the driver has done with it. -/
def Hardware.erase (h : Hardware) (f : Mem) (blocksize p : ℕ) : Mem :=
  match h.reply p with
  | .accepted busy left =>
    if busy ≤ h.polls (10 * hz) then eraseBlock blocksize f p
    else fun i => if p ≤ i ∧ i < p + blocksize then f i ||| left i else f i
  | .rejected => f

/-- `sflash_erase`. -/
def sflashErase (sfl : Sflash) (h : Hardware) (c : Chip) (offset : ℕ) : ℤ × Chip :=
  if sfl.size ≤ offset then (-22, c)
  else (sfl.blocksize, ⟨h.erase c.mem sfl.blocksize (offset - offset % sfl.blocksize), c.buf1⟩)

/-- The chips that are found: 64 KB to the block of an ST chip, at most 1 KB to
that of an Atmel chip, and 128 KB in all at least. -/
theorem sflashInit_found {type : FlashType} {id id2 : ℕ} {sfl : Sflash}
    (h : sflashInit type id id2 = some sfl) : 0x20000 ≤ sfl.size ∧
      (sfl.type = .sflashSt ∧ sfl.blocksize = 0x10000 ∨
        sfl.type = .sflashAt ∧ sfl.blocksize ∣ 0x400) := by
  cases type with
  | sflashSt =>
    simp only [sflashInit] at h
    split at h
    case h_7 =>
      split_ifs at h
      cases h
      decide
    all_goals first
      | (cases h; decide)
      | cases h
  | sflashAt =>
    simp only [sflashInit] at h
    split at h
    all_goals first
      | (cases h; decide)
      | cases h

/-! ### What a read brings -/

theorem readCnt_le (offset buf : ℕ) {len : ℕ} (hlen : 0 < len) :
    0 < readCnt offset len buf ∧ readCnt offset len buf ≤ len := by
  have h1 : offset &&& 3 ≤ 3 := Nat.and_le_right
  have h2 : buf &&& 3 ≤ 3 := Nat.and_le_right
  unfold readCnt
  split_ifs <;> omega

/-- Words are read from an aligned offset into an aligned buffer, and then all
of them. -/
theorem readCnt_words {offset len buf : ℕ} (h : 4 ≤ readCnt offset len buf) :
    readCnt offset len buf = len ∧ offset &&& 3 = 0 ∧ buf &&& 3 = 0 := by
  unfold readCnt at h ⊢
  split_ifs at h ⊢ <;> omega

theorem readWords_eq (f : Mem) : ∀ offset cnt : ℕ,
    readWords f offset cnt = bytesAt f offset (cnt - cnt % 4)
  | offset, cnt + 4 => by
    have h4 : bytesAt f offset 4 = [f offset, f (offset + 1), f (offset + 2), f (offset + 3)] := rfl
    rw [readWords, readWords_eq f (offset + 4) cnt,
      show cnt + 4 - (cnt + 4) % 4 = 4 + (cnt - cnt % 4) by omega, ← bytesAt_append, h4]
    rfl
  | _, 0 | _, 1 | _, 2 | _, 3 => rfl

/-- Inside the flash a read brings some of the bytes asked for. -/
theorem sflashRead_spec {sfl : Sflash} (f : Mem) {offset len : ℕ} (buf : ℕ) (hlen : 0 < len)
    (hin : offset + len ≤ sfl.size) :
    ∃ n : ℕ, 0 < n ∧ n ≤ len ∧ sflashRead sfl f offset len buf = ((n : ℤ), bytesAt f offset n) := by
  obtain ⟨hpos, hle⟩ := readCnt_le offset buf hlen
  unfold sflashRead
  rw [if_neg (by omega), if_neg (by omega)]
  split_ifs with h4
  · exact ⟨_, hpos, hle, rfl⟩
  · have hcnt := (readCnt_words (by omega : 4 ≤ readCnt offset len buf)).1
    rw [readWords_eq, hcnt]
    exact ⟨len - len % 4, by omega, by omega, rfl⟩

/-! ### What a write sends -/

/-- The pages a call of `sflash_write` stops at. -/
def grain (sfl : Sflash) (sbh : Sb) : ℕ :=
  match sfl.type with
  | .sflashSt => if sbh.holdsCs then 256 else 1
  | .sflashAt => sfl.blocksize

/-- How much of `len` bytes a call for `offset` writes. -/
def chunk (sfl : Sflash) (sbh : Sb) (offset len : ℕ) : ℕ :=
  min len (grain sfl sbh - offset % grain sfl sbh)

/-- The driver holds the chip select over a page program. -/
def HoldsCs (sfl : Sflash) (sbh : Sb) : Prop := sfl.type = .sflashSt ∧ sbh.holdsCs = true

instance (sfl : Sflash) (sbh : Sb) : Decidable (HoldsCs sfl sbh) := inferInstanceAs (Decidable (_ ∧ _))

theorem and_255 (n : ℕ) : n &&& 255 = n % 256 := Nat.and_two_pow_sub_one_eq_mod n 8

theorem Sflash.and_mask (sfl : Sflash) (n : ℕ) : n &&& (sfl.blocksize - 1) = n % sfl.blocksize := by
  obtain ⟨k, -, hk⟩ := sfl.pages
  rw [hk, Nat.and_two_pow_sub_one_eq_mod]

theorem Sflash.dvd_blocksize (sfl : Sflash) : 256 ∣ sfl.blocksize := by
  obtain ⟨k, h8, hk⟩ := sfl.pages
  rw [hk]
  exact pow_dvd_pow 2 h8

theorem Sflash.blocksize_pos (sfl : Sflash) : 0 < sfl.blocksize := by
  obtain ⟨k, -, hk⟩ := sfl.pages
  rw [hk]
  exact Nat.two_pow_pos k

theorem Sflash.dvd_size (sfl : Sflash) : 256 ∣ sfl.size := sfl.dvd_blocksize.mul_right _

theorem grain_pos (sfl : Sflash) (sbh : Sb) : 0 < grain sfl sbh := by
  unfold grain
  split
  · split_ifs <;> decide
  · exact sfl.blocksize_pos

theorem chunk_pos (sfl : Sflash) (sbh : Sb) (offset : ℕ) {len : ℕ} (h : 0 < len) :
    0 < chunk sfl sbh offset len := by
  have := Nat.mod_lt offset (grain_pos sfl sbh)
  unfold chunk
  omega

theorem chunk_le (sfl : Sflash) (sbh : Sb) (offset len : ℕ) : chunk sfl sbh offset len ≤ len :=
  Nat.min_le_left _ _

/-- Where the bytes behind the first stop, and how the chip select is then. -/
theorem csBytes_eq : ∀ (buf : List UInt8) (offset ret : ℕ),
    csBytes offset ret buf =
      (ret + min buf.length ((256 - offset % 256) % 256),
        if (256 - offset % 256) % 256 < buf.length then .drop (offset + (256 - offset % 256) % 256) (-11)
        else if (offset + buf.length) % 256 ≠ 1 then .drop (offset + buf.length) (-12) else .kept)
  | [], offset, ret => by simp [csBytes, and_255]
  | b :: buf, offset, ret => by
    unfold csBytes
    rw [and_255]
    by_cases h0 : offset % 256 = 0
    · simp [h0]
    · have hk : (256 - offset % 256) % 256 = (256 - (offset + 1) % 256) % 256 + 1 := by omega
      rw [if_neg h0, csBytes_eq buf, hk, List.length_cons, Nat.add_min_add_right]
      simp only [Nat.add_lt_add_iff_right, Prod.mk.injEq]
      refine ⟨by omega, ?_⟩
      simp only [Nat.add_assoc, Nat.add_comm 1]

theorem bufBytes_eq (blocksize : ℕ) : ∀ (buf : List UInt8) (byte : ℕ) (buf1 : Mem),
    bufBytes blocksize byte buf1 buf =
      (min buf.length (blocksize - byte), write buf1 byte (buf.take (blocksize - byte)))
  | [], byte, buf1 => by
    have : write buf1 byte [] = buf1 := write_of_holds trivial
    simp [bufBytes, this]
  | b :: buf, byte, buf1 => by
    unfold bufBytes
    split_ifs with h
    · obtain ⟨k, hk⟩ : ∃ k, blocksize - byte = k + 1 := ⟨blocksize - byte - 1, by omega⟩
      have hk' : blocksize - (byte + 1) = k := by omega
      have hw := write_write buf1 byte [b] (buf.take k)
      rw [List.length_singleton, List.singleton_append] at hw
      simp only [bufBytes_eq blocksize buf, hk, hk', hw, List.take_succ_cons, List.length_cons,
        Nat.add_min_add_right]
    · have : write buf1 byte [] = buf1 := write_of_holds trivial
      rw [show blocksize - byte = 0 by omega]
      simp [this]

/-- What a call takes of the buffer, and how the chip select is then. -/
theorem sflashSend_cs (sfl : Sflash) (sbh : Sb) (c : Chip) (offset : ℕ) {buf : List UInt8}
    (hbuf : 0 < buf.length) :
    (sflashSend sfl sbh c offset buf).ret = chunk sfl sbh offset buf.length ∧
    (sflashSend sfl sbh c offset buf).cs =
      if HoldsCs sfl sbh then
        if chunk sfl sbh offset buf.length < buf.length then
          .drop (offset + chunk sfl sbh offset buf.length) (-11)
        else if (offset + buf.length) % 256 ≠ 1 then .drop (offset + buf.length) (-12) else .kept
      else .own := by
  cases hty : sfl.type with
  | sflashSt =>
    by_cases hcs : sbh.holdsCs = true
    · have hchunk : chunk sfl sbh offset buf.length =
          1 + min buf.tail.length ((256 - (offset + 1) % 256) % 256) := by
        simp only [chunk, grain, hty, hcs, if_true, List.length_tail]
        omega
      simp only [sflashSend, HoldsCs, hty, hcs, if_true, csBytes_eq, hchunk, List.length_tail, true_and]
      have hlen : offset + 1 + (buf.length - 1) = offset + buf.length := by omega
      rw [hlen]
      split_ifs <;> first | rfl | omega | (congr 1; omega)
    · simp only [sflashSend, HoldsCs, hty, hcs, chunk, grain, Bool.false_eq_true, if_false, and_false,
        Nat.mod_one]
      exact ⟨by omega, trivial⟩
  | sflashAt =>
    simp only [sflashSend, HoldsCs, hty, chunk, grain, sfl.and_mask, bufBytes_eq, reduceCtorEq,
      false_and, if_false, and_self]

/-- The page that is programmed comes to the bytes of the chunk at `offset`. -/
theorem sflashSend_programBut (sfl : Sflash) (sbh : Sb) (c : Chip) (offset : ℕ) {buf : List UInt8}
    (hbuf : 0 < buf.length) (left : Mem) :
    programBut c.mem (sflashSend sfl sbh c offset buf).page (sflashSend sfl sbh c offset buf).data left =
      programBut c.mem offset (buf.take (chunk sfl sbh offset buf.length)) left := by
  cases hty : sfl.type with
  | sflashSt =>
    have hret := (sflashSend_cs sfl sbh c offset hbuf).1
    by_cases hcs : sbh.holdsCs = true
    · simp only [sflashSend, hty, hcs, if_true] at hret ⊢
      rw [hret]
    · simp only [sflashSend, hty, hcs, Bool.false_eq_true, if_false] at hret ⊢
      rw [hret]
  | sflashAt =>
    have hb : offset % sfl.blocksize < sfl.blocksize := Nat.mod_lt _ sfl.blocksize_pos
    have hle : offset % sfl.blocksize ≤ offset := Nat.mod_le _ _
    simp only [sflashSend, hty, sfl.and_mask, bufBytes_eq, chunk, grain]
    generalize offset % sfl.blocksize = byte at hb hle
    funext i
    have htake : buf.take (min buf.length (sfl.blocksize - byte)) = buf.take (sfl.blocksize - byte) := by
      rcases Nat.le_total buf.length (sfl.blocksize - byte) with h | h
      · rw [Nat.min_eq_left h, List.take_length, List.take_of_length_le h]
      · rw [Nat.min_eq_right h]
    rw [htake]
    simp only [programBut, bytesAt, List.length_map, List.length_range, List.length_take]
    by_cases hin : offset - byte ≤ i ∧ i < offset - byte + sfl.blocksize
    · rw [if_pos hin, List.getD_eq_getElem _ _ (by simp; omega), List.getElem_map, List.getElem_range,
        Nat.zero_add]
      by_cases hch : offset ≤ i ∧ i < offset + min (sfl.blocksize - byte) buf.length
      · rw [if_pos hch, write, if_pos (by simp; omega)]
        congr 3
        omega
      · -- a byte of the page that the buffer has as the flash has it
        have hload : byte ≠ 0 ∨ buf.length < sfl.blocksize := by omega
        rw [if_neg hch, write, if_neg (by simp; omega), if_pos hload,
          show offset - byte + (i - (offset - byte)) = i by omega]
        apply UInt8.toBitVec_inj.mp
        simp only [UInt8.toBitVec_and, UInt8.toBitVec_or]
        ext j
        simp
        grind
    · rw [if_neg hin, if_neg (by omega)]

theorem programBut_zero (f : Mem) (p : ℕ) (l : List UInt8) :
    programBut f p l (fun _ => 0) = Flash.program f p l := by
  funext i
  simp [programBut, Flash.program]

theorem sflashSend_program (sfl : Sflash) (sbh : Sb) (c : Chip) (offset : ℕ) {buf : List UInt8}
    (hbuf : 0 < buf.length) :
    Flash.program c.mem (sflashSend sfl sbh c offset buf).page (sflashSend sfl sbh c offset buf).data =
      Flash.program c.mem offset (buf.take (chunk sfl sbh offset buf.length)) := by
  simpa only [programBut_zero] using sflashSend_programBut sfl sbh c offset hbuf fun _ => 0

/-- The chunk of `buf` at `offset` is programmed, and the driver waits for it. -/
def Hardware.programChunk (h : Hardware) (sfl : Sflash) (sbh : Sb) (f : Mem) (offset : ℕ)
    (buf : List UInt8) (busy : ℕ) (left : Mem) : Mem :=
  if busy ≤ h.polls (hz / 10) then
    Flash.program f offset (buf.take (chunk sfl sbh offset buf.length))
  else programBut f offset (buf.take (chunk sfl sbh offset buf.length)) left

theorem Hardware.program_send {h : Hardware} {sfl : Sflash} {sbh : Sb} {c : Chip} {offset busy : ℕ}
    {left : Mem} {buf : List UInt8} (hbuf : 0 < buf.length)
    (hr : h.reply offset = .accepted busy left) :
    h.program c.mem offset (sflashSend sfl sbh c offset buf) =
      h.programChunk sfl sbh c.mem offset buf busy left := by
  simp only [Hardware.program, hr, Hardware.programChunk, sflashSend_program sfl sbh c offset hbuf,
    sflashSend_programBut sfl sbh c offset hbuf]

/-- A write inside the flash that is taken, and whose chip select is not left
asserted, programs its chunk. -/
theorem sflashWrite_accepted {sfl : Sflash} {sbh : Sb} {h : Hardware} (c : Chip) {offset busy : ℕ}
    {left : Mem} {buf : List UInt8} (hbuf : 0 < buf.length) (hin : offset + buf.length ≤ sfl.size)
    (hr : h.reply offset = .accepted busy left)
    (hkept : HoldsCs sfl sbh → chunk sfl sbh offset buf.length = buf.length →
      (offset + buf.length) % 256 ≠ 1) :
    (sflashWrite sfl sbh h c offset buf).1 = chunk sfl sbh offset buf.length ∧
    (sflashWrite sfl sbh h c offset buf).2.mem =
      h.programChunk sfl sbh c.mem offset buf busy left := by
  obtain ⟨hret, hcs⟩ := sflashSend_cs sfl sbh c offset hbuf
  have hpoll : ∀ o, sflashPoll sfl (h.wip offset) o ≠ 0 := by
    intro o
    simp only [sflashPoll, Hardware.wip, hr]
    split_ifs <;> decide
  have hsent : ∀ o err, (sflashSend sfl sbh c offset buf).cs = .own ∨
      (sflashSend sfl sbh c offset buf).cs = .drop o err →
      sflashWrite sfl sbh h c offset buf = (((sflashSend sfl sbh c offset buf).ret : ℤ),
        Chip.mk (h.program c.mem offset (sflashSend sfl sbh c offset buf))
          (sflashSend sfl sbh c offset buf).buf1) := by
    rintro o err (hc | hc)
    · simp only [sflashWrite, hc, if_neg hbuf.ne', if_neg (Nat.not_lt.mpr hin)]
    · simp only [sflashWrite, hc, if_neg hbuf.ne', if_neg (Nat.not_lt.mpr hin), if_neg (hpoll o)]
  have hnot : ∃ o err, (sflashSend sfl sbh c offset buf).cs = .own ∨
      (sflashSend sfl sbh c offset buf).cs = .drop o err := by
    rw [hcs]
    split_ifs with h1 h2 h3
    · exact ⟨_, _, Or.inr rfl⟩
    · exact ⟨_, _, Or.inr rfl⟩
    · exact absurd (hkept h1 (le_antisymm (chunk_le _ _ _ _) (not_lt.mp h2))) h3
    · exact ⟨0, 0, Or.inl rfl⟩
  obtain ⟨o, err, hc⟩ := hnot
  rw [hsent o err hc, hret, Hardware.program_send hbuf hr]
  exact ⟨rfl, rfl⟩

/-- A rejected page program, which the driver looks for behind the chunk: it
notices unless the flash ends there. -/
theorem sflashWrite_rejected {sfl : Sflash} {sbh : Sb} {h : Hardware} (c : Chip) {offset : ℕ}
    {buf : List UInt8} (hbuf : 0 < buf.length) (hin : offset + buf.length ≤ sfl.size)
    (hr : h.reply offset = .rejected) (hcs : HoldsCs sfl sbh)
    (hkept : (offset + buf.length) % 256 ≠ 1) :
    if offset + chunk sfl sbh offset buf.length < sfl.size then
      (sflashWrite sfl sbh h c offset buf).1 < 0 ∧ (sflashWrite sfl sbh h c offset buf).2 = c
    else
      (sflashWrite sfl sbh h c offset buf).1 = chunk sfl sbh offset buf.length ∧
      (sflashWrite sfl sbh h c offset buf).2.mem = c.mem := by
  obtain ⟨hret, hsel⟩ := sflashSend_cs sfl sbh c offset hbuf
  have hpoll : ∀ o, sflashPoll sfl (h.wip offset) o = if sfl.size ≤ o then -22 else 0 := by
    intro o
    simp only [sflashPoll, Hardware.wip, hr, Bool.false_eq_true, if_false]
  obtain ⟨err, herr, hdrop⟩ : ∃ err : ℤ, err < 0 ∧ (sflashSend sfl sbh c offset buf).cs =
      .drop (offset + chunk sfl sbh offset buf.length) err := by
    rw [hsel, if_pos hcs]
    have hle := chunk_le sfl sbh offset buf.length
    split_ifs with h1
    · exact ⟨-11, by decide, rfl⟩
    · rw [show chunk sfl sbh offset buf.length = buf.length by omega]
      exact ⟨-12, by decide, rfl⟩
  have hprog : h.program c.mem offset (sflashSend sfl sbh c offset buf) = c.mem := by
    simp only [Hardware.program, hr]
  simp only [sflashWrite, hdrop, if_neg hbuf.ne', if_neg (Nat.not_lt.mpr hin), hpoll, hret, hprog]
  split_ifs <;> first | omega | simp_all

/-- A single byte at the start of a page, with the chip select left asserted. -/
theorem sflashWrite_kept {sfl : Sflash} {sbh : Sb} (h : Hardware) (c : Chip) {offset : ℕ}
    {buf : List UInt8} (hbuf : 0 < buf.length) (hin : offset + buf.length ≤ sfl.size)
    (hcs : HoldsCs sfl sbh) (hall : chunk sfl sbh offset buf.length = buf.length)
    (hkept : (offset + buf.length) % 256 = 1) :
    (sflashWrite sfl sbh h c offset buf).1 = buf.length ∧
    (sflashWrite sfl sbh h c offset buf).2.mem = fun i => c.mem i &&& h.kept i := by
  obtain ⟨hret, hsel⟩ := sflashSend_cs sfl sbh c offset hbuf
  rw [if_pos hcs, hall, if_neg (lt_irrefl _), if_neg (by simpa using hkept)] at hsel
  simp only [sflashWrite, hsel, if_neg hbuf.ne', if_neg (Nat.not_lt.mpr hin), hret, hall, and_self]

end SerialFlash
end Router
