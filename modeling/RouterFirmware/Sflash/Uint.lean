/-
# Requests of the serial flash

`sflash_commit` with all it returns, on the unsigned ints of the code: offsets and lengths wrap at `2 ^ 32`, and the
range check with them. A sum that has wrapped passes it, and a request that begins inside the flash is then carried out
up to its end (`commitLoop_over`); one that begins behind it is stopped at the first erase, although the block there may
have been read for 195 million turns (`copyLoop_refused`).

`commitsRight_iff` says for which requests the bytes are replaced or the request fails.

The flash is ready after some polls. What a page program does that leaves its page is left open, and so is whether a
page program is seen to be under way by the poll right behind it.
-/
import RouterFirmware.Lib.Bits
import RouterFirmware.Lib.Fuel
import RouterFirmware.Sflash.Commit

namespace Router
namespace SerialFlash
namespace Uint

open CMem Flash Fuel
open Nvram (bytesAt length_bytesAt bytesAt_append)

/-! ### The code -/

/-- What there is besides the flash: the block that is allocated, what is read behind the flash, what becomes of a page
program that leaves its page or is not ended, and whether the one at an offset is seen by the poll behind it. -/
structure Host where
  block : Option UInt32
  outside : Mem
  overrun : Mem → ℕ → List UInt8 → Mem
  seen : UInt32 → Bool

section Code

variable (sfl : Sflash) (sbh : Sb) (w : Host)

/-- `sflash.blocksize`. -/
def blocksize : UInt32 := .ofNat sfl.blocksize

/-- What is read at an offset. -/
def space (f : Mem) : Mem := fun i => if i < sfl.size then f i else w.outside i

/-- `sflash_read(offset, len, buf)`: what it returns, and the bytes it stores. -/
def sflashRead (f : Mem) (offset len buf : UInt32) : ℤ × List UInt8 :=
  if len = 0 then (0, [])
  else if sfl.size < (offset + len).toNat then (-22, [])
  else
    let cnt := readCnt offset.toNat len.toNat buf.toNat
    if cnt < 4 then (cnt, bytesAt (space sfl w f) offset.toNat cnt)
    else ((len.toNat - cnt % 4 : ℕ), readWords (space sfl w f) offset.toNat cnt)

/-- The bytes of a page. -/
def pageSize : ℕ :=
  match sfl.type with
  | .sflashSt => 256
  | .sflashAt => sfl.blocksize

/-- A page program. -/
def pageProgram (f : Mem) (p : ℕ) (l : List UInt8) : Mem :=
  if p % pageSize sfl + l.length ≤ pageSize sfl then Flash.program f p l else w.overrun f p l

/-- `sflash_write(offset, len, buf)`, of all that is left in the buffer. -/
def sflashWrite (c : Chip) (offset : UInt32) (buf : List UInt8) : ℤ × Chip :=
  if buf.length = 0 then (0, c)
  else if sfl.size < (offset + .ofNat buf.length).toNat then (-22, c)
  else
    let s := sflashSend sfl sbh c offset.toNat buf
    let done : Chip := ⟨pageProgram sfl w c.mem s.page s.data, s.buf1⟩
    match s.cs with
    | .own => (s.ret, done)
    | .drop o err =>
      -- flash rejected command
      if sflashPoll sfl (w.seen offset) o = 0 then (err, done) else (s.ret, done)
    | .kept => (s.ret, ⟨w.overrun c.mem s.page s.data, s.buf1⟩)

/-- `sflash_erase(offset)`. -/
def sflashErase (c : Chip) (offset : UInt32) : ℤ × Chip :=
  if sfl.size ≤ offset.toNat then (-22, c)
  else (sfl.blocksize, ⟨eraseBlock sfl.blocksize c.mem (blockOf sfl offset.toNat), c.buf1⟩)

/-- The loop that copies a block into the holding block, which is at `blk`. -/
def copyLoop (blk : UInt32) (f : Mem) : ℕ → Mem → UInt32 → UInt32 → UInt32 → Option Mem
  | 0, _, _, _, _ => none
  | fuel + 1, block, blkOffset, blkLen, blkPtr =>
    if blkLen = 0 then some block
    else
      let r := sflashRead sfl w f blkOffset blkLen blkPtr
      let copied := UInt32.ofInt r.1
      copyLoop blk f fuel (write block (blkPtr - blk).toNat r.2) (blkOffset + copied) (blkLen - copied) (blkPtr + copied)

/-- The loop that writes the holding block. It returns what the last `sflash_write` did if that is an error. -/
def holdLoop : ℕ → Chip → UInt32 → List UInt8 → Option (ℤ × Chip)
  | 0, _, _, _ => none
  | fuel + 1, c, curOffset, cur =>
    if cur.length = 0 then some (0, c)
    else
      let r := sflashWrite sfl sbh w c curOffset cur
      if r.1 < 0 then some r
      else holdLoop fuel r.2 (curOffset + .ofInt r.1) (cur.drop r.1.toNat)

/-- `cur_offset`. -/
def curOffset (offset : UInt32) : UInt32 := offset &&& ~~~(blocksize sfl - 1)

/-- `cur_retlen`. -/
def curRetlen (offset len : UInt32) : UInt32 :=
  let remainder := blocksize sfl - (offset &&& (blocksize sfl - 1))
  if len < remainder then len else remainder

/-- The holding block, filled from the flash and from the buffer, of which `pos` bytes are behind. -/
def fill (blk : UInt32) (buf : Option Mem) (f : Mem) (block : Mem) (offset len : UInt32) (pos fuel : ℕ) : Option Mem :=
  match buf with
  | none => some block
  | some b =>
    (if offset &&& (blocksize sfl - 1) ≠ 0 ∨ len < blocksize sfl then
      copyLoop sfl w blk f fuel block (curOffset sfl offset) (blocksize sfl) blk
    else some block).map fun block =>
      write block (offset &&& (blocksize sfl - 1)).toNat (bytesAt b pos (curRetlen sfl offset len).toNat)

/-- The loop over the blocks: what is returned, and the flash. -/
def commitLoop (blk : UInt32) (buf : Option Mem) : ℕ → Mem → Chip → UInt32 → UInt32 → ℕ → Option (ℤ × Chip)
  | 0, _, _, _, _, _ => none
  | fuel + 1, block, c, offset, len, pos =>
    if len = 0 then some (0, c)
    else
      (fill sfl w blk buf c.mem block offset len pos fuel).bind fun block =>
        let e := sflashErase sfl c (curOffset sfl offset)
        if e.1 < 0 then some e
        else
          (match buf with
            | none => some (0, e.2)
            | some _ => holdLoop sfl sbh w fuel e.2 (curOffset sfl offset) (bytesAt block 0 sfl.blocksize)).bind fun r =>
              if r.1 < 0 then some r
              else
                commitLoop blk buf fuel block r.2 (offset + curRetlen sfl offset len) (len - curRetlen sfl offset len)
                  (pos + (curRetlen sfl offset len).toNat)

/-- `sflash_commit(offset, len, buf)`, with something in the memory that is allocated. -/
def sflashCommit (buf : Option Mem) (block : Mem) (c : Chip) (offset len : UInt32) (fuel : ℕ) : Option (ℤ × Chip) :=
  if len = 0 then some (0, c)
  else if sfl.size < (offset + len).toNat then some (-1, c)
  else
    match w.block with
    | none => some (-1, c)
    | some blk => commitLoop sfl sbh w blk buf fuel block c offset len 0

end Code

/-! ### What it is for -/

/-- The `n` bytes at `p` are those of the buffer, and all others are as before. -/
structure Replaced (f g : Mem) (p n : ℕ) (b : Mem) : Prop where
  buffer : ∀ i < n, g (p + i) = b i
  rest : ∀ i, i < p ∨ p + n ≤ i → g i = f i

/-- A request in the flash that does not fail replaces the bytes, and one beyond its end fails and changes nothing. -/
structure Right (sfl : Sflash) (c : Chip) (buf : Option Mem) (offset len : UInt32) (r : ℤ × Chip) : Prop where
  inside : offset.toNat + len.toNat ≤ sfl.size → ∀ b ∈ buf, 0 ≤ r.1 → Replaced c.mem r.2.mem offset.toNat len.toNat b
  beyond : sfl.size < offset.toNat + len.toNat → r.1 < 0 ∧ r.2.mem = c.mem

/-- It returns, and is right, for every flash, buffer and host. -/
def CommitsRight (sfl : Sflash) (sbh : Sb) (offset len : UInt32) : Prop :=
  ∀ (w : Host) (buf : Option Mem) (block : Mem) (c : Chip),
    Returns (sflashCommit sfl sbh w buf block c offset len) (Right sfl c buf offset len)

/-- It begins in the flash and is so long that its end wraps to a place in the flash. -/
def Wraps (sfl : Sflash) (offset len : UInt32) : Prop :=
  offset.toNat < sfl.size ∧ 2 ^ 32 ≤ offset.toNat + len.toNat ∧ offset.toNat + len.toNat ≤ 2 ^ 32 + sfl.size

/-! ### Unsigned ints -/

theorem ofInt_natCast (n : ℕ) : UInt32.ofInt (n : ℤ) = .ofNat n := by
  have hmod : ((n : ℤ) % 2 ^ 32).toNat = n % 2 ^ 32 := by omega
  rw [UInt32.ofInt, hmod]
  apply UInt32.toNat_inj.mp
  rw [UInt32.toNat_ofNat', UInt32.toNat_ofNat']
  exact Nat.mod_mod _ _

section Words

variable {sfl : Sflash} {offset len : UInt32}

theorem blocksize_le_size (sfl : Sflash) : sfl.blocksize ≤ sfl.size := Nat.le_mul_of_pos_right _ sfl.numblocks_pos

theorem toNat_blocksize (hs : sfl.size < 2 ^ 32) : (blocksize sfl).toNat = sfl.blocksize :=
  UInt32.toNat_ofNat_of_lt' (lt_of_le_of_lt (blocksize_le_size sfl) hs)

theorem toNat_mask (hs : sfl.size < 2 ^ 32) :
    (offset &&& (blocksize sfl - 1)).toNat = offset.toNat % sfl.blocksize := by
  have hpos := sfl.blocksize_pos
  have hone : (1 : UInt32) ≤ blocksize sfl := by
    rw [UInt32.le_iff_toNat_le, toNat_blocksize hs]
    exact hpos
  rw [UInt32.toNat_and, UInt32.toNat_sub_of_le _ _ hone, toNat_blocksize hs]
  exact sfl.and_mask _

theorem toNat_curOffset (hs : sfl.size < 2 ^ 32) : (curOffset sfl offset).toNat = blockOf sfl offset.toNat := by
  have hsum : (curOffset sfl offset).toNat + (offset &&& (blocksize sfl - 1)).toNat = offset.toNat :=
    Bits.toNat_and_not offset.toBitVec (blocksize sfl - 1).toBitVec
  rw [toNat_mask hs] at hsum
  rw [blockOf]
  omega

theorem toNat_curRetlen (hs : sfl.size < 2 ^ 32) :
    (curRetlen sfl offset len).toNat = retlen sfl offset.toNat len.toNat := by
  have hlt := Nat.mod_lt offset.toNat sfl.blocksize_pos
  have hle : offset &&& (blocksize sfl - 1) ≤ blocksize sfl := by
    rw [UInt32.le_iff_toNat_le, toNat_mask hs, toNat_blocksize hs]
    omega
  have hsub : (blocksize sfl - (offset &&& (blocksize sfl - 1))).toNat =
      sfl.blocksize - offset.toNat % sfl.blocksize := by
    rw [UInt32.toNat_sub_of_le _ _ hle, toNat_blocksize hs, toNat_mask hs]
  rw [curRetlen, retlen]
  split_ifs with hcond
  · rw [UInt32.lt_iff_toNat_lt, hsub] at hcond
    omega
  · rw [UInt32.lt_iff_toNat_lt, hsub] at hcond
    rw [hsub]
    omega

end Words

/-! ### The holding block -/

section Copy

variable {sfl : Sflash} {w : Host} {blk : UInt32} {f : Mem}

/-- A read that passes the check brings some of the bytes. -/
theorem sflashRead_some {offset len buf : UInt32} (hlen : len ≠ 0) (hin : (offset + len).toNat ≤ sfl.size) :
    ∃ n : ℕ, 0 < n ∧ n ≤ len.toNat ∧
      sflashRead sfl w f offset len buf = ((n : ℤ), bytesAt (space sfl w f) offset.toNat n) := by
  have hpos : 0 < len.toNat := by
    rw [Nat.pos_iff_ne_zero]
    exact fun h => hlen (UInt32.toNat_inj.mp h)
  obtain ⟨hcnt, hle⟩ := readCnt_le offset.toNat buf.toNat hpos
  rw [sflashRead, if_neg hlen, if_neg (Nat.not_lt.mpr hin)]
  dsimp only
  split_ifs with h4
  · exact ⟨_, hcnt, hle, rfl⟩
  · have hall := (readCnt_words (by omega : 4 ≤ readCnt offset.toNat len.toNat buf.toNat)).1
    rw [readWords_eq, hall]
    exact ⟨len.toNat - len.toNat % 4, by omega, by omega, rfl⟩

/-- The loop copies what the reads bring, if they pass the check. -/
theorem copyLoop_spec : ∀ {n : ℕ} {block : Mem} {offset len ptr : UInt32}, len.toNat = n →
    offset.toNat + len.toNat ≤ 2 ^ 32 → (offset + len).toNat ≤ sfl.size → (ptr - blk).toNat + len.toNat < 2 ^ 32 →
    Returns (fun fuel => copyLoop sfl w blk f fuel block offset len ptr)
      (· = write block (ptr - blk).toNat (bytesAt (space sfl w f) offset.toNat len.toNat)) := by
  intro n
  induction n using Nat.strong_induction_on with
  | _ n ih =>
    intro block offset len ptr hn hend hin hptr
    by_cases hlen : len = 0
    · apply (returns_some _).turn
      · intro fuel
        rw [copyLoop, if_pos hlen]
      · rw [hlen]
        exact (@write_of_holds block _ [] trivial).symm
    · obtain ⟨k, hk, hle, hread⟩ := @sflashRead_some sfl w f offset len ptr hlen hin
      have hlt := len.toNat_lt
      have hkNat : (UInt32.ofNat k).toNat = k := UInt32.toNat_ofNat_of_lt' (by show k < 2 ^ 32; omega)
      have hleK : UInt32.ofNat k ≤ len := by
        rw [UInt32.le_iff_toNat_le, hkNat]
        exact hle
      have hrest : (len - .ofNat k).toNat = len.toNat - k := by rw [UInt32.toNat_sub_of_le _ _ hleK, hkNat]
      have hsum : offset + .ofNat k + (len - .ofNat k) = offset + len := by grind
      have hmove : ptr + .ofNat k - blk = ptr - blk + .ofNat k := by grind
      have hptr' : (ptr + .ofNat k - blk).toNat = (ptr - blk).toNat + k := by
        rw [hmove, UInt32.toNat_add, hkNat]
        exact Nat.mod_eq_of_lt (by omega)
      -- the offset wraps only when nothing is left
      have hoff : (offset + .ofNat k).toNat = offset.toNat + k ∨ len.toNat - k = 0 ∧ (offset + .ofNat k).toNat = 0 := by
        rw [UInt32.toNat_add, hkNat]
        omega
      have hnext := @ih (len.toNat - k) (by omega)
        (write block (ptr - blk).toNat (bytesAt (space sfl w f) offset.toNat k)) (offset + .ofNat k) (len - .ofNat k)
        (ptr + .ofNat k) hrest (by omega) (by rwa [hsum]) (by omega)
      apply (hnext.mono _).turn
      · intro fuel
        rw [copyLoop, if_neg hlen, hread]
        dsimp only
        rw [ofInt_natCast]
      · intro block' hblock'
        have hlenK : (bytesAt (space sfl w f) offset.toNat k).length = k := length_bytesAt ..
        have hwrite := write_write block (ptr - blk).toNat (bytesAt (space sfl w f) offset.toNat k)
          (bytesAt (space sfl w f) (offset + .ofNat k).toNat (len.toNat - k))
        rw [hblock', hrest, hptr']
        rw [hlenK] at hwrite
        rw [hwrite]
        rcases hoff with hoff | ⟨hnone, -⟩
        · rw [hoff, bytesAt_append, Nat.add_sub_cancel' hle]
        · rw [hnone, show k = len.toNat by omega]
          exact congrArg _ (List.append_nil _)

/-- If they do not, it goes round until the length has wrapped to 0. -/
theorem copyLoop_refused : ∀ {k : ℕ} {block : Mem} {offset len ptr : UInt32}, sfl.size < (offset + len).toNat →
    (len.toNat + 22 * k) % 2 ^ 32 = 0 → Returns (fun fuel => copyLoop sfl w blk f fuel block offset len ptr) fun _ => True
  | k, block, offset, len, ptr, hout, hk => by
    by_cases hlen : len = 0
    · apply (returns_some trivial).turn
      intro fuel
      rw [copyLoop, if_pos hlen]
    · cases k with
      | zero =>
        have hlt := len.toNat_lt
        exact absurd (UInt32.toNat_inj.mp (show len.toNat = (0 : UInt32).toNat by simp; omega)) hlen
      | succ k =>
        have hsum : offset + .ofInt (-22) + (len - .ofInt (-22)) = offset + len := by grind
        have hmore : (len - .ofInt (-22)).toNat = (len.toNat + 22) % 2 ^ 32 := by
          rw [UInt32.toNat_sub, show (UInt32.ofInt (-22)).toNat = 2 ^ 32 - 22 from rfl]
          omega
        have hnext := @copyLoop_refused k (write block (ptr - blk).toNat []) (offset + .ofInt (-22)) (len - .ofInt (-22))
          (ptr + .ofInt (-22)) (by rwa [hsum]) (by rw [hmore]; omega)
        apply hnext.turn
        intro fuel
        rw [copyLoop, if_neg hlen, sflashRead, if_neg hlen, if_pos hout]

end Copy

/-! ### Writing it -/

section Hold

variable {sfl : Sflash} {sbh : Sb} {w : Host}

/-- A chunk stays in its page. -/
theorem chunk_page (sfl : Sflash) (sbh : Sb) (p n : ℕ) :
    p % pageSize sfl + chunk sfl sbh p n ≤ pageSize sfl := by
  unfold pageSize chunk grain
  cases sfl.type with
  | sflashSt =>
    have h256 := Nat.mod_lt p (show 0 < 256 by decide)
    dsimp only
    split_ifs <;> omega
  | sflashAt =>
    have hlt := Nat.mod_lt p sfl.blocksize_pos
    dsimp only
    omega

/-- A write of what ends with a page programs the next chunk, or returns an error because it does not see that. -/
theorem sflashWrite_spec (c : Chip) {p : UInt32} {l : List UInt8} (hl : 0 < l.length)
    (hin : p.toNat + l.length ≤ sfl.size) (hs : sfl.size < 2 ^ 32) (hend : 256 ∣ p.toNat + l.length)
    (hat : sfl.type = .sflashAt → sfl.blocksize ∣ p.toNat ∧ sfl.blocksize ∣ l.length) :
    ∃ ret c', sflashWrite sfl sbh w c p l = (ret, c') ∧
      c'.mem = Flash.program c.mem p.toNat (l.take (chunk sfl sbh p.toNat l.length)) ∧
      (ret = chunk sfl sbh p.toNat l.length ∨ ret < 0 ∧ ∃ o, w.seen o = false) := by
  obtain ⟨hkept, hpage, hdata⟩ := @sflashSend_aligned sfl sbh c p.toNat l hl hend hat
  obtain ⟨hret, hcs⟩ := sflashSend_cs sfl sbh c p.toNat hl
  have hsum : ¬sfl.size < (p + .ofNat l.length).toNat := by
    rw [UInt32.toNat_add, UInt32.toNat_ofNat_of_lt' (show l.length < UInt32.size from by
      show l.length < 2 ^ 32
      omega)]
    omega
  have hprogram : pageProgram sfl w c.mem (sflashSend sfl sbh c p.toNat l).page (sflashSend sfl sbh c p.toNat l).data =
      Flash.program c.mem p.toNat (l.take (chunk sfl sbh p.toNat l.length)) := by
    have hchunk := chunk_page sfl sbh p.toNat l.length
    have htake : (l.take (chunk sfl sbh p.toNat l.length)).length ≤ chunk sfl sbh p.toNat l.length := List.length_take_le _ _
    rw [pageProgram, hpage, hdata, if_pos (by omega)]
  rw [sflashWrite, if_neg hl.ne', if_neg hsum]
  dsimp only
  cases hsel : (sflashSend sfl sbh c p.toNat l).cs with
  | own => exact ⟨_, _, rfl, hprogram, .inl (congrArg _ hret)⟩
  | drop o err =>
    dsimp only
    split_ifs with hpoll
    · refine ⟨_, _, rfl, hprogram, .inr ⟨?_, p, ?_⟩⟩
      · rw [hsel] at hcs
        split_ifs at hcs
        · cases hcs
          decide
        · cases hcs
          decide
      · unfold sflashPoll at hpoll
        split_ifs at hpoll with hsize hseen
        · exact absurd hpoll (by decide)
        · exact Bool.eq_false_of_not_eq_true hseen
    · exact ⟨_, _, rfl, hprogram, .inl (congrArg _ hret)⟩
  | kept => exact absurd hsel hkept

/-- The loop writes all of it, or returns an error. -/
theorem holdLoop_spec (hs : sfl.size < 2 ^ 32) : ∀ {n : ℕ} {c : Chip} {p : UInt32} {l : List UInt8}, l.length = n →
    p.toNat + l.length ≤ sfl.size → 256 ∣ p.toNat + l.length →
    (sfl.type = .sflashAt → sfl.blocksize ∣ p.toNat ∧ sfl.blocksize ∣ l.length) →
    Returns (fun fuel => holdLoop sfl sbh w fuel c p l) fun r =>
      0 ≤ r.1 ∧ r.2.mem = Flash.program c.mem p.toNat l ∨ r.1 < 0 ∧ ∃ o, w.seen o = false := by
  intro n
  induction n using Nat.strong_induction_on with
  | _ n ih =>
    intro c p l hn hin hend hat
    rcases Nat.eq_zero_or_pos l.length with h0 | hl
    · apply (returns_some _).turn
      · intro fuel
        rw [holdLoop, if_pos h0]
      · rw [List.length_eq_zero_iff.mp h0, program_nil]
        exact .inl ⟨le_rfl, rfl⟩
    · obtain ⟨ret, c', hwrite, hmem, hret⟩ := @sflashWrite_spec sfl sbh w c p l hl hin hs hend hat
      rcases hret with rfl | ⟨hneg, hseen⟩
      · have hle := chunk_le sfl sbh p.toNat l.length
        have hpos := chunk_pos sfl sbh p.toNat hl
        have hdrop : (l.drop (chunk sfl sbh p.toNat l.length)).length = l.length - chunk sfl sbh p.toNat l.length :=
          List.length_drop
        have hmove : (p + .ofNat (chunk sfl sbh p.toNat l.length)).toNat = p.toNat + chunk sfl sbh p.toNat l.length := by
          rw [UInt32.toNat_add, UInt32.toNat_ofNat_of_lt' (by show _ < 2 ^ 32; omega)]
          exact Nat.mod_eq_of_lt (by omega)
        have hat' : sfl.type = .sflashAt → sfl.blocksize ∣ (p + .ofNat (chunk sfl sbh p.toNat l.length)).toNat ∧
            sfl.blocksize ∣ (l.drop (chunk sfl sbh p.toNat l.length)).length := by
          intro hty
          obtain ⟨hp, hlen⟩ := hat hty
          have hge : sfl.blocksize ≤ l.length := Nat.le_of_dvd hl hlen
          have hc : chunk sfl sbh p.toNat l.length = sfl.blocksize := by
            simp only [chunk, grain, hty, Nat.mod_eq_zero_of_dvd hp, Nat.sub_zero, Nat.min_eq_right hge]
          rw [hmove, hdrop, hc]
          exact ⟨hp.add (dvd_refl _), Nat.dvd_sub hlen (dvd_refl _)⟩
        have hnext := @ih _ (by omega) c' (p + .ofNat (chunk sfl sbh p.toNat l.length))
          (l.drop (chunk sfl sbh p.toNat l.length)) rfl (by omega)
          (by rw [hmove, hdrop, Nat.add_assoc, Nat.add_sub_cancel' hle]; exact hend) hat'
        apply (hnext.mono _).turn
        · intro fuel
          rw [holdLoop, if_neg hl.ne', hwrite]
          dsimp only
          rw [if_neg (by omega), ofInt_natCast, Int.toNat_natCast]
        · intro r hr
          apply hr.imp_left
          intro hok
          have hall := program_take_drop c.mem p.toNat hle (l.length - chunk sfl sbh p.toNat l.length)
          rw [Nat.add_sub_cancel' hle, List.take_length, List.take_of_length_le hdrop.le, ← hmem, ← hmove] at hall
          exact ⟨hok.1, hok.2.trans hall⟩
      · apply (returns_some _).turn
        · intro fuel
          rw [holdLoop, if_neg hl.ne', hwrite]
          dsimp only
          rw [if_pos hneg]
        · exact .inr ⟨hneg, hseen⟩

end Hold

/-! ### A turn of the loop over the blocks -/

section Turn

variable {sfl : Sflash} {sbh : Sb} {w : Host} {blk : UInt32} {buf : Option Mem} {block : Mem} {c : Chip}
  {offset len : UInt32} {pos : ℕ}

theorem dvd_two_pow (hs : sfl.size < 2 ^ 32) : sfl.blocksize ∣ 2 ^ 32 := by
  have hle := blocksize_le_size sfl
  obtain ⟨k, -, hk⟩ := sfl.pages
  rw [hk] at hle ⊢
  exact pow_dvd_pow 2 ((Nat.pow_lt_pow_iff_right (by decide)).mp (lt_of_le_of_lt hle hs)).le

/-- No block reaches over the end of the address space. -/
theorem blockOf_le (hs : sfl.size < 2 ^ 32) (offset : UInt32) : blockOf sfl offset.toNat + sfl.blocksize ≤ 2 ^ 32 := by
  obtain ⟨⟨q, hq⟩, hle, -⟩ := blockOf_facts sfl offset.toNat
  obtain ⟨t, ht⟩ := dvd_two_pow hs
  have hlt := offset.toNat_lt
  rw [hq, ht] at *
  have hqt : q < t := Nat.lt_of_mul_lt_mul_left (lt_of_le_of_lt hle hlt)
  calc sfl.blocksize * q + sfl.blocksize = sfl.blocksize * (q + 1) := (Nat.mul_succ _ _).symm
    _ ≤ sfl.blocksize * t := Nat.mul_le_mul_left _ hqt

theorem size_le_blockOf (h : sfl.size ≤ offset.toNat) : sfl.size ≤ blockOf sfl offset.toNat := by
  have hdiv : sfl.numblocks ≤ offset.toNat / sfl.blocksize := by
    rw [Nat.le_div_iff_mul_le sfl.blocksize_pos, Nat.mul_comm]
    exact h
  calc sfl.size ≤ sfl.blocksize * (offset.toNat / sfl.blocksize) := Nat.mul_le_mul_left _ hdiv
    _ = blockOf sfl offset.toNat := by
      have hsum := Nat.div_add_mod offset.toNat sfl.blocksize
      rw [blockOf]
      omega

/-- A block is copied, or read in vain until the length has wrapped. -/
theorem copyLoop_returns (hs : sfl.size < 2 ^ 32) (f block : Mem) (offset : UInt32) :
    Returns (fun fuel => copyLoop sfl w blk f fuel block (curOffset sfl offset) (blocksize sfl) blk) fun _ => True := by
  have hle := blocksize_le_size sfl
  by_cases hin : (curOffset sfl offset + blocksize sfl).toNat ≤ sfl.size
  · apply (copyLoop_spec rfl _ hin _).mono fun _ _ => trivial
    · rw [toNat_curOffset hs, toNat_blocksize hs]
      exact blockOf_le hs offset
    · rw [UInt32.sub_self, toNat_blocksize hs]
      show 0 + _ < _
      omega
  · obtain ⟨q, hq⟩ := sfl.dvd_blocksize
    apply @copyLoop_refused _ _ _ _ (sfl.blocksize / 2 * 1171354717) _ _ _ _ (by omega)
    rw [toNat_blocksize hs]
    omega

/-- The part of the buffer that goes into a block goes into it as a whole. -/
theorem take_part (sfl : Sflash) (b : Mem) (pos offset len : ℕ) :
    (bytesAt b pos (retlen sfl offset len)).length = retlen sfl offset len ∧
      (bytesAt b pos (retlen sfl offset len)).take (retlen sfl offset (bytesAt b pos (retlen sfl offset len)).length) =
        bytesAt b pos (retlen sfl offset len) := by
  have hlen : (bytesAt b pos (retlen sfl offset len)).length = retlen sfl offset len := length_bytesAt ..
  refine ⟨hlen, List.take_of_length_le ?_⟩
  rw [hlen]
  unfold retlen
  omega

/-- The holding block is what the block is to be. -/
theorem fill_spec (hs : sfl.size < 2 ^ 32) (hin : offset.toNat < sfl.size) :
    Returns (fun fuel => fill sfl w blk buf c.mem block offset len pos fuel) fun block' => ∀ b ∈ buf,
      bytesAt block' 0 sfl.blocksize = (List.range sfl.blocksize).map fun i =>
        write c.mem offset.toNat (bytesAt b pos (retlen sfl offset.toNat len.toNat)) (blockOf sfl offset.toNat + i) := by
  cases buf with
  | none => exact returns_some nofun
  | some b =>
    obtain ⟨hpart, htake⟩ := take_part sfl b pos offset.toNat len.toNat
    have hhold := holding_bytes sfl c.mem block offset.toNat (bytesAt b pos (retlen sfl offset.toNat len.toNat))
    rw [htake, hpart] at hhold
    have hcond : (offset &&& (blocksize sfl - 1) ≠ 0 ∨ len < blocksize sfl) ↔
        offset.toNat % sfl.blocksize ≠ 0 ∨ retlen sfl offset.toNat len.toNat < sfl.blocksize := by
      have hlt := Nat.mod_lt offset.toNat sfl.blocksize_pos
      rw [ne_eq, ← UInt32.toNat_inj, toNat_mask hs, UInt32.lt_iff_toNat_lt, toNat_blocksize hs, retlen]
      show ¬_ = 0 ∨ _ ↔ _
      omega
    unfold fill
    dsimp only
    rw [toNat_mask hs, toNat_curRetlen hs]
    by_cases hload : offset.toNat % sfl.blocksize ≠ 0 ∨ retlen sfl offset.toNat len.toNat < sfl.blocksize
    · have hblock := blockOf_add_le hin
      have hle := blocksize_le_size sfl
      have hsum : (curOffset sfl offset + blocksize sfl).toNat = blockOf sfl offset.toNat + sfl.blocksize := by
        rw [UInt32.toNat_add, toNat_curOffset hs, toNat_blocksize hs]
        exact Nat.mod_eq_of_lt (by omega)
      have hcopy := @copyLoop_spec sfl w blk c.mem _ block (curOffset sfl offset) (blocksize sfl) blk rfl
        (by rw [toNat_curOffset hs, toNat_blocksize hs]; omega) (by rw [hsum]; exact hblock)
        (by rw [UInt32.sub_self, toNat_blocksize hs]; show 0 + _ < _; omega)
      have hspace : bytesAt (space sfl w c.mem) (blockOf sfl offset.toNat) sfl.blocksize =
          bytesAt c.mem (blockOf sfl offset.toNat) sfl.blocksize := by
        apply List.map_congr_left
        intro i hi
        rw [List.mem_range] at hi
        exact if_pos (by omega)
      rw [toNat_curOffset hs, toNat_blocksize hs, UInt32.sub_self, hspace] at hcopy
      simp only [hcond.mpr hload, if_true]
      apply hcopy.map
      rintro _ rfl b' hb'
      cases hb'
      rw [if_pos hload] at hhold
      exact hhold
    · simp only [hcond, hload, if_false, Option.map_some]
      apply returns_some
      intro b' hb'
      cases hb'
      rw [if_neg hload] at hhold
      exact hhold

theorem fill_returns (hs : sfl.size < 2 ^ 32) :
    Returns (fun fuel => fill sfl w blk buf c.mem block offset len pos fuel) fun _ => True := by
  cases buf with
  | none => exact returns_some trivial
  | some b =>
    unfold fill
    dsimp only
    split_ifs
    · exact (copyLoop_returns hs c.mem block offset).map fun _ _ => trivial
    · exact returns_some trivial

/-- A request behind the flash is stopped at the erase. -/
theorem commitLoop_behind (hs : sfl.size < 2 ^ 32) (hlen : len ≠ 0) (hout : sfl.size ≤ offset.toNat) :
    Returns (fun fuel => commitLoop sfl sbh w blk buf fuel block c offset len pos) fun r => r.1 < 0 ∧ r.2 = c := by
  have herase : sflashErase sfl c (curOffset sfl offset) = (-22, c) := by
    rw [sflashErase, toNat_curOffset hs, if_pos (size_le_blockOf hout)]
  have hneg : (-22 : ℤ) < 0 := by decide
  have hrun : Returns (fun fuel => (fill sfl w blk buf c.mem block offset len pos fuel).bind fun _ => some ((-22 : ℤ), c))
      fun r => r.1 < 0 ∧ r.2 = c :=
    (fill_returns hs).bind fun _ _ => returns_some ⟨hneg, rfl⟩
  apply hrun.turn
  intro fuel
  rw [commitLoop, if_neg hlen, herase]
  rfl

/-- Inside the flash a turn replaces the part of the buffer that goes into the block and goes on, or returns an error. -/
theorem commitLoop_turn {P : ℤ × Chip → Prop} (hs : sfl.size < 2 ^ 32) (hlen : len ≠ 0) (hin : offset.toNat < sfl.size)
    (hnext : ∀ block' c', (∀ b ∈ buf, c'.mem =
        write c.mem offset.toNat (bytesAt b pos (retlen sfl offset.toNat len.toNat))) →
      Returns (fun fuel => commitLoop sfl sbh w blk buf fuel block' c' (offset + curRetlen sfl offset len)
        (len - curRetlen sfl offset len) (pos + retlen sfl offset.toNat len.toNat)) P)
    (hfail : ∀ r : ℤ × Chip, r.1 < 0 → (∃ o, w.seen o = false) → P r) :
    Returns (fun fuel => commitLoop sfl sbh w blk buf fuel block c offset len pos) P := by
  obtain ⟨hdvd, hle, hlt⟩ := blockOf_facts sfl offset.toNat
  have hblock := blockOf_add_le hin
  have hself : blockOf sfl (blockOf sfl offset.toNat) = blockOf sfl offset.toNat := by
    conv_lhs => rw [blockOf, Nat.mod_eq_zero_of_dvd hdvd, Nat.sub_zero]
  have herase : sflashErase sfl c (curOffset sfl offset) =
      ((sfl.blocksize : ℤ), Chip.mk (eraseBlock sfl.blocksize c.mem (blockOf sfl offset.toNat)) c.buf1) := by
    rw [sflashErase, toNat_curOffset hs, if_neg (by omega), hself]
  have hrun : Returns (fun fuel => (fill sfl w blk buf c.mem block offset len pos fuel).bind fun block' =>
      (match buf with
        | none => some (0, Chip.mk (eraseBlock sfl.blocksize c.mem (blockOf sfl offset.toNat)) c.buf1)
        | some _ => holdLoop sfl sbh w fuel (Chip.mk (eraseBlock sfl.blocksize c.mem (blockOf sfl offset.toNat)) c.buf1)
            (curOffset sfl offset) (bytesAt block' 0 sfl.blocksize)).bind fun r =>
          if r.1 < 0 then some r
          else commitLoop sfl sbh w blk buf fuel block' r.2 (offset + curRetlen sfl offset len)
            (len - curRetlen sfl offset len) (pos + retlen sfl offset.toNat len.toNat)) P := by
    apply (fill_spec hs hin).bind
    intro block' hhold
    cases buf with
    | none => exact hnext block' _ nofun
    | some b =>
      have hlenB : (bytesAt block' 0 sfl.blocksize).length = sfl.blocksize := length_bytesAt ..
      have hend : 256 ∣ (curOffset sfl offset).toNat + (bytesAt block' 0 sfl.blocksize).length := by
        rw [toNat_curOffset hs, hlenB]
        exact (sfl.dvd_blocksize.trans hdvd).add sfl.dvd_blocksize
      have hwritten := @holdLoop_spec sfl sbh w hs _
        (Chip.mk (eraseBlock sfl.blocksize c.mem (blockOf sfl offset.toNat)) c.buf1) (curOffset sfl offset)
        (bytesAt block' 0 sfl.blocksize) rfl (by rw [toNat_curOffset hs, hlenB]; exact hblock) hend
        (fun _ => by rw [toNat_curOffset hs, hlenB]; exact ⟨hdvd, dvd_refl _⟩)
      apply hwritten.bind
      rintro r (⟨hok, hmem⟩ | ⟨hneg, hseen⟩)
      · simp only [if_neg (not_lt.mpr hok)]
        apply hnext
        intro b' hb'
        cases hb'
        have htake := (take_part sfl b pos offset.toNat len.toNat).2
        have hblock' := rewritten_block sfl c.mem offset.toNat (bytesAt b pos (retlen sfl offset.toNat len.toNat))
        rw [htake, ← program_erased, List.take_of_length_le (by simp)] at hblock'
        rw [hmem, hhold b rfl, toNat_curOffset hs]
        exact hblock'
      · simp only [if_pos hneg]
        exact returns_some (hfail r hneg hseen)
  apply hrun.turn
  intro fuel
  have hpos : ¬(sfl.blocksize : ℤ) < 0 := by omega
  rw [commitLoop, if_neg hlen, herase]
  simp only [hpos, if_false, toNat_curRetlen hs]

end Turn

/-! ### Runs -/

section Runs

variable {sfl : Sflash} {sbh : Sb} {w : Host} {blk : UInt32} {buf : Option Mem} {block : Mem} {c : Chip}
  {offset len : UInt32} {pos : ℕ}

/-- Where a turn goes on. -/
theorem turn_toNat (hs : sfl.size < 2 ^ 32) (hlen : len ≠ 0) (hin : offset.toNat < sfl.size) :
    0 < retlen sfl offset.toNat len.toNat ∧ retlen sfl offset.toNat len.toNat ≤ len.toNat ∧
      offset.toNat + retlen sfl offset.toNat len.toNat ≤ sfl.size ∧
      (offset + curRetlen sfl offset len).toNat = offset.toNat + retlen sfl offset.toNat len.toNat ∧
      (len - curRetlen sfl offset len).toNat = len.toNat - retlen sfl offset.toNat len.toNat := by
  have hlt := Nat.mod_lt offset.toNat sfl.blocksize_pos
  have hpos : len.toNat ≠ 0 := fun h => hlen (UInt32.toNat_inj.mp h)
  have hblock := blockOf_add_le hin
  have hmod := Nat.mod_le offset.toNat sfl.blocksize
  have hfacts : 0 < retlen sfl offset.toNat len.toNat ∧ retlen sfl offset.toNat len.toNat ≤ len.toNat ∧
      offset.toNat + retlen sfl offset.toNat len.toNat ≤ sfl.size := by
    unfold retlen
    unfold blockOf at hblock
    omega
  refine ⟨hfacts.1, hfacts.2.1, hfacts.2.2, ?_, ?_⟩
  · rw [UInt32.toNat_add, toNat_curRetlen hs]
    exact Nat.mod_eq_of_lt (lt_of_le_of_lt hfacts.2.2 hs)
  · rw [UInt32.toNat_sub_of_le, toNat_curRetlen hs]
    rw [UInt32.le_iff_toNat_le, toNat_curRetlen hs]
    exact hfacts.2.1

/-- A buffer that is written in two parts. -/
theorem write_parts (f b : Mem) (p pos : ℕ) {k n : ℕ} (hk : k ≤ n) :
    write (write f p (bytesAt b pos k)) (p + k) (bytesAt b (pos + k) (n - k)) = write f p (bytesAt b pos n) := by
  have hlen : (bytesAt b pos k).length = k := length_bytesAt ..
  have hboth := write_write f p (bytesAt b pos k) (bytesAt b (pos + k) (n - k))
  rwa [hlen, bytesAt_append, Nat.add_sub_cancel' hk] at hboth

/-- A request in the flash: behind the loop the buffer is in it. -/
theorem commitLoop_inside (hs : sfl.size < 2 ^ 32) : ∀ {n : ℕ} {block : Mem} {c : Chip} {offset len : UInt32} {pos : ℕ},
    len.toNat = n → offset.toNat + len.toNat ≤ sfl.size →
      Returns (fun fuel => commitLoop sfl sbh w blk buf fuel block c offset len pos) fun r => ∀ b ∈ buf, 0 ≤ r.1 →
        r.2.mem = write c.mem offset.toNat (bytesAt b pos len.toNat) := by
  intro n
  induction n using Nat.strong_induction_on with
  | _ n ih =>
    intro block c offset len pos hn hin
    by_cases hlen : len = 0
    · apply (returns_some _).turn
      · intro fuel
        rw [commitLoop, if_pos hlen]
      · intro b _ _
        rw [hlen]
        exact (@write_of_holds c.mem _ [] trivial).symm
    · have hne : len.toNat ≠ 0 := fun h => hlen (UInt32.toNat_inj.mp h)
      obtain ⟨hpos, hle, hblock, hoffset, hrest⟩ := @turn_toNat sfl offset len hs hlen (by omega)
      apply commitLoop_turn hs hlen (by omega)
      · intro block' c' hmem
        apply (ih _ (by omega) hrest (by omega)).mono
        intro r hr b hb hok
        rw [hr b hb hok, hmem b hb, hoffset, hrest]
        exact write_parts _ _ _ _ hle
      · intro r hneg _ b _ hok
        exact absurd hneg (not_lt.mpr hok)

/-- A request that reaches over the end: it is carried out up to there, and then an error is returned. -/
theorem commitLoop_over (hs : sfl.size < 2 ^ 32) : ∀ {n : ℕ} {block : Mem} {c : Chip} {offset len : UInt32} {pos : ℕ},
    sfl.size - offset.toNat = n → offset.toNat ≤ sfl.size → sfl.size < offset.toNat + len.toNat →
      Returns (fun fuel => commitLoop sfl sbh w blk buf fuel block c offset len pos) fun r => r.1 < 0 ∧
        ((∀ o, w.seen o = true) → ∀ b ∈ buf,
          r.2.mem = write c.mem offset.toNat (bytesAt b pos (sfl.size - offset.toNat))) := by
  intro n
  induction n using Nat.strong_induction_on with
  | _ n ih =>
    intro block c offset len pos hn hle hover
    have hlen : len ≠ 0 := by
      rintro rfl
      exact absurd hover (not_lt.mpr hle)
    rcases Nat.eq_or_lt_of_le hle with hend | hin
    · apply (commitLoop_behind hs hlen hend.ge).mono
      rintro r ⟨hneg, hsame⟩
      refine ⟨hneg, fun _ b _ => ?_⟩
      rw [hsame, hend, Nat.sub_self]
      exact (@write_of_holds c.mem _ [] trivial).symm
    · obtain ⟨hpos, hle', hblock, hoffset, hrest⟩ := turn_toNat hs hlen hin
      apply commitLoop_turn hs hlen hin
      · intro block' c' hmem
        apply (ih _ (by omega) rfl (by omega) (by omega)).mono
        intro r hr
        refine hr.imp_right fun hall hseen b hb => ?_
        rw [hall hseen b hb, hmem b hb, hoffset, Nat.sub_add_eq]
        exact write_parts _ _ _ _ (by omega)
      · rintro r hneg ⟨o, hnot⟩
        refine ⟨hneg, fun hseen => ?_⟩
        rw [hseen o] at hnot
        cases hnot

end Runs

/-! ### Which requests are right -/

/-- The chips that are found are not so large. -/
theorem size_lt {type : FlashType} {id id2 : ℕ} {sfl : Sflash} (h : sflashInit type id id2 = some sfl) :
    sfl.size < 2 ^ 32 := by
  cases type with
  | sflashSt =>
    simp only [sflashInit] at h
    split at h
    case h_7 =>
      split_ifs at h
      cases h
      decide
    all_goals first
      | (cases h; decide)
      | cases h
  | sflashAt =>
    simp only [sflashInit] at h
    split at h
    all_goals first
      | (cases h; decide)
      | cases h

theorem replaced_write (f : Mem) (p n : ℕ) (b : Mem) : Replaced f (write f p (bytesAt b 0 n)) p n b where
  buffer i hi := by
    have hget := (holds_iff.mp (holds_write_same f p (bytesAt b 0 n))) i (by simpa [bytesAt] using hi)
    simpa [bytesAt] using hget
  rest i hi := by
    rcases hi with hlt | hge
    · exact write_of_lt hlt
    · exact write_of_ge (by simpa [bytesAt] using hge)

section Requests

variable {sfl : Sflash} {sbh : Sb} {offset len : UInt32}

section Commits

variable {w : Host} {buf : Option Mem} {block : Mem} {c : Chip}

/-- What passes the range check. -/
theorem sflashCommit_checked {blk : UInt32} (hlen : len ≠ 0) (hsum : (offset + len).toNat ≤ sfl.size)
    (hblk : w.block = some blk) : sflashCommit sfl sbh w buf block c offset len =
      fun fuel => commitLoop sfl sbh w blk buf fuel block c offset len 0 := by
  funext fuel
  rw [sflashCommit, if_neg hlen, if_neg (Nat.not_lt.mpr hsum), hblk]

theorem sflashCommit_empty : sflashCommit sfl sbh w buf block c offset 0 = fun _ => some (0, c) := by
  funext fuel
  exact if_pos rfl

/-- What does not, or gets no holding block. -/
theorem sflashCommit_refused (hlen : len ≠ 0) (h : sfl.size < (offset + len).toNat ∨ w.block = none) :
    sflashCommit sfl sbh w buf block c offset len = fun _ => some (-1, c) := by
  funext fuel
  rw [sflashCommit, if_neg hlen]
  rcases h with hsum | hnone
  · exact if_pos hsum
  · rw [hnone]
    split_ifs <;> rfl

/-- A request in the flash: the buffer is in it, or an error is returned. -/
theorem sflashCommit_inside (hs : sfl.size < 2 ^ 32) (hin : offset.toNat + len.toNat ≤ sfl.size) :
    Returns (sflashCommit sfl sbh w buf block c offset len) fun r => ∀ b ∈ buf, 0 ≤ r.1 →
      r.2.mem = write c.mem offset.toNat (bytesAt b 0 len.toNat) := by
  have hsum : (offset + len).toNat ≤ sfl.size := by
    rw [UInt32.toNat_add, Nat.mod_eq_of_lt (lt_of_le_of_lt hin hs)]
    exact hin
  by_cases hlen : len = 0
  · rw [hlen, sflashCommit_empty]
    exact returns_some fun b _ _ => (@write_of_holds c.mem _ [] trivial).symm
  · cases hblk : w.block with
    | none =>
      rw [sflashCommit_refused hlen (.inr hblk)]
      have hneg : (-1 : ℤ) < 0 := by decide
      exact returns_some fun _ _ hok => absurd hneg (not_lt.mpr hok)
    | some blk =>
      rw [sflashCommit_checked hlen hsum hblk]
      exact commitLoop_inside hs rfl hin

/-- A request with an end behind the flash that does not wrap into it: it fails, and the flash is as it was. -/
theorem sflashCommit_beyond (hs : sfl.size < 2 ^ 32) (hlen : len ≠ 0) (hout : sfl.size < offset.toNat + len.toNat)
    (hwraps : ¬Wraps sfl offset len) :
    Returns (sflashCommit sfl sbh w buf block c offset len) fun r => r.1 < 0 ∧ r.2.mem = c.mem := by
  have hadd := UInt32.toNat_add offset len
  have hneg : (-1 : ℤ) < 0 := by decide
  by_cases hsum : sfl.size < (offset + len).toNat
  · rw [sflashCommit_refused hlen (.inl hsum)]
    exact returns_some ⟨hneg, rfl⟩
  · cases hblk : w.block with
    | none =>
      rw [sflashCommit_refused hlen (.inr hblk)]
      exact returns_some ⟨hneg, rfl⟩
    | some blk =>
      -- the sum has wrapped, and not into the flash
      have hbehind : sfl.size ≤ offset.toNat := by
        have hlt := len.toNat_lt
        have hlt' := offset.toNat_lt
        by_contra hin
        exact hwraps ⟨by omega, by omega, by omega⟩
      rw [sflashCommit_checked hlen (Nat.le_of_not_lt hsum) hblk]
      apply (commitLoop_behind hs hlen hbehind).mono
      rintro r ⟨hfail, hsame⟩
      exact ⟨hfail, congrArg Chip.mem hsame⟩

/-- In the flash the wrap does not matter: what does not fail leaves what the steps of the request leave. -/
theorem sflashCommit_mem (hs : sfl.size < 2 ^ 32) (hin : offset.toNat + len.toNat ≤ sfl.size) (blk : ℕ) (b : Mem) :
    Returns (sflashCommit sfl sbh w (some b) block c offset len) fun r => 0 ≤ r.1 →
      r.2.mem = (SerialFlash.sflashCommit sfl sbh blk block c offset.toNat (bytesAt b 0 len.toNat)).2.mem := by
  apply (sflashCommit_inside hs hin).mono
  intro r hr hok
  have hlen : (bytesAt b 0 len.toNat).length = len.toNat := length_bytesAt ..
  rw [hr b rfl hok, SerialFlash.sflashCommit, hlen, if_neg (Nat.not_lt.mpr hin)]
  split_ifs with hzero
  · rw [hzero]
    exact @write_of_holds c.mem _ [] trivial
  · exact (commitLoop_mem sfl sbh blk _ block c offset.toNat _ hlen.le (by rwa [hlen])).1.symm

end Commits

theorem sflashCommit_right (hs : sfl.size < 2 ^ 32) (sbh : Sb) (hempty : len = 0 → offset.toNat ≤ sfl.size)
    (hwraps : ¬Wraps sfl offset len) : CommitsRight sfl sbh offset len := by
  intro w buf block c
  rcases Nat.lt_or_ge sfl.size (offset.toNat + len.toNat) with hout | hin
  · have hlen : len ≠ 0 := by
      rintro rfl
      exact absurd hout (not_lt.mpr (hempty rfl))
    apply (sflashCommit_beyond hs hlen hout hwraps).mono
    exact fun r hr => ⟨fun hin => absurd hout (not_lt.mpr hin), fun _ => hr⟩
  · apply (sflashCommit_inside hs hin).mono
    intro r hr
    refine ⟨fun _ b hb hok => ?_, fun hout => absurd hout (not_lt.mpr hin)⟩
    rw [hr b hb hok]
    exact replaced_write _ _ _ _

/-- A host on which nothing goes wrong. -/
def Host.fair : Host := ⟨some 0, fun _ => 0xff, fun f _ _ => f, fun _ => true⟩

/-- A request whose end wraps changes a byte of a flash and fails. -/
theorem not_commitsRight_of_wraps (hs : sfl.size < 2 ^ 32) (hwraps : Wraps sfl offset len) :
    ¬CommitsRight sfl sbh offset len := by
  intro hright
  obtain ⟨hin, hge, hle⟩ := hwraps
  have hlen : len ≠ 0 := by
    rintro rfl
    exact absurd hge (not_le.mpr (by have hlt := offset.toNat_lt; simpa using hlt))
  have hlt := len.toNat_lt
  have hsum : (offset + len).toNat ≤ sfl.size := by
    rw [UInt32.toNat_add]
    omega
  have hover : sfl.size < offset.toNat + len.toNat := lt_of_lt_of_le hs hge
  have hcommit := hright Host.fair (some fun _ => 0xff) (fun _ => 0) ⟨fun _ => 0, fun _ => 0⟩
  rw [sflashCommit_checked hlen hsum rfl] at hcommit
  obtain ⟨r, ⟨hr, -, hmem⟩, -⟩ := hcommit.and (commitLoop_over hs rfl hin.le hover)
  have hsame := (hr.beyond hover).2
  have hwritten := (replaced_write (fun _ => 0) offset.toNat (sfl.size - offset.toNat) fun _ => 0xff).buffer 0 (by omega)
  rw [← hmem (fun _ => rfl) _ rfl, hsame] at hwritten
  have hne : (0 : UInt8) ≠ 0xff := by decide
  exact hne hwritten

/-- An empty request behind the end does not fail. -/
theorem not_commitsRight_of_empty (hout : sfl.size < offset.toNat) : ¬CommitsRight sfl sbh offset 0 := by
  intro hright
  obtain ⟨r, hr, n, hrun⟩ := hright Host.fair none (fun _ => 0) ⟨fun _ => 0, fun _ => 0⟩
  have hzero : some ((0 : ℤ), Chip.mk (fun _ => 0) fun _ => 0) = some r := hrun n le_rfl
  cases hzero
  exact absurd (hr.beyond hout).1 (by decide)

end Requests

/-- **Which requests are right**: not those whose end wraps into the flash, and not an empty one behind the end. -/
theorem commitsRight_iff {type : FlashType} {id id2 : ℕ} {sfl : Sflash} (h : sflashInit type id id2 = some sfl) (sbh : Sb)
    (offset len : UInt32) :
    CommitsRight sfl sbh offset len ↔ (len = 0 → offset.toNat ≤ sfl.size) ∧ ¬Wraps sfl offset len := by
  have hs := size_lt h
  constructor
  · intro hright
    refine ⟨fun hlen => ?_, fun hwraps => not_commitsRight_of_wraps hs hwraps hright⟩
    by_contra hout
    rw [hlen] at hright
    exact not_commitsRight_of_empty (not_le.mp hout) hright
  · rintro ⟨hempty, hwraps⟩
    exact sflashCommit_right hs sbh hempty hwraps

/-- The last page of a chip of 2 MB. -/
theorem last_page_committed : CommitsRight (found .sflashSt 16 32) ⟨0x4712, 8⟩ 0x1fff00 0x100 :=
  (@commitsRight_iff .sflashSt 0x14 0 _ rfl ⟨0x4712, 8⟩ 0x1fff00 0x100).mpr
    ⟨fun h => absurd h (by decide), fun h => absurd h.2.1 (by decide)⟩

/-- From the second page of it to the end of the address space: the sum is 0. -/
theorem address_space_not_refused : ∃ sfl, sflashInit .sflashSt 0x14 0 = some sfl ∧
    ¬CommitsRight sfl ⟨0x4712, 8⟩ 0x100 0xffffff00 := by
  refine ⟨found .sflashSt 16 32, rfl, ?_⟩
  apply not_commitsRight_of_wraps
  · decide
  · exact ⟨by decide, by decide, by decide⟩

end Uint
end SerialFlash
end Router
