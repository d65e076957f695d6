/-
# Writing the boot loader's flash

`sysFlashWrite` and `sysFlashErase` on what `sysFlashInit` finds: the serial flash, or a parallel one. The serial flash
is written by `sflash_commit`, which keeps what is in a block beside the buffer. On a parallel flash the blocks of the
range are erased, and the words of the source are programmed: what is beside them in the blocks is lost
(`mem_sysFlashWrite`), and `writesRight_iff` says when there was nothing.

A poll is over in time or not, as it may be; those of the AMD and SST chips also compare the word. The chip is taken to
program the words that are stored into its write buffer, whatever count it was told before.
-/
import RouterFirmware.Nvram.Flashutl
import RouterFirmware.Sflash.Uint

namespace Router
namespace Flashutl
namespace Sys

open CMem Flash Fuel
open SerialFlash (Sflash Sb Chip)
open SerialFlash.Uint (Host Replaced)
open Nvram (bytesAt length_bytesAt bytesAt_append)

/-! ### The code -/

/-- The flash, and how many polls there were. -/
structure Dev extends Chip where
  polls : ℕ

/-- Bytes are programmed. -/
def Dev.store (c : Dev) (p : ℕ) (l : List UInt8) : Dev := { c with mem := Flash.program c.mem p l }

/-- `DONE`. -/
def doneMask : UInt16 := 0x80

section Code

variable (d : FlashDesc) (wsz : ℕ) (intime : ℕ → Bool)

/-- `flash_readword`, of the flash or of memory. -/
def flashReadword (m : Mem) (addr : ℕ) : UInt16 := if wsz = 1 then (m addr).toUInt16 else le16 m addr

/-- The bytes that `flash_writeword` stores. -/
def wordBytes (data : UInt16) : List UInt8 := if wsz = 1 then [data.toUInt8] else bytes16 data

/-- `flash_poll(off, data)`: whether it is over in time. -/
def flashPoll (c : Dev) (off : ℕ) (data : UInt16) : Bool × Dev :=
  -- AMD style poll checks the address being written, the others read the status
  ((if d.type = .amd ∨ d.type = .sst then flashReadword wsz c.mem off == data else true) && intime c.polls,
    { c with polls := c.polls + 1 })

/-- `flash_eraseblk(addr)`: whether it returns 0. -/
def flashEraseblk (c : Dev) (addr : ℕ) : Bool × Dev :=
  if d.size ≤ addr then (false, c)
  else
    let a := (d.block addr).1
    flashPoll d wsz intime { c with mem := eraseBlock ((d.block addr).2 - a) c.mem a } a (if wsz = 1 then 0xff else 0xffff)

/-- The loop of `flash_write`, with `dest` and `src` where they are in the flash and in the source. -/
def writeLoop (m : Mem) : ℕ → Dev → ℕ → ℕ → ℕ → ℕ → Option (Bool × Dev)
  | 0, _, _, _, _, _ => none
  | fuel + 1, c, off, dest, src, nbytes =>
    if nbytes = 0 then some (true, c)
    else if d.type = .scs ∧ d.type.writeBuf ≠ 0 ∧ off &&& (wbufsize - 1) = 0 then
      let r := flashPoll d wsz intime c off doneMask
      if r.1 = false then writeLoop m fuel r.2 off dest src nbytes
      else
        let len := min nbytes wbufsize
        -- half words, so many that `len` bytes are stored
        let stored := (len + 1) / 2 * 2
        let r := flashPoll d wsz intime (r.2.store dest (bytesAt m src stored)) off doneMask
        if r.1 = false then some r
        else writeLoop m fuel r.2 (off + len) (dest + stored) (src + stored) (nbytes - len)
    else
      let data := flashReadword wsz m src
      let r := flashPoll d wsz intime (c.store dest (wordBytes wsz data)) off data
      if r.1 = false then some r
      else
        let len := min nbytes wsz
        writeLoop m fuel r.2 (off + len) (dest + len) (src + len) (nbytes - len)

/-- `flash_write(off, src, nbytes)`, with `src` at 0 in a memory: whether it returns 0. -/
def flashWrite (m : Mem) (c : Dev) (off nbytes fuel : ℕ) : Option (Bool × Dev) :=
  if d.size ≤ off then some (false, c) else writeLoop d wsz intime m fuel c off off 0 nbytes

/-- The loop of `sysFlashErase`: whether `err` is 0. -/
def eraseLoop (stop : ℕ) : ℕ → Dev → ℕ → Option (Bool × Dev)
  | 0, _, _ => none
  | fuel + 1, c, off =>
    if off < stop then
      let r := flashEraseblk d wsz intime c off
      if r.1 = false then some r else eraseLoop stop fuel r.2 (d.block off).2
    else some (true, c)

end Code

/-- What `sysFlashInit` finds: the serial flash, or a parallel one on a bus of one or two bytes. -/
inductive Desc
  | serial (sfl : Sflash) (sbh : Sb) (small : sfl.size < 2 ^ 32)
  | parallel (d : FlashDesc) (wsz : ℕ) (regular : d.Regular) (width : wsz = 1 ∨ wsz = 2)

/-- `flashutl_desc->size`. -/
def Desc.size : Desc → ℕ
  | .serial sfl _ _ => sfl.size
  | .parallel d _ _ _ => d.size

/-- The bytes of a word. -/
def Desc.word : Desc → ℕ
  | .serial _ _ _ => 1
  | .parallel _ wsz _ _ => wsz

/-- What there is besides the flash: what `sflash_commit` meets with, and which polls of a parallel flash are over in
time. -/
structure Env where
  host : Host
  block : Mem
  intime : ℕ → Bool

section Code

variable (fl : Desc) (e : Env) (m : Mem) (c : Dev) (off numbytes : UInt32) (fuel : ℕ)

/-- `sysFlashErase(off, numbytes)`. -/
def sysFlashErase : Option (Bool × Dev) :=
  match fl with
  | .serial sfl sbh _ =>
    (SerialFlash.Uint.sflashCommit sfl sbh e.host none e.block c.toChip off numbytes fuel).map fun r =>
      (r.1 == 0, ⟨r.2, c.polls⟩)
  | .parallel d wsz _ _ => eraseLoop d wsz e.intime (off + numbytes).toNat fuel c off.toNat

/-- `sysFlashWrite(off, src, numbytes)`. -/
def sysFlashWrite : Option (Bool × Dev) :=
  match fl with
  | .serial sfl sbh _ =>
    (SerialFlash.Uint.sflashCommit sfl sbh e.host (some m) e.block c.toChip off numbytes fuel).map fun r =>
      (r.1 == 0, ⟨r.2, c.polls⟩)
  | .parallel d wsz _ _ =>
    (sysFlashErase fl e c off numbytes fuel).bind fun r =>
      if r.1 = false then some r else flashWrite d wsz e.intime m r.2 off.toNat numbytes.toNat fuel

end Code

/-! ### What it is for -/

/-- If it returns 1, the bytes are those of the source, and all others are as before. -/
def WritesRight (fl : Desc) (f m : Mem) (off numbytes : UInt32) : Prop :=
  ∀ (e : Env) (c : Dev), c.mem = f → ∀ r, Returns (sysFlashWrite fl e m c off numbytes) (· = r) → r.1 = true →
    Replaced f r.2.mem off.toNat numbytes.toNat m

/-- A half word is stored into a write buffer of which the range has one byte only. -/
def Padded (d : FlashDesc) (off n : ℕ) : Prop :=
  d.type = .scs ∧ (off + n) % 2 = 1 ∧ off ≤ (off + n) / wbufsize * wbufsize

instance (d : FlashDesc) (off n : ℕ) : Decidable (Padded d off n) := inferInstanceAs (Decidable (_ ∧ _ ∧ _))

/-- Beside the range its blocks hold ones, or what is stored there with the last byte. -/
def Blank (d : FlashDesc) (f m : Mem) (off n : ℕ) : Prop :=
  ∀ i, Touched d off (off + n) i → i < off ∨ off + n ≤ i →
    f i = if Padded d off n ∧ i = off + n then m n else 0xFF

/-- Nothing is lost in the blocks of a parallel flash. -/
def Spares (fl : Desc) (f m : Mem) (off n : ℕ) : Prop :=
  match fl with
  | .serial _ _ _ => True
  | .parallel d _ _ _ => Blank d f m off n

/-! ### Words -/

section Words

variable {wsz : ℕ}

theorem bytes16_le16 (m : Mem) (p : ℕ) : bytes16 (le16 m p) = bytesAt m p 2 := by
  have hlow := (m p).toNat_lt
  have hhigh := (m (p + 1)).toNat_lt
  have hword : (le16 m p).toNat = (m p).toNat + 2 ^ 8 * (m (p + 1)).toNat :=
    UInt16.toNat_ofNat_of_lt' (by show _ < 2 ^ 16; omega)
  have hbyte : ∀ {n : ℕ} {b : UInt8}, n % 2 ^ 8 = b.toNat → UInt8.ofNat n = b := fun h =>
    UInt8.toNat_inj.mp (by rw [UInt8.toNat_ofNat']; exact h)
  have hfirst : UInt8.ofNat (le16 m p).toNat = m p := hbyte (by rw [hword]; omega)
  have hsecond : UInt8.ofNat ((le16 m p).toNat / 2 ^ 8) = m (p + 1) := hbyte (by rw [hword]; omega)
  rw [bytes16, hfirst, hsecond]
  rfl

theorem wordBytes_readword (hw : wsz = 1 ∨ wsz = 2) (m : Mem) (p : ℕ) :
    wordBytes wsz (flashReadword wsz m p) = bytesAt m p wsz := by
  rcases hw with rfl | rfl
  · simp [wordBytes, flashReadword, bytesAt]
  · exact bytes16_le16 m p

/-- A word that is written is read again. -/
theorem readword_write (hw : wsz = 1 ∨ wsz = 2) (f : Mem) (p : ℕ) (m : Mem) (src : ℕ) :
    flashReadword wsz (write f p (bytesAt m src wsz)) p = flashReadword wsz m src := by
  rcases hw with rfl | rfl
  · have hbyte : write f p (bytesAt m src 1) p = m src := (holds_write_same f p (bytesAt m src 1)).1
    exact congrArg UInt8.toUInt16 hbyte
  · rw [← bytes16_le16]
    exact le16_of_holds (holds_write_same f p _)

theorem dvd_wbufsize (hw : wsz = 1 ∨ wsz = 2) : wsz ∣ wbufsize := by
  rcases hw with rfl | rfl
  · exact one_dvd _
  · exact of_decide_eq_true rfl

end Words

/-! ### What is left when no poll was too long -/

section Left

variable {d : FlashDesc} {wsz : ℕ} {intime : ℕ → Bool} {m : Mem}

theorem flashEraseblk_mem (c : Dev) {addr : ℕ} (ha : addr < d.size) : (flashEraseblk d wsz intime c addr).2.mem =
    eraseBlock ((d.block addr).2 - (d.block addr).1) c.mem (d.block addr).1 := by
  rw [flashEraseblk, if_neg (Nat.not_le.mpr ha)]
  rfl

/-- The blocks of the range are erased. -/
theorem eraseLoop_mem (hd : d.Regular) {stop : ℕ} (hstop : stop ≤ d.size) :
    ∀ {fuel : ℕ} {c : Dev} {off : ℕ} {r : Bool × Dev}, eraseLoop d wsz intime stop fuel c off = some r → r.1 = true →
      r.2.mem = erased d off stop c.mem
  | 0, _, _, _, hr, _ => by cases hr
  | fuel + 1, c, off, r, hr, hok => by
    unfold eraseLoop at hr
    split_ifs at hr with hoff
    · dsimp only at hr
      split_ifs at hr with hst
      · cases hr
        rw [hst] at hok
        cases hok
      · rw [eraseLoop_mem hd hstop hr hok, flashEraseblk_mem c (by omega)]
        exact erased_block hd hoff hstop c.mem
    · cases hr
      exact (erased_done (Nat.le_of_not_lt hoff) _).symm

/-- How many bytes are programmed. -/
def written (d : FlashDesc) (off n : ℕ) : ℕ := if Padded d off n then n + 1 else n

theorem written_zero (d : FlashDesc) (off : ℕ) : written d off 0 = 0 := by
  apply if_neg
  rintro ⟨-, hodd, hle⟩
  unfold wbufsize at hle
  omega

/-- Behind a first part of the range it is padded as before. -/
theorem written_add {off n k : ℕ} (hk : k ≤ n) (hpad : Padded d off n ↔ Padded d (off + k) (n - k)) :
    written d off n = k + written d (off + k) (n - k) := by
  unfold written
  split_ifs <;> grind

/-- A write buffer that is full. -/
theorem written_wbuf {off n : ℕ} (hoff : off % wbufsize = 0) (hn : wbufsize ≤ n) :
    written d off n = wbufsize + written d (off + wbufsize) (n - wbufsize) := by
  apply written_add hn
  unfold Padded wbufsize at *
  rw [Nat.add_assoc, Nat.add_sub_cancel' hn]
  refine and_congr_right fun _ => and_congr_right fun hodd => ?_
  omega

/-- The last write buffer. -/
theorem written_last {off n : ℕ} (hscs : d.type = .scs) (hoff : off % wbufsize = 0) (hn : n < wbufsize) :
    written d off n = (n + 1) / 2 * 2 := by
  unfold wbufsize at hoff hn
  by_cases hpad : Padded d off n
  · rw [written, if_pos hpad]
    have hodd := hpad.2.1
    omega
  · have heven : ¬(off + n) % 2 = 1 := fun hodd => hpad ⟨hscs, hodd, by unfold wbufsize; omega⟩
    rw [written, if_neg hpad]
    omega

/-- A word that does not go into a write buffer. -/
theorem written_word {off n : ℕ} (hw : wsz = 1 ∨ wsz = 2) (hoff : wsz ∣ off) (hn : wsz ∣ n) (hpos : 0 < n)
    (hword : ¬(d.type = .scs ∧ off % wbufsize = 0)) : written d off n = wsz + written d (off + wsz) (n - wsz) := by
  have hle : wsz ≤ n := Nat.le_of_dvd hpos hn
  apply written_add hle
  unfold Padded
  rw [Nat.add_assoc, Nat.add_sub_cancel' hle]
  refine and_congr_right fun hscs => and_congr_right fun hodd => ?_
  have hpart : off % wbufsize ≠ 0 := fun h => hword ⟨hscs, h⟩
  unfold wbufsize at *
  rcases hw with rfl | rfl
  · omega
  · exact absurd (hoff.add hn) (by omega)

theorem wbuf_iff (d : FlashDesc) (off : ℕ) :
    (d.type = .scs ∧ d.type.writeBuf ≠ 0 ∧ off &&& (wbufsize - 1) = 0) ↔ d.type = .scs ∧ off % wbufsize = 0 := by
  have hmask : off &&& (wbufsize - 1) = off % wbufsize := Nat.and_two_pow_sub_one_eq_mod off 5
  rw [hmask]
  refine and_congr_right fun hscs => and_iff_right ?_
  rw [hscs]
  decide

theorem writeLoop_done {fuel : ℕ} {c : Dev} {off dest src : ℕ} {r : Bool × Dev}
    (hr : writeLoop d wsz intime m fuel c off dest src 0 = some r) : r = (true, c) := by
  cases fuel with
  | zero => cases hr
  | succ fuel =>
    rw [writeLoop, if_pos rfl] at hr
    exact (Option.some.inj hr).symm

/-- **A turn.** Nothing was done as yet, or a write buffer or a word is programmed. -/
theorem writeLoop_turn (hw : wsz = 1 ∨ wsz = 2) {fuel : ℕ} {c : Dev} {off dest src n : ℕ} {r : Bool × Dev}
    (hpos : 0 < n) (hn : wsz ∣ n) (hr : writeLoop d wsz intime m (fuel + 1) c off dest src n = some r) (hok : r.1 = true) :
    ∃ c' len stored, writeLoop d wsz intime m fuel c' (off + len) (dest + stored) (src + stored) (n - len) = some r ∧
      c'.mem = Flash.program c.mem dest (bytesAt m src stored) ∧
      (len = 0 ∧ stored = 0 ∨
        (d.type = .scs ∧ off % wbufsize = 0) ∧ len = min n wbufsize ∧ stored = (len + 1) / 2 * 2 ∨
        ¬(d.type = .scs ∧ off % wbufsize = 0) ∧ len = wsz ∧ stored = wsz) := by
  have hstopped : ∀ {c' : Bool × Dev}, c'.1 = false → some c' ≠ some r := by
    rintro c' hst hrun
    cases hrun
    rw [hst] at hok
    cases hok
  unfold writeLoop at hr
  simp only [wbuf_iff] at hr
  rw [if_neg hpos.ne'] at hr
  split_ifs at hr with hwbuf hready hst hst'
  · exact ⟨_, 0, 0, hr, (program_nil c.mem dest).symm, .inl ⟨rfl, rfl⟩⟩
  · exact absurd hr (hstopped hst)
  · exact ⟨_, _, _, hr, rfl, .inr (.inl ⟨hwbuf, rfl, rfl⟩)⟩
  · exact absurd hr (hstopped hst')
  · rw [Nat.min_eq_right (Nat.le_of_dvd hpos hn)] at hr
    refine ⟨_, wsz, wsz, hr, ?_, .inr (.inr ⟨hwbuf, rfl, rfl⟩)⟩
    rw [← wordBytes_readword hw]
    rfl

/-- **The run.** The source is programmed, on what was there. -/
theorem writeLoop_mem (hw : wsz = 1 ∨ wsz = 2) : ∀ {fuel : ℕ} {c : Dev} {off src n : ℕ} {r : Bool × Dev}, wsz ∣ off →
    wsz ∣ n → writeLoop d wsz intime m fuel c off off src n = some r → r.1 = true →
      r.2.mem = Flash.program c.mem off (bytesAt m src (written d off n))
  | 0, _, _, _, _, _, _, _, hr, _ => by cases hr
  | fuel + 1, c, off, src, n, r, hoff, hn, hr, hok => by
    have hmore : ∀ {c' : Dev} {k : ℕ}, c'.mem = Flash.program c.mem off (bytesAt m src k) → wsz ∣ k → k ≤ n →
        writeLoop d wsz intime m fuel c' (off + k) (off + k) (src + k) (n - k) = some r →
        written d off n = k + written d (off + k) (n - k) →
          r.2.mem = Flash.program c.mem off (bytesAt m src (written d off n)) := by
      intro c' k hmem hk hle hrun hall
      have hlen : (bytesAt m src k).length = k := length_bytesAt ..
      have hboth := program_append c.mem off (bytesAt m src k) (bytesAt m (src + k) (written d (off + k) (n - k)))
      rw [hlen, bytesAt_append, ← hall, ← hmem] at hboth
      rw [writeLoop_mem hw (hoff.add hk) (Nat.dvd_sub hn hk) hrun hok]
      exact hboth
    rcases Nat.eq_zero_or_pos n with rfl | hpos
    · rw [writeLoop_done hr, written_zero]
      exact (program_nil c.mem off).symm
    · obtain ⟨c', len, stored, hrun, hmem, hcase⟩ := writeLoop_turn hw hpos hn hr hok
      rcases hcase with ⟨rfl, rfl⟩ | ⟨⟨hscs, hwbuf⟩, rfl, rfl⟩ | ⟨hword, rfl, rfl⟩
      · exact hmore hmem (dvd_zero wsz) (Nat.zero_le n) hrun (Nat.zero_add _).symm
      · rcases Nat.lt_or_ge n wbufsize with hlt | hge
        · rw [Nat.min_eq_left hlt.le] at hrun hmem
          rw [Nat.sub_self] at hrun
          rw [writeLoop_done hrun, written_last hscs hwbuf hlt]
          exact hmem
        · rw [Nat.min_eq_right hge] at hrun hmem
          exact hmore hmem (dvd_wbufsize hw) hge hrun (written_wbuf hwbuf hge)
      · exact hmore hmem (dvd_refl _) (Nat.le_of_dvd hpos hn) hrun (written_word hw hoff hn hpos hword)

end Left

/-! ### When no poll is too long -/

section Fair

variable {d : FlashDesc} {wsz : ℕ} {m : Mem}

/-- Every poll is over in time. -/
def prompt : ℕ → Bool := fun _ => true

theorem flashPoll_read {c : Dev} {off : ℕ} {data : UInt16} (h : flashReadword wsz c.mem off = data) :
    (flashPoll d wsz prompt c off data).1 = true := by
  unfold flashPoll prompt
  split_ifs <;> simp [h]

theorem flashPoll_status (hscs : d.type = .scs) (c : Dev) (off : ℕ) (data : UInt16) :
    (flashPoll d wsz prompt c off data).1 = true := by
  simp [flashPoll, prompt, hscs]

theorem readword_ones (hw : wsz = 1 ∨ wsz = 2) {f : Mem} {p : ℕ} (h : ∀ i, p ≤ i → i < p + 2 → f i = 0xFF) :
    flashReadword wsz f p = if wsz = 1 then 0xff else 0xffff := by
  have h0 := h p le_rfl (by omega)
  rcases hw with rfl | rfl
  · exact congrArg UInt8.toUInt16 h0
  · have h1 := h (p + 1) (by omega) (by omega)
    show le16 f p = 0xffff
    rw [le16, h0, h1]
    rfl

theorem flashEraseblk_ok (hd : d.Regular) (hw : wsz = 1 ∨ wsz = 2) (c : Dev) {addr : ℕ} (ha : addr < d.size) :
    (flashEraseblk d wsz prompt c addr).1 = true := by
  obtain ⟨hbase, hlim⟩ := block_spec hd.1 ha
  obtain ⟨-, heven, heven'⟩ := block_eq hd ha
  rw [flashEraseblk, if_neg (Nat.not_le.mpr ha)]
  apply flashPoll_read
  apply readword_ones hw
  intro i hi hi'
  exact if_pos (by omega)

/-- The erase loop returns 0. -/
theorem eraseLoop_ok (hd : d.Regular) (hw : wsz = 1 ∨ wsz = 2) {stop : ℕ} (hstop : stop ≤ d.size) :
    ∀ {n : ℕ} {c : Dev} {off : ℕ}, stop - off = n →
      Returns (fun fuel => eraseLoop d wsz prompt stop fuel c off) fun r => r.1 = true := by
  intro n
  induction n using Nat.strong_induction_on with
  | _ n ih =>
    intro c off hn
    by_cases hoff : off < stop
    · have hok := flashEraseblk_ok hd hw c (show off < d.size by omega)
      obtain ⟨hbase, hlim⟩ := block_spec hd.1 (show off < d.size by omega)
      have hnext := @ih (stop - (d.block off).2) (by omega) (flashEraseblk d wsz prompt c off).2 (d.block off).2 rfl
      apply hnext.turn
      intro fuel
      rw [eraseLoop, if_pos hoff]
      dsimp only
      rw [if_neg (by rw [hok]; decide)]
    · have hdone : Returns (fun _ => some (true, c)) fun r => r.1 = true := returns_some rfl
      apply hdone.turn
      intro fuel
      rw [eraseLoop, if_neg hoff]

theorem writeLoop_empty (c : Dev) (off dest src : ℕ) :
    Returns (fun fuel => writeLoop d wsz prompt m fuel c off dest src 0) fun r => r.1 = true := by
  have hdone : Returns (fun _ => some (true, c)) fun r => r.1 = true := returns_some rfl
  apply hdone.turn
  intro fuel
  rw [writeLoop, if_pos rfl]

/-- Where there are ones the loop of `flash_write` returns 0. -/
theorem writeLoop_ok (hw : wsz = 1 ∨ wsz = 2) : ∀ {n : ℕ} {c : Dev} {off src : ℕ}, wsz ∣ n →
    (∀ i, off ≤ i → i < off + n → c.mem i = 0xFF) →
      Returns (fun fuel => writeLoop d wsz prompt m fuel c off off src n) fun r => r.1 = true := by
  intro n
  induction n using Nat.strong_induction_on with
  | _ n ih =>
    intro c off src hn hones
    -- what is not programmed yet is not changed
    have hmore : ∀ {c' : Dev} {k : ℕ}, c'.mem = Flash.program c.mem off (bytesAt m src k) → wsz ∣ k → 0 < k → k ≤ n →
        Returns (fun fuel => writeLoop d wsz prompt m fuel c' (off + k) (off + k) (src + k) (n - k)) fun r =>
          r.1 = true := by
      intro c' k hmem hk hpos hle
      apply ih _ (by omega) (Nat.dvd_sub hn hk)
      intro i hi hi'
      have hlen : (bytesAt m src k).length = k := length_bytesAt ..
      rw [hmem, program_of_out (.inr (by omega))]
      exact hones i (by omega) (by omega)
    rcases Nat.eq_zero_or_pos n with rfl | hpos
    · exact writeLoop_empty c off off src
    · by_cases hwbuf : d.type = .scs ∧ off % wbufsize = 0
      · have hrun : Returns (fun fuel => writeLoop d wsz prompt m fuel
            ⟨⟨Flash.program c.mem off (bytesAt m src ((min n wbufsize + 1) / 2 * 2)), c.buf1⟩, c.polls + 1 + 1⟩
            (off + min n wbufsize) (off + (min n wbufsize + 1) / 2 * 2) (src + (min n wbufsize + 1) / 2 * 2)
            (n - min n wbufsize)) fun r => r.1 = true := by
          rcases Nat.lt_or_ge n wbufsize with hlt | hge
          · rw [Nat.min_eq_left hlt.le, Nat.sub_self]
            exact writeLoop_empty _ _ _ _
          · rw [Nat.min_eq_right hge]
            exact hmore rfl (dvd_wbufsize hw) (by decide) hge
        apply hrun.turn
        intro fuel
        conv_lhs => unfold writeLoop
        simp only [wbuf_iff]
        rw [if_neg hpos.ne', if_pos hwbuf, if_neg (by rw [flashPoll_status hwbuf.1]; decide),
          if_neg (by rw [flashPoll_status hwbuf.1]; decide)]
        rfl
      · have hle := Nat.le_of_dvd hpos hn
        have hread : (flashPoll d wsz prompt (c.store off (wordBytes wsz (flashReadword wsz m src))) off
            (flashReadword wsz m src)).1 = true := by
          apply flashPoll_read
          rw [wordBytes_readword hw]
          show flashReadword wsz (Flash.program c.mem off (bytesAt m src wsz)) off = _
          rw [program_of_ones, readword_write hw]
          intro i hi hi'
          rw [length_bytesAt] at hi'
          exact hones i hi (by omega)
        have hword : 0 < wsz := by
          rcases hw with rfl | rfl <;> decide
        have hmem : (flashPoll d wsz prompt (c.store off (wordBytes wsz (flashReadword wsz m src))) off
            (flashReadword wsz m src)).2.mem = Flash.program c.mem off (bytesAt m src wsz) := by
          rw [← wordBytes_readword hw]
          rfl
        apply (hmore hmem (dvd_refl wsz) hword hle).turn
        intro fuel
        conv_lhs => unfold writeLoop
        simp only [wbuf_iff]
        rw [if_neg hpos.ne', if_neg hwbuf, if_neg (by rw [hread]; decide), Nat.min_eq_right hle]

end Fair

/-! ### What is left beside the range -/

/-- The flash behind `sysFlashWrite`, if it returns 1. -/
def rewritten (d : FlashDesc) (f m : Mem) (off n : ℕ) : Mem :=
  Flash.program (erased d off (off + n) f) off (bytesAt m 0 (written d off n))

section Blocks

variable {d : FlashDesc} {wsz : ℕ} {f m : Mem} {off n : ℕ}

/-- What is programmed is in blocks that are erased. -/
theorem touched_of_written (hd : d.Regular) (hin : off + n ≤ d.size) {i : ℕ} (hoff : off ≤ i)
    (hi : i < off + written d off n) : Touched d off (off + n) i := by
  by_cases hrange : i < off + n
  · exact ⟨i, hrange, hoff, block_spec hd.1 (by omega)⟩
  · by_cases hpad : Padded d off n
    · -- the other byte of the half word of the last byte
      obtain ⟨-, hodd, hle⟩ := hpad
      have hlast : off < off + n := by
        unfold wbufsize at hle
        omega
      obtain ⟨hbase, hlim⟩ := block_spec hd.1 (show off + n - 1 < d.size by omega)
      obtain ⟨-, -, heven⟩ := block_eq hd (show off + n - 1 < d.size by omega)
      have hnext : i ≤ off + n := by
        unfold written at hi
        split_ifs at hi <;> omega
      exact ⟨off + n - 1, by omega, by omega, by omega, by omega⟩
    · rw [written, if_neg hpad] at hi
      exact absurd hi hrange

theorem rewritten_eq (hd : d.Regular) (hin : off + n ≤ d.size) :
    rewritten d f m off n = write (erased d off (off + n) f) off (bytesAt m 0 (written d off n)) := by
  apply program_of_ones
  intro i hi hi'
  rw [length_bytesAt] at hi'
  exact if_pos (touched_of_written hd hin hi hi')

theorem rewritten_written (hd : d.Regular) (hin : off + n ≤ d.size) {i : ℕ} (hi : i < written d off n) :
    rewritten d f m off n (off + i) = m i := by
  have hget := holds_iff.mp (holds_write_same (erased d off (off + n) f) off (bytesAt m 0 (written d off n))) i
    (by rwa [length_bytesAt])
  rw [rewritten_eq hd hin]
  simpa [bytesAt] using hget

/-- A byte outside the range. -/
theorem rewritten_outside (hd : d.Regular) (hin : off + n ≤ d.size) {i : ℕ} (hi : i < off ∨ off + n ≤ i) :
    rewritten d f m off n i =
      if Touched d off (off + n) i then if Padded d off n ∧ i = off + n then m n else 0xFF else f i := by
  by_cases hpad : Padded d off n ∧ i = off + n
  · have hn : n < written d off n := by
      rw [written, if_pos hpad.1]
      omega
    have htouched := touched_of_written hd hin (Nat.le_add_right off n) (by omega : off + n < off + written d off n)
    rw [hpad.2, if_pos htouched, if_pos ⟨hpad.1, rfl⟩, rewritten_written hd hin hn]
  · have hout : i < off ∨ off + (bytesAt m 0 (written d off n)).length ≤ i := by
      rw [length_bytesAt]
      unfold written
      split_ifs with h
      · have hne : i ≠ off + n := fun heq => hpad ⟨h, heq⟩
        omega
      · exact hi
    rw [if_neg hpad, rewritten, program_of_out hout]
    rfl

/-- The bytes are replaced, and nothing else changes, if the blocks are blank. -/
theorem replaced_rewritten (hd : d.Regular) (hin : off + n ≤ d.size) :
    Replaced f (rewritten d f m off n) off n m ↔ Blank d f m off n := by
  constructor
  · intro hreplaced i htouched hi
    rw [← hreplaced.rest i hi, rewritten_outside hd hin hi, if_pos htouched]
  · intro hblank
    refine ⟨fun i hi => ?_, fun i hi => ?_⟩
    · have hle : n ≤ written d off n := by
        unfold written
        split_ifs <;> omega
      exact rewritten_written hd hin (by omega)
    · rw [rewritten_outside hd hin hi]
      by_cases htouched : Touched d off (off + n) i
      · rw [if_pos htouched]
        exact (hblank i htouched hi).symm
      · rw [if_neg htouched]

/-- Of a range of whole blocks no other byte is touched. -/
theorem blank_of_blocks (hd : d.Regular) (hin : off + n ≤ d.size) (hbase : (d.block off).1 = off)
    (hlim : (d.block (off + n - 1)).2 = off + n) : Blank d f m off n := by
  rintro i ⟨j, hj, hj', hi⟩ hout
  obtain ⟨hbase', hlim'⟩ := block_spec hd.1 (show j < d.size by omega)
  have hblocks := (block_eq hd (show j < d.size by omega)).1
  rcases hout with hlt | hge
  · have hsame := hblocks off (by omega) (by omega)
    rw [hsame] at hbase
    omega
  · have hsame := hblocks (off + n - 1) (by omega) (by omega)
    rw [hsame] at hlim
    omega

end Blocks

/-! ### Both flashes -/

section Write

variable {off numbytes : UInt32} {m : Mem}

theorem toNat_end {size : ℕ} (hsize : size < 2 ^ 32) (hfits : off.toNat + numbytes.toNat ≤ size) :
    (off + numbytes).toNat = off.toNat + numbytes.toNat := by
  rw [UInt32.toNat_add]
  exact Nat.mod_eq_of_lt (lt_of_le_of_lt hfits hsize)

/-- The serial flash keeps what is beside the source. -/
theorem serial_writesRight (sfl : Sflash) (sbh : Sb) (small : sfl.size < 2 ^ 32) (f m : Mem)
    (hfits : off.toNat + numbytes.toNat ≤ sfl.size) : WritesRight (.serial sfl sbh small) f m off numbytes := by
  intro e c hf r hr hok
  have hcommit := @SerialFlash.Uint.sflashCommit_inside sfl sbh off numbytes e.host (some m) e.block c.toChip small hfits
  have hwrite : Returns (sysFlashWrite (.serial sfl sbh small) e m c off numbytes) fun r => r.1 = true →
      r.2.mem = write c.mem off.toNat (bytesAt m 0 numbytes.toNat) := by
    apply hcommit.map
    intro t ht hzero
    exact ht m rfl (beq_iff_eq.mp hzero).ge
  obtain ⟨r', ⟨rfl, hmem⟩, -⟩ := hr.and hwrite
  rw [hmem hok, hf]
  exact SerialFlash.Uint.replaced_write _ _ _ _

section Parallel

variable {d : FlashDesc} {wsz : ℕ} {regular : d.Regular} {width : wsz = 1 ∨ wsz = 2}

/-- What `sysFlashWrite` leaves on a parallel flash. -/
theorem mem_sysFlashWrite {e : Env} {c : Dev} {fuel : ℕ} {r : Bool × Dev} (hoff : wsz ∣ off.toNat)
    (hn : wsz ∣ numbytes.toNat) (hfits : off.toNat + numbytes.toNat ≤ d.size)
    (hr : sysFlashWrite (.parallel d wsz regular width) e m c off numbytes fuel = some r) (hok : r.1 = true) :
    r.2.mem = rewritten d c.mem m off.toNat numbytes.toNat := by
  obtain ⟨t, ht, hrun⟩ := Option.bind_eq_some_iff.mp hr
  split_ifs at hrun with hst
  · cases hrun
    rw [hst] at hok
    cases hok
  · have hend := toNat_end regular.2.1 hfits
    have herased := eraseLoop_mem regular (by rw [hend]; exact hfits) ht (Bool.eq_true_of_not_eq_false hst)
    rw [flashWrite] at hrun
    split_ifs at hrun with hsize
    · cases hrun
      cases hok
    · rw [writeLoop_mem width hoff hn hrun hok, herased, hend]
      rfl

/-- If no poll is too long it returns 1. -/
theorem sysFlashWrite_ok (host : Host) (block : Mem) (c : Dev) (hn : wsz ∣ numbytes.toNat)
    (hfits : off.toNat + numbytes.toNat ≤ d.size) (hoff : off.toNat < d.size) :
    Returns (sysFlashWrite (.parallel d wsz regular width) ⟨host, block, prompt⟩ m c off numbytes) fun r =>
      r.1 = true := by
  have hend := toNat_end regular.2.1 hfits
  have hstop : (off + numbytes).toNat ≤ d.size := by rwa [hend]
  obtain ⟨t, ht, k, hk⟩ := @eraseLoop_ok d wsz regular width (off + numbytes).toNat hstop _ c off.toNat rfl
  have herase : Returns (fun fuel => eraseLoop d wsz prompt (off + numbytes).toNat fuel c off.toNat) (· = t) :=
    ⟨t, rfl, k, hk⟩
  apply herase.bind
  rintro _ rfl
  have hmem := eraseLoop_mem regular hstop (hk k le_rfl) ht
  simp only [ht, Bool.true_eq_false, if_false, flashWrite, if_neg (Nat.not_le.mpr hoff)]
  apply writeLoop_ok width hn
  intro i hi hi'
  rw [hmem, hend]
  exact if_pos ⟨i, hi', hi, block_spec regular.1 (by omega)⟩

/-- A write that is always right finds the blocks blank. -/
theorem blank_of_writesRight {f : Mem} (hoff : wsz ∣ off.toNat) (hn : wsz ∣ numbytes.toNat)
    (hfits : off.toNat + numbytes.toNat ≤ d.size) (hright : WritesRight (.parallel d wsz regular width) f m off numbytes) :
    Blank d f m off.toNat numbytes.toNat := by
  rcases Nat.lt_or_ge off.toNat d.size with hlt | hge
  · obtain ⟨r, hok, k, hk⟩ := @sysFlashWrite_ok off numbytes m d wsz regular width Host.fair (fun _ => 0)
      ⟨⟨f, fun _ => 0⟩, 0⟩ hn hfits hlt
    have hreplaced := hright _ _ rfl r ⟨r, rfl, k, hk⟩ hok
    rw [mem_sysFlashWrite hoff hn hfits (hk k le_rfl) hok] at hreplaced
    exact (replaced_rewritten regular hfits).mp hreplaced
  · exact fun i htouched _ => absurd htouched (not_touched (by omega) i)

/-- The steps that were issued are those of `sysFlashWrite` that does not fail. -/
theorem sysFlashWrite_steps {e : Env} {c : Dev} {fuel : ℕ} {r : Bool × Dev} (hoff : wsz ∣ off.toNat)
    (hn : wsz ∣ numbytes.toNat) (hfits : off.toNat + numbytes.toNat ≤ d.size) (hpos : off.toNat < d.size)
    (hpad : ¬Padded d off.toNat numbytes.toNat)
    (hr : sysFlashWrite (.parallel d wsz regular width) e m c off numbytes fuel = some r) (hok : r.1 = true) :
    r.2.mem = runSteps (Flashutl.sysFlashWrite d wsz off.toNat (bytesAt m 0 numbytes.toNat)) c.mem := by
  have hlen : (bytesAt m 0 numbytes.toNat).length = numbytes.toNat := length_bytesAt ..
  have hok' := (eraseBlocks_spec regular.1 hfits numbytes.toNat off.toNat le_rfl).1
  rw [mem_sysFlashWrite hoff hn hfits hr hok, rewritten, written, if_neg hpad, Flashutl.sysFlashWrite, hlen,
    Flashutl.sysFlashErase, if_pos hok', runSteps_append, runSteps_eraseBlocks regular hfits _ _ _ le_rfl,
    runSteps_flashWrite width _ _ hpos]

end Parallel

/-- **When a write changes only what it is asked to change**: always on the serial flash, and on a parallel one if its
blocks are blank beside the range. -/
theorem writesRight_iff (fl : Desc) (f m : Mem) (off numbytes : UInt32) (hoff : fl.word ∣ off.toNat)
    (hn : fl.word ∣ numbytes.toNat) (hfits : off.toNat + numbytes.toNat ≤ fl.size) :
    WritesRight fl f m off numbytes ↔ Spares fl f m off.toNat numbytes.toNat := by
  cases fl with
  | serial sfl sbh small => exact iff_of_true (serial_writesRight sfl sbh small f m hfits) trivial
  | parallel d wsz regular width =>
    show _ ↔ Blank d f m off.toNat numbytes.toNat
    constructor
    · exact fun hright => blank_of_writesRight hoff hn hfits hright
    · intro hblank e c hf r hr hok
      obtain ⟨_, rfl, k, hk⟩ := hr
      rw [mem_sysFlashWrite hoff hn hfits (hk k le_rfl) hok, hf]
      exact (replaced_rewritten regular hfits).mpr hblank

end Write

/-- The second block of a chip of 2 MB, on a bus of two bytes. -/
theorem block_written : WritesRight (.parallel ⟨0x0200000, .scs, 0x10000, 0, 31, []⟩ 2 (by decide) (.inr rfl))
    (fun _ => 0) (fun _ => 0x55) 0x10000 0x10000 :=
  (writesRight_iff _ _ _ _ _ (by decide) (by decide) (by decide)).mpr
    (@blank_of_blocks _ _ (fun _ => 0x55) _ _ (by decide) (by decide) (by decide) (by decide))

/-- The first word of a chip with sub-blocks at the start: the byte behind it is lost. -/
theorem word_not_written : ¬WritesRight (.parallel ⟨0x0200000, .amd, 0x10000, 1, 31, amd4112⟩ 2 (by decide) (.inr rfl))
    (fun _ => 0) (fun _ => 0x55) 0 2 := by
  intro hright
  have hblank := blank_of_writesRight (by decide) (by decide) (by decide) hright
  have hlost := hblank 2 ⟨0, by decide, by decide, by decide, by decide⟩ (.inr (by decide))
  rw [if_neg (by decide)] at hlost
  exact absurd hlost (by decide)

end Sys
end Flashutl
end Router
