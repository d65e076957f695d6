/-
# The serial flash as an MTD device

`sflash_mtd_read`, `sflash_mtd_write` and `sflash_mtd_erase` call the driver
until a request is served, and wait for the flash after each command.

`Contract` is what the callers count on: a read brings the bytes, an erase that
succeeds leaves ones, a write onto ones that succeeds leaves the buffer, one
that fails tells how much of the buffer is there. It holds of the requests
that are `Sound`, and of no other (`contract_iff`): an erase that is not whole
blocks reports success for what it left, a write that ends behind the first
byte of a page leaves the chip select asserted, a rejection at the end of the
flash is looked for outside it, and an empty transfer leaves `*retlen`.
-/
import RouterFirmware.Sflash.Driver

namespace Router
namespace SerialFlash

open CMem Flash
open Nvram (bytesAt bytesAt_append)

/-- `-ETIMEDOUT`. -/
def eTimedOut : ℤ := -145

/-- The loop of `sflash_mtd_poll`, with so many polls before the time is up. -/
def pollLoop (sfl : Sflash) (offset busy : ℕ) : ℕ → ℤ
  | 0 => if sflashPoll sfl (0 < busy) offset = 0 then 0 else eTimedOut
  | n + 1 => if sflashPoll sfl (0 < busy) offset = 0 then 0 else pollLoop sfl offset (busy - 1) n

/-- `sflash_mtd_poll`. -/
def sflashMtdPoll (sfl : Sflash) (h : Hardware) (offset timeout : ℕ) : ℤ :=
  match h.reply offset with
  | .accepted busy _ => pollLoop sfl offset busy (h.polls timeout)
  | .rejected => pollLoop sfl offset 0 (h.polls timeout)

/-! ### The requests -/

/-- What `sflash_mtd_read` returns, `*retlen`, and what it stored. -/
structure ReadOut where
  ret : ℤ
  retlen : ℕ
  buf : List UInt8

/-- The loop of `sflash_mtd_read`. Every call of `sflash_read` brings a byte,
so that `fuel` need not exceed `len`. -/
def readLoop (sfl : Sflash) (f : Mem) : ℕ → ℕ → ℕ → ℕ → ReadOut
  | 0, _, _, _ => ⟨0, 0, []⟩
  | fuel + 1, from_, len, buf =>
    if len = 0 then ⟨0, 0, []⟩
    else
      let r := sflashRead sfl f from_ len buf
      if r.1 < 0 then ⟨r.1, 0, []⟩
      else
        let bytes := r.1.toNat
        let t := readLoop sfl f fuel (from_ + bytes) (len - bytes) (buf + bytes)
        ⟨t.ret, bytes + t.retlen, r.2 ++ t.buf⟩

/-- `sflash_mtd_read` into the buffer at `buf`. -/
def sflashMtdRead (sfl : Sflash) (f : Mem) (from_ len buf retlen : ℕ) : ReadOut :=
  if len = 0 then ⟨0, retlen, []⟩
  else if sfl.size < from_ + len then ⟨-22, retlen, []⟩
  else readLoop sfl f len from_ len buf

/-- What `sflash_mtd_write` returns, `*retlen`, and the flash. -/
structure WriteOut where
  ret : ℤ
  retlen : ℕ
  chip : Chip

/-- The loop of `sflash_mtd_write`. -/
def writeLoop (sfl : Sflash) (sbh : Sb) (h : Hardware) : ℕ → Chip → ℕ → List UInt8 → WriteOut
  | 0, c, _, _ => ⟨0, 0, c⟩
  | fuel + 1, c, to_, buf =>
    if buf.length = 0 then ⟨0, 0, c⟩
    else
      let r := sflashWrite sfl sbh h c to_ buf
      if r.1 < 0 then ⟨r.1, 0, r.2⟩
      else if sflashMtdPoll sfl h to_ (hz / 10) ≠ 0 then ⟨sflashMtdPoll sfl h to_ (hz / 10), 0, r.2⟩
      else
        let bytes := r.1.toNat
        let t := writeLoop sfl sbh h fuel r.2 (to_ + bytes) (buf.drop bytes)
        ⟨t.ret, bytes + t.retlen, t.chip⟩

/-- `sflash_mtd_write`. -/
def sflashMtdWrite (sfl : Sflash) (sbh : Sb) (h : Hardware) (c : Chip) (to_ : ℕ) (buf : List UInt8)
    (retlen : ℕ) : WriteOut :=
  if buf.length = 0 then ⟨0, retlen, c⟩
  else if sfl.size < to_ + buf.length then ⟨-22, retlen, c⟩
  else writeLoop sfl sbh h buf.length c to_ buf

/-- `MTD_ERASE_DONE` and `MTD_ERASE_FAILED`. -/
inductive EraseState
  | mtdEraseDone
  | mtdEraseFailed
deriving DecidableEq

/-- What `sflash_mtd_erase` returns, the state it sets, and the flash. -/
structure EraseOut where
  ret : ℤ
  state : Option EraseState
  chip : Chip

/-- The blocks of the one erase region, from the first of `js` on. -/
def eraseScan (sfl : Sflash) (h : Hardware) : List ℕ → ℕ → ℕ → Chip → ℤ × Chip
  | [], _, _, c => (0, c)
  | j :: js, addr, len, c =>
    if addr = sfl.blocksize * j ∧ sfl.blocksize ≤ len then
      let r := sflashErase sfl h c addr
      if r.1 < 0 then r
      else if sflashMtdPoll sfl h addr (10 * hz) ≠ 0 then (sflashMtdPoll sfl h addr (10 * hz), r.2)
      else eraseScan sfl h js (addr + sfl.blocksize) (len - sfl.blocksize) r.2
    else eraseScan sfl h js addr len c

/-- `sflash_mtd_erase`. -/
def sflashMtdErase (sfl : Sflash) (h : Hardware) (c : Chip) (addr len : ℕ) : EraseOut :=
  if len = 0 then ⟨0, none, c⟩
  else if sfl.size < addr + len then ⟨-22, none, c⟩
  else
    let r := eraseScan sfl h (List.range sfl.numblocks) addr len c
    ⟨r.1, some (if r.1 ≠ 0 then .mtdEraseFailed else .mtdEraseDone), r.2⟩

/-! ### The contract -/

/-- The device, and whether its flash may reject a page program behind which
the driver looks for that. -/
structure SflashMtd where
  sfl : Sflash
  sbh : Sb
  rejects : Bool

/-- A flash that takes every erase command. -/
def Hardware.Erases (h : Hardware) : Prop := ∀ offset, h.reply offset ≠ .rejected

/-- A flash that rejects a page program only if the device's flash may. -/
def SflashMtd.Programs (d : SflashMtd) (h : Hardware) : Prop :=
  ∀ offset, h.reply offset = .rejected → HoldsCs d.sfl d.sbh ∧ d.rejects = true

/-- The page program at `offset` was taken, and done within the time-out. -/
def Hardware.Took (h : Hardware) (offset : ℕ) : Prop :=
  ∃ busy left, h.reply offset = .accepted busy left ∧ busy ≤ h.polls (hz / 10)

/-- A request, with what `*retlen` held; a buffer to read into by its address. -/
inductive Request
  | read (from_ len buf retlen : ℕ)
  | erase (addr len : ℕ)
  | write (to_ len retlen : ℕ)

/-- The request lies inside the device. -/
def SflashMtd.Inside (d : SflashMtd) : Request → Prop
  | .read from_ len _ _ => from_ + len ≤ d.sfl.size
  | .erase addr len => addr + len ≤ d.sfl.size
  | .write to_ len _ => to_ + len ≤ d.sfl.size

/-- What a write of `buf` to `to_` leaves of the content `f` that was all ones
there. -/
def Written (h : Hardware) (f : Mem) (to_ : ℕ) (buf : List UInt8) (r : WriteOut) : Prop :=
  (∀ i, i < to_ ∨ to_ + buf.length ≤ i → r.chip.mem i = f i) ∧
  (∀ i, i < r.retlen → r.chip.mem (to_ + i) = buf.getD i 0) ∧
  (r.ret = 0 → r.retlen = buf.length) ∧
  (r.ret ≠ 0 → r.retlen < buf.length ∧ ¬ h.Took (to_ + r.retlen))

/-- What the MTD layer is to do for a request, whatever the flash holds and
however it replies. -/
def SflashMtd.Contract (d : SflashMtd) : Request → Prop
  | .read from_ len buf retlen => ∀ f : Mem,
      sflashMtdRead d.sfl f from_ len buf retlen = ⟨0, len, bytesAt f from_ len⟩
  | .erase addr len => ∀ (h : Hardware) (c : Chip), h.Erases →
      (sflashMtdErase d.sfl h c addr len).ret = 0 →
      ∀ i, (sflashMtdErase d.sfl h c addr len).chip.mem i =
        if addr ≤ i ∧ i < addr + len then 0xFF else c.mem i
  | .write to_ len retlen => ∀ (h : Hardware) (c : Chip) (buf : List UInt8), d.Programs h →
      buf.length = len → (∀ i, to_ ≤ i → i < to_ + len → c.mem i = 0xFF) →
      Written h c.mem to_ buf (sflashMtdWrite d.sfl d.sbh h c to_ buf retlen)

/-- The requests that are served as the callers count on: no empty transfer
with an old `*retlen`, whole blocks to erase, and with the chip select held no
write that ends behind the first byte of a page, nor at the end of a flash
that may reject it. -/
def SflashMtd.Sound (d : SflashMtd) : Request → Prop
  | .read _ len _ retlen => len = 0 → retlen = 0
  | .erase addr len => len = 0 ∨ d.sfl.blocksize ∣ addr ∧ d.sfl.blocksize ∣ len
  | .write to_ len retlen => (len = 0 → retlen = 0) ∧
      (len ≠ 0 → HoldsCs d.sfl d.sbh →
        (to_ + len) % 256 ≠ 1 ∧ (d.rejects = true → to_ + len ≠ d.sfl.size))

/-! ### Polling -/

theorem pollLoop_eq {sfl : Sflash} {offset : ℕ} (ho : offset < sfl.size) : ∀ n busy : ℕ,
    pollLoop sfl offset busy n = if busy ≤ n then 0 else eTimedOut
  | 0, busy => by
    rcases Nat.eq_zero_or_pos busy with rfl | hb
    · simp [pollLoop, sflashPoll, Nat.not_le.mpr ho]
    · simp [pollLoop, sflashPoll, Nat.not_le.mpr ho, hb, Nat.ne_of_gt hb]
  | n + 1, busy => by
    rcases Nat.eq_zero_or_pos busy with rfl | hb
    · simp [pollLoop, sflashPoll, Nat.not_le.mpr ho]
    · simp only [pollLoop, sflashPoll, if_neg (Nat.not_le.mpr ho), hb, decide_true, if_true,
        one_ne_zero, if_false, pollLoop_eq ho n]
      congr 1
      exact propext (by omega)

/-- `sflash_mtd_poll` fails when the flash is busy for longer than it waits. -/
theorem sflashMtdPoll_eq {sfl : Sflash} (h : Hardware) {offset : ℕ} (timeout : ℕ)
    (ho : offset < sfl.size) :
    sflashMtdPoll sfl h offset timeout =
      match h.reply offset with
      | .accepted busy _ => if busy ≤ h.polls timeout then 0 else eTimedOut
      | .rejected => 0 := by
  unfold sflashMtdPoll
  split <;> simp [pollLoop_eq ho]

/-! ### Reading -/

theorem readLoop_eq {sfl : Sflash} (f : Mem) : ∀ fuel from_ len buf : ℕ, len ≤ fuel →
    from_ + len ≤ sfl.size → readLoop sfl f fuel from_ len buf = ⟨0, len, bytesAt f from_ len⟩
  | 0, from_, len, buf, hf, _ => by
    rw [Nat.le_zero.mp hf]
    rfl
  | fuel + 1, from_, len, buf, hf, hin => by
    unfold readLoop
    split_ifs with h0
    · rw [h0]
      rfl
    · obtain ⟨n, hn, hle, hr⟩ := sflashRead_spec f buf (Nat.pos_of_ne_zero h0) hin
      have hneg : ¬ ((n : ℤ) < 0) := by omega
      simp only [hr, hneg, if_false, Int.toNat_natCast]
      rw [readLoop_eq f fuel (from_ + n) (len - n) (buf + n) (by omega) (by omega)]
      simp only [bytesAt_append, Nat.add_sub_cancel' hle]

theorem read_iff (d : SflashMtd) {from_ len : ℕ} (buf retlen : ℕ)
    (hin : from_ + len ≤ d.sfl.size) :
    d.Contract (.read from_ len buf retlen) ↔ d.Sound (.read from_ len buf retlen) := by
  simp only [SflashMtd.Contract, SflashMtd.Sound, sflashMtdRead, if_neg (Nat.not_lt.mpr hin)]
  constructor
  · intro hc h0
    subst h0
    simpa using congrArg ReadOut.retlen (hc fun _ => 0)
  · intro hs f
    split_ifs with h0
    · rw [hs h0, h0]
      rfl
    · exact readLoop_eq f len from_ len buf (le_refl _) hin

/-! ### Writing -/

theorem programBut_of_out {f left : Mem} {p i : ℕ} {l : List UInt8}
    (h : i < p ∨ p + l.length ≤ i) : programBut f p l left i = f i := by
  unfold programBut
  rw [if_neg (by omega)]

/-- Nothing to write is written. -/
theorem Written.nil (h : Hardware) (c : Chip) (to_ : ℕ) {buf : List UInt8} (hbuf : buf.length = 0) :
    Written h c.mem to_ buf ⟨0, 0, c⟩ :=
  ⟨fun _ _ => rfl, fun _ hi => absurd hi (Nat.not_lt_zero _), fun _ => hbuf.symm,
    fun hne => absurd rfl hne⟩

/-- A call that fails has written nothing it counts. -/
theorem Written.failed {h : Hardware} {f : Mem} {to_ : ℕ} {buf : List UInt8} {ret : ℤ} {c : Chip}
    (hbuf : 0 < buf.length) (hret : ret ≠ 0) (hnot : ¬ h.Took to_)
    (hout : ∀ i, i < to_ ∨ to_ + buf.length ≤ i → c.mem i = f i) : Written h f to_ buf ⟨ret, 0, c⟩ :=
  ⟨hout, fun _ hi => absurd hi (Nat.not_lt_zero _), fun h0 => absurd h0 hret, fun _ => ⟨hbuf, hnot⟩⟩

/-- A chunk that is programmed, and what the calls behind it write. -/
theorem Written.chunk {h : Hardware} {f : Mem} {to_ n : ℕ} {buf : List UInt8} {t : WriteOut}
    (hn : n ≤ buf.length) (hff : ∀ i, to_ ≤ i → i < to_ + buf.length → f i = 0xFF)
    (ht : Written h (Flash.program f to_ (buf.take n)) (to_ + n) (buf.drop n) t) :
    Written h f to_ buf ⟨t.ret, n + t.retlen, t.chip⟩ := by
  obtain ⟨hout, hin, hok, hfail⟩ := ht
  have hlen : (buf.take n).length = n := by rw [List.length_take, Nat.min_eq_left hn]
  rw [List.length_drop] at hout hok hfail
  refine ⟨fun i hi => ?_, fun i hi => ?_, fun h0 => ?_, fun hne => ?_⟩
  · rw [hout i (by omega), program_of_out (by omega)]
  · dsimp only at hi ⊢
    by_cases hlt : i < n
    · rw [hout (to_ + i) (by omega), program_of_erased (by omega) (by omega) (hff _ (by omega) (by omega)),
        Nat.add_sub_cancel_left, List.getD_eq_getElem?_getD, List.getElem?_take_of_lt hlt,
        ← List.getD_eq_getElem?_getD]
    · have hi' := hin (i - n) (by omega)
      rw [show to_ + n + (i - n) = to_ + i by omega] at hi'
      rw [hi', List.getD_eq_getElem?_getD, List.getElem?_drop, ← List.getD_eq_getElem?_getD,
        Nat.add_sub_cancel' (by omega)]
  · dsimp only at h0 ⊢
    have := hok h0
    omega
  · obtain ⟨hlt, hnot⟩ := hfail hne
    dsimp only at hlt ⊢
    rw [← Nat.add_assoc]
    exact ⟨by omega, hnot⟩

theorem writeLoop_empty (sfl : Sflash) (sbh : Sb) (h : Hardware) (fuel : ℕ) (c : Chip) (to_ : ℕ)
    {buf : List UInt8} (hbuf : buf.length = 0) : writeLoop sfl sbh h fuel c to_ buf = ⟨0, 0, c⟩ := by
  cases fuel with
  | zero => rfl
  | succ fuel => rw [writeLoop, if_pos hbuf]

section Pass

variable {sfl : Sflash} {sbh : Sb} {h : Hardware} {c : Chip} {to_ : ℕ} {buf : List UInt8}

/-- A pass whose call fails. -/
theorem writeLoop_error (fuel : ℕ) (hbuf : 0 < buf.length)
    (hret : (sflashWrite sfl sbh h c to_ buf).1 < 0) :
    writeLoop sfl sbh h (fuel + 1) c to_ buf =
      ⟨(sflashWrite sfl sbh h c to_ buf).1, 0, (sflashWrite sfl sbh h c to_ buf).2⟩ := by
  simp only [writeLoop, if_neg hbuf.ne', if_pos hret]

/-- A pass in which the time runs out. -/
theorem writeLoop_timeout (fuel : ℕ) {n : ℕ} (hbuf : 0 < buf.length)
    (hret : (sflashWrite sfl sbh h c to_ buf).1 = n) (hpoll : sflashMtdPoll sfl h to_ (hz / 10) ≠ 0) :
    writeLoop sfl sbh h (fuel + 1) c to_ buf =
      ⟨sflashMtdPoll sfl h to_ (hz / 10), 0, (sflashWrite sfl sbh h c to_ buf).2⟩ := by
  have hneg : ¬ ((sflashWrite sfl sbh h c to_ buf).1 < 0) := by omega
  simp only [writeLoop, if_neg hbuf.ne', if_neg hneg, if_pos hpoll]

/-- A pass that writes `n` bytes. -/
theorem writeLoop_pass (fuel : ℕ) {n : ℕ} (hbuf : 0 < buf.length)
    (hret : (sflashWrite sfl sbh h c to_ buf).1 = n) (hpoll : sflashMtdPoll sfl h to_ (hz / 10) = 0) :
    writeLoop sfl sbh h (fuel + 1) c to_ buf =
      ⟨(writeLoop sfl sbh h fuel (sflashWrite sfl sbh h c to_ buf).2 (to_ + n) (buf.drop n)).ret,
        n + (writeLoop sfl sbh h fuel (sflashWrite sfl sbh h c to_ buf).2 (to_ + n) (buf.drop n)).retlen,
        (writeLoop sfl sbh h fuel (sflashWrite sfl sbh h c to_ buf).2 (to_ + n) (buf.drop n)).chip⟩ := by
  have hneg : ¬ ((n : ℤ) < 0) := by omega
  simp only [writeLoop, if_neg hbuf.ne', hret, if_neg hneg, hpoll, ne_eq, not_true, if_false,
    Int.toNat_natCast]

end Pass

/-- **A sound write.** The loop writes chunk by chunk, and stops at the first
that was rejected or is not done in time. -/
theorem writeLoop_written {d : SflashMtd} {h : Hardware} (hprog : d.Programs h) :
    ∀ (fuel : ℕ) (c : Chip) (to_ : ℕ) (buf : List UInt8), buf.length ≤ fuel →
      to_ + buf.length ≤ d.sfl.size →
      (HoldsCs d.sfl d.sbh → (to_ + buf.length) % 256 ≠ 1 ∧
        (d.rejects = true → to_ + buf.length ≠ d.sfl.size)) →
      (∀ i, to_ ≤ i → i < to_ + buf.length → c.mem i = 0xFF) →
      Written h c.mem to_ buf (writeLoop d.sfl d.sbh h fuel c to_ buf)
  | 0, c, to_, buf, hf, _, _, _ => Written.nil h c to_ (Nat.le_zero.mp hf)
  | fuel + 1, c, to_, buf, hf, hin, hend, hff => by
    rcases Nat.eq_zero_or_pos buf.length with h0 | hbuf
    · rw [writeLoop_empty _ _ _ _ _ _ h0]
      exact Written.nil h c to_ h0
    · have hpos := chunk_pos d.sfl d.sbh to_ hbuf
      have hle := chunk_le d.sfl d.sbh to_ buf.length
      have hpoll := sflashMtdPoll_eq h (hz / 10) (show to_ < d.sfl.size by omega)
      cases hr : h.reply to_ with
      | accepted busy left =>
        obtain ⟨hret, hmem⟩ := sflashWrite_accepted c hbuf hin hr fun hcs _ => (hend hcs).1
        simp only [hr] at hpoll
        by_cases hb : busy ≤ h.polls (hz / 10)
        · rw [if_pos hb] at hpoll
          simp only [Hardware.programChunk, if_pos hb] at hmem
          rw [writeLoop_pass fuel hbuf hret hpoll]
          refine Written.chunk hle hff ?_
          rw [← hmem]
          have hlen : (buf.drop (chunk d.sfl d.sbh to_ buf.length)).length =
              buf.length - chunk d.sfl d.sbh to_ buf.length := List.length_drop
          refine writeLoop_written hprog fuel _ _ _ (by omega) (by omega) (fun hcs => ?_) fun i hi hi' => ?_
          · rw [hlen, Nat.add_assoc, Nat.add_sub_cancel' hle]
            exact hend hcs
          · rw [hmem, program_of_out (Or.inr ?_), hff i (by omega) (by omega)]
            rw [List.length_take]
            omega
        · rw [if_neg hb] at hpoll
          have hto : eTimedOut ≠ 0 := by decide
          rw [writeLoop_timeout fuel hbuf hret (by rw [hpoll]; exact hto), hpoll]
          refine Written.failed hbuf hto ?_ fun i hi => ?_
          · rintro ⟨busy', left', hr', hb'⟩
            rw [hr] at hr'
            cases hr'
            exact hb hb'
          · rw [hmem, Hardware.programChunk, if_neg hb, programBut_of_out]
            rw [List.length_take]
            omega
      | rejected =>
        obtain ⟨hcs, hrej⟩ := hprog to_ hr
        obtain ⟨hkept, hlast⟩ := hend hcs
        have hlast := hlast hrej
        have hw := sflashWrite_rejected c hbuf hin hr hcs hkept
        rw [if_pos (by omega)] at hw
        rw [writeLoop_error fuel hbuf hw.1]
        refine Written.failed hbuf (by omega) ?_ fun i _ => by rw [hw.2]
        rintro ⟨busy, left, hr', -⟩
        rw [hr] at hr'
        cases hr'

/-- A flash that is ready at once, and leaves a page program undone whose chip
select stays asserted; it rejects what is to be programmed in the last page of
a flash of `size` bytes, if it `rejects` there. -/
def spoiler (size : ℕ) (rejects : Bool) : Hardware where
  reply := fun offset =>
    if rejects = true ∧ size ≤ offset + 256 then .rejected else .accepted 0 fun _ => 0
  polls := fun _ => 0
  kept := fun _ => 0xFF

/-- The first call of a write that ends badly leaves the last byte. -/
theorem sflashWrite_spoiled {sfl : Sflash} {sbh : Sb} {rejects : Bool} (hcs : HoldsCs sfl sbh)
    (c : Chip) {to_ : ℕ} {buf : List UInt8} (hbuf : 0 < buf.length)
    (hin : to_ + buf.length ≤ sfl.size)
    (hbad : (to_ + buf.length) % 256 = 1 ∨ rejects = true ∧ to_ + buf.length = sfl.size) :
    (sflashWrite sfl sbh (spoiler sfl.size rejects) c to_ buf).1 = chunk sfl sbh to_ buf.length ∧
    (sflashWrite sfl sbh (spoiler sfl.size rejects) c to_ buf).2.mem (to_ + buf.length - 1) =
      c.mem (to_ + buf.length - 1) := by
  have hle := chunk_le sfl sbh to_ buf.length
  have hsize := Nat.mod_eq_zero_of_dvd sfl.dvd_size
  have hgrain : grain sfl sbh = 256 := by simp [grain, hcs.1, hcs.2]
  have hchunk : chunk sfl sbh to_ buf.length = min buf.length (256 - to_ % 256) := by
    rw [chunk, hgrain]
  by_cases hlast : chunk sfl sbh to_ buf.length = buf.length
  · by_cases hkept : (to_ + buf.length) % 256 = 1
    · obtain ⟨hret, hmem⟩ := sflashWrite_kept (spoiler sfl.size rejects) c hbuf hin hcs hlast hkept
      rw [hmem, hlast]
      exact ⟨hret, UInt8.and_neg_one⟩
    · obtain ⟨hrej, hsz⟩ := hbad.resolve_left hkept
      have hr : (spoiler sfl.size rejects).reply to_ = .rejected := if_pos ⟨hrej, by omega⟩
      have hw := sflashWrite_rejected c hbuf hin hr hcs hkept
      rw [if_neg (by omega)] at hw
      exact ⟨hw.1, by rw [hw.2]⟩
  · have hr : (spoiler sfl.size rejects).reply to_ = .accepted 0 fun _ => 0 := by
      refine if_neg ?_
      rintro ⟨hrej, hge⟩
      rcases hbad with h1 | ⟨-, h1⟩ <;> omega
    obtain ⟨hret, hmem⟩ := sflashWrite_accepted c hbuf hin hr fun _ h => absurd h hlast
    refine ⟨hret, ?_⟩
    rw [hmem, Hardware.programChunk, if_pos (Nat.zero_le _), program_of_out]
    rw [List.length_take]
    omega

/-- A write that ends badly reports success and leaves its last byte. -/
theorem writeLoop_spoiled {sfl : Sflash} {sbh : Sb} {rejects : Bool} (hcs : HoldsCs sfl sbh) :
    ∀ (fuel : ℕ) (c : Chip) (to_ : ℕ) (buf : List UInt8), buf.length ≤ fuel → 0 < buf.length →
      to_ + buf.length ≤ sfl.size →
      ((to_ + buf.length) % 256 = 1 ∨ rejects = true ∧ to_ + buf.length = sfl.size) →
      (writeLoop sfl sbh (spoiler sfl.size rejects) fuel c to_ buf).retlen = buf.length ∧
      (writeLoop sfl sbh (spoiler sfl.size rejects) fuel c to_ buf).chip.mem (to_ + buf.length - 1) =
        c.mem (to_ + buf.length - 1)
  | 0, _, _, _, hf, hbuf, _, _ => absurd hbuf (by omega)
  | fuel + 1, c, to_, buf, hf, hbuf, hin, hbad => by
    have hpos := chunk_pos sfl sbh to_ hbuf
    have hle := chunk_le sfl sbh to_ buf.length
    obtain ⟨hret, hmem⟩ := sflashWrite_spoiled hcs c hbuf hin hbad
    have hpoll : sflashMtdPoll sfl (spoiler sfl.size rejects) to_ (hz / 10) = 0 := by
      rw [sflashMtdPoll_eq _ _ (by omega)]
      simp only [spoiler]
      split_ifs <;> rfl
    have hlen : (buf.drop (chunk sfl sbh to_ buf.length)).length =
        buf.length - chunk sfl sbh to_ buf.length := List.length_drop
    rw [writeLoop_pass fuel hbuf hret hpoll]
    rcases Nat.eq_zero_or_pos (buf.drop (chunk sfl sbh to_ buf.length)).length with h0 | hp
    · rw [writeLoop_empty _ _ _ _ _ _ h0]
      exact ⟨by dsimp only; omega, hmem⟩
    · have hend : to_ + chunk sfl sbh to_ buf.length + (buf.drop (chunk sfl sbh to_ buf.length)).length =
          to_ + buf.length := by omega
      obtain ⟨h1, h2⟩ := writeLoop_spoiled hcs fuel
        (sflashWrite sfl sbh (spoiler sfl.size rejects) c to_ buf).2 (to_ + chunk sfl sbh to_ buf.length)
        (buf.drop (chunk sfl sbh to_ buf.length)) (by omega) hp (by omega) (by rw [hend]; exact hbad)
      rw [hend] at h2
      exact ⟨by rw [h1]; dsimp only; omega, h2.trans hmem⟩

theorem write_iff (d : SflashMtd) {to_ len : ℕ} (retlen : ℕ) (hin : to_ + len ≤ d.sfl.size) :
    d.Contract (.write to_ len retlen) ↔ d.Sound (.write to_ len retlen) := by
  constructor
  · intro hc
    refine ⟨fun h0 => ?_, fun h0 hcs => ?_⟩
    · obtain ⟨-, -, hok, -⟩ := hc (spoiler d.sfl.size false) ⟨fun _ => 0, fun _ => 0⟩ []
        (fun offset hr => by simp [spoiler] at hr) h0.symm (fun i h1 h2 => absurd h1 (by omega))
      exact hok rfl
    · by_contra hbad
      have hbad' : (to_ + len) % 256 = 1 ∨ d.rejects = true ∧ to_ + len = d.sfl.size := by
        by_contra hn
        exact hbad ⟨fun h => hn (Or.inl h), fun h h' => hn (Or.inr ⟨h, h'⟩)⟩
      have hlen : (List.replicate len (0 : UInt8)).length = len := List.length_replicate
      have hprog : d.Programs (spoiler d.sfl.size d.rejects) := by
        intro offset hr
        simp only [spoiler] at hr
        split_ifs at hr with h
        exact ⟨hcs, h.1⟩
      obtain ⟨-, hbytes, -, -⟩ := hc (spoiler d.sfl.size d.rejects) ⟨fun _ => 0xFF, fun _ => 0⟩
        (List.replicate len 0) hprog hlen fun _ _ _ => rfl
      have hspoil := writeLoop_spoiled hcs len ⟨fun _ => 0xFF, fun _ => 0⟩ to_
        (List.replicate len 0) (le_of_eq hlen) (by omega) (by omega) (by rw [hlen]; exact hbad')
      simp only [sflashMtdWrite, hlen, if_neg h0, if_neg (Nat.not_lt.mpr hin)] at hbytes hspoil
      have hb := hbytes (len - 1) (by rw [hspoil.1]; omega)
      rw [← Nat.add_sub_assoc (by omega), hspoil.2, List.getD_replicate _ (by omega)] at hb
      exact absurd hb (by decide)
  · rintro ⟨hzero, hend⟩ h c buf hprog hlen hff
    subst hlen
    unfold sflashMtdWrite
    split_ifs with h0
    · rw [hzero h0]
      exact Written.nil h c to_ h0
    · exact absurd hin (by omega)
    · exact writeLoop_written hprog _ c to_ buf (le_refl _) hin (hend h0) hff

/-! ### Erasing -/

/-- An erase command inside the flash. -/
theorem sflashErase_eq (sfl : Sflash) {h : Hardware} (c : Chip) {addr busy : ℕ} {left : Mem}
    (hin : addr < sfl.size) (hal : sfl.blocksize ∣ addr) (hr : h.reply addr = .accepted busy left)
    (hb : busy ≤ h.polls (10 * hz)) :
    sflashErase sfl h c addr = ((sfl.blocksize : ℤ), ⟨eraseBlock sfl.blocksize c.mem addr, c.buf1⟩) := by
  simp only [sflashErase, if_neg (Nat.not_le.mpr hin), Nat.mod_eq_zero_of_dvd hal, Nat.sub_zero,
    Hardware.erase, hr, if_pos hb]

/-- The scan passes the blocks that do not begin at `addr`. -/
theorem eraseScan_skip {sfl : Sflash} (h : Hardware) {addr len : ℕ} (c : Chip) {js : List ℕ}
    (hjs : ∀ j ∈ js, ¬ (addr = sfl.blocksize * j ∧ sfl.blocksize ≤ len)) :
    eraseScan sfl h js addr len c = (0, c) := by
  induction js with
  | nil => rfl
  | cons j js ih =>
    rw [eraseScan, if_neg (hjs j List.mem_cons_self)]
    exact ih fun j' hj' => hjs j' (List.mem_cons_of_mem _ hj')

/-- **The erase scan.** From block `q` on it erases as many whole blocks as go
into `len`; and with a flash that is always done in time it succeeds. -/
theorem eraseScan_erases {sfl : Sflash} {h : Hardware} (he : h.Erases) (n j q len : ℕ) (c : Chip)
    (hj : j ≤ q) (hq : q + len / sfl.blocksize ≤ j + n) (hn : j + n ≤ sfl.numblocks) :
    ((∀ offset, h.Done (10 * hz) offset) →
      (eraseScan sfl h (List.range' j n) (sfl.blocksize * q) len c).1 = 0) ∧
    ((eraseScan sfl h (List.range' j n) (sfl.blocksize * q) len c).1 = 0 →
      ∀ i, (eraseScan sfl h (List.range' j n) (sfl.blocksize * q) len c).2.mem i =
        if sfl.blocksize * q ≤ i ∧ i < sfl.blocksize * (q + len / sfl.blocksize) then 0xFF
        else c.mem i) := by
  have hbs := sfl.blocksize_pos
  induction n generalizing j q len c with
  | zero =>
    have h0 : len / sfl.blocksize = 0 :=
      Nat.le_zero.mp (Nat.le_of_add_le_add_left (le_trans hq hj))
    refine ⟨fun _ => rfl, fun _ i => ?_⟩
    rw [h0, Nat.add_zero, if_neg (by omega)]
    rfl
  | succ n ih =>
    rw [List.range'_succ, eraseScan]
    by_cases hlen : sfl.blocksize ≤ len
    · have hm : len / sfl.blocksize = (len - sfl.blocksize) / sfl.blocksize + 1 :=
        Nat.div_eq_sub_div hbs hlen
      rcases Nat.lt_or_ge j q with hlt | hge
      · rw [if_neg fun hc => absurd (Nat.eq_of_mul_eq_mul_left hbs hc.1) (by omega)]
        exact ih (j + 1) q len c hlt (by omega) (by omega)
      · obtain rfl : j = q := le_antisymm hj hge
        have hin : sfl.blocksize * j < sfl.size := Nat.mul_lt_mul_of_pos_left (by omega) hbs
        have hpoll := sflashMtdPoll_eq h (10 * hz) hin
        cases hr : h.reply (sfl.blocksize * j) with
        | rejected => exact absurd hr (he _)
        | accepted busy left =>
          simp only [hr] at hpoll
          by_cases hb : busy ≤ h.polls (10 * hz)
          · have hneg : ¬ ((sfl.blocksize : ℤ) < 0) := by omega
            rw [if_pos hb] at hpoll
            simp only [hlen, and_self, if_true, sflashErase_eq sfl c hin ⟨j, rfl⟩ hr hb, hneg, if_false,
              hpoll, ne_eq, not_true]
            rw [← Nat.mul_succ]
            obtain ⟨h1, h2⟩ := ih (j + 1) (j + 1) (len - sfl.blocksize)
              ⟨eraseBlock sfl.blocksize c.mem (sfl.blocksize * j), c.buf1⟩ (le_refl _) (by omega) (by omega)
            refine ⟨h1, fun h0 i => ?_⟩
            rw [h2 h0 i, hm]
            have h3 : sfl.blocksize * (j + 1) = sfl.blocksize * j + sfl.blocksize := Nat.mul_succ _ _
            have h4 : sfl.blocksize * (j + 1) ≤
                sfl.blocksize * (j + 1 + (len - sfl.blocksize) / sfl.blocksize) :=
              Nat.mul_le_mul_left _ (Nat.le_add_right _ _)
            have h5 : j + 1 + (len - sfl.blocksize) / sfl.blocksize =
                j + ((len - sfl.blocksize) / sfl.blocksize + 1) := by omega
            rw [h5] at h4 ⊢
            simp only [eraseBlock]
            split_ifs <;> first | rfl | omega
          · have hneg : ¬ ((sfl.blocksize : ℤ) < 0) := by omega
            have hto : eTimedOut ≠ 0 := by decide
            rw [if_neg hb] at hpoll
            simp only [hlen, and_self, if_true, sflashErase, if_neg (Nat.not_le.mpr hin), hneg, if_false,
              hpoll, hto, ne_eq, not_false_eq_true]
            refine ⟨fun hd => absurd (hd (sfl.blocksize * j)) ?_, fun h0 => h0.elim⟩
            simpa only [Hardware.Done, hr] using hb
    · have h0 : len / sfl.blocksize = 0 := Nat.div_eq_of_lt (by omega)
      rw [if_neg fun hc => hlen hc.2, eraseScan_skip h c fun j' _ hc => hlen hc.2, h0, Nat.add_zero]
      refine ⟨fun _ => rfl, fun _ i => ?_⟩
      rw [if_neg (by omega)]

/-- A flash that is ready at once. -/
def prompt : Hardware where
  reply := fun _ => .accepted 0 fun _ => 0
  polls := fun _ => 0
  kept := fun _ => 0

theorem prompt_erases : prompt.Erases := fun _ hr => by simp [prompt] at hr

theorem prompt_done (timeout offset : ℕ) : prompt.Done timeout offset := Nat.le_refl 0

/-- An erase inside the device is the scan over its blocks. -/
theorem sflashMtdErase_scan (sfl : Sflash) (h : Hardware) (c : Chip) {addr len : ℕ} (hlen : len ≠ 0)
    (hin : addr + len ≤ sfl.size) :
    (sflashMtdErase sfl h c addr len).ret =
      (eraseScan sfl h (List.range' 0 sfl.numblocks) addr len c).1 ∧
    (sflashMtdErase sfl h c addr len).chip =
      (eraseScan sfl h (List.range' 0 sfl.numblocks) addr len c).2 := by
  simp only [sflashMtdErase, if_neg hlen, if_neg (Nat.not_lt.mpr hin), List.range_eq_range', and_self]

/-- The blocks an erase inside the device comes to. -/
theorem Sflash.blocks_le (sfl : Sflash) {q len : ℕ} (hin : sfl.blocksize * q + len ≤ sfl.size) :
    q + len / sfl.blocksize ≤ sfl.numblocks := by
  have h1 := Nat.mul_div_le len sfl.blocksize
  refine Nat.le_of_mul_le_mul_left ?_ sfl.blocksize_pos
  rw [Nat.mul_add]
  exact le_trans (by omega) hin

theorem erase_iff (d : SflashMtd) {addr len : ℕ} (hin : addr + len ≤ d.sfl.size) :
    d.Contract (.erase addr len) ↔ d.Sound (.erase addr len) := by
  have hbs := d.sfl.blocksize_pos
  by_cases hlen : len = 0
  · subst hlen
    simp [SflashMtd.Contract, SflashMtd.Sound, sflashMtdErase]
  · have hscan := fun h c => sflashMtdErase_scan d.sfl h c hlen hin
    constructor
    · intro hc
      have h0ff : (0 : UInt8) ≠ 0xFF := by decide
      obtain ⟨hret, hchip⟩ := hscan prompt ⟨fun _ => 0, fun _ => 0⟩
      have hlast := fun h0 => (hc prompt ⟨fun _ => 0, fun _ => 0⟩ prompt_erases h0
        (addr + len - 1)).trans (if_pos ⟨by omega, by omega⟩)
      rw [hret, hchip] at hlast
      by_cases hal : d.sfl.blocksize ∣ addr
      · obtain ⟨q, rfl⟩ := hal
        obtain ⟨hdone, hmem⟩ := eraseScan_erases prompt_erases d.sfl.numblocks 0 q len
          ⟨fun _ => 0, fun _ => 0⟩ (Nat.zero_le _) (by simpa using d.sfl.blocks_le hin) (by omega)
        have hdone := hdone (prompt_done _)
        have hl := (hmem hdone _).symm.trans (hlast hdone)
        refine Or.inr ⟨⟨q, rfl⟩, ?_⟩
        split_ifs at hl with hr
        · -- the last byte is in a block that was erased whole
          have h1 := Nat.mul_add d.sfl.blocksize q (len / d.sfl.blocksize)
          have h2 := Nat.div_add_mod len d.sfl.blocksize
          exact Nat.dvd_of_mod_eq_zero (by omega)
        · exact absurd hl h0ff
      · rw [eraseScan_skip prompt ⟨fun _ => 0, fun _ => 0⟩ fun j _ hj => hal ⟨j, hj.1⟩] at hlast
        exact absurd (hlast rfl) h0ff
    · intro hs h c he
      obtain ⟨⟨q, rfl⟩, m, rfl⟩ := hs.resolve_left hlen
      obtain ⟨hret, hchip⟩ := hscan h c
      obtain ⟨-, hmem⟩ := eraseScan_erases he d.sfl.numblocks 0 q (d.sfl.blocksize * m) c
        (Nat.zero_le _) (by simpa using d.sfl.blocks_le hin) (by omega)
      rw [hret, hchip]
      intro h0 i
      rw [hmem h0 i, Nat.mul_div_cancel_left m hbs, Nat.mul_add]

/-- `erase->state` tells what `sflash_mtd_erase` returned. -/
theorem sflashMtdErase_state (sfl : Sflash) (h : Hardware) (c : Chip) {addr len : ℕ} (hlen : len ≠ 0)
    (hin : addr + len ≤ sfl.size) :
    (sflashMtdErase sfl h c addr len).state = some .mtdEraseDone ↔
      (sflashMtdErase sfl h c addr len).ret = 0 := by
  simp only [sflashMtdErase, if_neg hlen, if_neg (Nat.not_lt.mpr hin)]
  split_ifs with h0 <;> simp_all

/-- **The MTD contract.** A request inside the device is served as the callers
count on, for every content and every flash, exactly if it is sound. -/
theorem contract_iff (d : SflashMtd) (r : Request) (hin : d.Inside r) : d.Contract r ↔ d.Sound r := by
  cases r with
  | read from_ len buf retlen => exact read_iff d buf retlen hin
  | erase addr len => exact erase_iff d hin
  | write to_ len retlen => exact write_iff d retlen hin

/-- An ST M25P20 on a board with a new ChipCommon core. -/
def m25p20 : SflashMtd := ⟨found .sflashSt 16 4 m25p20_sectors, ⟨0x4712, 20⟩, false⟩

/-- Of a write over the end of a page, two bytes behind it are served, one is not. -/
theorem contract_page : m25p20.Inside (.write 0xfe 3 7) ∧
    ¬ m25p20.Contract (.write 0xfe 3 7) ∧ m25p20.Contract (.write 0xfe 4 7) := by
  have hsize : m25p20.sfl.size = 0x40000 := rfl
  have h3 : m25p20.Inside (.write 0xfe 3 7) := by
    simp only [SflashMtd.Inside, hsize]
    omega
  have h4 : m25p20.Inside (.write 0xfe 4 7) := by
    simp only [SflashMtd.Inside, hsize]
    omega
  refine ⟨h3, fun hc => ?_, (contract_iff m25p20 _ h4).mpr ⟨by omega, fun _ _ => ⟨by omega, ?_⟩⟩⟩
  · exact (((contract_iff m25p20 _ h3).mp hc).2 (by omega) ⟨rfl, by decide⟩).1 (by omega)
  · intro hrej
    exact absurd hrej (by decide)

/-- A block's length erased from the second byte of the flash on: success, and
nothing is erased. -/
theorem erase_misaligned : m25p20.Inside (.erase 1 0x10000) ∧
    sflashMtdErase m25p20.sfl prompt ⟨fun _ => 0, fun _ => 0⟩ 1 0x10000 =
      ⟨0, some .mtdEraseDone, ⟨fun _ => 0, fun _ => 0⟩⟩ ∧
    ¬ m25p20.Contract (.erase 1 0x10000) := by
  have hsize : m25p20.sfl.size = 0x40000 := rfl
  have hbs : m25p20.sfl.blocksize = 0x10000 := rfl
  have hskip : eraseScan m25p20.sfl prompt (List.range m25p20.sfl.numblocks) 1 0x10000
      ⟨fun _ => 0, fun _ => 0⟩ = (0, ⟨fun _ => 0, fun _ => 0⟩) := by
    refine eraseScan_skip prompt _ fun j _ hj => ?_
    rw [hbs] at hj
    omega
  have herase : sflashMtdErase m25p20.sfl prompt ⟨fun _ => 0, fun _ => 0⟩ 1 0x10000 =
      ⟨0, some .mtdEraseDone, ⟨fun _ => 0, fun _ => 0⟩⟩ := by
    simp only [sflashMtdErase, hsize, hskip, ne_eq, not_true, if_false, OfNat.ofNat_ne_zero]
    rw [if_neg (by omega)]
  refine ⟨?_, herase, fun hc => ?_⟩
  · simp only [SflashMtd.Inside, hsize]
    omega
  · have h1 := hc prompt ⟨fun _ => 0, fun _ => 0⟩ prompt_erases (by rw [herase]) 1
    rw [herase, if_pos (by omega)] at h1
    exact absurd h1 (by decide)

end SerialFlash
end Router
