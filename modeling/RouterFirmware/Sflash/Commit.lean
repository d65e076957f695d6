/-
# Rewriting the serial flash

`sflash_commit` puts a buffer into the flash whatever is there: block by block
it copies what it does not replace, erases the block and writes all of it
anew, page by page, from the start of the block. So it comes to a memory write
(`commitLoop_mem`), but while it is under way a byte may be erased that the
buffer does not touch (`commitLoop_pass`, `commitLoop_byte`).

Not covered: a block that cannot be allocated, and a NULL buffer, which only
erases.
-/
import RouterFirmware.Lib.Steps
import RouterFirmware.Sflash.Mtd

namespace Router
namespace SerialFlash

open CMem Flash
open Nvram (bytesAt)

/-- The holding block is written from `cur_offset` on: what the calls of
`sflash_write` program, and the flash behind them. -/
def writeBlock (sfl : Sflash) (sbh : Sb) : ℕ → Chip → ℕ → List UInt8 → List Step × Chip
  | 0, c, _, _ => ([], c)
  | fuel + 1, c, curOffset, cur =>
    if cur.length = 0 then ([], c)
    else
      let s := sflashSend sfl sbh c curOffset cur
      let sent := if s.cs = .kept then [] else [Step.program s.page s.data]
      let r := writeBlock sfl sbh fuel ⟨runSteps sent c.mem, s.buf1⟩ (curOffset + s.ret) (cur.drop s.ret)
      (sent ++ r.1, r.2)

/-- The loop of `sflash_commit`, with `block` at the address `blk`. -/
def commitLoop (sfl : Sflash) (sbh : Sb) (blk : ℕ) : ℕ → Mem → Chip → ℕ → List UInt8 → List Step × Chip
  | 0, _, c, _, _ => ([], c)
  | fuel + 1, block, c, offset, buf =>
    if buf.length = 0 then ([], c)
    else
      let mask := sfl.blocksize - 1
      let curOffset := offset - (offset &&& mask)
      let remainder := sfl.blocksize - (offset &&& mask)
      let curRetlen := if buf.length < remainder then buf.length else remainder
      -- copy the entire block; the reads are those of `sflash_mtd_read`
      let block :=
        if offset &&& mask ≠ 0 ∨ buf.length < sfl.blocksize then
          write block 0 (readLoop sfl c.mem sfl.blocksize curOffset sfl.blocksize blk).buf
        else block
      let block := write block (offset &&& mask) (buf.take curRetlen)
      let erased := Step.erase curOffset sfl.blocksize
      let w := writeBlock sfl sbh sfl.blocksize ⟨erased.run c.mem, c.buf1⟩ curOffset
        (bytesAt block 0 sfl.blocksize)
      let r := commitLoop sfl sbh blk fuel block w.2 (offset + curRetlen) (buf.drop curRetlen)
      (erased :: w.1 ++ r.1, r.2)

/-- `sflash_commit`: the steps it issues, and the flash behind them. -/
def sflashCommit (sfl : Sflash) (sbh : Sb) (blk : ℕ) (block : Mem) (c : Chip) (offset : ℕ)
    (buf : List UInt8) : List Step × Chip :=
  if buf.length = 0 then ([], c)
  else if sfl.size < offset + buf.length then ([], c)
  else commitLoop sfl sbh blk buf.length block c offset buf

/-! ### The holding block -/

variable {sfl : Sflash} {sbh : Sb}

theorem runSteps_writeBlock : ∀ (fuel : ℕ) (c : Chip) (p : ℕ) (l : List UInt8),
    (writeBlock sfl sbh fuel c p l).2.mem = runSteps (writeBlock sfl sbh fuel c p l).1 c.mem
  | 0, _, _, _ => rfl
  | fuel + 1, c, p, l => by
    unfold writeBlock
    split_ifs with h0
    · rfl
    · simp only [runSteps_append]
      exact runSteps_writeBlock fuel _ _ _

/-- What is sent of a buffer that ends at the end of a page (of a block, for an
Atmel chip) is the next chunk of it. -/
theorem sflashSend_aligned (c : Chip) {p : ℕ} {l : List UInt8} (hl : 0 < l.length)
    (hend : 256 ∣ p + l.length)
    (hat : sfl.type = .sflashAt → sfl.blocksize ∣ p ∧ sfl.blocksize ∣ l.length) :
    (sflashSend sfl sbh c p l).cs ≠ .kept ∧
    (sflashSend sfl sbh c p l).page = p ∧
    (sflashSend sfl sbh c p l).data = l.take (chunk sfl sbh p l.length) := by
  obtain ⟨hret, hcs⟩ := sflashSend_cs sfl sbh c p hl
  have hmod := Nat.mod_eq_zero_of_dvd hend
  refine ⟨?_, ?_⟩
  · rw [hcs]
    split_ifs with h1 h2 h3
    · simp
    · simp
    · omega
    · simp
  · cases hty : sfl.type with
    | sflashSt =>
      simp only [sflashSend, hty] at hret ⊢
      split_ifs at hret ⊢ with h1
      · simp only at hret ⊢
        rw [hret]
        exact ⟨trivial, rfl⟩
      · simp only at hret ⊢
        rw [hret]
        exact ⟨trivial, rfl⟩
    | sflashAt =>
      obtain ⟨hp, hlen⟩ := hat hty
      have hbs := sfl.blocksize_pos
      have hge : sfl.blocksize ≤ l.length := Nat.le_of_dvd hl hlen
      simp only [sflashSend, hty, sfl.and_mask, Nat.mod_eq_zero_of_dvd hp, Nat.sub_zero, bufBytes_eq,
        chunk, grain, Nat.min_eq_right hge, true_and]
      have htake : (l.take sfl.blocksize).length = sfl.blocksize := by
        rw [List.length_take, Nat.min_eq_left hge]
      apply List.ext_getElem
      · simp [bytesAt, hge]
      · intro i h1 h2
        simp only [bytesAt, List.getElem_map, List.getElem_range, write, htake, Nat.zero_add, Nat.sub_zero]
        rw [if_pos ⟨Nat.zero_le _, by omega⟩, List.getD_eq_getElem _ _ h2]

theorem writeBlock_steps : ∀ (fuel : ℕ) (c : Chip) (p : ℕ) (l : List UInt8), 256 ∣ p + l.length →
    (sfl.type = .sflashAt → sfl.blocksize ∣ p ∧ sfl.blocksize ∣ l.length) →
    (writeBlock sfl sbh fuel c p l).1 = inPieces (chunk sfl sbh) fuel p l
  | 0, _, _, _, _, _ => rfl
  | fuel + 1, c, p, l, hend, hat => by
    unfold writeBlock inPieces
    split_ifs with h0
    · rfl
    · have hl := Nat.pos_of_ne_zero h0
      have hle := chunk_le sfl sbh p l.length
      obtain ⟨hcs, hpage, hdata⟩ := @sflashSend_aligned sfl sbh c p l hl hend hat
      have hret := (sflashSend_cs sfl sbh c p hl).1
      simp only [hcs, if_false, hpage, hdata, hret, List.singleton_append, List.cons.injEq, true_and]
      refine writeBlock_steps fuel _ _ _ ?_ fun hty => ?_
      · rw [List.length_drop, Nat.add_assoc, Nat.add_sub_cancel' hle]
        exact hend
      · obtain ⟨hp, hlen⟩ := hat hty
        have hge : sfl.blocksize ≤ l.length := Nat.le_of_dvd hl hlen
        have hc : chunk sfl sbh p l.length = sfl.blocksize := by
          simp only [chunk, grain, hty, Nat.mod_eq_zero_of_dvd hp, Nat.sub_zero, Nat.min_eq_right hge]
        rw [hc, List.length_drop]
        exact ⟨hp.add (dvd_refl _), Nat.dvd_sub hlen (dvd_refl _)⟩

/-! ### A pass of the loop -/

/-- How much of `len` bytes goes into the block of `offset`. -/
def retlen (sfl : Sflash) (offset len : ℕ) : ℕ := min len (sfl.blocksize - offset % sfl.blocksize)

/-- The start of the block of `offset`. -/
def blockOf (sfl : Sflash) (offset : ℕ) : ℕ := offset - offset % sfl.blocksize

theorem blockOf_facts (sfl : Sflash) (offset : ℕ) : sfl.blocksize ∣ blockOf sfl offset ∧
    blockOf sfl offset ≤ offset ∧ offset < blockOf sfl offset + sfl.blocksize := by
  have h1 := Nat.mod_lt offset sfl.blocksize_pos
  have h2 := Nat.mod_le offset sfl.blocksize
  exact ⟨Nat.dvd_sub_mod offset, by unfold blockOf; omega, by unfold blockOf; omega⟩

theorem blockOf_add_le {offset : ℕ} (h : offset < sfl.size) :
    blockOf sfl offset + sfl.blocksize ≤ sfl.size := by
  obtain ⟨⟨q, hq⟩, h1, h2⟩ := blockOf_facts sfl offset
  have hlt : q < sfl.numblocks := by
    refine Nat.lt_of_mul_lt_mul_left (a := sfl.blocksize) ?_
    rw [← hq]
    exact lt_of_le_of_lt h1 h
  calc blockOf sfl offset + sfl.blocksize = sfl.blocksize * (q + 1) := by rw [hq, Nat.mul_succ]
    _ ≤ sfl.blocksize * sfl.numblocks := Nat.mul_le_mul_left _ hlt

/-- The holding block, with the buffer in it, is what the block is to be. -/
theorem holding_bytes (sfl : Sflash) (f block : Mem) (offset : ℕ) (buf : List UInt8) :
    bytesAt
        (write
          (if offset % sfl.blocksize ≠ 0 ∨ buf.length < sfl.blocksize then
            write block 0 (bytesAt f (blockOf sfl offset) sfl.blocksize)
          else block)
          (offset % sfl.blocksize) (buf.take (retlen sfl offset buf.length))) 0 sfl.blocksize =
      (List.range sfl.blocksize).map fun i =>
        write f offset (buf.take (retlen sfl offset buf.length)) (blockOf sfl offset + i) := by
  obtain ⟨-, hle, hlt⟩ := blockOf_facts sfl offset
  have hcur : blockOf sfl offset + offset % sfl.blocksize = offset := by
    have := Nat.mod_le offset sfl.blocksize
    unfold blockOf
    omega
  have hlen : (buf.take (retlen sfl offset buf.length)).length = retlen sfl offset buf.length := by
    rw [List.length_take, Nat.min_eq_left]
    exact Nat.min_le_left _ _
  refine List.map_congr_left fun i hi => ?_
  rw [List.mem_range] at hi
  rw [Nat.zero_add]
  by_cases h : offset % sfl.blocksize ≤ i ∧
      i < offset % sfl.blocksize + (buf.take (retlen sfl offset buf.length)).length
  · rw [write, if_pos h, write, if_pos (by omega)]
    congr 1
    omega
  · have hload : offset % sfl.blocksize ≠ 0 ∨ buf.length < sfl.blocksize := by
      rw [hlen] at h
      unfold retlen at h
      omega
    rw [write, if_neg h, if_pos hload, write, if_pos (by simp [bytesAt, hi]), write, if_neg (by omega),
      Nat.sub_zero, List.getD_eq_getElem _ _ (by simpa [bytesAt] using hi)]
    simp [bytesAt]

/-- What the reads bring is the block. -/
theorem holding_eq (sfl : Sflash) (f block : Mem) (blk : ℕ) {offset : ℕ} {buf : List UInt8}
    (hbuf : 0 < buf.length) (hin : offset + buf.length ≤ sfl.size) :
    bytesAt
        (write
          (if offset % sfl.blocksize ≠ 0 ∨ buf.length < sfl.blocksize then
            write block 0 (readLoop sfl f sfl.blocksize (blockOf sfl offset) sfl.blocksize blk).buf
          else block)
          (offset % sfl.blocksize) (buf.take (retlen sfl offset buf.length))) 0 sfl.blocksize =
      (List.range sfl.blocksize).map fun i =>
        write f offset (buf.take (retlen sfl offset buf.length)) (blockOf sfl offset + i) := by
  rw [@readLoop_eq sfl f sfl.blocksize (blockOf sfl offset) sfl.blocksize blk (le_refl _)
    (blockOf_add_le (by omega))]
  exact holding_bytes sfl f block offset buf

/-- Outside its block the buffer changes nothing. -/
theorem rewritten_block (sfl : Sflash) (f : Mem) (offset : ℕ) (buf : List UInt8) :
    rewritten f (write f offset (buf.take (retlen sfl offset buf.length))) (blockOf sfl offset) sfl.blocksize
        sfl.blocksize = write f offset (buf.take (retlen sfl offset buf.length)) := by
  funext i
  unfold rewritten
  split_ifs with h1 h2
  · rfl
  · exact absurd h1.2 h2
  · rw [write, if_neg]
    rw [List.length_take]
    unfold retlen
    have := Nat.mod_le offset sfl.blocksize
    unfold blockOf at h1
    omega

/-- The block rewritten with the buffer in it. -/
theorem runSteps_rewriteBlock (sfl : Sflash) (sbh : Sb) (f : Mem) (offset : ℕ) (buf : List UInt8) :
    runSteps (rewrite (chunk sfl sbh) (blockOf sfl offset) sfl.blocksize
        (write f offset (buf.take (retlen sfl offset buf.length)))) f =
      write f offset (buf.take (retlen sfl offset buf.length)) := by
  rw [runSteps_rewrite (chunk_le sfl sbh) (fun p n hn => chunk_pos sfl sbh p hn), rewritten_block]

/-- The holding block written behind the erase of its block. -/
theorem writeBlock_rewrite (sfl : Sflash) (sbh : Sb) (c : Chip) (offset : ℕ) (g : Mem) :
    (writeBlock sfl sbh sfl.blocksize ⟨eraseBlock sfl.blocksize c.mem (blockOf sfl offset), c.buf1⟩ (blockOf sfl offset)
        ((List.range sfl.blocksize).map fun i => g (blockOf sfl offset + i))).1 =
      inPieces (chunk sfl sbh) sfl.blocksize (blockOf sfl offset)
        ((List.range sfl.blocksize).map fun i => g (blockOf sfl offset + i)) := by
  have hdvd := (blockOf_facts sfl offset).1
  have h256 : 256 ∣ blockOf sfl offset + sfl.blocksize :=
    (sfl.dvd_blocksize.trans hdvd).add sfl.dvd_blocksize
  exact writeBlock_steps _ _ _ _ (by simpa using h256) fun _ => ⟨hdvd, by simp⟩

/-- **One pass.** The block of `offset` is rewritten with the buffer in it. -/
theorem commitLoop_pass (sfl : Sflash) (sbh : Sb) (blk fuel : ℕ) (block : Mem) (c : Chip) {offset : ℕ}
    {buf : List UInt8} (hbuf : 0 < buf.length) (hin : offset + buf.length ≤ sfl.size) :
    ∃ block' c', c'.mem = write c.mem offset (buf.take (retlen sfl offset buf.length)) ∧
      runSteps (rewrite (chunk sfl sbh) (blockOf sfl offset) sfl.blocksize
        (write c.mem offset (buf.take (retlen sfl offset buf.length)))) c.mem = c'.mem ∧
      (commitLoop sfl sbh blk (fuel + 1) block c offset buf).1 =
        rewrite (chunk sfl sbh) (blockOf sfl offset) sfl.blocksize
            (write c.mem offset (buf.take (retlen sfl offset buf.length))) ++
          (commitLoop sfl sbh blk fuel block' c' (offset + retlen sfl offset buf.length)
            (buf.drop (retlen sfl offset buf.length))).1 ∧
      (commitLoop sfl sbh blk (fuel + 1) block c offset buf).2 =
        (commitLoop sfl sbh blk fuel block' c' (offset + retlen sfl offset buf.length)
            (buf.drop (retlen sfl offset buf.length))).2 := by
  have hret : (if buf.length < sfl.blocksize - offset % sfl.blocksize then buf.length
      else sfl.blocksize - offset % sfl.blocksize) = retlen sfl offset buf.length := by
    unfold retlen
    split_ifs <;> omega
  have hhold := holding_eq sfl c.mem block blk hbuf hin
  have hrun := runSteps_rewriteBlock sfl sbh c.mem offset buf
  set g := write c.mem offset (buf.take (retlen sfl offset buf.length)) with hg
  have hsteps := writeBlock_rewrite sfl sbh c offset g
  simp only [commitLoop, if_neg hbuf.ne', sfl.and_mask, hret]
  rw [show offset - offset % sfl.blocksize = blockOf sfl offset from rfl, hhold]
  refine ⟨_, _, ?_, ?_, ?_, rfl⟩
  · rw [runSteps_writeBlock]
    show runSteps (writeBlock sfl sbh sfl.blocksize ⟨eraseBlock _ _ _, _⟩ _ _).1 _ = _
    rw [hsteps]
    exact hrun
  · rw [runSteps_writeBlock]
    show _ = runSteps (writeBlock sfl sbh sfl.blocksize ⟨eraseBlock _ _ _, _⟩ _ _).1 _
    rw [hsteps]
    rfl
  · show _ :: (writeBlock sfl sbh sfl.blocksize ⟨eraseBlock _ _ _, _⟩ _ _).1 ++ _ = _
    rw [hsteps]
    rfl

/-- Behind the loop the buffer is in the flash. -/
theorem commitLoop_mem (sfl : Sflash) (sbh : Sb) (blk : ℕ) : ∀ (fuel : ℕ) (block : Mem) (c : Chip)
    (offset : ℕ) (buf : List UInt8), buf.length ≤ fuel → offset + buf.length ≤ sfl.size →
      (commitLoop sfl sbh blk fuel block c offset buf).2.mem = write c.mem offset buf ∧
      runSteps (commitLoop sfl sbh blk fuel block c offset buf).1 c.mem = write c.mem offset buf
  | fuel, block, c, offset, buf, hf, hin => by
    rcases Nat.eq_zero_or_pos buf.length with h0 | hbuf
    · have hnil := List.length_eq_zero_iff.mp h0
      subst hnil
      have hw : write c.mem offset [] = c.mem := write_of_holds trivial
      cases fuel <;> simp [commitLoop, hw]
    · obtain ⟨fuel, rfl⟩ : ∃ k, fuel = k + 1 := ⟨fuel - 1, by omega⟩
      obtain ⟨block', c', hmem, hrun, hsteps, hchip⟩ := commitLoop_pass sfl sbh blk fuel block c hbuf hin
      have hn : 0 < retlen sfl offset buf.length ∧ retlen sfl offset buf.length ≤ buf.length := by
        have := Nat.mod_lt offset sfl.blocksize_pos
        unfold retlen
        omega
      have hlen : (buf.drop (retlen sfl offset buf.length)).length =
          buf.length - retlen sfl offset buf.length := List.length_drop
      obtain ⟨ih1, ih2⟩ := commitLoop_mem sfl sbh blk fuel block' c' (offset + retlen sfl offset buf.length)
        (buf.drop (retlen sfl offset buf.length)) (by omega) (by omega)
      have hall := write_write c.mem offset (buf.take (retlen sfl offset buf.length))
        (buf.drop (retlen sfl offset buf.length))
      rw [List.length_take, Nat.min_eq_left hn.2, List.take_append_drop, ← hmem] at hall
      rw [hchip, hsteps, runSteps_append, hrun, ih1, ih2, hall]
      exact ⟨rfl, rfl⟩

/-- While the loop is under way, a byte holds what it held, or ones, or what it
is to hold. -/
theorem commitLoop_byte (sfl : Sflash) (sbh : Sb) (blk a : ℕ) : ∀ (fuel : ℕ) (block : Mem) (c : Chip)
    (offset : ℕ) (buf : List UInt8), offset + buf.length ≤ sfl.size →
      Throughout (fun g => g a = c.mem a ∨ g a = 0xFF ∨ g a = write c.mem offset buf a)
        (commitLoop sfl sbh blk fuel block c offset buf).1 c.mem
  | 0, _, c, _, _, _ => throughout_nil.mpr (Or.inl rfl)
  | fuel + 1, block, c, offset, buf, hin => by
    rcases Nat.eq_zero_or_pos buf.length with h0 | hbuf
    · rw [commitLoop, if_pos h0]
      exact throughout_nil.mpr (Or.inl rfl)
    · obtain ⟨block', c', hmem, hrun, hsteps, -⟩ := commitLoop_pass sfl sbh blk fuel block c hbuf hin
      have hn : retlen sfl offset buf.length ≤ buf.length := Nat.min_le_left _ _
      have hall := write_write c.mem offset (buf.take (retlen sfl offset buf.length))
        (buf.drop (retlen sfl offset buf.length))
      rw [List.length_take, Nat.min_eq_left hn, List.take_append_drop, ← hmem] at hall
      -- the part of the buffer in this block, at `a`
      have hpart : c'.mem a = c.mem a ∨ c'.mem a = write c.mem offset buf a := by
        rw [hmem]
        simp only [write, List.length_take, Nat.min_eq_left hn]
        split_ifs with h1 h2
        · refine Or.inr ?_
          simp only [List.getD_eq_getElem?_getD]
          rw [List.getElem?_take_of_lt (by omega)]
        · omega
        · exact Or.inl rfl
        · exact Or.inl rfl
      rw [hsteps]
      refine throughout_append.mpr ⟨?_, ?_⟩
      · refine throughout_rewrite (fun _ => True) (chunk_le sfl sbh) (fun _ _ _ _ _ => trivial)
          trivial (Or.inl rfl) fun j _ _ => ?_
        simp only [rewritten]
        split_ifs
        · rw [← hmem]
          exact hpart.imp_right Or.inr
        · exact Or.inr (Or.inl rfl)
        · exact Or.inl rfl
      · rw [hrun]
        refine (commitLoop_byte sfl sbh blk a fuel block' c' (offset + retlen sfl offset buf.length)
          (buf.drop (retlen sfl offset buf.length)) (by rw [List.length_drop]; omega)).mono fun g hg => ?_
        rw [hall] at hg
        rcases hg with h | h | h
        · rw [h]
          exact hpart.imp_right Or.inr
        · exact Or.inr (Or.inl h)
        · exact Or.inr (Or.inr h)

/-- A buffer inside one block: the block is rewritten, and that is all. -/
theorem sflashCommit_block (sfl : Sflash) (sbh : Sb) (blk : ℕ) (block : Mem) (c : Chip) {offset : ℕ}
    {buf : List UInt8} (hbuf : 0 < buf.length) (hin : offset + buf.length ≤ sfl.size)
    (hblock : offset % sfl.blocksize + buf.length ≤ sfl.blocksize) :
    (sflashCommit sfl sbh blk block c offset buf).1 =
      rewrite (chunk sfl sbh) (blockOf sfl offset) sfl.blocksize (write c.mem offset buf) := by
  obtain ⟨fuel, hfuel⟩ : ∃ k, buf.length = k + 1 := ⟨buf.length - 1, by omega⟩
  have hret : retlen sfl offset buf.length = buf.length := by
    unfold retlen
    omega
  obtain ⟨block', c', -, -, hsteps, -⟩ := commitLoop_pass sfl sbh blk fuel block c hbuf hin
  have hnil : (commitLoop sfl sbh blk fuel block' c' (offset + buf.length) []).1 = [] := by
    cases fuel <;> simp [commitLoop]
  rw [hret, List.take_length, List.drop_length, hnil, List.append_nil] at hsteps
  rw [sflashCommit, if_neg hbuf.ne', if_neg (Nat.not_lt.mpr hin), hfuel, hsteps]

end SerialFlash
end Router
