/-
# The boot loader's parallel flash

`flash_write` programs a buffer word by word, or through the write buffer of
the chips that have one, and `sysFlashErase` erases the blocks of a range,
which `block` finds from the descriptor of the chip. The chips of the `flashes`
table are laid out so that every address is in a block (`block_spec`). Neither
call is seen to fail: the commands, the unlocking and the polling that make up
a step are not covered.
-/
import RouterFirmware.Lib.Steps

namespace Router
namespace Flashutl

open CMem Flash

/-- `flash_type_t`, less `SFLASH`. -/
inductive FlashType
  | old
  | bsc
  | scs
  | amd
  | sst
deriving DecidableEq

/-- `flashutl_cmd->write_buf`. -/
def FlashType.writeBuf : FlashType → ℕ
  | .scs => 0xe8
  | _ => 0x00

/-- `flash_desc_t`, as far as it is read here; `subblocks` has `nsub` blocks,
and their end. -/
structure FlashDesc where
  size : ℕ
  type : FlashType
  bsize : ℕ
  ff : ℕ
  lf : ℕ
  subblocks : List ℕ

def blk8x8k : List ℕ :=
  [0x00000000, 0x00002000, 0x00004000, 0x00006000, 0x00008000, 0x0000a000, 0x0000c000, 0x0000e000,
    0x00010000]

def amd800 : List ℕ :=
  [0x00000000, 0x00004000, 0x0000c000, 0x0000e000, 0x00010000, 0x00012000, 0x00014000, 0x0001c000,
    0x00020000]

def amd4112 : List ℕ := [0x00000000, 0x00008000, 0x0000a000, 0x0000c000, 0x00010000]

def amd2114 : List ℕ := [0x00000000, 0x00004000, 0x00006000, 0x00008000, 0x00010000]

/-- `flashes`, in the order of the source. -/
def flashes : List FlashDesc :=
  [⟨0x0200000, .scs, 0x10000, 0, 31, []⟩,
    ⟨0x0400000, .scs, 0x10000, 0, 63, []⟩,
    ⟨0x0200000, .bsc, 0x10000, 0, 30, blk8x8k⟩,
    ⟨0x0200000, .bsc, 0x10000, 1, 31, blk8x8k⟩,
    ⟨0x0400000, .bsc, 0x10000, 0, 62, blk8x8k⟩,
    ⟨0x0400000, .bsc, 0x10000, 1, 63, blk8x8k⟩,
    ⟨0x0800000, .bsc, 0x10000, 0, 126, blk8x8k⟩,
    ⟨0x0800000, .bsc, 0x10000, 1, 127, blk8x8k⟩,
    ⟨0x0200000, .bsc, 0x10000, 0, 30, blk8x8k⟩,
    ⟨0x0200000, .bsc, 0x10000, 1, 31, blk8x8k⟩,
    ⟨0x0400000, .bsc, 0x10000, 0, 62, blk8x8k⟩,
    ⟨0x0400000, .bsc, 0x10000, 1, 63, blk8x8k⟩,
    ⟨0x0800000, .bsc, 0x10000, 0, 126, blk8x8k⟩,
    ⟨0x0800000, .bsc, 0x10000, 1, 127, blk8x8k⟩,
    ⟨0x0400000, .scs, 0x20000, 0, 31, []⟩,
    ⟨0x0800000, .scs, 0x20000, 0, 63, []⟩,
    ⟨0x0400000, .scs, 0x20000, 0, 31, []⟩,
    ⟨0x0800000, .scs, 0x20000, 0, 63, []⟩,
    ⟨0x1000000, .scs, 0x20000, 0, 127, []⟩,
    ⟨0x0400000, .bsc, 0x10000, 1, 63, blk8x8k⟩,
    ⟨0x0100000, .amd, 0x10000, 0, 13, amd800⟩,
    ⟨0x0100000, .amd, 0x10000, 2, 15, amd800⟩,
    ⟨0x0200000, .amd, 0x10000, 0, 30, amd2114⟩,
    ⟨0x0200000, .amd, 0x10000, 1, 31, amd4112⟩,
    ⟨0x0400000, .amd, 0x10000, 0, 62, blk8x8k⟩,
    ⟨0x0400000, .amd, 0x10000, 1, 63, blk8x8k⟩,
    ⟨0x0400000, .amd, 0x10000, 1, 63, blk8x8k⟩,
    ⟨0x0400000, .amd, 0x10000, 0, 62, blk8x8k⟩,
    ⟨0x0400000, .amd, 0x10000, 1, 63, blk8x8k⟩,
    ⟨0x0400000, .amd, 0x10000, 0, 62, amd4112⟩,
    ⟨0x0400000, .amd, 0x10000, 1, 63, amd2114⟩,
    ⟨0x0400000, .amd, 0x10000, 0, 62, amd4112⟩,
    ⟨0x0400000, .amd, 0x10000, 1, 63, amd2114⟩,
    ⟨0x0400000, .amd, 0x10000, 0, 62, amd4112⟩,
    ⟨0x0400000, .amd, 0x10000, 1, 63, amd2114⟩,
    ⟨0x0400000, .amd, 0x10000, 0, 62, amd4112⟩,
    ⟨0x0400000, .amd, 0x10000, 1, 63, amd2114⟩,
    ⟨0x0400000, .amd, 0x10000, 0, 62, amd4112⟩,
    ⟨0x0400000, .amd, 0x10000, 1, 63, amd2114⟩,
    ⟨0x0400000, .sst, 0x10000, 0, 63, []⟩]

/-- The search for the sub-block of `addr`, the sub-blocks beginning at `sb`. -/
def subBlock (sb addr : ℕ) : List ℕ → Option (ℕ × ℕ)
  | b :: l :: sblocks =>
    if sb + b ≤ addr ∧ addr < sb + l then some (sb + b, sb + l) else subBlock sb addr (l :: sblocks)
  | _ => none

/-- `block`: `BLOCK_BASE` and `BLOCK_LIM` of the block of `addr`. -/
def FlashDesc.block (d : FlashDesc) (addr : ℕ) : ℕ × ℕ :=
  let b := addr / d.bsize
  if d.ff ≤ b ∧ b ≤ d.lf then (b * d.bsize, (b + 1) * d.bsize)
  else (subBlock (if d.ff = 0 then d.bsize * (d.lf + 1) else 0) addr d.subblocks).getD (0, 0)

/-- `WBUFSIZE`. -/
def wbufsize : ℕ := 32

/-- How much `flash_write` programs in one step at `off`: a write buffer, or
`flashutl_wsz` bytes. -/
def FlashDesc.len (d : FlashDesc) (wsz off nbytes : ℕ) : ℕ :=
  if d.type = .scs ∧ d.type.writeBuf ≠ 0 ∧ off &&& (wbufsize - 1) = 0 then min nbytes wbufsize
  else min nbytes wsz

/-- `flash_write`, in its steps. -/
def flashWrite (d : FlashDesc) (wsz off : ℕ) (src : List UInt8) : List Step :=
  if d.size ≤ off then [] else inPieces (d.len wsz) src.length off src

/-- The loop of `sysFlashErase`: its steps, and whether no `flash_eraseblk`
failed. Every block has a byte, so that `fuel` need not exceed `numbytes`. -/
def eraseBlocks (d : FlashDesc) (stop : ℕ) : ℕ → ℕ → List Step × Bool
  | 0, _ => ([], true)
  | fuel + 1, off =>
    if off < stop then
      if d.size ≤ off then ([], false)
      else
        let r := eraseBlocks d stop fuel (d.block off).2
        (.erase (d.block off).1 ((d.block off).2 - (d.block off).1) :: r.1, r.2)
    else ([], true)

/-- `sysFlashErase`. -/
def sysFlashErase (d : FlashDesc) (off numbytes : ℕ) : List Step × Bool :=
  eraseBlocks d (off + numbytes) numbytes off

/-- `sysFlashWrite`, in its steps. -/
def sysFlashWrite (d : FlashDesc) (wsz off : ℕ) (src : List UInt8) : List Step :=
  let r := sysFlashErase d off src.length
  if r.2 then r.1 ++ flashWrite d wsz off src else r.1

/-- A parallel flash of the table, on a bus of one or two bytes. -/
structure Pflash where
  desc : FlashDesc
  known : desc ∈ flashes
  wsz : ℕ
  width : wsz = 1 ∨ wsz = 2

/-! ### Blocks -/

/-- The full blocks and the sub-blocks make up the flash. -/
def FlashDesc.Whole (d : FlashDesc) : Prop :=
  0 < d.bsize ∧ d.subblocks.headD 0 = 0 ∧
    if d.ff = 0 then d.bsize * (d.lf + 1) + d.subblocks.getLastD 0 = d.size
    else d.subblocks.getLastD 0 = d.bsize * d.ff ∧ d.bsize * (d.lf + 1) = d.size

instance (d : FlashDesc) : Decidable d.Whole := inferInstanceAs (Decidable (_ ∧ _ ∧ ite _ _ _))

theorem flashes_whole : ∀ d ∈ flashes, d.Whole ∧ 0x100000 ≤ d.size := by decide

theorem subBlock_spec {sb addr b : ℕ} {sblocks : List ℕ} (h0 : sb + b ≤ addr)
    (h1 : addr < sb + (b :: sblocks).getLastD 0) :
    ∃ r, subBlock sb addr (b :: sblocks) = some r ∧ r.1 ≤ addr ∧ addr < r.2 := by
  induction sblocks generalizing b with
  | nil => exact absurd h1 (by simpa using h0)
  | cons l sblocks ih =>
    unfold subBlock
    split_ifs with h
    · exact ⟨_, rfl, h⟩
    · exact ih (by omega) (by simpa using h1)

/-- An address outside the full blocks is among the sub-blocks, and in one of them. -/
theorem block_sub {d : FlashDesc} (hd : d.Whole) {addr : ℕ} (ha : addr < d.size)
    (hfull : ¬(d.ff ≤ addr / d.bsize ∧ addr / d.bsize ≤ d.lf)) :
    ∃ r, subBlock (if d.ff = 0 then d.bsize * (d.lf + 1) else 0) addr d.subblocks = some r ∧ d.block addr = r ∧
      r.1 ≤ addr ∧ addr < r.2 := by
  obtain ⟨hb, hhead, hsize⟩ := hd
  have hmod := Nat.div_add_mod addr d.bsize
  have hlt := Nat.mod_lt addr hb
  have hsub : (if d.ff = 0 then d.bsize * (d.lf + 1) else 0) ≤ addr ∧
      addr < (if d.ff = 0 then d.bsize * (d.lf + 1) else 0) + d.subblocks.getLastD 0 := by
    split_ifs at hsize ⊢ with h0
    · have hge : d.lf < addr / d.bsize :=
        not_le.mp fun hle => hfull ⟨by rw [h0]; exact Nat.zero_le _, hle⟩
      have : d.bsize * (d.lf + 1) ≤ d.bsize * (addr / d.bsize) := Nat.mul_le_mul_left _ hge
      omega
    · have hlt' : addr / d.bsize < d.lf + 1 := Nat.div_lt_of_lt_mul (by rw [hsize.2]; exact ha)
      have hlow : addr / d.bsize + 1 ≤ d.ff := by omega
      have := Nat.mul_le_mul_left d.bsize hlow
      rw [Nat.mul_succ] at this
      omega
  have hfound : ∃ r, subBlock (if d.ff = 0 then d.bsize * (d.lf + 1) else 0) addr d.subblocks = some r ∧
      r.1 ≤ addr ∧ addr < r.2 := by
    rcases hs : d.subblocks with _ | ⟨b, sblocks⟩
    · rw [hs] at hsub
      simp only [List.getLastD_nil] at hsub
      omega
    · rw [hs] at hsub hhead
      simp only [List.headD_cons] at hhead
      exact subBlock_spec (by omega) hsub.2
  obtain ⟨r, hr, hin⟩ := hfound
  refine ⟨r, hr, ?_, hin⟩
  unfold FlashDesc.block
  rw [if_neg hfull, hr]
  rfl

/-- Every address is in its block. -/
theorem block_spec {d : FlashDesc} (hd : d.Whole) {addr : ℕ} (ha : addr < d.size) :
    (d.block addr).1 ≤ addr ∧ addr < (d.block addr).2 := by
  have hmod := Nat.div_add_mod addr d.bsize
  have hlt := Nat.mod_lt addr hd.1
  by_cases hfull : d.ff ≤ addr / d.bsize ∧ addr / d.bsize ≤ d.lf
  · unfold FlashDesc.block
    rw [if_pos hfull, Nat.add_mul, Nat.one_mul, Nat.mul_comm]
    exact ⟨by omega, by simp only; omega⟩
  · obtain ⟨r, -, hblock, hin⟩ := block_sub hd ha hfull
    rw [hblock]
    exact hin

/-- The blocks of a chip that there are commands for: one behind the other, and no half word reaches out of one. -/
def FlashDesc.Regular (d : FlashDesc) : Prop :=
  d.Whole ∧ d.size < 2 ^ 32 ∧ d.type ≠ .old ∧ 2 ∣ d.bsize ∧ (∀ b ∈ d.subblocks, 2 ∣ b) ∧ d.subblocks.Pairwise (· < ·)

instance (d : FlashDesc) : Decidable d.Regular := inferInstanceAs (Decidable (_ ∧ _ ∧ _ ∧ _ ∧ _ ∧ _))

theorem flashes_regular : ∀ d ∈ flashes, d.Regular := by decide

/-- The sub-block that is found is the one of each of its addresses. -/
theorem subBlock_eq {sb addr : ℕ} {r : ℕ × ℕ} : ∀ {b : ℕ} {sblocks : List ℕ}, (b :: sblocks).Pairwise (· < ·) →
    subBlock sb addr (b :: sblocks) = some r → sb + b ≤ r.1 ∧ r.2 ≤ sb + (b :: sblocks).getLastD 0 ∧
      ∀ j, r.1 ≤ j → j < r.2 → subBlock sb j (b :: sblocks) = some r
  | b, [], _, hr => by cases hr
  | b, l :: sblocks, hsorted, hr => by
    obtain ⟨hfirst, hrest⟩ := List.pairwise_cons.mp hsorted
    have hbl : b < l := hfirst l List.mem_cons_self
    have hlast : l ≤ (l :: sblocks).getLastD 0 := by
      have hmem : (l :: sblocks).getLastD 0 ∈ l :: sblocks := by
        rw [List.getLastD_eq_getLast?, List.getLast?_eq_some_getLast (List.cons_ne_nil _ _)]
        exact List.getLast_mem _
      rcases List.mem_cons.mp hmem with heq | hmem
      · exact heq.ge
      · exact (List.rel_of_pairwise_cons hrest hmem).le
    unfold subBlock at hr
    split_ifs at hr with hin
    · cases hr
      refine ⟨le_rfl, Nat.add_le_add_left hlast _, fun j hj hj' => ?_⟩
      rw [subBlock, if_pos ⟨hj, hj'⟩]
    · obtain ⟨hge, hle, hall⟩ := subBlock_eq hrest hr
      refine ⟨by omega, hle, fun j hj hj' => ?_⟩
      rw [subBlock, if_neg (by omega)]
      exact hall j hj hj'

theorem subBlock_even {sb addr : ℕ} {r : ℕ × ℕ} (hsb : 2 ∣ sb) : ∀ {sblocks : List ℕ}, (∀ b ∈ sblocks, 2 ∣ b) →
    subBlock sb addr sblocks = some r → 2 ∣ r.1 ∧ 2 ∣ r.2
  | [], _, hr => by cases hr
  | [_], _, hr => by cases hr
  | b :: l :: sblocks, heven, hr => by
    unfold subBlock at hr
    split_ifs at hr
    · cases hr
      exact ⟨hsb.add (heven b List.mem_cons_self), hsb.add (heven l (List.mem_cons_of_mem _ List.mem_cons_self))⟩
    · exact subBlock_even hsb (fun b hb => heven b (List.mem_cons_of_mem _ hb)) hr

/-- Its block is the block of each address in it, and its ends are even. -/
theorem block_eq {d : FlashDesc} (hd : d.Regular) {addr : ℕ} (ha : addr < d.size) :
    (∀ j, (d.block addr).1 ≤ j → j < (d.block addr).2 → d.block j = d.block addr) ∧
      2 ∣ (d.block addr).1 ∧ 2 ∣ (d.block addr).2 := by
  obtain ⟨hwhole, -, -, hbsize, heven, hsorted⟩ := hd
  by_cases hfull : d.ff ≤ addr / d.bsize ∧ addr / d.bsize ≤ d.lf
  · have hblock : d.block addr = (addr / d.bsize * d.bsize, (addr / d.bsize + 1) * d.bsize) := by
      unfold FlashDesc.block
      exact if_pos hfull
    rw [hblock]
    refine ⟨fun j hj hj' => ?_, hbsize.mul_left _, hbsize.mul_left _⟩
    have hdiv : j / d.bsize = addr / d.bsize := Nat.div_eq_of_lt_le hj hj'
    unfold FlashDesc.block
    rw [hdiv]
    exact if_pos hfull
  · obtain ⟨r, hr, hblock, hin⟩ := block_sub hwhole ha hfull
    obtain ⟨hb, hhead, hsize⟩ := hwhole
    have hsb : 2 ∣ if d.ff = 0 then d.bsize * (d.lf + 1) else 0 := by
      split_ifs
      · exact hbsize.mul_right _
      · exact dvd_zero 2
    rw [hblock]
    refine ⟨fun j hj hj' => ?_, subBlock_even hsb heven hr⟩
    rcases hs : d.subblocks with _ | ⟨b, sblocks⟩
    · rw [hs] at hr
      cases hr
    · rw [hs] at hr hsorted hsize
      obtain ⟨hge, hle, hall⟩ := subBlock_eq hsorted hr
      -- the sub-blocks are at the end of the flash, or at the start
      have hout : ¬(d.ff ≤ j / d.bsize ∧ j / d.bsize ≤ d.lf) := by
        split_ifs at hsize hge hle with h0
        · have hdiv : d.lf + 1 ≤ j / d.bsize := by
            rw [Nat.le_div_iff_mul_le hb, Nat.mul_comm]
            omega
          omega
        · have hdiv : j / d.bsize < d.ff := by
            apply Nat.div_lt_of_lt_mul
            omega
          omega
      unfold FlashDesc.block
      rw [if_neg hout, hs, hall j hj hj']
      rfl

/-! ### What the steps do -/

theorem len_pos {d : FlashDesc} {wsz : ℕ} (hw : wsz = 1 ∨ wsz = 2) (off nbytes : ℕ) :
    d.len wsz off nbytes ≤ nbytes ∧ (0 < nbytes → 0 < d.len wsz off nbytes) := by
  unfold FlashDesc.len wbufsize
  split_ifs <;> omega

/-- `flash_write` passes through the first bytes of the buffer, on what was there. -/
theorem throughout_flashWrite {P : Mem → Prop} {d : FlashDesc} {wsz off : ℕ}
    (hw : wsz = 1 ∨ wsz = 2) {src : List UInt8} {f : Mem} (hoff : off < d.size)
    (hP : ∀ j ≤ src.length, P (Flash.program f off (src.take j))) :
    Throughout P (flashWrite d wsz off src) f := by
  rw [flashWrite, if_neg (Nat.not_le.mpr hoff)]
  exact throughout_inPieces (fun _ => True) (fun p n => (len_pos hw p n).1) (fun _ _ _ _ _ => trivial) _ _ _ _
    rfl trivial fun j hj _ => hP j hj

theorem runSteps_flashWrite {d : FlashDesc} {wsz off : ℕ} (hw : wsz = 1 ∨ wsz = 2) (src : List UInt8)
    (f : Mem) (hoff : off < d.size) :
    runSteps (flashWrite d wsz off src) f = Flash.program f off src := by
  rw [flashWrite, if_neg (Nat.not_le.mpr hoff)]
  exact runSteps_inPieces (fun p n => (len_pos hw p n).1) (fun p n => (len_pos hw p n).2) _ _ _ _ (le_refl _)

/-- The erase loop succeeds inside the flash, it only erases, and behind it all
of the range holds ones. -/
theorem eraseBlocks_spec {d : FlashDesc} (hd : d.Whole) {stop : ℕ} (hstop : stop ≤ d.size) :
    ∀ fuel off : ℕ, stop ≤ off + fuel →
      (eraseBlocks d stop fuel off).2 = true ∧
      (∀ a ∈ (eraseBlocks d stop fuel off).1, ∃ p n, a = .erase p n) ∧
      ∀ (f : Mem) (i : ℕ), (off ≤ i ∧ i < stop ∨ f i = 0xFF) →
        runSteps (eraseBlocks d stop fuel off).1 f i = 0xFF
  | 0, off, hf => by
    refine ⟨rfl, by simp [eraseBlocks], fun f i hi => ?_⟩
    rcases hi with hi | hi
    · omega
    · exact hi
  | fuel + 1, off, hf => by
    unfold eraseBlocks
    split_ifs with h1 h2
    · omega
    · obtain ⟨hbase, hlim⟩ := block_spec hd (show off < d.size by omega)
      obtain ⟨hok, hers, hones⟩ := eraseBlocks_spec hd hstop fuel (d.block off).2 (by omega)
      refine ⟨hok, ?_, fun f i hi => ?_⟩
      · intro a ha
        rcases List.mem_cons.mp ha with rfl | ha
        · exact ⟨_, _, rfl⟩
        · exact hers a ha
      · rw [runSteps_cons]
        refine hones _ i ?_
        by_cases hin : (d.block off).1 ≤ i ∧ i < (d.block off).2
        · refine Or.inr (if_pos ?_)
          omega
        · rcases hi with hi | hi
          · exact Or.inl (by omega)
          · refine Or.inr ?_
            simp only [Step.run, eraseBlock]
            split_ifs
            · rfl
            · exact hi
    · refine ⟨rfl, by simp, fun f i hi => ?_⟩
      rcases hi with hi | hi
      · omega
      · exact hi

/-- The byte is in a block that has a byte of the range. -/
def Touched (d : FlashDesc) (off stop i : ℕ) : Prop :=
  ∃ j < stop, off ≤ j ∧ (d.block j).1 ≤ i ∧ i < (d.block j).2

instance (d : FlashDesc) (off stop i : ℕ) : Decidable (Touched d off stop i) :=
  inferInstanceAs (Decidable (∃ j, j < stop ∧ _))

theorem not_touched {d : FlashDesc} {off stop : ℕ} (h : stop ≤ off) (i : ℕ) : ¬Touched d off stop i := by
  rintro ⟨j, hj, hj', -⟩
  omega

/-- The block of the first byte, and the blocks behind it. -/
theorem touched_block {d : FlashDesc} (hd : d.Regular) {off stop : ℕ} (hoff : off < stop) (hstop : stop ≤ d.size) (i : ℕ) :
    Touched d off stop i ↔ ((d.block off).1 ≤ i ∧ i < (d.block off).2) ∨ Touched d (d.block off).2 stop i := by
  obtain ⟨hbase, hlim⟩ := block_spec hd.1 (show off < d.size by omega)
  constructor
  · rintro ⟨j, hj, hj', hi⟩
    rcases Nat.lt_or_ge j (d.block off).2 with hin | hout
    · rw [(block_eq hd (by omega)).1 j (by omega) hin] at hi
      exact .inl hi
    · exact .inr ⟨j, hj, hout, hi⟩
  · rintro (hi | ⟨j, hj, hj', hi⟩)
    · exact ⟨off, hoff, le_rfl, hi⟩
    · exact ⟨j, hj, by omega, hi⟩

/-- A flash with ones in the blocks of a range. -/
def erased (d : FlashDesc) (off stop : ℕ) (f : Mem) : Mem := fun i => if Touched d off stop i then 0xFF else f i

theorem erased_done {d : FlashDesc} {off stop : ℕ} (h : stop ≤ off) (f : Mem) : erased d off stop f = f := by
  funext i
  exact if_neg (not_touched h i)

theorem erased_block {d : FlashDesc} (hd : d.Regular) {off stop : ℕ} (hoff : off < stop) (hstop : stop ≤ d.size) (f : Mem) :
    erased d (d.block off).2 stop (eraseBlock ((d.block off).2 - (d.block off).1) f (d.block off).1) =
      erased d off stop f := by
  obtain ⟨hbase, hlim⟩ := block_spec hd.1 (show off < d.size by omega)
  have hends : (d.block off).1 + ((d.block off).2 - (d.block off).1) = (d.block off).2 := by omega
  funext i
  simp only [erased, touched_block hd hoff hstop, eraseBlock, hends]
  by_cases hin : (d.block off).1 ≤ i ∧ i < (d.block off).2
  · simp only [hin, and_self, if_true, true_or, ite_self]
  · simp only [hin, if_false, false_or]

/-- All of a block is erased if a byte of it is in the range. -/
theorem runSteps_eraseBlocks {d : FlashDesc} (hd : d.Regular) {stop : ℕ} (hstop : stop ≤ d.size) :
    ∀ (fuel off : ℕ) (f : Mem), stop ≤ off + fuel →
      runSteps (eraseBlocks d stop fuel off).1 f = erased d off stop f
  | 0, off, f, hf => (erased_done hf f).symm
  | fuel + 1, off, f, hf => by
    unfold eraseBlocks
    split_ifs with h1 h2
    · omega
    · obtain ⟨hbase, hlim⟩ := block_spec hd.1 (show off < d.size by omega)
      rw [runSteps_cons, runSteps_eraseBlocks hd hstop fuel _ _ (by omega)]
      exact erased_block hd h1 hstop f
    · exact (erased_done (Nat.le_of_not_lt h1) f).symm

/-- Erasing leaves a byte what it was, or ones. -/
theorem throughout_erases {steps : List Step} (hs : ∀ a ∈ steps, ∃ p n, a = .erase p n) (f : Mem)
    (i : ℕ) : Throughout (fun g => g i = f i ∨ g i = 0xFF) steps f := by
  refine Throughout.of_inv (Or.inl rfl) fun a ha g hg => ?_
  obtain ⟨p, n, rfl⟩ := hs a ha
  simp only [Step.run, eraseBlock]
  split_ifs
  · exact Or.inr rfl
  · exact hg

end Flashutl
end Router
