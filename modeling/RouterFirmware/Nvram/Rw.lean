/-
# Committing without the kernel

`nvram_commit` of the boot loader writes the flash itself, in three writes: a
cleared magic, the image with an invalid magic, and the valid magic. Power can
fail between any two of the steps these come to. `Survives` is what the boot
needs of the flash then, `find_nvram` looking at nothing but the magic
(`findNvram_congr`): no magic, or the old image, or the new one.

A parallel flash programs the four bytes of the magic and touches nothing else,
and a block of an Atmel chip is one page: they survive. On an ST chip the last
write erases the block again, and programs the magic before the rest of the
image (`commit_survives_iff`).

Not covered: `cfe_open` and `cfe_writeblk`, which the boot loader proper has in
the place of the three writes.
-/
import RouterFirmware.Nvram.Flash
import RouterFirmware.Nvram.Flashutl
import RouterFirmware.Sflash.Commit

namespace Router
namespace NvramRw

open CMem Flash Nvram Flashutl SerialFlash

/-! ### The flash -/

/-- A serial flash that `sflash_init` has found, on its board. -/
structure Serial where
  sfl : Sflash
  sbh : Sb
  type : SerialFlash.FlashType
  id : ℕ
  id2 : ℕ
  found : sflashInit type id id2 = some sfl

/-- What `sysFlashInit` selects. -/
inductive Board
  | parallel (p : Pflash)
  | serial (s : Serial)

/-- `flashutl_desc->size`. -/
def Board.size : Board → ℕ
  | .parallel p => p.desc.size
  | .serial s => s.sfl.size

/-- Where the NVRAM is. -/
def Board.off (b : Board) : ℕ := b.size - nvramSpace

/-- What the calls of one `nvram_commit` answer: `MALLOC` of the header, with
what it held, `MALLOC` of the tuples in the rehash, `sysFlashInit`, and
`MALLOC` in `sflash_commit`, by its address and what it held. -/
structure Env where
  header : Option Mem
  kmalloc : ℕ → Bool
  flashInit : Bool
  blk : ℕ
  block : Mem

/-- `nvWriteChars`: its steps, and the flash behind them. -/
def Board.nvWriteChars (b : Board) (env : Env) (c : Chip) (data : List UInt8) : List Step × Chip :=
  match b with
  | .serial s => sflashCommit s.sfl s.sbh env.blk env.block c b.off data
  | .parallel p =>
    let steps := flashWrite p.desc p.wsz b.off data
    (steps, ⟨runSteps steps c.mem, c.buf1⟩)

/-- `nvWrite`, by `sysFlashWrite`. -/
def Board.nvWrite (b : Board) (env : Env) (c : Chip) (data : List UInt8) : List Step × Chip :=
  match b with
  | .serial s => sflashCommit s.sfl s.sbh env.blk env.block c b.off data
  | .parallel p =>
    let steps := sysFlashWrite p.desc p.wsz b.off data
    (steps, ⟨runSteps steps c.mem, c.buf1⟩)

/-- The three writes of the image `img`. -/
def Board.writes (b : Board) (env : Env) (c : Chip) (img : Mem) : List Step :=
  let clear := b.nvWriteChars env c (bytes32 nvramClearMagic)
  let body := b.nvWrite env clear.2 (bytesAt (put32 img 0 nvramInvalidMagic) 0 nvramSpace)
  let magic := b.nvWriteChars env body.2 (bytes32 nvramMagic)
  clear.1 ++ (body.1 ++ magic.1)

/-- `nvram_commit`: the store it leaves, the steps it issues and its result.
The words are little-endian as they are. -/
def nvramCommit (b : Board) (env : Env) (c : Chip) (st : Store) : Store × List Step × ℤ :=
  match env.header with
  | none => (st, [], -12)
  | some header =>
    let r := _nvramCommit env.kmalloc st header
    if r.2.2 ≠ 0 then (r.1, [], r.2.2)
    else if env.flashInit then (r.1, b.writes env c r.2.1, r.2.2)
    else (r.1, [], r.2.2)

/-- `find_nvram`, in a flash of at most `lim` bytes: where it takes the header
from, the embedded ones last. -/
def findNvram (flash : Mem) (lim : ℕ) (embonly : Bool) : Option ℕ :=
  ((if embonly then [] else probeOffsets lim) ++ [4 * 1024, 1024]).find? fun off =>
    le32 flash off == nvramMagic

/-! ### What the boot needs -/

/-- The NVRAM area of `g` has no magic, or is what `f` held, or is the image. -/
def Board.Survives (b : Board) (f img g : Mem) : Prop :=
  le32 g b.off ≠ nvramMagic ∨ (∀ i < nvramSpace, g (b.off + i) = f (b.off + i)) ∨
    ∀ i < nvramSpace, g (b.off + i) = img i

/-- Power may fail between any two steps of a commit. -/
def Board.CommitSurvives (b : Board) (env : Env) (c : Chip) (st : Store) : Prop :=
  ∀ header, env.header = some header →
    Throughout (b.Survives c.mem (commitImage st header)) (nvramCommit b env c st).2.1 c.mem

/-- The flashes that survive: the parallel ones, the Atmel ones, and of the
others one with page programs that holds already what the last write passes
through, the first page of the image followed by ones, and only if the image
has nothing but ones between its first page and its last. -/
def Board.Sound (b : Board) (f img : Mem) : Prop :=
  match b with
  | .parallel _ => True
  | .serial s => s.sfl.type = .sflashAt ∨ s.sbh.holdsCs = true ∧
      (∀ i < nvramSpace, f (b.off + i) = if i < 256 then img i else 0xFF) ∧
      ∀ i, 256 ≤ i → i < nvramSpace - 256 → img i = 0xFF

section Survives

variable {b : Board} {f img g : Mem}

theorem Board.survives_self (b : Board) (f img : Mem) : b.Survives f img f := Or.inr (Or.inl fun _ _ => rfl)

/-- The first byte of the magic is cleared or erased. -/
theorem Board.survives_of_first (h : g b.off = 0 ∨ g b.off = 0xFF) : b.Survives f img g := by
  refine Or.inl (le32_ne_magic 0 (by decide) ?_)
  rw [Nat.add_zero]
  rcases h with h | h <;> rw [h] <;> decide

/-- The last byte of the magic is erased. -/
theorem Board.survives_of_last (h : g (b.off + 3) = 0xFF) : b.Survives f img g := by
  refine Or.inl (le32_ne_magic 3 (by decide) ?_)
  rw [h]
  decide

end Survives

/-- The last two bytes of an image are zero. -/
theorem commitImage_zero (st : Store) (header : Mem) {i : ℕ} (h1 : nvramSpace - 2 ≤ i)
    (h2 : i < nvramSpace) : commitImage st header i = 0 := by
  obtain ⟨h3, h4, -⟩ := commitImage_end st header
  have : i = imageEnd ∨ i = imageEnd + 1 := by
    simp only [imageEnd, nvramSpace] at h1 h2 ⊢
    omega
  rcases this with rfl | rfl
  · exact h3
  · exact h4

/-- The image with the invalid magic begins with ones, and is the image behind
the magic. -/
theorem invalid_getD (img : Mem) (i : ℕ) (hi : i < nvramSpace) :
    (bytesAt (put32 img 0 nvramInvalidMagic) 0 nvramSpace).getD i 0 = if i < 4 then 0xFF else img i := by
  rw [List.getD_eq_getElem _ _ (by simpa [bytesAt] using hi)]
  simp only [bytesAt, List.getElem_map, List.getElem_range, Nat.zero_add]
  split_ifs with h4
  · have hb := byte_of_le32 (le32_put32 img 0 nvramInvalidMagic) h4
    rw [Nat.zero_add] at hb
    rw [hb]
    interval_cases i <;> rfl
  · exact write_of_ge (by rw [length_bytes32]; omega)

/-- The magic over the image that lacks it gives the image. -/
theorem magic_getD {img : Mem} (hmagic : le32 img 0 = nvramMagic) {i : ℕ} (hi : i < 4) :
    (bytes32 nvramMagic).getD i 0 = img i := by
  have := byte_of_le32 hmagic hi
  rw [Nat.zero_add] at this
  exact this.symm

/-! ### The parallel flash -/

theorem parallel_geometry (p : Pflash) : (Board.parallel p).off + nvramSpace = p.desc.size ∧
    p.desc.Whole := by
  obtain ⟨hwhole, hsize⟩ := flashes_whole p.desc p.known
  refine ⟨Nat.sub_add_cancel (le_trans ?_ hsize), hwhole⟩
  decide

/-- `nvWrite` erases the NVRAM and programs it; the first byte, left at ones by
the buffer, is never anything but what it was, or ones. -/
theorem parallel_nvWrite {P : Mem → Prop} (p : Pflash) {data : List UInt8} {f : Mem}
    (hdata : data.length = nvramSpace) (hfirst : data.getD 0 0 = 0xFF)
    (hP : ∀ g, g (Board.parallel p).off = f (Board.parallel p).off ∨
      g (Board.parallel p).off = 0xFF → P g) :
    Throughout P (sysFlashWrite p.desc p.wsz (Board.parallel p).off data) f ∧
    ∀ i < nvramSpace, runSteps (sysFlashWrite p.desc p.wsz (Board.parallel p).off data) f
      ((Board.parallel p).off + i) = data.getD i 0 := by
  obtain ⟨hsize, hwhole⟩ := parallel_geometry p
  set off := (Board.parallel p).off
  have hS : 0 < nvramSpace := by decide
  obtain ⟨hok, hers, hones⟩ := eraseBlocks_spec hwhole (le_of_eq hsize) nvramSpace off (le_refl _)
  have herased : ∀ i < nvramSpace,
      runSteps (eraseBlocks p.desc (off + nvramSpace) nvramSpace off).1 f (off + i) = 0xFF :=
    fun i hi => hones f (off + i) (Or.inl ⟨by omega, by omega⟩)
  have hfirst' : runSteps (eraseBlocks p.desc (off + nvramSpace) nvramSpace off).1 f off = 0xFF := by
    simpa using herased 0 hS
  simp only [sysFlashWrite, sysFlashErase, hdata, hok, if_true]
  refine ⟨throughout_append.mpr ⟨(throughout_erases hers f off).mono hP, ?_⟩, fun i hi => ?_⟩
  · refine throughout_flashWrite p.width (by omega) fun j _ => hP _ (Or.inr ?_)
    rw [program_take_ones j (by simpa using hfirst), hfirst']
  · rw [runSteps_append, runSteps_flashWrite p.width _ _ (by omega),
      program_of_erased (by omega) (by omega) (herased i hi), Nat.add_sub_cancel_left]

/-- **A parallel flash survives.** -/
theorem parallel_survives (p : Pflash) (env : Env) (c : Chip) {img : Mem} (hmagic : le32 img 0 = nvramMagic) :
    Throughout ((Board.parallel p).Survives c.mem img) ((Board.parallel p).writes env c img) c.mem := by
  obtain ⟨hsize, -⟩ := parallel_geometry p
  have hS : 4 < nvramSpace := by decide
  simp only [Board.writes, Board.nvWriteChars, Board.nvWrite]
  set off := (Board.parallel p).off with hoff
  set data := bytesAt (put32 img 0 nvramInvalidMagic) 0 nvramSpace with hdata
  have hlen : data.length = nvramSpace := by simp [hdata, bytesAt]
  have hclear := runSteps_flashWrite p.width (bytes32 nvramClearMagic) c.mem (show off < p.desc.size by omega)
  have hfirst : runSteps (flashWrite p.desc p.wsz off (bytes32 nvramClearMagic)) c.mem off = 0 := by
    rw [hclear]
    refine program_zero (le_refl _) (by rw [length_bytes32]; omega) ?_
    rw [Nat.sub_self]
    rfl
  have hd0 : data.getD 0 0 = 0xFF := (invalid_getD img 0 (by omega)).trans (if_pos (by omega))
  obtain ⟨hbody, harea⟩ := parallel_nvWrite p (P := (Board.parallel p).Survives c.mem img)
    (f := runSteps (flashWrite p.desc p.wsz off (bytes32 nvramClearMagic)) c.mem) hlen hd0 fun g hg =>
      Board.survives_of_first (hg.imp_left fun h => h.trans hfirst)
  refine throughout_append.mpr ⟨?_, throughout_append.mpr ⟨hbody, ?_⟩⟩
  · -- the magic is cleared byte by byte
    refine throughout_flashWrite p.width (by omega) fun j hj => ?_
    rcases Nat.eq_zero_or_pos j with rfl | hpos
    · rw [List.take_zero, program_nil]
      exact Board.survives_self _ _ _
    · refine Board.survives_of_first (Or.inl (program_zero (le_refl _) ?_ ?_))
      · rw [List.length_take, length_bytes32]
        omega
      · obtain ⟨k, rfl⟩ : ∃ k, j = k + 1 := ⟨j - 1, by omega⟩
        rw [Nat.sub_self]
        rfl
  · -- the magic is set, and complete with its last byte
    refine throughout_flashWrite p.width (by omega) fun j hj => ?_
    rw [length_bytes32] at hj
    have hmag : ∀ i < 4, runSteps (sysFlashWrite p.desc p.wsz off data)
        (runSteps (flashWrite p.desc p.wsz off (bytes32 nvramClearMagic)) c.mem) (off + i) = 0xFF := by
      intro i hi
      rw [harea i (by omega), invalid_getD img i (by omega), if_pos hi]
    rcases Nat.lt_or_ge j 4 with hlt | hge
    · refine Board.survives_of_last ?_
      rw [program_of_out, hmag 3 (by decide)]
      right
      rw [List.length_take, length_bytes32]
      omega
    · refine Or.inr (Or.inr fun i hi => ?_)
      rw [List.take_of_length_le (by rw [length_bytes32]; omega)]
      by_cases h4 : i < 4
      · rw [program_of_erased (by omega) (by rw [length_bytes32]; omega) (hmag i h4),
          Nat.add_sub_cancel_left, magic_getD hmagic h4]
      · rw [program_of_out (Or.inr (by rw [length_bytes32]; omega)), harea i hi, invalid_getD img i hi,
          if_neg h4]

/-! ### The serial flash -/

/-- Where the NVRAM lies in its block: in the second half of the last block of
an ST chip, at the start of a block of an Atmel chip. -/
theorem serial_block (s : Serial) : (Board.serial s).off + nvramSpace = s.sfl.size ∧
    (s.sfl.type = .sflashSt ∧ s.sfl.blocksize = 0x10000 ∧ (Board.serial s).off % 0x10000 = 0x8000 ∨
      s.sfl.type = .sflashAt ∧ s.sfl.blocksize ∣ nvramSpace ∧ s.sfl.blocksize ∣ (Board.serial s).off) := by
  obtain ⟨hsize, hgeo⟩ := sflashInit_found s.found
  have hoff : (Board.serial s).off + nvramSpace = s.sfl.size :=
    Nat.sub_add_cancel (le_trans (by decide) hsize)
  have h400 : 0x400 ∣ nvramSpace := by decide
  refine ⟨hoff, hgeo.imp (fun h => ⟨h.1, h.2, ?_⟩) fun h => ⟨h.1, h.2.trans h400, ?_⟩⟩
  · have hdvd : 0x10000 ∣ s.sfl.size := by
      rw [← h.2]
      exact Dvd.intro _ rfl
    simp only [nvramSpace] at hoff
    omega
  · exact (Nat.dvd_add_left (h.2.trans h400)).mp (by rw [hoff]; exact Dvd.intro _ rfl)

theorem sflashCommit_spec (sfl : Sflash) (sbh : Sb) (blk : ℕ) (block : Mem) (c : Chip) {offset : ℕ}
    {buf : List UInt8} (hbuf : 0 < buf.length) (hin : offset + buf.length ≤ sfl.size) :
    (sflashCommit sfl sbh blk block c offset buf).2.mem = write c.mem offset buf ∧
    runSteps (sflashCommit sfl sbh blk block c offset buf).1 c.mem = write c.mem offset buf ∧
    ∀ a, Throughout (fun g => g a = c.mem a ∨ g a = 0xFF ∨ g a = write c.mem offset buf a)
      (sflashCommit sfl sbh blk block c offset buf).1 c.mem := by
  rw [sflashCommit, if_neg hbuf.ne', if_neg (Nat.not_lt.mpr hin)]
  obtain ⟨h1, h2⟩ := commitLoop_mem sfl sbh blk _ block c offset buf (le_refl _) hin
  exact ⟨h1, h2, fun a => commitLoop_byte sfl sbh blk a _ block c offset buf hin⟩

/-- The content the last write starts from, and the one it makes. -/
def bodyMem (f : Mem) (off : ℕ) (img : Mem) : Mem :=
  write (write f off (bytes32 nvramClearMagic)) off
    (bytesAt (put32 img 0 nvramInvalidMagic) 0 nvramSpace)

theorem bodyMem_area (f : Mem) (off : ℕ) (img : Mem) {i : ℕ} (hi : i < nvramSpace) :
    bodyMem f off img (off + i) = if i < 4 then 0xFF else img i := by
  rw [bodyMem, write, if_pos ⟨by omega, by rw [length_bytesAt]; omega⟩, Nat.add_sub_cancel_left,
    invalid_getD img i hi]

theorem magicMem_area {f img : Mem} (off : ℕ) (hmagic : le32 img 0 = nvramMagic) {i : ℕ}
    (hi : i < nvramSpace) : write (bodyMem f off img) off (bytes32 nvramMagic) (off + i) = img i := by
  by_cases h4 : i < 4
  · rw [write, if_pos ⟨by omega, by rw [length_bytes32]; omega⟩, Nat.add_sub_cancel_left,
      magic_getD hmagic h4]
  · rw [write_of_ge (by rw [length_bytes32]; omega), bodyMem_area f off img hi, if_neg h4]

/-- The last write of a serial flash rewrites the block where the NVRAM begins;
before it, there is no magic but the old one. -/
theorem serial_survives_iff (s : Serial) (env : Env) (c : Chip) (img : Mem) :
    Throughout ((Board.serial s).Survives c.mem img) ((Board.serial s).writes env c img) c.mem ↔
      Throughout ((Board.serial s).Survives c.mem img)
        (rewrite (chunk s.sfl s.sbh) (blockOf s.sfl (Board.serial s).off) s.sfl.blocksize
          (write (bodyMem c.mem (Board.serial s).off img) (Board.serial s).off (bytes32 nvramMagic)))
        (bodyMem c.mem (Board.serial s).off img) := by
  obtain ⟨hsize, hgeo⟩ := serial_block s
  have hS : 4 ≤ nvramSpace := by decide
  simp only [Board.writes, Board.nvWriteChars, Board.nvWrite]
  set off := (Board.serial s).off with hoff
  have hmod : off % s.sfl.blocksize + 4 ≤ s.sfl.blocksize := by
    rcases hgeo with ⟨-, hbs, hmod⟩ | ⟨-, -, hdvd⟩
    · rw [hbs, hmod]
      decide
    · have := Nat.le_of_dvd s.sfl.blocksize_pos s.sfl.dvd_blocksize
      rw [Nat.mod_eq_zero_of_dvd hdvd]
      omega
  have h4 : ∀ v, off + (bytes32 v).length ≤ s.sfl.size := fun v => by
    rw [length_bytes32]
    omega
  have hp4 : ∀ v, 0 < (bytes32 v).length := fun v => by
    rw [length_bytes32]
    decide
  set data := bytesAt (put32 img 0 nvramInvalidMagic) 0 nvramSpace with hdata
  have hlen : data.length = nvramSpace := by simp [hdata, bytesAt]
  set clear := sflashCommit s.sfl s.sbh env.blk env.block c off (bytes32 nvramClearMagic) with hclear
  obtain ⟨hmem1, hrun1, -⟩ := sflashCommit_spec s.sfl s.sbh env.blk env.block c (hp4 nvramClearMagic)
    (h4 nvramClearMagic)
  set body := sflashCommit s.sfl s.sbh env.blk env.block clear.2 off data with hbody
  obtain ⟨hmem2, hrun2, hbyte2⟩ := sflashCommit_spec s.sfl s.sbh env.blk env.block clear.2
    (show 0 < data.length by omega) (show off + data.length ≤ s.sfl.size by omega)
  have hbodyMem : body.2.mem = bodyMem c.mem off img := by
    rw [hmem2, hmem1]
    rfl
  have hfirst : clear.2.mem off = 0 := by
    rw [hmem1, write, if_pos ⟨le_refl _, by rw [length_bytes32]; omega⟩, Nat.sub_self]
    rfl
  have hclearT : Throughout ((Board.serial s).Survives c.mem img) clear.1 c.mem := by
    rw [hclear, sflashCommit_block s.sfl s.sbh env.blk env.block c (hp4 _) (h4 _)
      (by rw [length_bytes32]; exact hmod)]
    refine throughout_rewrite (fun _ => True) (chunk_le _ _) (fun _ _ _ _ _ => trivial) trivial
      (Board.survives_self _ _ _) fun j _ _ => Board.survives_of_first ?_
    obtain ⟨-, hle, hlt⟩ := blockOf_facts s.sfl off
    rw [← hoff, rewritten, if_pos ⟨hle, hlt⟩]
    split_ifs
    · rw [← hmem1]
      exact Or.inl hfirst
    · exact Or.inr rfl
  have hbodyT : Throughout ((Board.serial s).Survives c.mem img) body.1 clear.2.mem := by
    refine (hbyte2 off).mono fun g hg => Board.survives_of_first ?_
    have hd0 : write clear.2.mem off data off = 0xFF := by
      rw [write, if_pos ⟨le_refl _, by omega⟩, Nat.sub_self, hdata, invalid_getD img 0 (by omega),
        if_pos (by omega)]
    rw [hfirst, hd0] at hg
    rw [← hoff]
    exact hg.imp_right fun h => h.elim id id
  have hmagic := sflashCommit_block s.sfl s.sbh env.blk env.block body.2 (hp4 nvramMagic)
    (h4 nvramMagic) (by rw [length_bytes32]; exact hmod)
  rw [throughout_append, throughout_append, hrun1, ← hmem1, hrun2, ← hmem2, hmagic, hbodyMem]
  exact ⟨fun h => h.2.2, fun h => ⟨hclearT, hbodyT, h⟩⟩

/-- The magic of an image that stands at `off`. -/
theorem le32_image {g img : Mem} {off : ℕ} (hmagic : le32 img 0 = nvramMagic)
    (h : ∀ i < 4, g (off + i) = img i) : le32 g off = nvramMagic := by
  have hcongr : le32 (fun i => g (off + i)) 0 = le32 img 0 := le32_congr fun i _ hi => h i (by omega)
  rw [← hmagic, ← hcongr]
  rfl

/-- Before the last write the last byte of the magic is erased. -/
theorem bodyMem_survives (b : Board) (f img f' : Mem) : b.Survives f' img (bodyMem f b.off img) :=
  Board.survives_of_last ((bodyMem_area f b.off img (by decide)).trans (if_pos (by decide)))

/-- **An Atmel flash survives**: the block with the magic is programmed in one step. -/
theorem atmel_survives (s : Serial) (f f' : Mem) {img : Mem} (hmagic : le32 img 0 = nvramMagic)
    (hat : s.sfl.type = .sflashAt) (hdvd : s.sfl.blocksize ∣ (Board.serial s).off) :
    Throughout ((Board.serial s).Survives f' img)
      (rewrite (chunk s.sfl s.sbh) (blockOf s.sfl (Board.serial s).off) s.sfl.blocksize
        (write (bodyMem f (Board.serial s).off img) (Board.serial s).off (bytes32 nvramMagic)))
      (bodyMem f (Board.serial s).off img) := by
  have hblock : blockOf s.sfl (Board.serial s).off = (Board.serial s).off := by
    rw [blockOf, Nat.mod_eq_zero_of_dvd hdvd, Nat.sub_zero]
  have hbs := Nat.le_of_dvd s.sfl.blocksize_pos s.sfl.dvd_blocksize
  rw [hblock]
  refine throughout_rewrite (s.sfl.blocksize ∣ ·) (chunk_le _ _) (fun q m hm hq hcut => ?_) hdvd
    (bodyMem_survives _ _ _ _) fun j hj hcut => ?_
  · -- what is left is whole blocks
    have hmul : s.sfl.blocksize ∣ m :=
      (Nat.dvd_add_right hcut).mp (by rw [hq]; exact hdvd.add (dvd_refl _))
    have hle := Nat.le_of_dvd hm hmul
    simp only [chunk, grain, hat, Nat.mod_eq_zero_of_dvd hcut, Nat.sub_zero, Nat.min_eq_right hle]
    exact hcut.add (dvd_refl _)
  · have hj' : s.sfl.blocksize ∣ j := (Nat.dvd_add_right hdvd).mp hcut
    rcases Nat.eq_zero_or_pos j with rfl | hpos
    · refine Board.survives_of_last ?_
      rw [rewritten, if_pos (by omega), if_neg (by omega)]
    · have hall : j = s.sfl.blocksize := le_antisymm hj (Nat.le_of_dvd hpos hj')
      refine Or.inr (Or.inr fun i hi => ?_)
      rw [← magicMem_area (f := f) (Board.serial s).off hmagic hi, rewritten]
      split_ifs with h1 h2
      · rfl
      · omega
      · rw [write_of_ge]
        rw [length_bytes32]
        omega

section St

variable {s : Serial} {img : Mem} (f f' : Mem)

/-- The area when `j` bytes of the block are there again. -/
theorem st_area (hbs : s.sfl.blocksize = 0x10000) (hmod : (Board.serial s).off % 0x10000 = 0x8000)
    (hmagic : le32 img 0 = nvramMagic) (j : ℕ) {i : ℕ} (hi : i < nvramSpace) :
    rewritten (bodyMem f (Board.serial s).off img)
        (write (bodyMem f (Board.serial s).off img) (Board.serial s).off (bytes32 nvramMagic))
        (blockOf s.sfl (Board.serial s).off) s.sfl.blocksize j ((Board.serial s).off + i) =
      if 0x8000 + i < j then img i else 0xFF := by
  have hblock : blockOf s.sfl (Board.serial s).off + 0x8000 = (Board.serial s).off := by
    rw [blockOf, hbs, hmod]
    exact Nat.sub_add_cancel (hmod ▸ Nat.mod_le _ _)
  simp only [nvramSpace] at hi
  rw [rewritten, if_pos (by omega), magicMem_area _ hmagic hi]
  exact if_congr (by omega) rfl rfl

/-- With the magic there and the end of the image not, only an old image like
this one survives. -/
theorem st_survives_iff {g : Mem} {j : ℕ} (hmagic : le32 img 0 = nvramMagic)
    (hzero : ∀ i, nvramSpace - 2 ≤ i → i < nvramSpace → img i = 0)
    (hg : ∀ i < nvramSpace, g ((Board.serial s).off + i) = if 0x8000 + i < j then img i else 0xFF)
    (h4 : 0x8004 ≤ j) (hj : j < 0x10000) :
    (Board.serial s).Survives f' img g ↔
      ∀ i < nvramSpace, f' ((Board.serial s).off + i) = if 0x8000 + i < j then img i else 0xFF := by
  constructor
  · rintro (h | h | h) i hi
    · refine absurd (le32_image hmagic fun k hk => ?_) h
      rw [hg k (by simp only [nvramSpace]; omega), if_pos (by omega)]
    · rw [← h i hi, hg i hi]
    · -- the image ends with a zero, which is not there yet
      have hlast := h (nvramSpace - 1) (by decide)
      rw [hg _ (by decide), if_neg (by simp only [nvramSpace]; omega),
        hzero _ (by decide) (by decide)] at hlast
      exact absurd hlast (by decide)
  · intro h
    exact Or.inr (Or.inl fun i hi => (hg i hi).trans (h i hi).symm)

/-- **An ST flash** survives only if it holds what the last write passes through. -/
theorem st_throughout_iff (hst : s.sfl.type = .sflashSt) (hbs : s.sfl.blocksize = 0x10000)
    (hmod : (Board.serial s).off % 0x10000 = 0x8000) (hmagic : le32 img 0 = nvramMagic)
    (hzero : ∀ i, nvramSpace - 2 ≤ i → i < nvramSpace → img i = 0) :
    Throughout ((Board.serial s).Survives f' img)
        (rewrite (chunk s.sfl s.sbh) (blockOf s.sfl (Board.serial s).off) s.sfl.blocksize
          (write (bodyMem f (Board.serial s).off img) (Board.serial s).off (bytes32 nvramMagic)))
        (bodyMem f (Board.serial s).off img) ↔
      s.sbh.holdsCs = true ∧
        (∀ i < nvramSpace, f' ((Board.serial s).off + i) = if i < 256 then img i else 0xFF) ∧
        ∀ i, 256 ≤ i → i < nvramSpace - 256 → img i = 0xFF := by
  have harea := fun j i hi => st_area (s := s) f hbs hmod hmagic j (i := i) hi
  have hiff := fun j h4 hj => st_survives_iff f' hmagic hzero (harea j) h4 hj
  obtain ⟨hdvd, -, -⟩ := blockOf_facts s.sfl (Board.serial s).off
  have h256 : 256 ∣ blockOf s.sfl (Board.serial s).off := s.sfl.dvd_blocksize.trans hdvd
  constructor
  · intro h
    -- the crash with `j` bytes of the block back
    have hcrash : ∀ j, j ≤ s.sfl.blocksize → grain s.sfl s.sbh ∣ blockOf s.sfl (Board.serial s).off + j →
        0x8004 ≤ j → j < 0x10000 → ∀ i < nvramSpace,
          f' ((Board.serial s).off + i) = if 0x8000 + i < j then img i else 0xFF := by
      intro j hj hd h4 hlt
      have hcut : ∀ p n, chunk s.sfl s.sbh p n = min n (grain s.sfl s.sbh - p % grain s.sfl s.sbh) :=
        fun _ _ => rfl
      obtain ⟨k, hk⟩ := rewrite_reach (grain_pos s.sfl s.sbh) hcut (bodyMem f (Board.serial s).off img)
        (write (bodyMem f (Board.serial s).off img) (Board.serial s).off (bytes32 nvramMagic)) hj hd
      refine (hiff j h4 hlt).mp ?_
      rw [← hk]
      exact h k
    rw [hbs] at hcrash
    by_cases hcs : s.sbh.holdsCs = true
    · have hgrain : grain s.sfl s.sbh = 256 := by simp [grain, hst, hcs]
      rw [hgrain] at hcrash
      have hfirst := hcrash 0x8100 (by omega) (h256.add (by decide)) (by omega) (by omega)
      have hlast := hcrash 0xff00 (by omega) (h256.add (by decide)) (by omega) (by omega)
      refine ⟨hcs, fun i hi => ?_, fun i h1 h2 => ?_⟩
      · rw [hfirst i hi]
        exact if_congr (by omega) rfl rfl
      · simp only [nvramSpace] at h2 hfirst hlast
        have hl := hlast i (by omega)
        rw [hfirst i (by omega), if_neg (by omega), if_pos (by omega)] at hl
        exact hl.symm
    · -- byte by byte, the zero before the last shows up on its own
      have hgrain : grain s.sfl s.sbh = 1 := by simp [grain, hst, hcs]
      rw [hgrain] at hcrash
      have hfirst := hcrash 0x8004 (by omega) (one_dvd _) (by omega) (by omega) 0x7ffe (by decide)
      have hlast := hcrash 0xffff (by omega) (one_dvd _) (by omega) (by omega) 0x7ffe (by decide)
      rw [if_neg (by omega)] at hfirst
      rw [hfirst, if_pos (by omega), hzero _ (by decide) (by decide)] at hlast
      exact absurd hlast (by decide)
  · rintro ⟨hcs, hold, hones⟩
    have hgrain : grain s.sfl s.sbh = 256 := by simp [grain, hst, hcs]
    refine throughout_rewrite (256 ∣ ·) (chunk_le _ _) (fun q m hm hq hcut => ?_) h256
      (bodyMem_survives _ _ _ _) fun j hj hcut => ?_
    · have hmul : 256 ∣ m :=
        (Nat.dvd_add_right hcut).mp (by rw [hq]; exact h256.add s.sfl.dvd_blocksize)
      have hle := Nat.le_of_dvd hm hmul
      rw [chunk, hgrain, Nat.mod_eq_zero_of_dvd hcut, Nat.sub_zero, Nat.min_eq_right hle]
      exact hcut.add (dvd_refl _)
    · have hj' : 256 ∣ j := (Nat.dvd_add_right h256).mp hcut
      rw [hbs] at hj
      simp only [nvramSpace] at hold hones harea
      rcases Nat.lt_or_ge j 0x8100 with hlow | hhigh
      · refine Board.survives_of_last ?_
        rw [harea j 3 (by omega), if_neg (by omega)]
      · rcases Nat.lt_or_ge j 0x10000 with hlt | hge
        · refine (hiff j (by omega) hlt).mpr fun i hi => ?_
          simp only [nvramSpace] at hi
          rw [hold i hi]
          by_cases h1 : i < 256
          · rw [if_pos h1, if_pos (by omega)]
          · rw [if_neg h1]
            split_ifs with h2
            · exact (hones i (by omega) (by omega)).symm
            · rfl
        · refine Or.inr (Or.inr fun i hi => ?_)
          simp only [nvramSpace] at hi
          rw [harea j i hi, if_pos (by omega)]

end St

/-! ### The commit -/

theorem writes_survive_iff (b : Board) (env : Env) (c : Chip) {img : Mem}
    (hmagic : le32 img 0 = nvramMagic)
    (hzero : ∀ i, nvramSpace - 2 ≤ i → i < nvramSpace → img i = 0) :
    Throughout (b.Survives c.mem img) (b.writes env c img) c.mem ↔ b.Sound c.mem img := by
  cases b with
  | parallel p => exact ⟨fun _ => trivial, fun _ => parallel_survives p env c hmagic⟩
  | serial s =>
    rw [serial_survives_iff, Board.Sound]
    obtain ⟨-, ⟨hst, hbs, hmod⟩ | ⟨hat, -, hdvd⟩⟩ := serial_block s
    · rw [st_throughout_iff c.mem c.mem hst hbs hmod hmagic hzero]
      exact ⟨Or.inr, fun h => h.resolve_left (by rw [hst]; decide)⟩
    · exact ⟨fun _ => Or.inl hat, fun _ => atmel_survives s c.mem c.mem hmagic hat hdvd⟩

/-- A commit issues the three writes, if it gets so far. -/
theorem nvramCommit_steps (b : Board) (env : Env) (c : Chip) (st : Store) {header : Mem}
    (hh : env.header = some header) : (nvramCommit b env c st).2.1 =
      if env.flashInit = true then b.writes env c (commitImage st header) else [] := by
  have hret := congrArg Prod.snd (_nvramCommit_mem env.kmalloc st header)
  have himg := congrArg Prod.fst (_nvramCommit_mem env.kmalloc st header)
  simp only at hret himg
  simp only [nvramCommit, hh, hret, himg, ne_eq, not_true, if_false]
  split_ifs <;> rfl

/-- **When a commit survives.** Whatever the flash held and whatever the store
holds, power may fail between any two steps of the three writes exactly if the
flash is parallel or from Atmel, but for one old content of an ST flash. -/
theorem commit_survives_iff (b : Board) (env : Env) (c : Chip) (st : Store) :
    b.CommitSurvives env c st ↔ ∀ header, env.header = some header → env.flashInit = true →
      b.Sound c.mem (commitImage st header) := by
  refine forall_congr' fun header => forall_congr' fun hh => ?_
  rw [nvramCommit_steps b env c st hh]
  by_cases hinit : env.flashInit = true
  · rw [if_pos hinit, writes_survive_iff b env c (commitImage_magic st header)
      fun i => commitImage_zero st header]
    exact ⟨fun h _ => h, fun h => h hinit⟩
  · rw [if_neg hinit, throughout_nil]
    exact ⟨fun _ h => absurd h hinit, fun _ => Board.survives_self _ _ _⟩

/-- An ST M25P20 on a board with a new ChipCommon core. -/
def m25p20 : Board := .serial ⟨found .sflashSt 16 4 m25p20_sectors, ⟨0x4712, 20⟩, .sflashSt, 0x11, 0, rfl⟩

/-- Memory for everything, zeros in it. -/
def calm : Env := ⟨some fun _ => 0, fun _ => true, true, 0, fun _ => 0⟩

/-- The first commit to an ST flash of zeros can leave the magic on an image
that is not there. -/
theorem st_torn : ¬ m25p20.CommitSurvives calm ⟨fun _ => 0, fun _ => 0⟩ (Store.empty fun _ => 0) := by
  intro h
  have hthree := h (fun _ => 0) rfl
  rw [nvramCommit_steps m25p20 calm _ _ rfl, if_pos (show calm.flashInit = true from rfl),
    writes_survive_iff m25p20 calm _ (commitImage_magic _ _) fun i => commitImage_zero _ _] at hthree
  rcases hthree with hat | ⟨-, hold, -⟩
  · exact absurd hat (by decide)
  · have h256 := hold 256 (by decide)
    rw [if_neg (by decide)] at h256
    exact absurd h256 (by decide)

end NvramRw
end Router
