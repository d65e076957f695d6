/-
# Committing to flash

`nvram_commit` in the kernel: the blocks of the NVRAM partition are read back
as far as they do not belong to the NVRAM, the old magic is cleared, the image
is made, the blocks are erased, the image is written with its magic left at
all ones, and the magic is written last. `nvramCommit` gives the flash
operations this issues, each of them in the order of the source, a failing one
being the last.

Whenever power fails, the NVRAM holds the old image, or has no magic, or holds
the new image and passes the test of `early_nvram_init` (`nvramCommit_crash`).
-/
import RouterFirmware.Lib.Flash
import RouterFirmware.Nvram.Commit

namespace Router
namespace Nvram

open CMem Flash

/-! ### The partition -/

/-- `nvram_mtd`: a partition of whole erase blocks, at least `NVRAM_SPACE` long. -/
structure Mtd where
  size : ℕ
  erasesize : ℕ
  erasesize_pos : 0 < erasesize
  whole : erasesize ∣ size
  space_le : nvramSpace ≤ size

/-- `NVRAM_CLEAR_MAGIC` and `NVRAM_INVALID_MAGIC`. -/
def nvramClearMagic : UInt32 := 0x0
def nvramInvalidMagic : UInt32 := 0xFFFFFFFF

/-- What the calls of one `nvram_commit` answer. -/
structure CommitEnv where
  inInterrupt : Bool
  /-- `kmalloc` of the buffer, and what the buffer held. -/
  kmallocBuf : Bool
  buf : Mem
  readOk : Bool
  clearOk : Bool
  /-- `kmalloc` for the tuples of the rehash. -/
  kmalloc : ℕ → Bool
  /-- `MTD_ERASE` of the `k`-th block. -/
  eraseRet : ℕ → ℤ
  writeOk : Bool
  magicOk : Bool
  /-- The `MTD_READ` at the end. -/
  rereadRet : ℤ

/-- `ROUNDUP(NVRAM_SPACE, nvram_mtd->erasesize)`, the blocks to be erased. -/
def Mtd.backup (mtd : Mtd) : ℕ := roundup nvramSpace mtd.erasesize

/-- Where those blocks start, and where the NVRAM starts in them. -/
def Mtd.offset (mtd : Mtd) : ℕ := mtd.size - mtd.backup
def Mtd.magicOffset (mtd : Mtd) : ℕ := mtd.backup - nvramSpace

/-- `nvram_mtd->size - NVRAM_SPACE`: where the NVRAM is in the partition. -/
def Mtd.nvram (mtd : Mtd) : ℕ := mtd.size - nvramSpace

/-- `header`, as it is handed to `_nvram_commit`. -/
def CommitEnv.header (env : CommitEnv) (mtd : Mtd) : Mem :=
  put32 (fun i => env.buf (mtd.magicOffset + i)) 0 nvramMagic

/-- The image `_nvram_commit` makes. -/
def CommitEnv.image (env : CommitEnv) (mtd : Mtd) (st : Store) : Mem :=
  (_nvramCommit env.kmalloc st (env.header mtd)).2.1

/-- The erase loop, from the `k`-th block at `offset`: what it issues and what
the last `MTD_ERASE` returned. -/
def eraseLoop (mtd : Mtd) (eraseRet : ℕ → ℤ) (limit k offset : ℕ) : List Op × ℤ :=
  if offset < limit then
    if eraseRet k ≠ 0 then ([.erase offset], eraseRet k)
    else
      let r := eraseLoop mtd eraseRet limit (k + 1) (offset + mtd.erasesize)
      (.erase offset :: r.1, r.2)
  else ([], 0)
termination_by limit - offset
decreasing_by
  have := mtd.erasesize_pos
  omega

/-- The bytes written up to the end of the data area: what was read back, and
the image with its magic still at all ones. -/
def commitData (mtd : Mtd) (flash img : Mem) : List UInt8 :=
  bytesAt flash mtd.offset mtd.magicOffset ++
    bytesAt (put32 img 0 nvramInvalidMagic) 0 (le32 img lenAt).toNat

/-- `nvram_commit()`: the store it leaves, the flash operations it issues and
its result (`-ENODEV`, `-EINVAL`, `-ENOMEM` and `-EIO` by their numbers). -/
def nvramCommit (env : CommitEnv) (nvramMtd : Option Mtd) (flash : Mem) (st : Store) :
    Store × List Op × ℤ :=
  match nvramMtd with
  | none => (st, [], -19)
  | some mtd =>
    if env.inInterrupt then (st, [], -22)
    else if !env.kmallocBuf then (st, [], -12)
    else if 0 < mtd.magicOffset ∧ !env.readOk then (st, [], -5)
    else
      let clear := Op.write (mtd.offset + mtd.magicOffset) (bytes32 nvramClearMagic)
      if !env.clearOk then (st, [clear], -5)
      else
        let r := _nvramCommit env.kmalloc st (env.header mtd)
        if r.2.2 ≠ 0 then (r.1, [clear], r.2.2)
        else
          let img := r.2.1
          let e := eraseLoop mtd env.eraseRet
            (mtd.nvram + (le32 img lenAt).toNat) 0 mtd.offset
          if e.2 ≠ 0 then (r.1, clear :: e.1, e.2)
          else
            let body := Op.write mtd.offset (commitData mtd flash img)
            if !env.writeOk then (r.1, clear :: e.1 ++ [body], -5)
            else
              let magic := Op.write (mtd.offset + mtd.magicOffset) (bytes32 nvramMagic)
              (r.1, clear :: e.1 ++ [body, magic], if env.magicOk then env.rereadRet else -5)

/-! ### The arithmetic of the blocks -/

theorem Mtd.offset_add (mtd : Mtd) : mtd.offset + mtd.magicOffset = mtd.nvram ∧
    mtd.backup ≤ mtd.size ∧ mtd.magicOffset < mtd.erasesize := by
  have hpos := mtd.erasesize_pos
  have hle := mtd.space_le
  obtain ⟨n, hn⟩ := mtd.whole
  -- the number of blocks that the NVRAM needs
  have hq : nvramSpace ≤ mtd.backup ∧ mtd.backup < nvramSpace + mtd.erasesize := by
    have h1 := Nat.div_add_mod (nvramSpace + (mtd.erasesize - 1)) mtd.erasesize
    have h2 := Nat.mod_lt (nvramSpace + (mtd.erasesize - 1)) hpos
    rw [Nat.mul_comm] at h1
    unfold Mtd.backup roundup
    omega
  have hsize : mtd.backup ≤ mtd.size := by
    rw [hn, Mtd.backup, roundup, Nat.mul_comm mtd.erasesize]
    refine Nat.mul_le_mul_right _ ?_
    rw [hn, Nat.mul_comm] at hle
    have h3 : (nvramSpace + (mtd.erasesize - 1)) / mtd.erasesize < n + 1 := by
      rw [Nat.div_lt_iff_lt_mul hpos, Nat.add_mul]
      omega
    omega
  unfold Mtd.offset Mtd.magicOffset Mtd.nvram
  omega

/-- The operations of the erase loop erase blocks one after the other. -/
theorem mem_eraseLoop (mtd : Mtd) (eraseRet : ℕ → ℤ) (limit k offset : ℕ) :
    ∀ op ∈ (eraseLoop mtd eraseRet limit k offset).1, ∃ p, op = .erase p := by
  fun_induction eraseLoop mtd eraseRet limit k offset with
  | case1 k offset hlt hret => simp
  | case2 k offset hlt hret r ih =>
    intro op hop
    rcases List.mem_cons.mp hop with rfl | hop
    · exact ⟨offset, rfl⟩
    · exact ih op hop
  | case3 k offset hge => simp

/-- Without a failure the loop leaves everything from `offset` to the limit
erased, and does not touch what is before. -/
theorem runAll_eraseLoop (mtd : Mtd) (eraseRet : ℕ → ℤ) (limit k offset : ℕ)
    (hret : (eraseLoop mtd eraseRet limit k offset).2 = 0) (f : Mem) :
    ∀ i, (runAll mtd.erasesize (eraseLoop mtd eraseRet limit k offset).1 f i = 0xFF ∨
        i < offset ∨ limit ≤ i) ∧
      (i < offset → runAll mtd.erasesize (eraseLoop mtd eraseRet limit k offset).1 f i = f i) ∧
      (f i = 0xFF → runAll mtd.erasesize (eraseLoop mtd eraseRet limit k offset).1 f i = 0xFF) := by
  fun_induction eraseLoop mtd eraseRet limit k offset generalizing f with
  | case1 k offset hlt hne => exact absurd hret hne
  | case2 k offset hlt hne r ih =>
    intro i
    obtain ⟨herased, hbefore, hkeep⟩ := ih hret (eraseBlock mtd.erasesize f offset) i
    show (runAll _ r.1 (eraseBlock mtd.erasesize f offset) i = 0xFF ∨ _) ∧
      (_ → runAll _ r.1 (eraseBlock mtd.erasesize f offset) i = f i) ∧
      (_ → runAll _ r.1 (eraseBlock mtd.erasesize f offset) i = 0xFF)
    refine ⟨?_, fun hi => ?_, fun hi => hkeep ?_⟩
    · rcases herased with h | h | h
      · exact Or.inl h
      · by_cases hin : offset ≤ i
        · refine Or.inl (hkeep ?_)
          simp [eraseBlock, hin, h]
        · exact Or.inr (Or.inl (by omega))
      · exact Or.inr (Or.inr h)
    · rw [hbefore (by omega)]
      simp [eraseBlock, Nat.not_le.mpr hi]
    · unfold eraseBlock
      split_ifs
      · rfl
      · exact hi
  | case3 k offset hge =>
    intro i
    refine ⟨?_, fun _ => rfl, fun hi => hi⟩
    omega

/-! ### What stands at the NVRAM offset -/

/-- A byte that is not the magic's. -/
theorem le32_ne_magic {m : Mem} {p : ℕ} (j : ℕ) (hj : j < 4)
    (h : m (p + j) ≠ (bytes32 nvramMagic).getD j 0) : le32 m p ≠ nvramMagic := by
  intro he
  exact h (byte_of_le32 he hj)

/-- The image as far as its length, wherever it stands, passes the test of
`early_nvram_init`. -/
theorem validHeader_of_image {st : Store} {header f : Mem} {off : ℕ}
    (h : ∀ i < st.imageLen, f (off + i) = commitImage st header i) : validHeader f off = true := by
  obtain ⟨hlow, -, -⟩ := imageLen_bounds st
  have hlen := commitImage_len st header
  have hword : ∀ p, p + 4 ≤ headerSize →
      le32 (fun i => f (off + i)) p = le32 (commitImage st header) p := by
    intro p hp
    exact le32_congr fun i _ hi => h i (by omega)
  have hcrc : nvramCalcCrc (fun i => f (off + i)) = nvramCalcCrc (commitImage st header) := by
    refine nvramCalcCrc_congr (hword _ (by decide)) (by rw [hword _ (by decide)])
      (hword _ (by decide)) (hword _ (by decide)) fun i _ hi => h i ?_
    have hsub : (le32 (commitImage st header) lenAt - 20).toNat = st.imageLen - 20 := by
      rw [UInt32.toNat_sub_of_le _ _ (by
        rw [UInt32.le_iff_toNat_le, hlen]
        simp only [headerSize] at hlow
        show 20 ≤ st.imageLen
        omega), hlen]
      rfl
    rw [hsub] at hi
    simp only [headerSize] at hi hlow
    omega
  unfold validHeader
  simp only [hcrc, hword 0 (by decide), hword crcVerInitAt (by decide), commitImage_magic,
    commitImage_crc, beq_self_eq_true, Bool.and_self]

/-- What the NVRAM may hold after a crash: what it held, no magic, or the
whole new image. -/
def Recovered (mtd : Mtd) (flash img flash' : Mem) : Prop :=
  flash' = flash ∨ le32 flash' mtd.nvram ≠ nvramMagic ∨
    (∀ i < (le32 img lenAt).toNat, flash' (mtd.nvram + i) = img i) ∧
      validHeader flash' mtd.nvram = true

/-! ### The crash points -/

section
variable {mtd : Mtd} {flash flash' : Mem} {st : Store} {header : Mem}

/-- Clearing the magic, whole or torn behind its first byte, takes it away. -/
theorem clear_torn (mtd : Mtd) (flash : Mem) (k : ℕ) : program flash mtd.nvram ((bytes32 nvramClearMagic).take k) = flash ∨
    program flash mtd.nvram ((bytes32 nvramClearMagic).take k) mtd.nvram = 0 := by
  cases k with
  | zero => exact Or.inl (program_nil _ _)
  | succ k =>
    refine Or.inr (program_zero (le_refl _) ?_ ?_)
    · simp [bytes32]
    · rw [Nat.sub_self]
      rfl

/-- While the blocks are erased, there is no magic. -/
theorem erase_crash {eraseRet : ℕ → ℤ} {limit k offset : ℕ} (h0 : flash mtd.nvram = 0)
    (h : Crash mtd.erasesize flash (eraseLoop mtd eraseRet limit k offset).1 flash') :
    le32 flash' mtd.nvram ≠ nvramMagic := by
  have hbyte : flash' mtd.nvram = 0 ∨ flash' mtd.nvram = 0xFF := by
    refine h.inv (P := fun g => g mtd.nvram = 0 ∨ g mtd.nvram = 0xFF) (Or.inl h0) ?_ ?_
    · intro op hop g hg
      obtain ⟨p, rfl⟩ := mem_eraseLoop mtd eraseRet limit k offset op hop
      show eraseBlock mtd.erasesize g p mtd.nvram = 0 ∨ eraseBlock mtd.erasesize g p mtd.nvram = 0xFF
      unfold eraseBlock
      split_ifs
      · exact Or.inr rfl
      · exact hg
    · intro op hop g k' hg
      obtain ⟨p, rfl⟩ := mem_eraseLoop mtd eraseRet limit k offset op hop
      exact hg
  refine le32_ne_magic 0 (by decide) ?_
  rw [Nat.add_zero]
  rcases hbyte with h | h <;> rw [h] <;> decide

theorem length_commitData (img : Mem) : (commitData mtd flash img).length =
    mtd.magicOffset + (le32 img lenAt).toNat := by
  simp [commitData, bytesAt]

/-- The data written at the `i`-th byte of the NVRAM, and before the NVRAM. -/
theorem commitData_getD (mtd : Mtd) (flash img : Mem) {i : ℕ} (hi : i < (le32 img lenAt).toNat) :
    (commitData mtd flash img).getD (mtd.magicOffset + i) 0 = put32 img 0 nvramInvalidMagic i := by
  unfold commitData
  rw [List.getD_append_right _ _ _ _ (by rw [length_bytesAt]; omega)]
  simp [bytesAt, hi]

theorem commitData_before (mtd : Mtd) (flash img : Mem) {i : ℕ} (hi : i < mtd.magicOffset) :
    (commitData mtd flash img).getD i 0 = flash (mtd.offset + i) := by
  unfold commitData
  rw [List.getD_append _ _ _ _ (by rwa [length_bytesAt])]
  simp [bytesAt, hi]

theorem put32_invalid (img : Mem) : put32 img 0 nvramInvalidMagic 0 = 0xFF :=
  byte_of_le32 (le32_put32 img 0 nvramInvalidMagic) (by decide : 0 < 4)

/-- With the magic left at all ones, the body gives no magic, torn or whole. -/
theorem body_torn (img old : Mem) (k : ℕ) (hlen : 0 < (le32 img lenAt).toNat)
    (hones : flash mtd.nvram = 0xFF) :
    program flash mtd.offset ((commitData mtd old img).take k) mtd.nvram = 0xFF := by
  have hoff : mtd.nvram = mtd.offset + mtd.magicOffset := mtd.offset_add.1.symm
  have hbyte : (commitData mtd old img).getD (mtd.nvram - mtd.offset) 0 = 0xFF := by
    have hd := commitData_getD mtd old img hlen
    rw [Nat.add_zero] at hd
    rw [hoff, Nat.add_sub_cancel_left, hd, put32_invalid]
  rw [program_take_ones k hbyte, hones]

/-- The whole body on erased blocks: the image, less its magic. -/
theorem body_done (img old : Mem) {i : ℕ} (hi : i < (le32 img lenAt).toNat)
    (hones : flash (mtd.nvram + i) = 0xFF) :
    program flash mtd.offset (commitData mtd old img) (mtd.nvram + i) =
      put32 img 0 nvramInvalidMagic i := by
  have hoff : mtd.nvram = mtd.offset + mtd.magicOffset := mtd.offset_add.1.symm
  have hidx : mtd.nvram + i - mtd.offset = mtd.magicOffset + i := by omega
  rw [program_of_erased (by omega) (by rw [length_commitData]; omega) hones, hidx,
    commitData_getD mtd old img hi]

/-- Under the body the magic is still erased. -/
theorem magic_erased {img : Mem} {n : ℕ} (hn : 4 ≤ n)
    (hbody : ∀ i < n, flash (mtd.nvram + i) = put32 img 0 nvramInvalidMagic i) {j : ℕ} (hj : j < 4) :
    flash (mtd.nvram + j) = 0xFF := by
  have hw := byte_of_le32 (le32_put32 img 0 nvramInvalidMagic) hj
  rw [Nat.zero_add] at hw
  rw [hbody j (by omega), hw]
  interval_cases j <;> rfl

/-- While the last byte of the magic is not written, there is none. -/
theorem magic_torn {k : ℕ} (hk : k < 4) (h3 : flash (mtd.nvram + 3) = 0xFF) :
    le32 (program flash mtd.nvram ((bytes32 nvramMagic).take k)) mtd.nvram ≠ nvramMagic := by
  refine le32_ne_magic 3 (by decide) ?_
  have hlast : program flash mtd.nvram ((bytes32 nvramMagic).take k) (mtd.nvram + 3) = 0xFF := by
    rw [program_of_out, h3]
    right
    rw [List.length_take, length_bytes32]
    omega
  rw [hlast]
  decide

/-- The magic on top of the body completes the image. -/
theorem magic_done {img : Mem} (hmagic : le32 img 0 = nvramMagic) {n : ℕ} (hn : 4 ≤ n)
    (hbody : ∀ i < n, flash (mtd.nvram + i) = put32 img 0 nvramInvalidMagic i) :
    ∀ i < n, program flash mtd.nvram (bytes32 nvramMagic) (mtd.nvram + i) = img i := by
  intro i hi
  by_cases h4 : i < 4
  · have hb := byte_of_le32 hmagic h4
    rw [Nat.zero_add] at hb
    rw [program_of_erased (by omega) (by rw [length_bytes32]; omega) (magic_erased hn hbody h4),
      Nat.add_sub_cancel_left, hb]
  · rw [program_of_out (Or.inr (by rw [length_bytes32]; omega)), hbody i hi, put32,
      write_of_ge (by rw [length_bytes32]; omega)]

end

/-- The flash operations of a commit of which nothing fails. -/
def commitOps (env : CommitEnv) (mtd : Mtd) (flash : Mem) (st : Store) : List Op :=
  .write (mtd.offset + mtd.magicOffset) (bytes32 nvramClearMagic) ::
    (eraseLoop mtd (fun _ => 0)
      (mtd.nvram + (le32 (env.image mtd st) lenAt).toNat) 0 mtd.offset).1 ++
    [.write mtd.offset (commitData mtd flash (env.image mtd st)),
      .write (mtd.offset + mtd.magicOffset) (bytes32 nvramMagic)]

theorem eraseLoop_ret_zero (mtd : Mtd) (limit k offset : ℕ) :
    (eraseLoop mtd (fun _ => 0) limit k offset).2 = 0 := by
  fun_induction eraseLoop mtd (fun _ => 0) limit k offset with
  | case1 k offset hlt hne => exact absurd rfl hne
  | case2 k offset hlt hne r ih => exact ih
  | case3 k offset hge => rfl

/-- An erase loop that fails has issued the first erases of one that does not. -/
theorem eraseLoop_prefix_ok (mtd : Mtd) (eraseRet : ℕ → ℤ) (limit k offset : ℕ) :
    (eraseLoop mtd eraseRet limit k offset).1 <+: (eraseLoop mtd (fun _ => 0) limit k offset).1 ∧
      ((eraseLoop mtd eraseRet limit k offset).2 = 0 →
        (eraseLoop mtd eraseRet limit k offset).1 =
          (eraseLoop mtd (fun _ => 0) limit k offset).1) := by
  fun_induction eraseLoop mtd eraseRet limit k offset with
  | case1 k offset hlt hne =>
    rw [eraseLoop.eq_def mtd (fun _ => 0), if_pos hlt, if_neg (by simp)]
    exact ⟨by simp, fun h => absurd h hne⟩
  | case2 k offset hlt hne r ih =>
    rw [eraseLoop.eq_def mtd (fun _ => 0), if_pos hlt, if_neg (by simp)]
    refine ⟨List.cons_prefix_cons.mpr ⟨rfl, ih.1⟩, fun h => ?_⟩
    rw [ih.2 h]
  | case3 k offset hge =>
    rw [eraseLoop.eq_def mtd (fun _ => 0), if_neg hge]
    exact ⟨List.nil_prefix, fun _ => rfl⟩

/-- What a commit issues, failing or not, is a first part of `commitOps`; all
of it when it returns 0. -/
theorem nvramCommit_prefix_ops (env : CommitEnv) (mtd : Mtd) (flash : Mem) (st : Store) :
    (nvramCommit env (some mtd) flash st).2.1 <+: commitOps env mtd flash st ∧
      ((nvramCommit env (some mtd) flash st).2.2 = 0 →
        (nvramCommit env (some mtd) flash st).2.1 = commitOps env mtd flash st) := by
  rcases hr : _nvramCommit env.kmalloc st (env.header mtd) with ⟨st', img, ret⟩
  have hmem := _nvramCommit_mem env.kmalloc st (env.header mtd)
  rw [hr, Prod.mk.injEq] at hmem
  have hret : ret = 0 := hmem.2
  have himg : env.image mtd st = img := by rw [CommitEnv.image, hr]
  subst hret
  unfold nvramCommit commitOps
  simp only [hr, himg, ne_eq, not_true_eq_false, if_false]
  obtain ⟨hpre, hall⟩ := eraseLoop_prefix_ok mtd env.eraseRet
    (mtd.nvram + (le32 img lenAt).toNat) 0 mtd.offset
  rcases he : eraseLoop mtd env.eraseRet (mtd.nvram + (le32 img lenAt).toNat) 0 mtd.offset
    with ⟨ops, last⟩
  rw [he] at hpre hall
  generalize (eraseLoop mtd (fun _ => 0) (mtd.nvram + (le32 img lenAt).toNat) 0 mtd.offset).1 = ops₀
    at hpre hall ⊢
  dsimp only at hpre hall ⊢
  by_cases h1 : env.inInterrupt = true
  · rw [if_pos h1]
    exact ⟨List.nil_prefix, fun h => absurd h (by simp)⟩
  rw [if_neg h1]
  by_cases h2 : (!env.kmallocBuf) = true
  · rw [if_pos h2]
    exact ⟨List.nil_prefix, fun h => absurd h (by simp)⟩
  rw [if_neg h2]
  by_cases h3 : 0 < mtd.magicOffset ∧ (!env.readOk) = true
  · rw [if_pos h3]
    exact ⟨List.nil_prefix, fun h => absurd h (by simp)⟩
  rw [if_neg h3]
  by_cases h4 : (!env.clearOk) = true
  · rw [if_pos h4, List.cons_append]
    exact ⟨List.cons_prefix_cons.mpr ⟨rfl, List.nil_prefix⟩, fun h => absurd h (by simp)⟩
  rw [if_neg h4]
  by_cases h5 : last = 0
  · rw [if_neg (not_not.mpr h5), hall h5]
    by_cases h6 : (!env.writeOk) = true
    · rw [if_pos h6]
      refine ⟨?_, fun h => absurd h (by simp)⟩
      rw [List.prefix_append_right_inj]
      exact List.cons_prefix_cons.mpr ⟨rfl, List.nil_prefix⟩
    · rw [if_neg h6]
      exact ⟨List.prefix_rfl, fun _ => rfl⟩
  · rw [if_pos h5, List.cons_append]
    exact ⟨List.cons_prefix_cons.mpr ⟨rfl, hpre.trans (List.prefix_append _ _)⟩,
      fun h => absurd h h5⟩

/-- The last two operations, on blocks that are erased as far as the new image
goes. -/
theorem write_crash {mtd : Mtd} {st : Store} {header old blank flash' : Mem}
    (hones : ∀ i < st.imageLen, blank (mtd.nvram + i) = 0xFF)
    (h : Crash mtd.erasesize blank [.write mtd.offset (commitData mtd old (commitImage st header)),
      .write mtd.nvram (bytes32 nvramMagic)] flash') :
    le32 flash' mtd.nvram ≠ nvramMagic ∨
      (∀ i < st.imageLen, flash' (mtd.nvram + i) = commitImage st header i) := by
  obtain ⟨hlow, -, -⟩ := imageLen_bounds st
  have h20 : headerSize = 20 := rfl
  have hlen := commitImage_len st header
  have hmagic := commitImage_magic st header
  generalize commitImage st header = img at h hlen hmagic
  rw [← hlen] at hones hlow ⊢
  have hnone : ∀ g : Mem, g mtd.nvram = 0xFF → le32 g mtd.nvram ≠ nvramMagic := by
    intro g hg
    refine le32_ne_magic 0 (by decide) ?_
    rw [Nat.add_zero, hg]
    decide
  have hblank := hones 0 (by omega)
  rw [Nat.add_zero] at hblank
  rcases h.of_cons with rfl | ⟨k, rfl⟩ | h
  · exact Or.inl (hnone _ hblank)
  · exact Or.inl (hnone _ (body_torn _ _ k (by omega) hblank))
  -- the body is written, the magic still at all ones
  have hbody : ∀ i < (le32 img lenAt).toNat,
      program blank mtd.offset (commitData mtd old img) (mtd.nvram + i) =
        put32 img 0 nvramInvalidMagic i := fun i hi => body_done _ _ hi (hones i hi)
  rw [Op.run] at h
  generalize program blank mtd.offset (commitData mtd old img) = body at h hbody
  have hlen4 : 4 ≤ (le32 img lenAt).toNat := by omega
  have hdone := magic_done hmagic hlen4 hbody
  rcases h.of_cons with rfl | ⟨k, rfl⟩ | h
  · have h0 := magic_erased hlen4 hbody (by decide : 0 < 4)
    rw [Nat.add_zero] at h0
    exact Or.inl (hnone _ h0)
  · by_cases hk : k < 4
    · exact Or.inl (magic_torn hk (magic_erased hlen4 hbody (by decide)))
    · rw [Op.torn, List.take_of_length_le (by rw [length_bytes32]; omega)]
      exact Or.inr hdone
  · rw [h.of_nil, Op.run]
    exact Or.inr hdone

/-- What `commitOps` leaves in each of its phases. -/
theorem commitOps_crash (env : CommitEnv) (mtd : Mtd) (flash : Mem) (st : Store) {flash' : Mem}
    (h : Crash mtd.erasesize flash (commitOps env mtd flash st) flash') :
    Recovered mtd flash (env.image mtd st) flash' := by
  obtain ⟨header, himg⟩ : ∃ header, env.image mtd st = commitImage st header :=
    ⟨env.header mtd, by rw [CommitEnv.image, _nvramCommit_mem]⟩
  obtain ⟨hnv, -, hmo⟩ := mtd.offset_add
  unfold Recovered
  unfold commitOps at h
  rw [himg, List.cons_append, hnv, commitImage_len] at h
  rw [himg, commitImage_len]
  rcases h.of_cons with rfl | ⟨k, rfl⟩ | h
  · exact Or.inl rfl
  · rcases clear_torn mtd flash k with hc | hc
    · exact Or.inl hc
    · refine Or.inr (Or.inl (le32_ne_magic 0 (by decide) ?_))
      rw [Nat.add_zero, Op.torn, hc]
      decide
  have hcleared : program flash mtd.nvram (bytes32 nvramClearMagic) mtd.nvram = 0 := by
    refine program_zero (le_refl _) (by rw [length_bytes32]; omega) ?_
    rw [Nat.sub_self]
    rfl
  rw [Op.run] at h
  generalize program flash mtd.nvram (bytes32 nvramClearMagic) = cleared at h hcleared
  rcases Crash.append h with h | h
  · exact Or.inr (Or.inl (erase_crash hcleared h))
  have herased := fun i => (runAll_eraseLoop mtd (fun _ => 0) (mtd.nvram + st.imageLen) 0 mtd.offset
    (eraseLoop_ret_zero mtd _ 0 mtd.offset) cleared i).1
  have hones : ∀ i < st.imageLen, runAll mtd.erasesize
      (eraseLoop mtd (fun _ => 0) (mtd.nvram + st.imageLen) 0 mtd.offset).1 cleared
        (mtd.nvram + i) = 0xFF := by
    intro i hi
    rcases herased (mtd.nvram + i) with h | h | h
    · exact h
    · omega
    · omega
  rcases write_crash hones h with hno | hnew
  · exact Or.inr (Or.inl hno)
  · exact Or.inr (Or.inr ⟨hnew, validHeader_of_image hnew⟩)

/-- All of `commitOps` done: the new image stands, and in front of the NVRAM
everything is as it was, read back and written again where it was erased. -/
theorem commitOps_done (env : CommitEnv) (mtd : Mtd) (flash : Mem) (st : Store) :
    (∀ i < (le32 (env.image mtd st) lenAt).toNat,
      runAll mtd.erasesize (commitOps env mtd flash st) flash (mtd.nvram + i) =
        env.image mtd st i) ∧
    ∀ i < mtd.nvram, runAll mtd.erasesize (commitOps env mtd flash st) flash i = flash i := by
  obtain ⟨header, himg⟩ : ∃ header, env.image mtd st = commitImage st header :=
    ⟨env.header mtd, by rw [CommitEnv.image, _nvramCommit_mem]⟩
  obtain ⟨hnv, -, hmo⟩ := mtd.offset_add
  obtain ⟨hlow, -, -⟩ := imageLen_bounds st
  have h20 : headerSize = 20 := rfl
  have hlen := commitImage_len st header
  have hmagic := commitImage_magic st header
  have herased := runAll_eraseLoop mtd (fun _ => 0)
    (mtd.nvram + (le32 (commitImage st header) lenAt).toNat) 0 mtd.offset
    (eraseLoop_ret_zero mtd _ 0 mtd.offset)
    (program flash mtd.nvram (bytes32 nvramClearMagic))
  unfold commitOps
  rw [himg, hnv]
  unfold runAll at herased ⊢
  rw [List.cons_append, List.foldl_cons, List.foldl_append, List.foldl_cons, List.foldl_cons,
    List.foldl_nil]
  simp only [Op.run]
  generalize commitImage st header = img at hlen hmagic herased ⊢
  generalize List.foldl (Op.run mtd.erasesize) (program flash mtd.nvram (bytes32 nvramClearMagic))
    (eraseLoop mtd (fun _ => 0) (mtd.nvram + (le32 img lenAt).toNat) 0 mtd.offset).1 = blank
    at herased ⊢
  have hblank : ∀ i, mtd.offset ≤ i → i < mtd.nvram + (le32 img lenAt).toNat → blank i = 0xFF := by
    intro i h1 h2
    rcases (herased i).1 with h | h | h
    · exact h
    · omega
    · omega
  constructor
  · refine magic_done hmagic (by omega) fun i hi => ?_
    exact body_done img flash hi (hblank _ (by omega) (by omega))
  · intro i hi
    rw [program_of_out (Or.inl hi)]
    by_cases hoff : i < mtd.offset
    · rw [program_of_out (Or.inl hoff), (herased i).2.1 hoff, program_of_out (Or.inl hi)]
    · rw [program_of_erased (by omega) (by rw [length_commitData]; omega)
        (hblank i (by omega) (by omega)), commitData_before mtd flash img (by omega)]
      have hidx : mtd.offset + (i - mtd.offset) = i := by omega
      rw [hidx]

/-- **Power may fail at any point of a commit.** For every flash content, every
erase size, every store and every answer of the calls that the commit makes:
after a crash in the operations it issues, a write torn at any byte, the
flash is the old one, or has no magic at the NVRAM offset, or has there the
whole new image, which passes the test of `early_nvram_init`. And if the
commit returns 0, the new image stands, with everything in front of the NVRAM
as it was. -/
theorem nvramCommit_crash (env : CommitEnv) (mtd : Mtd) (flash : Mem) (st : Store) :
    (∀ flash', Crash mtd.erasesize flash (nvramCommit env (some mtd) flash st).2.1 flash' →
      Recovered mtd flash (env.image mtd st) flash') ∧
    ((nvramCommit env (some mtd) flash st).2.2 = 0 →
      let done := runAll mtd.erasesize (nvramCommit env (some mtd) flash st).2.1 flash
      (∀ i < (le32 (env.image mtd st) lenAt).toNat, done (mtd.nvram + i) = env.image mtd st i) ∧
        ∀ i < mtd.nvram, done i = flash i) := by
  obtain ⟨hpre, hall⟩ := nvramCommit_prefix_ops env mtd flash st
  constructor
  · intro flash' h
    obtain ⟨rest, hrest⟩ := hpre
    apply commitOps_crash
    rw [← hrest]
    exact h.append_right rest
  · intro hret
    rw [hall hret]
    exact commitOps_done env mtd flash st

/-- A partition of one block of 64 KB, blank, and a commit of the empty store
that is not interrupted. -/
theorem nvramCommit_crash_blank :
    let mtd : Mtd := ⟨65536, 65536, by decide, dvd_refl _, by decide⟩
    let env : CommitEnv := ⟨false, true, fun _ => 0, true, true, fun _ => true, fun _ => 0, true,
      true, 0⟩
    let st := Store.empty fun _ => 0
    Recovered mtd (fun _ => 0xFF) (env.image mtd st)
      (runAll mtd.erasesize (nvramCommit env (some mtd) (fun _ => 0xFF) st).2.1 fun _ => 0xFF) := by
  intro mtd env st
  exact (nvramCommit_crash env mtd (fun _ => 0xFF) st).1 _ (Crash.all _ _ _)

end Nvram
end Router
