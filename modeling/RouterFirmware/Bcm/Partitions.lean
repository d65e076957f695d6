/-
# The partitions of the flash

`init_mtd_partitions` of `arch/mips/brcm-boards/bcm947xx/setup.c`: the flash is searched in steps of 64 KB for a root
file system. A TRX header says where it is, as a distance from the header (`trxhdr.h`), but the search takes the distance
for a position, and takes a step from there. So it goes back when the distance is near 2^32, and may then come back to
the header for ever; and it looks where the root file system is only if its steps lead there (`partitions_iff`).

Positions are numbers of 32 bits. The host is little-endian, as the flash is. A block that is not in the flash is not
read, and the search goes on.
-/
import RouterFirmware.Lib.CMem
import RouterFirmware.Lib.Fuel
import RouterFirmware.Lib.Orbit
import Mathlib.Order.CompletePartialOrder

namespace Router
namespace Bcm
namespace Partitions

open CMem Fuel Orbit

/-! ### `init_mtd_partitions` -/

def TRX_MAGIC : UInt32 := 0x30524448
def ROMSB_WORD0 : UInt32 := 0x6d6f722d
def ROMSB_WORD1 : UInt32 := 0x2d736631
def SQUASHFS_MAGIC : UInt32 := 0x73717368
def CRAMFS_MAGIC : UInt32 := 0x28cd3d45
def MINIX_SUPER_MAGIC : UInt16 := 0x137F
def MINIX_SUPER_MAGIC2 : UInt16 := 0x138F
def EXT2_SUPER_MAGIC : UInt16 := 0xEF53
def BLOCK_SIZE : UInt32 := 1024
def NVRAM_SPACE : UInt32 := 0x8000

/-- `mtd_partition`. -/
structure Part where
  offset : UInt32
  size : UInt32

/-- `bcm947xx_parts`. -/
structure Parts where
  boot : Part
  linux : Part
  rootfs : Part
  nvram : Part

section Code

variable (flash : Mem) (size : UInt32)

/-- `MTD_READ` gives a block of 512 bytes. -/
def readable (off : UInt32) : Bool := off.toNat + 512 ≤ size.toNat

/-- `trx->offsets[i]`. -/
def offsets (off : UInt32) (i : ℕ) : UInt32 := le32 flash (off.toNat + 16 + 4 * i)

/-- `off` and the offset of the partition `linux`. -/
structure Scan where
  off : UInt32
  linux : UInt32

/-- A turn of the loop ends the search (`goto done`), or goes on. -/
inductive Turn where
  | done
  | next (s : Scan)

def turn (s : Scan) : Turn :=
  if !readable size s.off then .next ⟨s.off + 0x10000, s.linux⟩
  else if le32 flash s.off.toNat = TRX_MAGIC then
    if offsets flash s.off 2 > s.off then .next ⟨offsets flash s.off 2 + 0x10000, s.off⟩
    else if offsets flash s.off 1 > s.off then .next ⟨offsets flash s.off 1 + 0x10000, s.off⟩
    else .next ⟨s.off + 0x10000, s.off⟩
  else if le32 flash s.off.toNat = ROMSB_WORD0 ∧ le32 flash (s.off.toNat + 4) = ROMSB_WORD1 then .done
  else if le32 flash s.off.toNat = SQUASHFS_MAGIC then .done
  else if le32 flash s.off.toNat = CRAMFS_MAGIC then .done
  else
    let block := s.off + BLOCK_SIZE
    if !readable size block then .next ⟨s.off + 0x10000, s.linux⟩
    else if le16 flash (block.toNat + 16) = MINIX_SUPER_MAGIC ∨ le16 flash (block.toNat + 16) = MINIX_SUPER_MAGIC2 then
      .done
    else if le16 flash (block.toNat + 56) = EXT2_SUPER_MAGIC then .done
    else .next ⟨s.off + 0x10000, s.linux⟩

/-- The loop, with `n` turns to spend. -/
def scan : ℕ → Scan → Option Scan
  | 0, _ => none
  | n + 1, s =>
    if s.off < size then
      match turn flash size s with
      | .done => some s
      | .next s => scan n s
    else some s

/-- `ROUNDUP(x, y)`. -/
def roundup (x y : UInt32) : UInt32 := (x + (y - 1)) / y * y

/-- From the label `done` on. -/
def parts (erasesize : UInt32) (s : Scan) : Parts :=
  let nvram := size - roundup NVRAM_SPACE erasesize
  { boot := ⟨0, s.linux - 0⟩
    linux := ⟨s.linux, nvram - s.linux⟩
    rootfs := if s.off < size then ⟨s.off, nvram - s.off⟩ else ⟨0, 0⟩
    nvram := ⟨nvram, size - nvram⟩ }

/-- `init_mtd_partitions(mtd, size)`. There is no division by 0. -/
def initMtdPartitions (erasesize : UInt32) (fuel : ℕ) : Option Parts := do
  let s ← scan flash size fuel ⟨0, 0⟩
  if erasesize = 0 then none else some (parts size erasesize s)

end Code

/-! ### What the partitions should be -/

/-- The bytes of a partition. -/
def Part.range (p : Part) : Set ℕ := {i | p.offset.toNat ≤ i ∧ i < p.offset.toNat + p.size.toNat}

/-- The block at a position begins with a TRX header. -/
def Header (flash : Mem) (size off : UInt32) : Prop :=
  readable size off = true ∧ le32 flash off.toNat = TRX_MAGIC

/-- A file system begins at a position: romfs, squashfs or cramfs, or Minix or ext2. -/
def Superblock (flash : Mem) (size off : UInt32) : Prop :=
  readable size off = true ∧
    (le32 flash off.toNat = ROMSB_WORD0 ∧ le32 flash (off.toNat + 4) = ROMSB_WORD1 ∨
      le32 flash off.toNat = SQUASHFS_MAGIC ∨ le32 flash off.toNat = CRAMFS_MAGIC ∨
      readable size (off + BLOCK_SIZE) = true ∧
        (le16 flash ((off + BLOCK_SIZE).toNat + 16) = MINIX_SUPER_MAGIC ∨
          le16 flash ((off + BLOCK_SIZE).toNat + 16) = MINIX_SUPER_MAGIC2 ∨
          le16 flash ((off + BLOCK_SIZE).toNat + 56) = EXT2_SUPER_MAGIC))

/-- `offsets[2]` if it is set, or else `offsets[1]`. -/
def rootfsOffset (flash : Mem) (off : UInt32) : UInt32 :=
  if offsets flash off 2 ≠ 0 then offsets flash off 2 else offsets flash off 1

/-- The flash has a TRX image at a multiple of 64 KB, and its root file system is at `root`. -/
structure Image (flash : Mem) (size off root : UInt32) : Prop where
  boundary : off.toNat % 0x10000 = 0
  header : Header flash size off
  set : rootfsOffset flash off ≠ 0
  located : root.toNat = off.toNat + (rootfsOffset flash off).toNat
  superblock : Superblock flash size root

/-- Three partitions are the flash, and the root file system is in the second one. -/
structure Partitioned (size : UInt32) (ps : Parts) : Prop where
  boot_linux : Disjoint ps.boot.range ps.linux.range
  boot_nvram : Disjoint ps.boot.range ps.nvram.range
  linux_nvram : Disjoint ps.linux.range ps.nvram.range
  cover : ps.boot.range ∪ ps.linux.range ∪ ps.nvram.range = {i | i < size.toNat}
  rootfs : ps.rootfs.range ⊆ ps.linux.range

/-- The search returns, and its partitions are as they should be. -/
def Sound (flash : Mem) (size erasesize : UInt32) : Prop :=
  Returns (initMtdPartitions flash size erasesize) fun ps =>
    Partitioned size ps ∧ ∀ off root, Image flash size off root → ps.rootfs.offset = root

/-! ### Where the headers lead -/

section Path

variable (flash : Mem) (size : UInt32)

instance (off : UInt32) : Decidable (Header flash size off) := inferInstanceAs (Decidable (_ ∧ _))

/-- The next position. -/
def target (off : UInt32) : UInt32 :=
  (if Header flash size off then
    if offsets flash off 2 > off then offsets flash off 2
    else if offsets flash off 1 > off then offsets flash off 1
    else off
  else off) + 0x10000

/-- Nothing follows: the flash ends, or a file system begins. -/
def Stop (off : UInt32) : Prop := ¬off < size ∨ ¬Header flash size off ∧ Superblock flash size off

/-- The `k`-th position from the beginning of the flash. -/
def path (k : ℕ) : UInt32 := (target flash size)^[k] 0

/-- The positions end with the `k`-th one. -/
def Ends (k : ℕ) : Prop := Stops (target flash size) (Stop flash size) 0 k

/-- The last header before the `k`-th position is at the `j`-th one. -/
structure Last (k j : ℕ) : Prop where
  lt : j < k
  header : Header flash size (path flash size j)
  last : ∀ i, j < i → i < k → ¬Header flash size (path flash size i)

/-- What the flash has to be. -/
structure Fits (erasesize : UInt32) : Prop where
  erasable : erasesize ≠ 0
  nvram : roundup NVRAM_SPACE erasesize ≤ size
  /-- The headers do not lead back. -/
  forward : ∀ i j, i < j → (∀ k ≤ j, ¬Stop flash size (path flash size k)) → path flash size i ≠ path flash size j
  /-- The last header is before the NVRAM. -/
  linux : ∀ k j, Ends flash size k → Last flash size k j → path flash size j ≤ size - roundup NVRAM_SPACE erasesize
  /-- A file system that is found is before the NVRAM, and behind the last header. -/
  rootfs : ∀ k, Ends flash size k → path flash size k < size →
    path flash size k ≤ size - roundup NVRAM_SPACE erasesize ∧
      ∀ j, Last flash size k j → path flash size j ≤ path flash size k
  /-- The positions end at the root file system of the image. -/
  image : ∀ off root, Image flash size off root → ∃ k, Ends flash size k ∧ path flash size k = root

end Path

/-! ### A turn -/

section Turn

variable {flash : Mem} {size : UInt32}

theorem turn_header (s : Scan) (h : Header flash size s.off) :
    turn flash size s = .next ⟨target flash size s.off, s.off⟩ := by
  have hread : (!readable size s.off) = false := by rw [h.1, Bool.not_true]
  unfold turn target
  rw [if_neg (by rw [hread]; exact Bool.false_ne_true), if_pos h.2, if_pos h]
  split
  · rfl
  · split <;> rfl

theorem turn_superblock (s : Scan) (hnot : ¬Header flash size s.off) (h : Superblock flash size s.off) :
    turn flash size s = .done := by
  obtain ⟨hread, hsuper⟩ := h
  have hmagic : le32 flash s.off.toNat ≠ TRX_MAGIC := fun hm => hnot ⟨hread, hm⟩
  unfold turn
  rw [if_neg (by simp [hread]), if_neg hmagic]
  rcases hsuper with hromfs | hsquashfs | hcramfs | ⟨hblock, hminix⟩
  · rw [if_pos hromfs]
  · rw [if_pos hsquashfs, ite_self]
  · rw [if_pos hcramfs, ite_self, ite_self]
  · have hlate : (if le16 flash ((s.off + BLOCK_SIZE).toNat + 16) = MINIX_SUPER_MAGIC ∨
        le16 flash ((s.off + BLOCK_SIZE).toNat + 16) = MINIX_SUPER_MAGIC2 then Turn.done
        else if le16 flash ((s.off + BLOCK_SIZE).toNat + 56) = EXT2_SUPER_MAGIC then Turn.done
        else .next ⟨s.off + 0x10000, s.linux⟩) = .done := by
      rcases hminix with h | h | h
      · rw [if_pos (Or.inl h)]
      · rw [if_pos (Or.inr h)]
      · rw [if_pos h, ite_self]
    simp only [hblock, Bool.not_true, Bool.false_eq_true, if_false, hlate, ite_self]

theorem turn_step (s : Scan) (hnot : ¬Header flash size s.off) (h : ¬Superblock flash size s.off) :
    turn flash size s = .next ⟨target flash size s.off, s.linux⟩ := by
  have htarget : target flash size s.off = s.off + 0x10000 := by rw [target, if_neg hnot]
  rw [htarget]
  unfold turn
  split
  · rfl
  · rename_i hread
    have hread : readable size s.off = true := by simpa using hread
    have hmagic : le32 flash s.off.toNat ≠ TRX_MAGIC := fun hm => hnot ⟨hread, hm⟩
    have hno : ∀ {p : Prop}, (p → Superblock flash size s.off) → ¬p := fun hp hq => h (hp hq)
    rw [if_neg hmagic, if_neg (hno fun hq => ⟨hread, Or.inl hq⟩),
      if_neg (hno fun hq => ⟨hread, Or.inr (Or.inl hq)⟩),
      if_neg (hno fun hq => ⟨hread, Or.inr (Or.inr (Or.inl hq))⟩)]
    show (if (!readable size (s.off + BLOCK_SIZE)) = true then _ else _) = _
    split
    · rfl
    · rename_i hblock
      have hblock : readable size (s.off + BLOCK_SIZE) = true := by simpa using hblock
      have hlate : ∀ {p : Prop}, (p → le16 flash ((s.off + BLOCK_SIZE).toNat + 16) = MINIX_SUPER_MAGIC ∨
          le16 flash ((s.off + BLOCK_SIZE).toNat + 16) = MINIX_SUPER_MAGIC2 ∨
          le16 flash ((s.off + BLOCK_SIZE).toNat + 56) = EXT2_SUPER_MAGIC) → ¬p :=
        fun hp => hno fun hq => ⟨hread, Or.inr (Or.inr (Or.inr ⟨hblock, hp hq⟩))⟩
      rw [if_neg (hlate fun hq => hq.elim Or.inl fun hq => Or.inr (Or.inl hq)),
        if_neg (hlate fun hq => Or.inr (Or.inr hq))]

end Turn

/-! ### The search -/

section Search

variable {flash : Mem} {size : UInt32}

/-- What a turn that goes on does. -/
def advance (flash : Mem) (size : UInt32) (s : Scan) : Scan :=
  ⟨target flash size s.off, if Header flash size s.off then s.off else s.linux⟩

theorem turn_advance (s : Scan) (h : ¬Stop flash size s.off) :
    turn flash size s = .next (advance flash size s) := by
  by_cases hheader : Header flash size s.off
  · rw [turn_header s hheader, advance, if_pos hheader]
  · rw [turn_step s hheader fun hsuper => h (Or.inr ⟨hheader, hsuper⟩), advance, if_neg hheader]

theorem advance_off (s : Scan) : (advance flash size s).off = target flash size s.off := rfl

/-- The position of the search. -/
@[simp] theorem off_advance (k : ℕ) (s : Scan) : ((advance flash size)^[k] s).off = (target flash size)^[k] s.off := by
  induction k generalizing s with
  | zero => rfl
  | succ k ih => rw [Function.iterate_succ_apply, Function.iterate_succ_apply, ih, advance_off]

/-- Where the search stops it returns. -/
theorem scan_stop (s : Scan) (h : Stop flash size s.off) (n : ℕ) : scan flash size (n + 1) s = some s := by
  unfold scan
  split
  · rename_i hin
    rcases h with hend | ⟨hnot, hsuper⟩
    · exact absurd hin hend
    · rw [turn_superblock s hnot hsuper]
  · rfl

theorem scan_advance (s : Scan) (h : ¬Stop flash size s.off) (n : ℕ) :
    scan flash size (n + 1) s = scan flash size n (advance flash size s) := by
  have hin : s.off < size := by
    by_contra hout
    exact h (Or.inl hout)
  rw [scan, if_pos hin, turn_advance s h]

theorem scan_open (s : Scan) (k n : ℕ) (h : Open (target flash size) (Stop flash size) s.off k) :
    scan flash size (k + n) s = scan flash size n ((advance flash size)^[k] s) := by
  induction k generalizing s with
  | zero => rw [Nat.zero_add, Function.iterate_zero_apply]
  | succ k ih =>
    have hnext : Open (target flash size) (Stop flash size) (advance flash size s).off k := by
      intro j hj
      rw [advance_off, ← Function.iterate_succ_apply]
      exact h (j + 1) (Nat.succ_lt_succ hj)
    calc scan flash size (k + 1 + n) s
        = scan flash size (k + n + 1) s := by rw [Nat.add_right_comm]
      _ = scan flash size (k + n) (advance flash size s) := scan_advance s (h 0 (Nat.succ_pos k)) _
      _ = scan flash size n ((advance flash size)^[k] (advance flash size s)) :=
          ih _ hnext
      _ = scan flash size n ((advance flash size)^[k + 1] s) := by rw [Function.iterate_succ_apply]

/-- Where the positions end the search returns. -/
theorem scan_ends {k : ℕ} (h : Ends flash size k) (fuel : ℕ) (hfuel : k + 1 ≤ fuel) :
    scan flash size fuel ⟨0, 0⟩ = some ((advance flash size)^[k] ⟨0, 0⟩) := by
  obtain ⟨n, rfl⟩ := Nat.exists_eq_add_of_le hfuel
  rw [Nat.add_assoc, Nat.add_comm 1, scan_open _ k _ h.opened]
  apply scan_stop
  rw [off_advance]
  exact h.stop

/-- Otherwise it does not. -/
theorem scan_endless (h : ¬∃ k, Ends flash size k) (fuel : ℕ) : scan flash size fuel ⟨0, 0⟩ = none :=
  scan_open ⟨0, 0⟩ fuel 0 fun _ _ hk => h (exists_stops hk)

/-- **The search and the positions.** -/
theorem returns_iff (erasesize : UInt32) (P : Parts → Prop) : Returns (initMtdPartitions flash size erasesize) P ↔
    erasesize ≠ 0 ∧ ∃ k, Ends flash size k ∧ P (parts size erasesize ((advance flash size)^[k] ⟨0, 0⟩)) := by
  constructor
  · rintro ⟨ps, hps, n, hn⟩
    have herase : erasesize ≠ 0 := by
      intro hzero
      have hnone : initMtdPartitions flash size erasesize n = none := by
        simp only [initMtdPartitions, if_pos hzero]
        cases scan flash size n ⟨0, 0⟩ <;> rfl
      rw [hn n le_rfl] at hnone
      exact Option.some_ne_none _ hnone
    have hends : ∃ k, Ends flash size k := by
      by_contra hnone
      have hend := hn n le_rfl
      rw [initMtdPartitions, scan_endless hnone] at hend
      exact Option.some_ne_none _ hend.symm
    obtain ⟨k, hk⟩ := hends
    have hresult := hn (max n (k + 1)) (le_max_left n (k + 1))
    simp only [initMtdPartitions, scan_ends hk _ (le_max_right n (k + 1)), if_neg herase] at hresult
    exact ⟨herase, k, hk, Option.some.inj hresult ▸ hps⟩
  · rintro ⟨herase, k, hk, hP⟩
    refine ⟨_, hP, k + 1, fun fuel hfuel => ?_⟩
    simp only [initMtdPartitions, scan_ends hk fuel hfuel, if_neg herase]
    rfl

/-! ### The partition `linux` -/

theorem linux_succ (k : ℕ) (s : Scan) : ((advance flash size)^[k + 1] s).linux =
    if Header flash size ((target flash size)^[k] s.off) then (target flash size)^[k] s.off
    else ((advance flash size)^[k] s).linux := by
  rw [Function.iterate_succ_apply', ← off_advance]
  rfl

/-- It begins at the last header, or at 0. -/
theorem linux_search (k : ℕ) :
    (∃ j, Last flash size k j ∧ ((advance flash size)^[k] ⟨0, 0⟩).linux = path flash size j) ∨
      (∀ j, ¬Last flash size k j) ∧ ((advance flash size)^[k] ⟨0, 0⟩).linux = 0 := by
  induction k with
  | zero => exact Or.inr ⟨fun j hj => absurd hj.lt (Nat.not_lt_zero j), rfl⟩
  | succ k ih =>
    rw [linux_succ]
    by_cases h : Header flash size ((target flash size)^[k] 0)
    · rw [if_pos h]
      exact Or.inl ⟨k, ⟨Nat.lt_succ_self k, h, fun i hi hik => absurd hik (by omega)⟩, rfl⟩
    · rw [if_neg h]
      have hlast : ∀ j, Last flash size (k + 1) j ↔ Last flash size k j := by
        refine fun j => ⟨fun hj => ⟨?_, hj.header, fun i hi hik => hj.last i hi (by omega)⟩,
          fun hj => ⟨Nat.lt_succ_of_lt hj.lt, hj.header, fun i hi hik => ?_⟩⟩
        · rcases Nat.lt_succ_iff_lt_or_eq.mp hj.lt with hlt | heq
          · exact hlt
          · exact absurd (heq ▸ hj.header) h
        · rcases Nat.lt_succ_iff_lt_or_eq.mp hik with hlt | heq
          · exact hj.last i hi hlt
          · exact heq ▸ h
      simp only [hlast]
      exact ih

/-- What holds of the beginning of `linux`. -/
theorem linux_le_iff (k : ℕ) (x : UInt32) : ((advance flash size)^[k] ⟨0, 0⟩).linux ≤ x ↔
    ∀ j, Last flash size k j → path flash size j ≤ x := by
  have hunique : ∀ j j', Last flash size k j → Last flash size k j' → j = j' := by
    intro j j' h h'
    rcases Nat.lt_trichotomy j j' with hlt | heq | hgt
    · exact absurd h'.header (h.last j' hlt h'.lt)
    · exact heq
    · exact absurd h.header (h'.last j hgt h.lt)
  rcases @linux_search flash size k with ⟨j, hj, heq⟩ | ⟨hnone, heq⟩
  · rw [heq]
    exact ⟨fun hle j' hj' => hunique j j' hj hj' ▸ hle, fun h => h j hj⟩
  · rw [heq]
    exact ⟨fun _ j hj => absurd hj (hnone j), fun _ => UInt32.le_iff_toNat_le.mpr (Nat.zero_le _)⟩

end Search

/-! ### The sizes -/

/-- From one number to another, with a carry if the other one is less. -/
theorem range_sub (a b : UInt32) :
    (Part.mk a (b - a)).range = Set.Ico a.toNat (if a ≤ b then b.toNat else b.toNat + 2 ^ 32) := by
  have hend : a.toNat + (b - a).toNat = if a ≤ b then b.toNat else b.toNat + 2 ^ 32 := by
    have ha := a.toNat_lt
    have hb := b.toNat_lt
    rw [UInt32.toNat_sub]
    split
    · rename_i hle
      rw [UInt32.le_iff_toNat_le] at hle
      omega
    · rename_i hgt
      rw [UInt32.le_iff_toNat_le] at hgt
      omega
  rw [← hend]
  rfl

theorem sub_le_iff (a b : UInt32) : a - b ≤ a ↔ b ≤ a := by
  have hb := b.toNat_lt
  rw [UInt32.le_iff_toNat_le, UInt32.le_iff_toNat_le, UInt32.toNat_sub]
  omega

/-- Where three partitions are the flash. -/
theorem partitioned_iff (size erasesize : UInt32) (s : Scan) : Partitioned size (parts size erasesize s) ↔
    roundup NVRAM_SPACE erasesize ≤ size ∧ s.linux ≤ size - roundup NVRAM_SPACE erasesize ∧
      (s.off < size → s.off ≤ size - roundup NVRAM_SPACE erasesize ∧ s.linux ≤ s.off) := by
  rw [← sub_le_iff size]
  set nvram := size - roundup NVRAM_SPACE erasesize with hnvram
  have hsize := size.toNat_lt
  have hlinux := s.linux.toNat_lt
  have hboot : (parts size erasesize s).boot.range = Set.Ico 0 s.linux.toNat := by
    have hzero : (0 : UInt32) ≤ s.linux := UInt32.le_iff_toNat_le.mpr (Nat.zero_le _)
    show (Part.mk 0 (s.linux - 0)).range = _
    rw [range_sub, if_pos hzero]
    rfl
  have hrange : (parts size erasesize s).linux.range = _ := range_sub s.linux nvram
  have hlast : (parts size erasesize s).nvram.range = _ := range_sub nvram size
  have hroot : (parts size erasesize s).rootfs.range =
      if s.off < size then Set.Ico s.off.toNat (if s.off ≤ nvram then nvram.toNat else nvram.toNat + 2 ^ 32)
      else ∅ := by
    show (if s.off < size then Part.mk s.off (nvram - s.off) else ⟨0, 0⟩).range = _
    split
    · exact range_sub _ _
    · ext i
      simp [Part.range]
  constructor
  · intro h
    have hcover := h.cover
    rw [hboot, hrange, hlast] at hcover
    have hin : nvram ≤ size := by
      by_contra hnot
      have hmem : nvram.toNat ∈ {i | i < size.toNat} := by
        rw [← hcover, if_neg hnot]
        exact Or.inr ⟨le_rfl, lt_of_lt_of_le nvram.toNat_lt (Nat.le_add_left _ _)⟩
      rw [UInt32.le_iff_toNat_le] at hnot
      exact hnot (Nat.le_of_lt hmem)
    have hle : s.linux ≤ nvram := by
      by_contra hnot
      have hmem : nvram.toNat + 2 ^ 32 - 1 ∈ {i | i < size.toNat} := by
        rw [← hcover, if_neg hnot]
        refine Or.inl (Or.inr ⟨?_, ?_⟩) <;> omega
      have hlt : nvram.toNat + 2 ^ 32 - 1 < size.toNat := hmem
      omega
    refine ⟨hin, hle, fun hoff => ?_⟩
    have hsub := h.rootfs
    rw [hrange, if_pos hle, hroot, if_pos hoff] at hsub
    have hbefore : s.off ≤ nvram := by
      by_contra hnot
      rw [if_neg hnot] at hsub
      have hmem := hsub ⟨le_rfl, lt_of_lt_of_le s.off.toNat_lt (Nat.le_add_left _ _)⟩
      exact hnot (UInt32.le_iff_toNat_le.mpr (Nat.le_of_lt hmem.2))
    refine ⟨hbefore, ?_⟩
    rw [if_pos hbefore] at hsub
    rw [UInt32.le_iff_toNat_le] at hle hbefore ⊢
    rcases Nat.lt_or_ge s.off.toNat nvram.toNat with hlt | hge
    · exact (hsub ⟨le_rfl, hlt⟩).1
    · omega
  · rintro ⟨hin, hle, hrootfs⟩
    rw [if_pos hin] at hlast
    rw [if_pos hle] at hrange
    rw [UInt32.le_iff_toNat_le] at hin hle
    constructor
    · rw [hboot, hrange]
      exact Set.disjoint_left.mpr fun i hi hi' => absurd hi.2 (Nat.not_lt.mpr hi'.1)
    · rw [hboot, hlast]
      exact Set.disjoint_left.mpr fun i hi hi' => absurd (lt_of_lt_of_le hi.2 hle) (Nat.not_lt.mpr hi'.1)
    · rw [hrange, hlast]
      exact Set.disjoint_left.mpr fun i hi hi' => absurd hi.2 (Nat.not_lt.mpr hi'.1)
    · rw [hboot, hrange, hlast, Set.Ico_union_Ico_eq_Ico (Nat.zero_le _) hle,
        Set.Ico_union_Ico_eq_Ico (Nat.zero_le _) hin]
      ext i
      exact ⟨fun hi => hi.2, fun hi => ⟨Nat.zero_le i, hi⟩⟩
    · rw [hroot, hrange]
      split
      · rename_i hoff
        obtain ⟨hbefore, hafter⟩ := hrootfs hoff
        rw [if_pos hbefore]
        exact Set.Ico_subset_Ico_left (UInt32.le_iff_toNat_le.mp hafter)
      · exact Set.empty_subset _

/-! ### Where the flash is partitioned -/

/-- The root file system of an image is in the flash, and not at its beginning. -/
theorem Image.pos {flash : Mem} {size off root : UInt32} (h : Image flash size off root) : root ≠ 0 ∧ root < size := by
  constructor
  · rintro rfl
    have hzero : (rootfsOffset flash off).toNat = 0 := by
      have := h.located
      rw [UInt32.toNat_zero] at this
      omega
    exact h.set (UInt32.toNat_inj.mp hzero)
  · have hread := h.superblock.1
    rw [readable, decide_eq_true_iff] at hread
    exact UInt32.lt_iff_toNat_lt.mpr (by omega)

instance finiteUInt32 : Finite UInt32 := Finite.of_injective UInt32.toFin fun _ _ h => UInt32.toFin_inj.mp h

/-- **The flash is partitioned as it should be exactly where its headers lead to the right places.** -/
theorem partitions_iff (flash : Mem) (size erasesize : UInt32) : Sound flash size erasesize ↔
    Fits flash size erasesize := by
  have hone : ∀ {k k'}, Ends flash size k → Ends flash size k' → k = k' := fun h h' => Stops.unique h h'
  rw [Sound, returns_iff]
  constructor
  · rintro ⟨herase, k, hk, hparts, himage⟩
    obtain ⟨hnvram, hlinux, hrootfs⟩ := (partitioned_iff _ _ _).mp hparts
    rw [off_advance] at hrootfs
    refine ⟨herase, hnvram, exists_stop_iff.mp ⟨k, hk⟩, fun k' j hk' hj => ?_, fun k' hk' hoff => ?_,
      fun off root h => ⟨k, hk, ?_⟩⟩
    · rw [hone hk' hk] at hj
      exact (linux_le_iff k _).mp hlinux j hj
    · rw [hone hk' hk] at hoff ⊢
      exact ⟨(hrootfs hoff).1, (linux_le_iff k _).mp (hrootfs hoff).2⟩
    · have hroot := himage off root h
      unfold parts at hroot
      rw [off_advance] at hroot
      dsimp only at hroot
      split at hroot
      · exact hroot
      · exact absurd hroot.symm h.pos.1
  · intro h
    obtain ⟨k, hk⟩ := exists_stop_iff.mpr h.forward
    refine ⟨h.erasable, k, hk, (partitioned_iff _ _ _).mpr ⟨h.nvram, ?_, fun hoff => ?_⟩, fun off root himage => ?_⟩
    · exact (linux_le_iff k _).mpr fun j hj => h.linux k j hk hj
    · rw [off_advance] at hoff ⊢
      obtain ⟨hbefore, hlast⟩ := h.rootfs k hk hoff
      exact ⟨hbefore, (linux_le_iff k _).mpr hlast⟩
    · obtain ⟨k', hk', hroot⟩ := h.image off root himage
      rw [hone hk' hk] at hroot
      unfold parts
      rw [off_advance]
      dsimp only
      rw [show (target flash size)^[k] 0 = root from hroot, if_pos himage.pos.2]

/-! ### Offsets near 2^32 -/

section Offsets

variable {flash : Mem} {size : UInt32}

/-- A header at 0 with an offset that goes round to 0. -/
theorem endless (h : Header flash size 0) (hoffset : offsets flash 0 2 = 0xFFFF0000) : ¬∃ k, Ends flash size k := by
  have htarget : target flash size 0 = 0 := by
    rw [target, if_pos h, hoffset, if_pos (by decide)]
    decide
  have hopen : ¬Stop flash size 0 := by
    rintro (hout | ⟨hnot, -⟩)
    · have hread := h.1
      rw [readable, decide_eq_true_iff] at hread
      exact hout (UInt32.lt_iff_toNat_lt.mpr (by omega))
    · exact hnot h
  rintro ⟨k, hk⟩
  have hstop := hk.stop
  rw [Function.iterate_fixed htarget] at hstop
  exact hopen hstop

/-- The search goes on when no position and no offset is within 64 KB of 2^32. -/
theorem lt_target {off : UInt32} (hoff : off.toNat < 0xFFFF0000)
    (hoffsets : ∀ i, Header flash size off → (offsets flash off i).toNat < 0xFFFF0000) :
    off < target flash size off := by
  have hstep : ∀ x : UInt32, x.toNat < 0xFFFF0000 → off ≤ x → off < x + 0x10000 := by
    intro x hx hle
    rw [UInt32.le_iff_toNat_le] at hle
    rw [UInt32.lt_iff_toNat_lt, UInt32.toNat_add, show (0x10000 : UInt32).toNat = 0x10000 from rfl]
    omega
  unfold target
  split
  · rename_i h
    split
    · rename_i hgt
      exact hstep _ (hoffsets 2 h) (UInt32.le_of_lt hgt)
    · split
      · rename_i hgt
        exact hstep _ (hoffsets 1 h) (UInt32.le_of_lt hgt)
      · exact hstep off hoff (UInt32.le_refl off)
  · exact hstep off hoff (UInt32.le_refl off)

/-- It returns then. -/
theorem exists_ends (hsize : size.toNat ≤ 0xFFFF0000)
    (hoffsets : ∀ off i, Header flash size off → (offsets flash off i).toNat < 0xFFFF0000) :
    ∃ k, Ends flash size k := by
  have hlt : ∀ k, ¬Stop flash size (path flash size k) → path flash size k < path flash size (k + 1) := by
    intro k hk
    have hin : path flash size k < size := by
      by_contra hout
      exact hk (Or.inl hout)
    rw [UInt32.lt_iff_toNat_lt] at hin
    rw [path, path, Function.iterate_succ_apply']
    exact lt_target (lt_of_lt_of_le hin hsize) (hoffsets _)
  apply exists_stop_iff.mpr
  intro i j hij hopen
  apply UInt32.ne_of_lt
  induction j, hij using Nat.le_induction with
  | base => exact hlt i (hopen i (Nat.le_succ i))
  | succ j _ ih =>
    exact UInt32.lt_trans (ih fun k hk => hopen k (Nat.le_succ_of_le hk)) (hlt j (hopen j (Nat.le_succ j)))

end Offsets

/-- A flash of a bad TRX header, and 0xff. -/
def badHeader : Mem := fun i => [0x48, 0x44, 0x52, 0x30, 0, 0, 0, 0, 0, 0, 0, 0, 0, 0, 0, 0,
  0, 0, 0, 0, 0, 0, 0, 0, 0, 0, 0xff, 0xff].getD i 0xff

/-- It is searched for ever. -/
theorem bad_header_not_sound : ¬Sound badHeader 0x400000 0x10000 := by
  rw [Sound, returns_iff]
  rintro ⟨-, k, hk, -⟩
  exact endless (by decide) (by decide) ⟨k, hk⟩

end Partitions
end Bcm
end Router
