/-
# The NVRAM image

An image is a buffer of `NVRAM_SPACE` bytes: `struct nvram_header` (five
little-endian words) and then the variables as `name=value\0 ... \0\0`.
`_nvramCommit` writes it from the store and parses it back into the store
(`nvramRehash`), `earlyNvramGet` reads it before the store exists, and
`nvramCalcCrc` is the checksum both sides compare. As in the source the
parsers run over the buffer itself: `nvramRehash` overwrites each '=' with a
NUL while it sets the variable and puts it back.

The loops over the strings take fuel; `nvramSpace` iterations are enough, an
entry having at least two bytes.
-/
import RouterFirmware.Bcm.Utils
import RouterFirmware.Nvram.Store

namespace Router
namespace Nvram

open CMem Bcm

/-! ### The header -/

/-- `NVRAM_MAGIC`, 'FLSH'. -/
def nvramMagic : UInt32 := 0x48534C46

/-- `NVRAM_VERSION`. -/
def nvramVersion : UInt32 := 1

/-- `sizeof(struct nvram_header)`. -/
def headerSize : ℕ := 20

/-- Where in the header the words `len`, `crc_ver_init`, `config_refresh` and
`config_ncdl` are; `magic` is at 0. -/
def lenAt : ℕ := 4
def crcVerInitAt : ℕ := 8
def configRefreshAt : ℕ := 12
def configNcdlAt : ℕ := 16

/-- Where the string area must end: space for a double NUL stays behind it. -/
def imageEnd : ℕ := nvramSpace - 2

/-- `ROUNDUP(x, y)`. -/
def roundup (x y : ℕ) : ℕ := (x + (y - 1)) / y * y

/-- The bytes `[p, p + n)` of a buffer. -/
def bytesAt (m : Mem) (p n : ℕ) : List UInt8 := (List.range n).map fun i => m (p + i)

@[simp] theorem length_bytesAt (m : Mem) (p n : ℕ) : (bytesAt m p n).length = n := by
  rw [bytesAt, List.length_map, List.length_range]

theorem bytesAt_succ (m : Mem) (p n : ℕ) : bytesAt m p (n + 1) = m p :: bytesAt m (p + 1) n := by
  unfold bytesAt
  rw [List.range_succ_eq_map, List.map_cons, List.map_map, Nat.add_zero]
  congr 1
  apply List.map_congr_left
  intro i _
  show m (p + (i + 1)) = m (p + 1 + i)
  rw [Nat.add_assoc, Nat.add_comm 1]

theorem bytesAt_append (f : Mem) (p n m : ℕ) :
    bytesAt f p n ++ bytesAt f (p + n) m = bytesAt f p (n + m) := by
  simp only [bytesAt, List.range_add, List.map_append, List.map_map]
  congr 1
  exact List.map_congr_left fun i _ => by simp [Nat.add_assoc]

theorem bytesAt_of_holds {m : Mem} : ∀ {l : List UInt8} {p : ℕ}, Holds m p l → bytesAt m p l.length = l := by
  intro l
  induction l with
  | nil =>
    intro p _
    rfl
  | cons b l ih =>
    intro p h
    rw [List.length_cons, bytesAt_succ, h.1, ih h.2]

/-- `nvram_calc_crc`: CRC-8 over the last 11 bytes of the header, the CRC byte
itself counted as zero and left out, and over the data up to `len`. -/
def nvramCalcCrc (nvh : Mem) : UInt8 :=
  let tmp := bytes32 (le32 nvh crcVerInitAt &&& 0xffffff00) ++ bytes32 (le32 nvh configRefreshAt) ++
    bytes32 (le32 nvh configNcdlAt)
  hndcrc8 (bytesAt nvh headerSize (le32 nvh lenAt - 20).toNat) (hndcrc8 (tmp.drop 1) crc8InitValue)

/-! ### The SDRAM variables -/

def sdramInit : CStr := .lit "sdram_init"
def sdramConfig : CStr := .lit "sdram_config"
def sdramRefresh : CStr := .lit "sdram_refresh"
def sdramNcdl : CStr := .lit "sdram_ncdl"

/-- The variables whose values also stand in the header. -/
def sdramNames : List CStr := [sdramInit, sdramConfig, sdramRefresh, sdramNcdl]

/-- An upper-case hex digit. -/
def hexDigit (d : Fin 16) : UInt8 := if d.val < 10 then UInt8.ofNat (48 + d) else UInt8.ofNat (55 + d)

theorem hexDigit_ne_zero : ∀ d, hexDigit d ≠ 0 := by decide

/-- `sprintf(buf, "0x%0<width>X", v)` for a `v` of at most `width` digits. -/
def sprintfHex (width v : ℕ) : CStr where
  bytes := [48, 120] ++ (List.range width).reverse.map fun i =>
    hexDigit ⟨v / 16 ^ i % 16, Nat.mod_lt _ (by decide)⟩
  nul_notMem := by simp [hexDigit_ne_zero]

example : sprintfHex 4 0x419 = .lit "0x0419" := by decide +kernel

/-! ### `nvram_rehash` -/

/-- `nvram_free`: every tuple is freed and `nvram_offset` reset. -/
def nvramFree (st : Store) : Store :=
  { st with nvramHash := fun _ => [], nvramDead := [], nvramOffset := 0 }

/-- The loop of `nvram_rehash` from the entry at `name`, the `k`-th: the
buffer, the store and the number of entries set. `kmalloc k` is the
allocator's answer in the `k`-th `_nvram_set`. -/
def rehashLoop (kmalloc : ℕ → Bool) : ℕ → ℕ → Mem → ℕ → Store → Mem × Store × ℕ
  | 0, k, m, _, st => (m, st, k)
  | fuel + 1, k, m, name, st =>
    if m name = 0 then (m, st, k)
    else
      match strchr m 61 name (nvramSpace - name) with
      | none => (m, st, k)
      | some eq =>
        let m' := write m eq [0]
        let value := eq + 1
        let st' := (_nvramSet (kmalloc k) st (readStr m' name (nvramSpace - name))
          (readStr m' value (nvramSpace - value))).1
        let m'' := write m' eq [61]
        rehashLoop kmalloc fuel (k + 1) m''
          (value + (readStr m'' value (nvramSpace - value)).length + 1) st'

/-- One of the special SDRAM parameters: set if the image did not have it. -/
def setDefault (kmalloc : Bool) (st : Store) (name value : CStr) : Store :=
  if (_nvramGet st (some name)).isNone then (_nvramSet kmalloc st name value).1 else st

/-- Set special SDRAM parameters, from the header of the image `m`. -/
def setSdram (kmalloc : ℕ → Bool) (k : ℕ) (m : Mem) (st : Store) : Store :=
  let st := setDefault (kmalloc k) st sdramInit
    (sprintfHex 4 ((le32 m crcVerInitAt >>> 16).toUInt16).toNat)
  let st := setDefault (kmalloc (k + 1)) st sdramConfig
    (sprintfHex 4 ((le32 m configRefreshAt &&& 0xffff).toUInt16).toNat)
  let st := setDefault (kmalloc (k + 2)) st sdramRefresh
    (sprintfHex 4 (((le32 m configRefreshAt >>> 16) &&& 0xffff).toUInt16).toNat)
  setDefault (kmalloc (k + 3)) st sdramNcdl (sprintfHex 8 (le32 m configNcdlAt).toNat)

/-- `nvram_rehash(header)`: the store from an image, the buffer it leaves and
its result. -/
def nvramRehash (kmalloc : ℕ → Bool) (st : Store) (header : Mem) : Store × Mem × ℤ :=
  let m := write header imageEnd [0, 0]
  let r := rehashLoop kmalloc nvramSpace 0 m headerSize (nvramFree st)
  (setSdram kmalloc r.2.2 r.1 r.2.1, r.1, 0)

/-! ### `_nvram_commit` -/

/-- `SDRAM_INIT`, `SDRAM_CONFIG` and `SDRAM_REFRESH`. -/
def sdramInitDefault : UInt32 := 0x0419
def sdramConfigDefault : UInt32 := 0x0000
def sdramRefreshDefault : UInt32 := 0x8040

/-- `bcm_strtoul(s, NULL, 0)`. -/
def strtoul (s : CStr) : UInt32 := (bcmStrtoul s.bytes 0).1

/-- `v << 16`. -/
def high16 (v : UInt32) : UInt32 := v <<< 16

/-- Regenerate the header; `len` is written later. -/
def regenHeader (st : Store) (header : Mem) : Mem :=
  let m := put32 header 0 nvramMagic
  match st.getStr sdramInit, st.getStr sdramConfig, st.getStr sdramRefresh, st.getStr sdramNcdl with
  | some init, some config, some refresh, some ncdl =>
    let m := put32 m crcVerInitAt ((nvramVersion <<< 8) ||| high16 (strtoul init &&& 0xffff))
    let m := put32 m configRefreshAt
      ((strtoul config &&& 0xffff) ||| high16 (strtoul refresh &&& 0xffff))
    put32 m configNcdlAt (strtoul ncdl)
  | _, _, _, _ =>
    let m := put32 m crcVerInitAt ((nvramVersion <<< 8) ||| high16 sdramInitDefault)
    let m := put32 m configRefreshAt (sdramConfigDefault ||| high16 sdramRefreshDefault)
    put32 m configNcdlAt 0

/-- `name=value\0`, as `sprintf` writes it. -/
def entry (name value : CStr) : List UInt8 := name.bytes ++ 61 :: value.withNul

/-- The inner loop of the writer, from `ptr`; the first tuple that does not
fit ends it. -/
def writeChain (st : Store) : List Tuple → Mem × ℕ → Mem × ℕ
  | [], s => s
  | t :: ts, (m, ptr) =>
    let value := st.str t.value
    if ptr + t.name.length + 1 + value.length + 1 > imageEnd then (m, ptr)
    else writeChain st ts (write m ptr (entry t.name value),
      ptr + (t.name.length + 1 + value.length) + 1)

/-- Write out all tuples, chain by chain. -/
def writeTuples (st : Store) (s : Mem × ℕ) : Mem × ℕ :=
  (List.finRange hashSize).foldl (fun s i => writeChain st (st.nvramHash i) s) s

/-- The image `_nvram_commit` builds in `header`, before it is parsed back. -/
def commitImage (st : Store) (header : Mem) : Mem :=
  let m := regenHeader st header
  let m := write m headerSize (List.replicate (nvramSpace - headerSize) 0)
  let (m, ptr) := writeTuples st (m, headerSize)
  let ptr := ptr + 2
  let m := put32 m lenAt (UInt32.ofNat (roundup ptr 4))
  put32 m crcVerInitAt (le32 m crcVerInitAt ||| (nvramCalcCrc m).toUInt32)

/-- `_nvram_commit(header)`: the store and buffer it leaves, and its result. -/
def _nvramCommit (kmalloc : ℕ → Bool) (st : Store) (header : Mem) : Store × Mem × ℤ :=
  nvramRehash kmalloc st (commitImage st header)

/-! ### Reading an image before the store exists -/

/-- The scan of `early_nvram_get`, from the entry at `var`: the value pointer. -/
def earlyScan (buf : Mem) (name : CStr) : ℕ → ℕ → Option ℕ
  | 0, _ => none
  | fuel + 1, var =>
    if buf var = 0 then none
    else
      match strchr buf 61 var (nvramSpace - var) with
      | none => none
      | some eq =>
        let value := eq + 1
        if eq - var = name.length ∧ bytesAt buf var (eq - var) = name.bytes then some value
        else earlyScan buf name fuel (value + (readStr buf value (nvramSpace - value)).length + 1)

/-- `FLASH_MIN`. -/
def flashMin : ℕ := 0x00020000

/-- The test of `early_nvram_init`: the magic, and the CRC in its byte. -/
def validHeader (flash : Mem) (off : ℕ) : Bool :=
  let header : Mem := fun i => flash (off + i)
  le32 header 0 == nvramMagic && nvramCalcCrc header == (le32 header crcVerInitAt).toUInt8

/-- Where `early_nvram_init` looks for a header in a flash of `lim` bytes: at
the end of each power-of-two size, then embedded at 4 KB and 1 KB. -/
def probeOffsets (lim : ℕ) : List ℕ :=
  ((List.range 15).map fun i => flashMin <<< i).takeWhile (· ≤ lim) |>.map (· - nvramSpace)

/-- `early_nvram_init`: `nvram_buf` after the probe of a flash of `lim` bytes. -/
def earlyNvramInit (flash : Mem) (lim : ℕ) (nvramBuf : Mem) : Mem :=
  match (probeOffsets lim ++ [4 * 1024, 1024]).find? (validHeader flash) with
  | none => nvramBuf
  | some off =>
    let len := (le32 (fun i => flash (off + i)) lenAt).toNat
    write nvramBuf 0 (bytesAt flash off (max headerSize (roundup (min len nvramSpace) 4)))

/-- `early_nvram_get(name)`, with the silicon backplane known (`sbh`): the
value pointer into `nvram_buf`, and `nvram_buf` as it is left. -/
def earlyNvramGet (flash : Mem) (lim : ℕ) (sbh : Bool) (nvramBuf : Mem) (name : Option CStr) :
    Option ℕ × Mem :=
  match name with
  | none => (none, nvramBuf)
  | some name =>
    if ¬ sbh then (none, nvramBuf)
    else
      let buf := if nvramBuf 0 = 0 then earlyNvramInit flash lim nvramBuf else nvramBuf
      let buf := write buf imageEnd [0, 0]
      (earlyScan buf name nvramSpace headerSize, buf)

/-- The value `early_nvram_get` finds for a name. -/
def earlyGetStr (flash : Mem) (lim : ℕ) (nvramBuf : Mem) (name : CStr) : Option CStr :=
  let r := earlyNvramGet flash lim true nvramBuf (some name)
  r.1.map fun p => readStr r.2 p (nvramSpace - p)

end Nvram
end Router
