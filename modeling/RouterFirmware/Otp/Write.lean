/-
# Writing NVRAM to the OTP

`bcmotp.c`: `otp_nvwrite` programs a block of words as a chunk, a header of two
words (a magic word and the length in bytes), the block, and a CRC over both. A
word is programmed once. When a word fails the chunk is closed behind it, and the
whole block is written again behind the chunk as long as there is room.

Whether a word fails is up to the hardware. The bits of a word are programmed from the
lowest up, until one fails: `Faults` gives for each programming, in order, nothing
if it succeeds, and otherwise how many bits are programmed by then. Programming sets bits
and clears none. What the chip says of itself (its size, its revision, its
protection bits) is `Chip`.

A block lies in memory, so that `wlen + 3` does not wrap. The processor has the low
byte of a word first.
-/
import RouterFirmware.Bcm.Crc
import RouterFirmware.Lib.Bits

namespace Router
namespace Otp

open Bits Bcm

/-! ### The hardware -/

/-- `OTP_MAGIC`. -/
def otpMagic : UInt16 := 0x4e56

/-- `OTP_SIGNATURE`. -/
def otpSignature : UInt16 := 0x578a

/-- `OTP_HW_REGION` and `OTP_SW_REGION`. -/
def otpHwRegion : BitVec 32 := 1

def otpSwRegion : BitVec 32 := 2

/-- The OTP of a chip: `cap` is the size field of its capabilities, `rev17` says that
the revision is 17 and not 12, and `hwprot` are the protection bits. -/
structure Chip where
  cap : ℕ
  cap_pos : 0 < cap
  cap_lt : cap < 8
  rev17 : Bool
  hwprot : BitVec 32

/-- `oi->size / 2`, the size in words. -/
def Chip.half (c : Chip) : ℕ := 2 ^ (c.cap + 4)

/-- The limit of the software region, `OTP_SWLIM_OFF`. -/
def Chip.swlim (c : Chip) : ℕ := c.half - 8

/-- Which programmings fail, and behind how many bits. -/
abbrev Faults := ℕ → Option ℕ

/-- The words, and how many programmings there were. -/
structure Cells where
  words : ℕ → UInt16
  progs : ℕ

/-- Nothing is programmed. -/
def Cells.blank : Cells := ⟨fun _ => 0, 0⟩

variable (f : Faults)

/-- What programming a blank word leaves in it. -/
def left (t : ℕ) (data : UInt16) : UInt16 :=
  match f t with
  | none => data
  | some n => .ofNat (data.toNat % 2 ^ n)

/-- `otp_write_word(oh, cc, wn, data)`: whether it fails. -/
def otpWriteWord (o : Cells) (wn : ℕ) (data : UInt16) : ℕ × Cells :=
  (if (f o.progs).isSome then 1 else 0,
    ⟨Function.update o.words wn (o.words wn ||| left f o.progs data), o.progs + 1⟩)

/-! ### A chunk -/

/-- `hdr[1]`. -/
def chunkLen (data : List UInt16) : UInt16 := .ofNat ((data.length + 3) * 2)

/-- The bytes of words in memory. -/
def bytesOf (l : List UInt16) : List UInt8 := l.flatMap bytes16

/-- The CRC of a chunk, over its header and the data. -/
def chunkCrc (data : List UInt16) : UInt16 :=
  ~~~ hndcrc16 (bytesOf data) (hndcrc16 (bytesOf [otpMagic, chunkLen data]) crc16InitValue)

/-- The data is written up to the first error, at least one word of it; `err` counts
the errors so far. -/
def writeData : List UInt16 → ℕ → ℕ → Cells → ℕ × ℕ × Cells
  | [], wn, err, o => (wn, err, o)
  | d :: data, wn, err, o =>
    let (e, o) := otpWriteWord f o wn d
    if err + e ≠ 0 then (wn + 1, err + e, o) else writeData data (wn + 1) (err + e) o

/-- The boundary, and the signature if that could be written. -/
def signRegion (half wn : ℕ) (o : Cells) : Cells :=
  let (e, o) := otpWriteWord f o (half - 4) (.ofNat (wn * 2))
  if e = 0 then (otpWriteWord f o (half - 3) otpSignature).2 else o

/-- The body of the loop of `otp_nvwrite`: the errors and the word behind the chunk. -/
def writeChunk (half : ℕ) (data : List UInt16) (base : ℕ) (o : Cells) : ℕ × ℕ × Cells :=
  let (err, o) := otpWriteWord f o base otpMagic
  let (wn, err, o) := writeData f data (base + 2) err o
  let (wn, err, clen, o) :=
    if wn = base + data.length + 2 then
      let (e, o) := otpWriteWord f o wn (chunkCrc data)
      (wn + 1, err + e, chunkLen data, o)
    else (wn, err, .ofNat ((wn - base) * 2), o)
  let (e, o) := otpWriteWord f o (base + 1) clen
  (err + e, wn, if base = 0 then signRegion f half wn o else o)

/-- An unsigned difference. -/
def uintSub (a b : ℕ) : ℕ := (a + 2 ^ 32 - b) % 2 ^ 32

/-- The loop; `none` if it has not ended after so many turns. -/
def writeChunks (half : ℕ) (data : List UInt16) : ℕ → ℕ → Cells → Option (ℕ × ℕ × Cells)
  | 0, _, _ => none
  | fuel + 1, base, o =>
    let (err, wn, o) := writeChunk f half data base o
    if err ≠ 0 ∧ data.length + 3 ≤ uintSub (half - 8) wn then writeChunks half data fuel wn o
    else some (err, wn, o)

/-- The word behind the last chunk, which is looked for from the end down. -/
def chunksEnd (words : ℕ → UInt16) : ℕ → ℕ
  | 0 => 0
  | wn + 1 => if words wn = otpMagic then wn + (words (wn + 1)).toNat / 2 else chunksEnd words wn

def bcmeError : ℤ := -1

def bcmeEperm : ℤ := -26

/-- What a call of `otp_nvwrite` does: what it returns, the word behind the last chunk
it wrote, if it wrote one, and `oi->signvalid`. -/
structure Nvwrite where
  ret : ℤ
  wn : Option ℕ
  signvalid : BitVec 32
  cells : Cells

/-- `otp_nvwrite(oh, data, wlen)`. -/
def otpNvwrite (c : Chip) (fuel : ℕ) (signvalid : BitVec 32) (o : Cells) (data : List UInt16) : Option Nvwrite :=
  let st := c.hwprot ||| signvalid
  if hasBit st otpHwRegion && hasBit st otpSwRegion then some ⟨bcmeEperm, none, signvalid, o⟩
  else
    let base := chunksEnd o.words c.swlim
    if data.length + 3 > uintSub c.swlim base then some ⟨bcmeError, none, signvalid, o⟩
    else
      (writeChunks f c.half data fuel base o).map fun r =>
        ⟨if r.1 ≠ 0 then bcmeError else 0, some r.2.1,
          if base = 0 then signvalid ||| otpHwRegion else signvalid, r.2.2⟩

end Otp
end Router
