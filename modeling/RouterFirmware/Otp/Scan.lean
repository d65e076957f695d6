/-
# Reading NVRAM from the OTP

`nvram_ro.c`: `nvram_init` looks for chunks from a base up. Of a chunk with a good
CRC the data is copied; behind any other it goes on, where its length says if there is
a chunk there, and else at the next magic word. The loop ends at the first word
that is not magic.

The copies are prepended to a list. There is memory for them. The loop need not
end, and a size below that of a header and a CRC would be copied as a negative one: the
result is `none` then.
-/
import RouterFirmware.Otp.Write

namespace Router
namespace Otp

open Bits Bcm

/-- `oi->signvalid` as `otp_init` sets it; the CID region does not matter here. -/
def otpInit (c : Chip) (words : ℕ → UInt16) : BitVec 32 :=
  if c.rev17 then 0
  else bitIf (words (c.half - 3) == otpSignature) otpHwRegion ||| bitIf (words (c.half - 2) == otpSignature) otpSwRegion

/-- The next magic word from `i` on, among so many. -/
def nextMagic (words : ℕ → UInt16) : ℕ → ℕ → ℕ
  | 0, i => i
  | n + 1, i => if words i = otpMagic then i else nextMagic words n (i + 1)

/-- `base / 2` where the scan begins, if there is anything. Without a valid signature the
base is the index of a word, and otherwise in bytes. -/
def scanStart (c : Chip) (words : ℕ → UInt16) : Option ℕ :=
  if !hasBit (c.hwprot ||| otpInit c words) otpHwRegion then
    let i := nextMagic words c.half 0
    if i < c.half then some (i / 2) else none
  else if words 0 = otpMagic then some 0
  else some ((words (c.half - 4)).toNat / 2)

/-- So many words from `i` on. -/
def wordsFrom (words : ℕ → UInt16) (i n : ℕ) : List UInt16 := (List.range n).map fun k => words (i + k)

/-- So many bytes from the word `i` on. -/
def bytesFrom (words : ℕ → UInt16) (i n : ℕ) : List UInt8 := (bytesOf (wordsFrom words i (n / 2 + 1))).take n

/-- The loop over the chunks, with the copies so far. -/
def scanChunks (half : ℕ) (words : ℕ → UInt16) : ℕ → ℕ → List (List UInt8) → Option (List (List UInt8))
  | 0, _, _ => none
  | fuel + 1, i, vars =>
    if i < half ∧ words i = otpMagic then
      let len := (words (i + 1)).toNat
      -- a bad length
      let rsz := if i * 2 + len ≥ half * 2 then 6 else len
      if hndcrc16 (bytesFrom words i rsz) crc16InitValue = crc16GoodValue then
        if rsz < 6 then none
        else scanChunks half words fuel (i + rsz / 2) (bytesFrom words (i + 2) (rsz - 6) :: vars)
      else if words (i + rsz / 2) = otpMagic then scanChunks half words fuel (i + rsz / 2) vars
      else scanChunks half words fuel (nextMagic words (half - (i + 1)) (i + 1)) vars
    else some vars

/-- The part of `nvram_init` about the OTP: the blocks of data, the last one first. -/
def otpVars (c : Chip) (fuel : ℕ) (words : ℕ → UInt16) : Option (List (List UInt8)) :=
  match scanStart c words with
  | none => some []
  | some i => scanChunks c.half words fuel i []

end Otp
end Router
