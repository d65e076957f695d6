/-
# Utilities shared by the drivers

`shared/bcmutils.c`: the character classes and the number parser
`bcm_strtoul`, and the table-driven CRC-8 and CRC-16.
-/
import Mathlib.Tactic

namespace Router
namespace Bcm

/-! ### Character classes -/

/-- `bcm_ctype`: each class with the number of consecutive characters that
have it; 1 upper, 2 lower, 4 digit, 8 control, 0x10 punctuation, 0x20 white
space, 0x40 hex digit, 0x80 hard space. -/
def bcmCtypeRuns : List (UInt8 × ℕ) :=
  [(0x08, 9), (0x28, 5), (0x08, 18), (0xa0, 1), (0x10, 15), (0x04, 10), (0x10, 7),
    (0x41, 6), (0x01, 20), (0x10, 6), (0x42, 6), (0x02, 20), (0x10, 4), (0x08, 1),
    (0x00, 32), (0xa0, 1), (0x10, 31), (0x01, 23), (0x10, 1), (0x01, 7), (0x02, 24),
    (0x10, 1), (0x02, 8)]

/-- `bcm_ismask`. -/
def bcmIsmask (c : UInt8) : UInt8 :=
  (bcmCtypeRuns.flatMap fun r => List.replicate r.2 r.1).getD c.toNat 0

/-- `bcm_isspace`. -/
def bcmIsspace (c : UInt8) : Bool := bcmIsmask c &&& 0x20 ≠ 0

/-- `bcm_isdigit`. -/
def bcmIsdigit (c : UInt8) : Bool := bcmIsmask c &&& 0x04 ≠ 0

/-- `bcm_isxdigit`. -/
def bcmIsxdigit (c : UInt8) : Bool := bcmIsmask c &&& 0x44 ≠ 0

/-- `bcm_toupper`. -/
def bcmToupper (c : UInt8) : UInt8 := if bcmIsmask c &&& 0x02 ≠ 0 then c + 65 - 97 else c

/-! ### `bcm_strtoul` -/

/-- The digit loop: the value so far, and the text that is left. -/
def strtoulDigits (base : UInt32) : UInt32 → List UInt8 → UInt32 × List UInt8
  | result, [] => (result, [])
  | result, c :: cp =>
    let value : UInt32 := if bcmIsdigit c then (c - 48).toUInt32 else (bcmToupper c - 65 + 10).toUInt32
    if bcmIsxdigit c && value < base then strtoulDigits base (result * base + value) cp
    else (result, c :: cp)

/-- `bcm_strtoul(cp, &endp, base)` on the bytes before the NUL: the number,
32 bits wide, and what `endp` is left at. -/
def bcmStrtoul (cp : List UInt8) (base : UInt32) : UInt32 × List UInt8 :=
  let cp := cp.dropWhile bcmIsspace
  let minus := cp.head? = some 45
  let cp := if cp.head? = some 43 ∨ minus then cp.tail else cp
  let hex := cp.head? = some 48 ∧ (cp.tail.head? = some 120 ∨ cp.tail.head? = some 88)
  let (base, cp) : UInt32 × List UInt8 :=
    if base = 0 then
      if cp.head? = some 48 then if hex then (16, cp.drop 2) else (8, cp.drop 1)
      else (10, cp)
    else if base = 16 ∧ hex then (16, cp.drop 2)
    else (base, cp)
  let (result, cp) := strtoulDigits base 0 cp
  (if minus then 0 - result else result, cp)

example : (bcmStrtoul [48, 120, 48, 52, 49, 57] 0).1 = 0x0419 := by decide +kernel

/-! ### CRC-8 -/

/-- `crc8_table`. -/
def crc8Table : List UInt8 :=
  [0x00, 0xF7, 0xB9, 0x4E, 0x25, 0xD2, 0x9C, 0x6B, 0x4A, 0xBD, 0xF3, 0x04, 0x6F, 0x98, 0xD6, 0x21,
    0x94, 0x63, 0x2D, 0xDA, 0xB1, 0x46, 0x08, 0xFF, 0xDE, 0x29, 0x67, 0x90, 0xFB, 0x0C, 0x42, 0xB5,
    0x7F, 0x88, 0xC6, 0x31, 0x5A, 0xAD, 0xE3, 0x14, 0x35, 0xC2, 0x8C, 0x7B, 0x10, 0xE7, 0xA9, 0x5E,
    0xEB, 0x1C, 0x52, 0xA5, 0xCE, 0x39, 0x77, 0x80, 0xA1, 0x56, 0x18, 0xEF, 0x84, 0x73, 0x3D, 0xCA,
    0xFE, 0x09, 0x47, 0xB0, 0xDB, 0x2C, 0x62, 0x95, 0xB4, 0x43, 0x0D, 0xFA, 0x91, 0x66, 0x28, 0xDF,
    0x6A, 0x9D, 0xD3, 0x24, 0x4F, 0xB8, 0xF6, 0x01, 0x20, 0xD7, 0x99, 0x6E, 0x05, 0xF2, 0xBC, 0x4B,
    0x81, 0x76, 0x38, 0xCF, 0xA4, 0x53, 0x1D, 0xEA, 0xCB, 0x3C, 0x72, 0x85, 0xEE, 0x19, 0x57, 0xA0,
    0x15, 0xE2, 0xAC, 0x5B, 0x30, 0xC7, 0x89, 0x7E, 0x5F, 0xA8, 0xE6, 0x11, 0x7A, 0x8D, 0xC3, 0x34,
    0xAB, 0x5C, 0x12, 0xE5, 0x8E, 0x79, 0x37, 0xC0, 0xE1, 0x16, 0x58, 0xAF, 0xC4, 0x33, 0x7D, 0x8A,
    0x3F, 0xC8, 0x86, 0x71, 0x1A, 0xED, 0xA3, 0x54, 0x75, 0x82, 0xCC, 0x3B, 0x50, 0xA7, 0xE9, 0x1E,
    0xD4, 0x23, 0x6D, 0x9A, 0xF1, 0x06, 0x48, 0xBF, 0x9E, 0x69, 0x27, 0xD0, 0xBB, 0x4C, 0x02, 0xF5,
    0x40, 0xB7, 0xF9, 0x0E, 0x65, 0x92, 0xDC, 0x2B, 0x0A, 0xFD, 0xB3, 0x44, 0x2F, 0xD8, 0x96, 0x61,
    0x55, 0xA2, 0xEC, 0x1B, 0x70, 0x87, 0xC9, 0x3E, 0x1F, 0xE8, 0xA6, 0x51, 0x3A, 0xCD, 0x83, 0x74,
    0xC1, 0x36, 0x78, 0x8F, 0xE4, 0x13, 0x5D, 0xAA, 0x8B, 0x7C, 0x32, 0xC5, 0xAE, 0x59, 0x17, 0xE0,
    0x2A, 0xDD, 0x93, 0x64, 0x0F, 0xF8, 0xB6, 0x41, 0x60, 0x97, 0xD9, 0x2E, 0x45, 0xB2, 0xFC, 0x0B,
    0xBE, 0x49, 0x07, 0xF0, 0x9B, 0x6C, 0x22, 0xD5, 0xF4, 0x03, 0x4D, 0xBA, 0xD1, 0x26, 0x68, 0x9F]

/-- `CRC8_INIT_VALUE`. -/
def crc8InitValue : UInt8 := 0xff

/-- `hndcrc8(pdata, nbytes, crc)`. -/
def hndcrc8 (pdata : List UInt8) (crc : UInt8) : UInt8 :=
  pdata.foldl (fun crc b => crc8Table.getD (crc ^^^ b).toNat 0) crc

/-! ### CRC-16 -/

/-- `crc16_table`. -/
def crc16Table : List UInt16 :=
  [0x0000, 0x1189, 0x2312, 0x329B, 0x4624, 0x57AD, 0x6536, 0x74BF, 0x8C48, 0x9DC1, 0xAF5A, 0xBED3,
    0xCA6C, 0xDBE5, 0xE97E, 0xF8F7, 0x1081, 0x0108, 0x3393, 0x221A, 0x56A5, 0x472C, 0x75B7, 0x643E,
    0x9CC9, 0x8D40, 0xBFDB, 0xAE52, 0xDAED, 0xCB64, 0xF9FF, 0xE876, 0x2102, 0x308B, 0x0210, 0x1399,
    0x6726, 0x76AF, 0x4434, 0x55BD, 0xAD4A, 0xBCC3, 0x8E58, 0x9FD1, 0xEB6E, 0xFAE7, 0xC87C, 0xD9F5,
    0x3183, 0x200A, 0x1291, 0x0318, 0x77A7, 0x662E, 0x54B5, 0x453C, 0xBDCB, 0xAC42, 0x9ED9, 0x8F50,
    0xFBEF, 0xEA66, 0xD8FD, 0xC974, 0x4204, 0x538D, 0x6116, 0x709F, 0x0420, 0x15A9, 0x2732, 0x36BB,
    0xCE4C, 0xDFC5, 0xED5E, 0xFCD7, 0x8868, 0x99E1, 0xAB7A, 0xBAF3, 0x5285, 0x430C, 0x7197, 0x601E,
    0x14A1, 0x0528, 0x37B3, 0x263A, 0xDECD, 0xCF44, 0xFDDF, 0xEC56, 0x98E9, 0x8960, 0xBBFB, 0xAA72,
    0x6306, 0x728F, 0x4014, 0x519D, 0x2522, 0x34AB, 0x0630, 0x17B9, 0xEF4E, 0xFEC7, 0xCC5C, 0xDDD5,
    0xA96A, 0xB8E3, 0x8A78, 0x9BF1, 0x7387, 0x620E, 0x5095, 0x411C, 0x35A3, 0x242A, 0x16B1, 0x0738,
    0xFFCF, 0xEE46, 0xDCDD, 0xCD54, 0xB9EB, 0xA862, 0x9AF9, 0x8B70, 0x8408, 0x9581, 0xA71A, 0xB693,
    0xC22C, 0xD3A5, 0xE13E, 0xF0B7, 0x0840, 0x19C9, 0x2B52, 0x3ADB, 0x4E64, 0x5FED, 0x6D76, 0x7CFF,
    0x9489, 0x8500, 0xB79B, 0xA612, 0xD2AD, 0xC324, 0xF1BF, 0xE036, 0x18C1, 0x0948, 0x3BD3, 0x2A5A,
    0x5EE5, 0x4F6C, 0x7DF7, 0x6C7E, 0xA50A, 0xB483, 0x8618, 0x9791, 0xE32E, 0xF2A7, 0xC03C, 0xD1B5,
    0x2942, 0x38CB, 0x0A50, 0x1BD9, 0x6F66, 0x7EEF, 0x4C74, 0x5DFD, 0xB58B, 0xA402, 0x9699, 0x8710,
    0xF3AF, 0xE226, 0xD0BD, 0xC134, 0x39C3, 0x284A, 0x1AD1, 0x0B58, 0x7FE7, 0x6E6E, 0x5CF5, 0x4D7C,
    0xC60C, 0xD785, 0xE51E, 0xF497, 0x8028, 0x91A1, 0xA33A, 0xB2B3, 0x4A44, 0x5BCD, 0x6956, 0x78DF,
    0x0C60, 0x1DE9, 0x2F72, 0x3EFB, 0xD68D, 0xC704, 0xF59F, 0xE416, 0x90A9, 0x8120, 0xB3BB, 0xA232,
    0x5AC5, 0x4B4C, 0x79D7, 0x685E, 0x1CE1, 0x0D68, 0x3FF3, 0x2E7A, 0xE70E, 0xF687, 0xC41C, 0xD595,
    0xA12A, 0xB0A3, 0x8238, 0x93B1, 0x6B46, 0x7ACF, 0x4854, 0x59DD, 0x2D62, 0x3CEB, 0x0E70, 0x1FF9,
    0xF78F, 0xE606, 0xD49D, 0xC514, 0xB1AB, 0xA022, 0x92B9, 0x8330, 0x7BC7, 0x6A4E, 0x58D5, 0x495C,
    0x3DE3, 0x2C6A, 0x1EF1, 0x0F78]

/-- `CRC16_INIT_VALUE`. -/
def crc16InitValue : UInt16 := 0xffff

/-- `CRC16_GOOD_VALUE`. -/
def crc16GoodValue : UInt16 := 0xf0b8

/-- `CRC_INNER_LOOP(16, crc, b)`. -/
def crc16Step (crc : UInt16) (b : UInt8) : UInt16 :=
  (crc >>> 8) ^^^ crc16Table.getD ((crc ^^^ b.toUInt16) &&& 0xff).toNat 0

/-- `hndcrc16(pdata, nbytes, crc)`. -/
def hndcrc16 (pdata : List UInt8) (crc : UInt16) : UInt16 := pdata.foldl crc16Step crc

theorem hndcrc16_append (l l' : List UInt8) (crc : UInt16) :
    hndcrc16 (l ++ l') crc = hndcrc16 l' (hndcrc16 l crc) := List.foldl_append ..

/-- The bytes of a 16-bit word in memory. -/
def bytes16 (w : UInt16) : List UInt8 := [w.toUInt8, (w >>> 8).toUInt8]

end Bcm
end Router
