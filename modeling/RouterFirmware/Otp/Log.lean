/-
# The chunks of an OTP, and what a reader makes of them

A run of `otp_nvwrite` leaves a row of chunks, one an attempt. `attempts` gives those
of a call from the data, from where it begins, and from what fails.

`after` follows a reader along them. It goes from a good chunk to the word behind
it, and ends there if that is not magic. From a chunk with a bad CRC it goes where the
length says, or to the next magic word. A header may be lost (its magic word is not
left as programmed), and so may a length. It is lost on the reader when, behind that,
 - a magic word is none of a header,
 - a CRC is good by accident, or
 - the length of a chunk is 0, which leads back to it.
-/
import RouterFirmware.Otp.Chunks

namespace Router
namespace Otp

open Bits Bcm

/-! ### Chunks -/

/-- The chunk of a block. -/
def wholeChunk (data : List UInt16) : List UInt16 := otpMagic :: chunkLen data :: (data ++ [chunkCrc data])

/-- A chunk as an attempt left it: `block` is the data if nothing failed, and `bounded` says
that the boundary in the OTP is where it ends, and that a reader looks there. -/
structure Chunk where
  words : List UInt16
  block : Option (List UInt16)
  bounded : Bool
  long : 1 < words.length
  /-- A length that is written in part is even, and not larger. -/
  size : ∃ m ≤ words.length, (words.getD 1 0).toNat = 2 * m
  whole : ∀ data, block = some data → words = wholeChunk data

variable {f : Faults}

theorem leftChunk_long (t : ℕ) (data : List UInt16) : 1 < (leftChunk f t data).length :=
  Nat.succ_lt_succ (Nat.succ_pos _)

theorem leftChunk_size (t : ℕ) (data : List UInt16) :
    ∃ m ≤ (leftChunk f t data).length, ((leftChunk f t data).getD 1 0).toNat = 2 * m := by
  unfold leftChunk
  dsimp only
  generalize leftBody f (t + 1) (f t).isSome data (chunkCrc data) = body
  rw [List.getD_cons_succ, List.getD_cons_zero, List.length_cons, List.length_cons]
  have hlen : (UInt16.ofNat ((body.length + 2) * 2)).toNat = (body.length + 2) * 2 % 65536 := UInt16.toNat_ofNat'
  rcases left_eq (f := f) (t + 1 + body.length) (.ofNat ((body.length + 2) * 2)) with h | ⟨n, h⟩
  · refine ⟨(body.length + 2) % 32768, Nat.mod_le _ _, ?_⟩
    rw [h, hlen]
    omega
  · rw [h, hlen, UInt16.toNat_ofNat', Nat.mod_eq_of_lt (lt_of_le_of_lt (Nat.mod_le _ _) (Nat.mod_lt _ (by decide)))]
    cases n with
    | zero => exact ⟨0, Nat.zero_le _, Nat.mod_one _⟩
    | succ n =>
      refine ⟨(body.length + 2) % 32768 % 2 ^ n, (Nat.mod_le _ _).trans (Nat.mod_le _ _), ?_⟩
      rw [Nat.pow_succ', show (body.length + 2) * 2 % 65536 = 2 * ((body.length + 2) % 32768) by omega,
        Nat.mul_mod_mul_left]

instance (t n : ℕ) : Decidable (Clean f t n) := inferInstanceAs (Decidable (∀ k < n, f (t + k) = none))

/-- How often `signRegion` programs a word, when the chunk at `base` is written. -/
def signProgs (f : Faults) (base t : ℕ) : ℕ := if base = 0 then if f t = none then 2 else 1 else 0

/-- Whether the boundary `wn * 2`, written with the programming `t`, is one that a reader looks at. -/
def bounds (c : Chip) (f : Faults) (t wn : ℕ) : Bool :=
  left f t (.ofNat (wn * 2)) == .ofNat (wn * 2) &&
    (hasBit c.hwprot otpHwRegion || !c.rev17 && f t == none && left f (t + 1) otpSignature == otpSignature)

/-- The chunks of a call that begins at `base` with the programming `t`. -/
def attempts (c : Chip) (f : Faults) (data : List UInt16) : ℕ → ℕ → ℕ → List Chunk
  | 0, _, _ => []
  | fuel + 1, base, t =>
    let l := leftChunk f t data
    if h : Clean f t l.length then
      [⟨l, some data, false, leftChunk_long t data, leftChunk_size t data,
          fun _ heq => Option.some.inj heq ▸ leftChunk_of_clean h⟩]
    else
      ⟨l, none, base == 0 && bounds c f (t + l.length) l.length, leftChunk_long t data, leftChunk_size t data,
          fun _ heq => nomatch heq⟩ ::
        if data.length + 3 ≤ c.swlim - (base + l.length) then
          attempts c f data fuel (base + l.length) (t + l.length + signProgs f base (t + l.length))
        else []

/-! ### A reader -/

/-- Where a reader is when it has come to the end of the chunks: at the word behind them, on its
way to the next magic word, or stopped before. In `jump` it has only a magic word right
behind the chunks to go to, and takes another one for a header if there is none. -/
inductive Place
  | fresh
  | behind
  | search
  | jump
  | stuck
deriving DecidableEq

/-- A reader passes a chunk without a good CRC: its length leads behind it, or else to a word
that is not magic, as no other one of the chunk is. -/
def Passable (l : List UInt16) : Prop :=
  hndcrc16 (bytesOf (l.take ((l.getD 1 0).toNat / 2))) crc16InitValue ≠ crc16GoodValue ∧
    ((l.getD 1 0).toNat = l.length * 2 ∨ 0 < (l.getD 1 0).toNat ∧ otpMagic ∉ l.tail)

instance (l : List UInt16) : Decidable (Passable l) := inferInstanceAs (Decidable (_ ∧ _))

/-- Where a reader is one chunk later; `none` if it is led astray. -/
def after (p : Place) (ch : Chunk) : Option Place :=
  if ch.words.head? = some otpMagic then
    if p = .stuck then none
    else if ch.block.isSome then some .behind
    else if Passable ch.words then some (if otpMagic ∈ ch.words.tail then .jump else .search)
    else none
  else if otpMagic ∈ ch.words then none
  else
    -- the header is lost
    match p with
    | .fresh => some (if ch.bounded then .behind else .stuck)
    | .behind => some .stuck
    | .search => some .search
    | .jump => none
    | .stuck => some .stuck

/-- A reader finds its way along all the chunks. -/
def Readable (log : List Chunk) : Prop := ∃ p ≠ Place.jump, log.foldlM after Place.fresh = some p

end Otp
end Router
