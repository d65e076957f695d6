/-
# Cyclic redundancy checks

A reflected CRC of `w` bits divides a message by a polynomial, bit after bit and low bits first: `divide` is the register
that this leaves. The polynomial is the word of its coefficients below `x^w`, the constant one highest (`reflected`).

Eight bits at a time it is a look-up in a table (`tableStep_eq`). What is checked with its own complement behind it leaves
one value (`divide_complement`), and, the polynomial having a constant term, no change of a single byte is missed
(`divide_ne`).
-/
import Mathlib.Tactic

namespace Crc

/-- The word of a polynomial, a list of exponents. -/
def reflected (w : ℕ) (exponents : List ℕ) : BitVec w :=
  (BitVec.ofBoolListLE ((List.range w).map fun i => decide (w - 1 - i ∈ exponents))).setWidth w

variable {w : ℕ} (poly : BitVec w)

/-- A bit of the message is divided. -/
def divideBit (c : BitVec w) (bit : Bool) : BitVec w :=
  if c.getLsbD 0 ^^ bit then (c >>> 1) ^^^ poly else c >>> 1

/-- A message is divided, from a register on. -/
def divide (message : List Bool) (c : BitVec w) : BitVec w := message.foldl (divideBit poly) c

/-- So many bits without a message. -/
def steps (n : ℕ) (c : BitVec w) : BitVec w := divide poly (List.replicate n false) c

/-- The lowest bits of a word. -/
def bits {k : ℕ} (n : ℕ) (v : BitVec k) : List Bool := (List.range n).map v.getLsbD

/-- The bits of bytes, in order. -/
def messageBits (l : List UInt8) : List Bool := l.flatMap fun b => bits 8 b.toBitVec

/-- The lowest bytes of a word. -/
def wordBytes (n : ℕ) (v : BitVec w) : List UInt8 :=
  (List.range n).map fun i => UInt8.ofBitVec ((v >>> (8 * i)).setWidth 8)

/-! ### Parts of a message -/

section Parts

variable {poly}

@[simp] theorem divide_append (l l' : List Bool) (c : BitVec w) :
    divide poly (l ++ l') c = divide poly l' (divide poly l c) := List.foldl_append

@[simp] theorem bits_succ {k : ℕ} (n : ℕ) (v : BitVec k) : bits (n + 1) v = bits n v ++ [v.getLsbD n] := by
  rw [bits, List.range_succ, List.map_append]
  rfl

@[simp] theorem messageBits_append (l l' : List UInt8) : messageBits (l ++ l') = messageBits l ++ messageBits l' :=
  List.flatMap_append

theorem divide_cons (b : UInt8) (l : List UInt8) (c : BitVec w) :
    divide poly (messageBits (b :: l)) c = divide poly (messageBits l) (divide poly (bits 8 b.toBitVec) c) :=
  divide_append ..

theorem bits_setWidth {k n : ℕ} (hn : n ≤ w) (v : BitVec k) : bits n (v.setWidth w) = bits n v := by
  refine List.map_congr_left fun i hi => ?_
  rw [BitVec.getLsbD_setWidth, decide_eq_true (lt_of_lt_of_le (List.mem_range.mp hi) hn), Bool.true_and]

theorem bits_add {k : ℕ} (v : BitVec k) (m : ℕ) : ∀ n, bits (m + n) v = bits m v ++ bits n (v >>> m)
  | 0 => by simp [bits]
  | n + 1 => by
    rw [← Nat.add_assoc, bits_succ, bits_add v m n, bits_succ, List.append_assoc, BitVec.getLsbD_ushiftRight]

/-- The bytes of a word have its bits. -/
theorem messageBits_wordBytes (v : BitVec w) : ∀ n, messageBits (wordBytes n v) = bits (8 * n) v
  | 0 => rfl
  | n + 1 => by
    rw [wordBytes, List.range_succ, List.map_append, messageBits_append, Nat.mul_succ, bits_add]
    congr 1
    · exact messageBits_wordBytes v n
    · show messageBits [_] = _
      rw [messageBits, List.flatMap_singleton, UInt8.toBitVec_ofBitVec]
      exact bits_setWidth le_rfl _

end Parts

/-! ### A word of the message at a time -/

section Words

variable {poly}

theorem divideBit_xor (c y : BitVec w) :
    divideBit poly (c ^^^ y) false = divideBit poly c (y.getLsbD 0) ^^^ (y >>> 1) := by
  unfold divideBit
  rw [BitVec.getLsbD_xor, Bool.xor_false, BitVec.ushiftRight_xor_distrib]
  split_ifs
  · rw [BitVec.xor_assoc, BitVec.xor_comm (y >>> 1), ← BitVec.xor_assoc]
  · rfl

/-- The bits of a word are divided together when they are in the register beforehand. -/
theorem steps_xor (c v : BitVec w) : ∀ n, steps poly n (c ^^^ v) = divide poly (bits n v) c ^^^ (v >>> n)
  | 0 => by simp [steps, divide, bits]
  | n + 1 => by
    have ih : divide poly (List.replicate n false) (c ^^^ v) = divide poly (bits n v) c ^^^ (v >>> n) := steps_xor c v n
    rw [steps, List.replicate_succ', divide_append, ih, bits_succ, divide_append, BitVec.shiftRight_add]
    have hbit := @divideBit_xor w poly (divide poly (bits n v) c) (v >>> n)
    rw [BitVec.getLsbD_ushiftRight, Nat.add_zero] at hbit
    exact hbit

/-- **A complement behind its CRC**: every bit of the register is set. -/
theorem divide_complement (c : BitVec w) : divide poly (bits w (~~~c)) c = steps poly w (BitVec.allOnes w) := by
  have h := @steps_xor w poly c (~~~c) w
  rw [BitVec.ushiftRight_eq_zero (le_refl w), BitVec.xor_zero] at h
  rw [← h]
  congr 1
  ext i hi
  simp

theorem steps_byte (hw : 8 ≤ w) (c : BitVec w) (b : BitVec 8) :
    steps poly 8 (c ^^^ b.setWidth w) = divide poly (bits 8 b) c := by
  have hzero : b.setWidth w >>> 8 = 0 := by
    ext i hi
    simp
  rw [steps_xor, hzero, bits_setWidth hw]
  exact BitVec.xor_zero

/-- The low byte of a word, as a word. -/
theorem getLsbD_lowByte (x : BitVec w) (i : ℕ) :
    (BitVec.ofNat w (x.toNat % 256)).getLsbD i = (decide (i < 8) && x.getLsbD i) := by
  rw [BitVec.getLsbD_ofNat, show 256 = 2 ^ 8 from rfl, Nat.testBit_mod_two_pow]
  by_cases hi : i < w
  · rw [decide_eq_true hi, Bool.true_and]
    rfl
  · rw [decide_eq_false hi, BitVec.getLsbD_of_ge x i (Nat.not_lt.mp hi), Bool.false_and, Bool.and_false]

/-- An entry of a table that is given as a list. -/
theorem getD_of_map {α : Type*} {f : α → BitVec w} {l : List α} {n : ℕ} {entry : ℕ → BitVec w}
    (h : l.map f = (List.range n).map entry) (d : α) (i : Fin n) : f (l.getD i d) = entry i := by
  have hlen : l.length = n := by
    have hboth := congrArg List.length h
    rwa [List.length_map, List.length_map, List.length_range] at hboth
  have hi : (i : ℕ) < l.length := by
    rw [hlen]
    exact i.isLt
  have hget := List.getElem_of_eq h (by rwa [List.length_map])
  rw [List.getElem_map, List.getElem_map, List.getElem_range] at hget
  rw [List.getD_eq_getElem?_getD, List.getElem?_eq_getElem hi]
  exact hget

/-- A byte is divided by a look-up, in a table of what eight bits leave of each byte. -/
theorem tableStep_eq (hw : 8 ≤ w) {table : ℕ → BitVec w}
    (htable : ∀ n : Fin 256, table n = steps poly 8 (BitVec.ofNat w n)) (c : BitVec w) (b : BitVec 8) :
    (c >>> 8) ^^^ table ((c ^^^ b.setWidth w).toNat % 256) = divide poly (bits 8 b) c := by
  rw [← steps_byte hw c b, htable ⟨_, Nat.mod_lt _ (by decide)⟩]
  set x := c ^^^ b.setWidth w with hx
  set low := BitVec.ofNat w (x.toNat % 256) with hlow
  have hsplit : x = low ^^^ (x ^^^ low) := by
    rw [BitVec.xor_comm x, ← BitVec.xor_assoc, BitVec.xor_self, BitVec.zero_xor]
  -- above the low byte nothing is divided
  have hbits : bits 8 (x ^^^ low) = List.replicate 8 false := by
    refine List.eq_replicate_iff.mpr ⟨by simp [bits], fun v hv => ?_⟩
    obtain ⟨i, hi, rfl⟩ := List.mem_map.mp hv
    rw [BitVec.getLsbD_xor, getLsbD_lowByte, decide_eq_true (List.mem_range.mp hi), Bool.true_and, Bool.xor_self]
  have hshift : (x ^^^ low) >>> 8 = c >>> 8 := by
    apply BitVec.eq_of_getLsbD_eq
    intro i hi
    rw [BitVec.getLsbD_ushiftRight, BitVec.getLsbD_ushiftRight, BitVec.getLsbD_xor, getLsbD_lowByte,
      decide_eq_false (by omega), Bool.false_and, Bool.xor_false, hx, BitVec.getLsbD_xor, BitVec.getLsbD_setWidth,
      BitVec.getLsbD_of_ge b _ (by omega), Bool.and_false, Bool.xor_false]
  conv_rhs => rw [hsplit, steps_xor, hbits, hshift, BitVec.xor_comm]
  rfl

end Words

/-! ### Changes that are seen -/

section Changes

variable {poly}

/-- With a constant term the register tells which way a bit was divided. -/
theorem divideBit_msb (hpoly : poly.msb = true) (c : BitVec w) (bit : Bool) :
    (divideBit poly c bit).msb = (c.getLsbD 0 ^^ bit) := by
  have hshift : (c >>> 1).msb = false := by rw [BitVec.msb_ushiftRight, decide_eq_true Nat.one_pos]; rfl
  unfold divideBit
  split_ifs with h
  · rw [BitVec.msb_xor, hshift, hpoly, h]
    rfl
  · rw [hshift, Bool.eq_false_iff.mpr h]

theorem divideBit_injective (hpoly : poly.msb = true) (bit : Bool) :
    Function.Injective fun c => divideBit poly c bit := by
  intro c c' h
  have hmsb := congrArg BitVec.msb h
  dsimp only at hmsb
  rw [divideBit_msb hpoly, divideBit_msb hpoly] at hmsb
  have hlow : c.getLsbD 0 = c'.getLsbD 0 := by simpa using hmsb
  have hshift : c >>> 1 = c' >>> 1 := by
    dsimp only at h
    unfold divideBit at h
    rw [hlow] at h
    split_ifs at h
    · exact (BitVec.xor_left_inj poly).mp h
    · exact h
  apply BitVec.eq_of_getLsbD_eq
  intro i hi
  cases i with
  | zero => exact hlow
  | succ i =>
    have hbit : (c >>> 1).getLsbD i = (c' >>> 1).getLsbD i := by rw [hshift]
    rwa [BitVec.getLsbD_ushiftRight, BitVec.getLsbD_ushiftRight, Nat.add_comm] at hbit

theorem divide_injective (hpoly : poly.msb = true) : ∀ l : List Bool, Function.Injective (divide poly l)
  | [] => fun _ _ h => h
  | bit :: l => fun _ _ h => divideBit_injective hpoly bit (divide_injective hpoly l h)

/-- Two bytes that differ leave different registers. -/
theorem divide_byte_injective (hw : 8 ≤ w) (hpoly : poly.msb = true) (c : BitVec w) :
    Function.Injective fun b : BitVec 8 => divide poly (bits 8 b) c := by
  intro b b' h
  dsimp only at h
  rw [← steps_byte hw, ← steps_byte hw] at h
  have hxor := divide_injective hpoly _ h
  rw [BitVec.xor_right_inj] at hxor
  have := congrArg (BitVec.setWidth 8) hxor
  rwa [BitVec.setWidth_setWidth_of_le _ hw, BitVec.setWidth_setWidth_of_le _ hw, BitVec.setWidth_eq,
    BitVec.setWidth_eq] at this

/-- **One byte changed** is never missed. -/
theorem divide_ne (hw : 8 ≤ w) (hpoly : poly.msb = true) {b b' : UInt8} (hne : b ≠ b') (l l' : List UInt8) (c : BitVec w) :
    divide poly (messageBits (l ++ b :: l')) c ≠ divide poly (messageBits (l ++ b' :: l')) c := by
  intro h
  rw [messageBits_append, messageBits_append, divide_append, divide_append, divide_cons, divide_cons] at h
  have hbyte := divide_byte_injective hw hpoly _ (divide_injective hpoly _ h)
  exact hne (UInt8.toBitVec_inj.mp hbyte)

end Changes

end Crc
