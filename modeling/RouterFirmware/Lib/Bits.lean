/-
# Flag words

A word of flags is tested with `w & b` and built with `w |= (v & f) ? b : 0`.
`hasBit` and `flagTo` are these two, and `bitIf` is a flag set under a
condition. What a word built so has set is read off by `hasBit_or`,
`hasBit_flagTo` and `hasBit_bitIf`; masking a single bit out is `and_bit`.
A mask parts a word in two (`toNat_and_not`).
-/
import Mathlib.Tactic

namespace Bits

variable {n m : ℕ}

/-- Whether one of the bits `b` of `w` is set: `w & b`, as a condition. -/
def hasBit (w b : BitVec n) : Bool := w &&& b != 0#n

/-- The bits `b` if the condition holds. -/
def bitIf (p : Bool) (b : BitVec n) : BitVec n := if p then b else 0#n

/-- `(flags & f) ? b : 0`. -/
def flagTo (flags f : BitVec n) (b : BitVec m) : BitVec m := bitIf (hasBit flags f) b

theorem hasBit_or (v w b : BitVec n) : hasBit (v ||| w) b = (hasBit v b || hasBit w b) := by
  unfold hasBit
  rw [BitVec.and_or_distrib_right, Bool.eq_iff_iff, Bool.or_eq_true, bne_iff_ne, bne_iff_ne, bne_iff_ne,
    ne_eq, BitVec.or_eq_zero_iff, not_and_or]

@[simp] theorem hasBit_zero (b : BitVec n) : hasBit 0#n b = false := by
  unfold hasBit
  rw [BitVec.zero_and]
  exact bne_self_eq_false _

theorem hasBit_bitIf (p : Bool) (b c : BitVec n) : hasBit (bitIf p b) c = (p && hasBit b c) := by
  cases p with
  | true => rfl
  | false => exact hasBit_zero c

theorem hasBit_flagTo (flags f : BitVec n) (b c : BitVec m) :
    hasBit (flagTo flags f b) c = (hasBit flags f && hasBit b c) := hasBit_bitIf _ _ _

/-- A single bit of a word. -/
theorem and_bit (w : BitVec n) {b : BitVec n} (i : ℕ) (hb : b = BitVec.twoPow n i) :
    w &&& b = bitIf (hasBit w b) b := by
  subst hb
  unfold hasBit bitIf
  rw [BitVec.and_twoPow]
  by_cases hi : w.getLsbD i = true
  · rw [if_pos hi]
    by_cases hz : BitVec.twoPow n i = 0#n
    · rw [hz]
      simp
    · rw [if_pos (by simpa using hz)]
  · rw [if_neg hi]
    simp

theorem and_bitIf (w b : BitVec n) (p : Bool) : w &&& bitIf p b = bitIf p (w &&& b) := by
  cases p with
  | true => rfl
  | false => exact BitVec.and_zero

theorem bitIf_bitIf (p q : Bool) (b : BitVec n) : bitIf p (bitIf q b) = bitIf (p && q) b := by
  cases p with
  | true => rfl
  | false => rfl

/-- A flag set under a condition, on top of others. -/
theorem or_ite (p : Prop) [Decidable p] (v b : BitVec n) :
    (if p then v ||| b else v) = v ||| bitIf (decide p) b := by
  unfold bitIf
  by_cases hp : p
  · simp [hp]
  · simp [hp]

/-! ### Masks -/

/-- The bits of a mask and the others have none in common. -/
theorem not_and_and (x m : BitVec n) : ~~~m &&& (x &&& m) = 0#n := by
  apply BitVec.eq_of_getLsbD_eq
  intro i hi
  simp only [BitVec.getLsbD_and, BitVec.getLsbD_not, BitVec.getLsbD_zero]
  cases m.getLsbD i <;> simp

/-- So that their sum has no carries. -/
theorem not_add_and (x m : BitVec n) : ~~~m + (x &&& m) = ~~~m ||| (x &&& m) :=
  BitVec.add_eq_or_of_and_eq_zero _ _ (not_and_and x m)

/-- A word is what a mask leaves of it, and what the other bits leave. -/
theorem toNat_and_not (x m : BitVec n) : (x &&& ~~~m).toNat + (x &&& m).toNat = x.toNat := by
  have hdisjoint : (x &&& ~~~m) &&& (x &&& m) = 0#n := by
    rw [BitVec.and_assoc, not_and_and, BitVec.and_zero]
  have hboth : (x &&& ~~~m) ||| (x &&& m) = x := by
    apply BitVec.eq_of_getLsbD_eq
    intro i hi
    simp only [BitVec.getLsbD_or, BitVec.getLsbD_and, BitVec.getLsbD_not, decide_eq_true hi]
    cases m.getLsbD i <;> simp
  calc (x &&& ~~~m).toNat + (x &&& m).toNat
      = ((x &&& ~~~m) + (x &&& m)).toNat := (BitVec.toNat_add_of_and_eq_zero hdisjoint).symm
    _ = x.toNat := by rw [BitVec.add_eq_or_of_and_eq_zero _ _ hdisjoint, hboth]

end Bits
