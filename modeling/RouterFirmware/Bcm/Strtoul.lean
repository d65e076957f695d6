/-
# What `bcm_strtoul` reads

The number parser of `shared/bcmutils.c` to the bases 10 and 16, as what stands in the text: `bcmStrtoul_eq`.
-/
import RouterFirmware.Bcm.Utils
import RouterFirmware.Lib.Number

namespace Router
namespace Bcm

open CText

/-- All bytes with their classes, looked up in a row. -/
theorem forall_ismask {p : UInt8 → UInt8 → Prop} [∀ c m, Decidable (p c m)]
    (h : ((bcmCtypeRuns.flatMap fun r => List.replicate r.2 r.1).zipIdx.all fun x =>
      decide (p (UInt8.ofNat x.2) x.1)) = true) (c : UInt8) : p c (bcmIsmask c) := by
  have hlen : (bcmCtypeRuns.flatMap fun r => List.replicate r.2 r.1).length = 256 := by decide +kernel
  have hc : c.toNat < (bcmCtypeRuns.flatMap fun r => List.replicate r.2 r.1).length := by
    rw [hlen]
    exact c.toNat_lt
  have hmem := List.mk_mem_zipIdx_iff_getElem?.mpr (List.getElem?_eq_getElem hc)
  have hp := of_decide_eq_true (List.all_eq_true.mp h _ hmem)
  dsimp only at hp
  rw [UInt8.ofNat_toNat] at hp
  rw [bcmIsmask, List.getD_eq_getElem _ _ hc]
  exact hp

/-- The character classes say which bytes are digits, and what they stand for. -/
theorem xdigit_eq : ∀ c : UInt8, bcmIsxdigit c = digitIn 16 c ∧ (digitIn 16 c = true →
    (if bcmIsdigit c then (c - 48).toUInt32 else (bcmToupper c - 65 + 10).toUInt32) = UInt32.ofNat (digitOf c)) :=
  forall_ismask (p := fun c m => decide (m &&& 0x44 ≠ 0) = digitIn 16 c ∧ (digitIn 16 c = true →
    (if decide (m &&& 0x04 ≠ 0) then (c - 48).toUInt32
      else ((if m &&& 0x02 ≠ 0 then c + 65 - 97 else c) - 65 + 10).toUInt32) = UInt32.ofNat (digitOf c)))
    (by decide +kernel)

section Base

variable {b : ℕ}

theorem isDigit_iff_digitIn (hb : b ≤ 16) (c : UInt8) : (bcmIsxdigit c &&
    (if bcmIsdigit c then (c - 48).toUInt32 else (bcmToupper c - 65 + 10).toUInt32) < UInt32.ofNat b) = digitIn b c := by
  obtain ⟨hx, hvalue⟩ := xdigit_eq c
  rw [hx]
  cases h : digitIn 16 c with
  | false =>
    have hge : ¬digitOf c < 16 := of_decide_eq_false h
    exact (decide_eq_false fun hlt => hge (by omega)).symm
  | true =>
    have hlt : digitOf c < 16 := of_decide_eq_true h
    rw [hvalue h, Bool.true_and, digitIn, decide_eq_decide, UInt32.lt_iff_toNat_lt, UInt32.toNat_ofNat', UInt32.toNat_ofNat']
    omega

theorem strtoulDigits_eq (hb : b ≤ 16) : ∀ (s : Bytes) (n : ℕ), strtoulDigits (UInt32.ofNat b) (UInt32.ofNat n) s =
    (UInt32.ofNat ((s.takeWhile (digitIn b)).foldl (fun n c => b * n + digitOf c) n), s.dropWhile (digitIn b))
  | [], _ => rfl
  | c :: s, n => by
    unfold strtoulDigits
    dsimp only
    rw [isDigit_iff_digitIn hb]
    cases hx : digitIn b c with
    | false => rw [List.takeWhile_cons_of_neg (by simp [hx]), List.dropWhile_cons_of_neg (by simp [hx])]; rfl
    | true =>
      have h16 : digitIn 16 c = true := by
        rw [digitIn, decide_eq_true_iff] at hx ⊢
        omega
      have hvalue : UInt32.ofNat n * UInt32.ofNat b + UInt32.ofNat (digitOf c) = UInt32.ofNat (b * n + digitOf c) := by
        rw [UInt32.ofNat_add, UInt32.ofNat_mul, UInt32.mul_comm]
      rw [if_pos rfl, (xdigit_eq c).2 h16, hvalue, strtoulDigits_eq hb s, List.takeWhile_cons_of_pos hx,
        List.dropWhile_cons_of_pos hx]
      rfl

/-- What counts as a prefix: `0x` to base 16, whatever follows it. -/
def bcmPrefix (b : ℕ) (s : Bytes) : Bool := b = 16 && zeroX s

/-- **`bcm_strtoul` returns the number that stands in the text**, 32 bits wide. -/
theorem bcmStrtoul_eq (hb : b = 10 ∨ b = 16) (s : Bytes) : bcmStrtoul s (UInt32.ofNat b) =
    (if (readNumber b bcmIsspace (bcmPrefix b) s).1
      then 0 - UInt32.ofNat (valueIn b (readNumber b bcmIsspace (bcmPrefix b) s).2.1)
      else UInt32.ofNat (valueIn b (readNumber b bcmIsspace (bcmPrefix b) s).2.1),
      (readNumber b bcmIsspace (bcmPrefix b) s).2.2) := by
  have hdigits (s : Bytes) : strtoulDigits (UInt32.ofNat b) 0 s =
      (UInt32.ofNat (valueIn b (s.takeWhile (digitIn b))), s.dropWhile (digitIn b)) :=
    strtoulDigits_eq (by omega) s 0
  have hbase : UInt32.ofNat b ≠ 0 := by rcases hb with rfl | rfl <;> decide
  have hpre : ∀ s : Bytes, (UInt32.ofNat b = 16 ∧ s.head? = some 48 ∧
      (s.tail.head? = some 120 ∨ s.tail.head? = some 88)) ↔ bcmPrefix b s = true := by
    intro s
    rcases hb with rfl | rfl
    · exact iff_of_false (fun h => absurd h.1 (by decide)) (by simp [bcmPrefix])
    · simp [bcmPrefix, zeroX]
  -- the base stays as it is
  have hpair (s : Bytes) : (if bcmPrefix b s = true then (16, s.drop 2) else (UInt32.ofNat b, s)) =
      (UInt32.ofNat b, if bcmPrefix b s = true then s.drop 2 else s) := by
    split_ifs with h
    · rw [((hpre s).mpr h).1]
    · rfl
  unfold bcmStrtoul readNumber
  simp only [decide_eq_true_eq, if_neg hbase, hpre, hpair, hdigits]

end Base

theorem ofNat_sub_mod {n : ℕ} (h : n < 2 ^ 32) : UInt8.ofNat ((2 ^ 32 - n) % 2 ^ 32) = 0 - UInt8.ofNat n := by
  apply UInt8.toNat.inj
  rw [UInt8.toNat_sub, UInt8.toNat_ofNat', UInt8.toNat_ofNat']
  norm_num
  omega

end Bcm
end Router
