/-
# Words in two byte orders

`swap x` has the octets of `x` in reverse order. It moves bits (`getLsbD_swap`), so it goes through the operations on
bits and is undone by itself.

`Leading x` says that `x` is a run of ones followed by zeros. Such a word and its reverse are both of this form only if
there are no ones, or no zeros (`leading_swap`).
-/
import Mathlib.Tactic

namespace Octets

/-! ### Runs of ones -/

section Leading

variable {w : ℕ} {x : BitVec w}

/-- Ones, followed by zeros. -/
def Leading (x : BitVec w) : Prop := ∃ n, ∀ i < w, x.getMsbD i = decide (i < n)

/-- There is no zero above a one. -/
theorem leading_iff : Leading x ↔ ∀ i j, i < j → j < w → x.getLsbD i = true → x.getLsbD j = true := by
  have hmsb : ∀ i < w, x.getLsbD i = x.getMsbD (w - 1 - i) := by
    intro i hi
    rw [BitVec.getLsbD_eq_getMsbD, decide_eq_true hi, Bool.true_and]
  constructor
  · rintro ⟨n, hn⟩ i j hij hj hi
    rw [hmsb i (by omega), hn _ (by omega), decide_eq_true_eq] at hi
    rw [hmsb j hj, hn _ (by omega), decide_eq_true_eq]
    omega
  · intro hup
    by_cases hall : ∀ i < w, x.getMsbD i = true
    · refine ⟨w, fun i hi => ?_⟩
      rw [hall i hi, decide_eq_true hi]
    · push Not at hall
      -- the first zero ends the run
      obtain ⟨hlt, hzero⟩ := Nat.find_spec hall
      refine ⟨Nat.find hall, fun i hi => ?_⟩
      by_cases hin : i < Nat.find hall
      · rw [decide_eq_true hin]
        by_contra hne
        exact Nat.find_min hall hin ⟨hi, hne⟩
      · rw [decide_eq_false hin]
        by_contra hne
        rw [Bool.not_eq_false] at hne
        rcases Nat.eq_or_lt_of_le (Nat.le_of_not_lt hin) with heq | hgt
        · exact hzero (heq ▸ hne)
        · apply hzero
          have hbit := hup (w - 1 - i) (w - 1 - Nat.find hall) (by omega) (by omega)
          rw [hmsb _ (by omega), hmsb _ (by omega), show w - 1 - (w - 1 - i) = i by omega,
            show w - 1 - (w - 1 - Nat.find hall) = Nat.find hall by omega] at hbit
          exact hbit hne

end Leading

/-! ### The other order -/

/-- The octets in reverse order. -/
def swap (x : BitVec 32) : BitVec 32 :=
  x.extractLsb' 0 8 ++ x.extractLsb' 8 8 ++ x.extractLsb' 16 8 ++ x.extractLsb' 24 8

variable {x y : BitVec 32}

/-- Where a bit comes from. -/
theorem getLsbD_swap {i : ℕ} (hi : i < 32) : (swap x).getLsbD i = x.getLsbD (24 - 8 * (i / 8) + i % 8) := by
  unfold swap
  simp only [BitVec.getLsbD_append, BitVec.getLsbD_extractLsb']
  split_ifs with h1 h2 h3
  -- the octets, the lowest first
  · rw [decide_eq_true h1, Bool.true_and, show 24 - 8 * (i / 8) + i % 8 = 24 + i by omega]
  · rw [decide_eq_true h2, Bool.true_and, show 24 - 8 * (i / 8) + i % 8 = 16 + (i - 8) by omega]
  · rw [decide_eq_true h3, Bool.true_and, show 24 - 8 * (i / 8) + i % 8 = 8 + (i - 8 - 8) by omega]
  · rw [decide_eq_true (by omega), Bool.true_and, show 24 - 8 * (i / 8) + i % 8 = 0 + (i - 8 - 8 - 8) by omega]

@[simp] theorem swap_swap (x : BitVec 32) : swap (swap x) = x := by
  apply BitVec.eq_of_getLsbD_eq
  intro i hi
  rw [getLsbD_swap hi, getLsbD_swap (by omega)]
  congr 1
  omega

theorem swap_inj : swap x = swap y ↔ x = y := by
  constructor
  · intro h
    rw [← swap_swap x, h, swap_swap]
  · exact congrArg swap

theorem swap_and (x y : BitVec 32) : swap (x &&& y) = swap x &&& swap y := by
  apply BitVec.eq_of_getLsbD_eq
  intro i hi
  simp only [BitVec.getLsbD_and, getLsbD_swap hi]

theorem swap_or (x y : BitVec 32) : swap (x ||| y) = swap x ||| swap y := by
  apply BitVec.eq_of_getLsbD_eq
  intro i hi
  simp only [BitVec.getLsbD_or, getLsbD_swap hi]

theorem swap_not (x : BitVec 32) : swap (~~~x) = ~~~swap x := by
  apply BitVec.eq_of_getLsbD_eq
  intro i hi
  have hfrom : 24 - 8 * (i / 8) + i % 8 < 32 := by omega
  simp only [BitVec.getLsbD_not, getLsbD_swap hi, decide_eq_true hi, decide_eq_true hfrom]

/-- A word that leads in both orders has no ones, or no zeros. -/
theorem leading_swap (h : Leading x) (hswap : Leading (swap x)) : x = 0 ∨ x = BitVec.allOnes 32 := by
  rw [leading_iff] at h hswap
  by_cases htop : x.getLsbD 31 = true
  · right
    have hlow : x.getLsbD 0 = true := by
      have hbit := hswap 7 24 (by decide) (by decide)
      rw [getLsbD_swap (by decide), getLsbD_swap (by decide)] at hbit
      exact hbit htop
    apply BitVec.eq_of_getLsbD_eq
    intro i hi
    rw [BitVec.getLsbD_allOnes, decide_eq_true hi]
    rcases Nat.eq_zero_or_pos i with rfl | hpos
    · exact hlow
    · exact h 0 i hpos hi hlow
  · left
    apply BitVec.eq_of_getLsbD_eq
    intro i hi
    rw [show (0 : BitVec 32) = 0#32 from rfl, BitVec.getLsbD_zero]
    by_contra hne
    rw [Bool.not_eq_false] at hne
    rcases Nat.eq_or_lt_of_le (Nat.le_of_lt_succ hi) with rfl | hlt
    · exact htop hne
    · exact htop (h i 31 hlt (by decide) hne)

end Octets
