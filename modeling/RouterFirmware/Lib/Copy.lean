/-
# Copying over itself

A memory `m` whose cells from `s` on are copied to `d`, one after the other: upwards (`up`) or downwards (`down`). Where
the two ranges overlap a cell may be read that has been written already. Upwards that is so for a target above its
source, and a cell of the target is then the one `d - s` below it (`up_get`); downwards for a target below its source,
and a cell is the one `s - d` above it (`down_get`). Either way the copy is right just where the source repeats at that
distance (`repeats_iff_below`, `repeats_iff_above`).
-/
import Mathlib.Logic.Function.Basic
import Mathlib.Tactic

namespace Copy

variable {α : Type*}

/-- `n` cells from `s` on to `d`, upwards. -/
def up (m : ℕ → α) : ℕ → ℕ → ℕ → ℕ → α
  | _, _, 0 => m
  | d, s, n + 1 => up (Function.update m d (m s)) (d + 1) (s + 1) n

/-- The same, downwards. -/
def down (m : ℕ → α) (d s : ℕ) : ℕ → ℕ → α
  | 0 => m
  | n + 1 => down (Function.update m (d + n) (m (s + n))) d s n

/-! ### Upwards -/

/-- The last cell that is copied. -/
theorem up_succ : ∀ (m : ℕ → α) (d s n : ℕ),
    up m d s (n + 1) = Function.update (up m d s n) (d + n) (up m d s n (s + n))
  | _, _, _, 0 => rfl
  | m, d, s, n + 1 => by
    have ih := up_succ (Function.update m d (m s)) (d + 1) (s + 1) n
    rw [Nat.add_right_comm d, Nat.add_right_comm s] at ih
    exact ih

theorem up_add (m : ℕ → α) (d s : ℕ) : ∀ j n : ℕ, up m d s (j + n) = up (up m d s j) (d + j) (s + j) n
  | j, 0 => rfl
  | j, n + 1 => by
    rw [← Nat.add_assoc, up_succ, up_add m d s j n, up_succ, Nat.add_assoc d, Nat.add_assoc s]

theorem up_outside {m : ℕ → α} {d s x : ℕ} : ∀ {n : ℕ}, ¬(d ≤ x ∧ x < d + n) → up m d s n x = m x
  | 0, _ => rfl
  | n + 1, h => by
    rw [up_succ, Function.update_of_ne (by omega)]
    exact up_outside (by omega)

/-- A cell of the target is the one of the source at the time it is copied. -/
theorem up_inside {m : ℕ → α} {d s k : ℕ} : ∀ {n : ℕ}, k < n → up m d s n (d + k) = up m d s k (s + k)
  | n + 1, h => by
    rw [up_succ]
    by_cases hkn : k = n
    · rw [hkn, Function.update_self]
    · rw [Function.update_of_ne (by omega)]
      exact up_inside (by omega)

/-- To a target above its source: the first cells are right, and each other one is that `δ` below it. -/
theorem up_get (m : ℕ → α) {s δ n k : ℕ} (hδ : 0 < δ) (hk : k < n) :
    up m (s + δ) s n (s + δ + k) = if k < δ then m (s + k) else up m (s + δ) s n (s + δ + (k - δ)) := by
  rw [up_inside hk]
  split_ifs with h
  · exact up_outside (by omega)
  · have hlow : s + k = s + δ + (k - δ) := by omega
    rw [hlow, up_inside (show k - δ < k by omega), up_inside (show k - δ < n by omega)]

/-! ### Downwards -/

theorem down_outside {d s x : ℕ} : ∀ {n : ℕ} {m : ℕ → α}, ¬(d ≤ x ∧ x < d + n) → down m d s n x = m x
  | 0, _, _ => rfl
  | n + 1, m, h => by
    rw [down, down_outside (by omega), Function.update_of_ne (by omega)]

/-- To a target below its source: the last cells are right, and each other one is that `δ` above it. -/
theorem down_get {d δ k : ℕ} (hδ : 0 < δ) : ∀ {n : ℕ} (m : ℕ → α), k < n →
    down m d (d + δ) n (d + k) = if k + δ < n then down m d (d + δ) n (d + (k + δ)) else m (d + δ + k)
  | n + 1, m, hk => by
    rw [down]
    rcases Nat.eq_or_lt_of_le (Nat.le_of_lt_succ hk) with rfl | hk'
    · rw [down_outside (by omega), Function.update_self, if_neg (by omega)]
    · rw [down_get hδ (Function.update m (d + n) (m (d + δ + n))) hk']
      rcases Nat.lt_trichotomy (k + δ) n with hlt | heq | hgt
      · rw [if_pos hlt, if_pos (by omega)]
      · rw [if_neg (by omega), if_pos (by omega), down_outside (by omega), show d + δ + k = d + (k + δ) by omega]
      · rw [if_neg (by omega), if_neg (by omega), Function.update_of_ne (by omega)]

/-- Onto itself nothing changes. -/
theorem down_self (m : ℕ → α) (d : ℕ) : ∀ n : ℕ, down m d d n = m
  | 0 => rfl
  | n + 1 => by rw [down, Function.update_eq_self, down_self m d n]

/-! ### Where the copy is right -/

/-- The cells from `s` on, `n` of them, repeat at the distance `δ`. -/
def Repeats (m : ℕ → α) (s δ n : ℕ) : Prop := ∀ k, k + δ < n → m (s + k) = m (s + (k + δ))

/-- A copy whose cells are those `δ` below them. -/
theorem repeats_iff_below {m f : ℕ → α} {s δ n : ℕ} (hδ : 0 < δ)
    (hf : ∀ k < n, f k = if k < δ then m (s + k) else f (k - δ)) :
    (∀ k < n, f k = m (s + k)) ↔ Repeats m s δ n := by
  constructor
  · intro hall k hk
    have hstep := hf (k + δ) hk
    rw [if_neg (by omega), Nat.add_sub_cancel] at hstep
    rw [← hall k (by omega), ← hstep, hall (k + δ) hk]
  · intro hrep k
    induction k using Nat.strongRecOn with
    | ind k ih =>
      intro hk
      rw [hf k hk]
      split_ifs with hlt
      · rfl
      · have hback := hrep (k - δ) (by omega)
        rw [Nat.sub_add_cancel (by omega)] at hback
        rw [ih (k - δ) (by omega) (by omega), hback]

/-- A copy whose cells are those `δ` above them. -/
theorem repeats_iff_above {m f : ℕ → α} {s δ n : ℕ} (hδ : 0 < δ)
    (hf : ∀ k < n, f k = if k + δ < n then f (k + δ) else m (s + k)) :
    (∀ k < n, f k = m (s + k)) ↔ Repeats m s δ n := by
  constructor
  · intro hall k hk
    have hstep := hf k (by omega)
    rw [if_pos hk] at hstep
    rw [← hall k (by omega), hstep, hall (k + δ) hk]
  · -- the cells are right from the last one down
    intro hrep k hk
    obtain ⟨j, hj⟩ := Nat.exists_eq_add_of_lt hk
    induction j using Nat.strongRecOn generalizing k with
    | ind j ih =>
      rw [hf k hk]
      split_ifs with hlt
      · rw [ih (j - δ) (by omega) (k + δ) hlt (by omega), hrep k hlt]
      · rfl

end Copy
