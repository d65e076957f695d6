/-
# Rings of cells

A ring of `n` cells `f`, of which those from index `a` on hold the list `l`
and all others are empty: `Cells n a f l`. An entry leaves at the front
(`Cells.pop`) and enters at the back (`Cells.push`); one cell stays free, so
that a full ring is told from an empty one.

Indices of a ring whose size is a power of two are kept in range by masking
with `n - 1`; on 32-bit words this is reduction modulo `n`, also where the
subtraction of two indices wraps around (`toNat_mask`, `toNat_mask_sub`).
-/
import Mathlib.Data.List.GetD
import Mathlib.Tactic

namespace Ring

variable {α : Type*}

/-- How far `j` is from `a`, going upwards around the ring. -/
def dist (n a j : ℕ) : ℕ := (j + n - a) % n

theorem dist_lt {n : ℕ} (hn : 0 < n) (a j : ℕ) : dist n a j < n := Nat.mod_lt _ hn

theorem dist_eq {n a j : ℕ} (ha : a < n) (hj : j < n) :
    dist n a j = if a ≤ j then j - a else j + n - a := by
  unfold dist
  split_ifs with h
  · rw [show j + n - a = j - a + n by omega, Nat.add_mod_right, Nat.mod_eq_of_lt (by omega)]
  · exact Nat.mod_eq_of_lt (by omega)

theorem add_mod_eq {n a d : ℕ} (ha : a < n) (hd : d < n) :
    (a + d) % n = if a + d < n then a + d else a + d - n := by
  split_ifs with h
  · exact Nat.mod_eq_of_lt h
  · rw [Nat.mod_eq_sub_mod (by omega), Nat.mod_eq_of_lt (by omega)]

/-- The cell `d` steps from `a` is at distance `d`. -/
theorem dist_add {n a d : ℕ} (ha : a < n) (hd : d < n) : dist n a ((a + d) % n) = d := by
  have hlt : (a + d) % n < n := Nat.mod_lt _ (by omega)
  rw [dist_eq ha hlt, add_mod_eq ha hd]
  split_ifs <;> omega

theorem add_dist {n a j : ℕ} (ha : a < n) (hj : j < n) : (a + dist n a j) % n = j := by
  have hlt := dist_lt (n := n) (by omega) a j
  rw [add_mod_eq ha hlt, dist_eq ha hj]
  split_ifs <;> omega

/-- The cells from `a` on hold `l`, and the others nothing. -/
structure Cells (n a : ℕ) (f : ℕ → Option α) (l : List (Option α)) : Prop where
  start_lt : a < n
  length_lt : l.length < n
  cell : ∀ j < n, f j = l.getD (dist n a j) none

namespace Cells

variable {n a : ℕ} {f : ℕ → Option α} {l : List (Option α)} {x : Option α}

theorem get (h : Cells n a f l) {d : ℕ} (hd : d < n) : f ((a + d) % n) = l.getD d none := by
  rw [h.cell _ (Nat.mod_lt _ (by omega)), dist_add h.start_lt hd]

theorem first (h : Cells n a f (x :: l)) : f a = x := by
  have h0 := h.get (d := 0) (by have := h.start_lt; omega)
  rw [Nat.add_zero, Nat.mod_eq_of_lt h.start_lt] at h0
  exact h0

/-- The list, read off the cells. -/
theorem map_range (h : Cells n a f l) :
    (List.range l.length).map (fun d => f ((a + d) % n)) = l := by
  have hlen := h.length_lt
  refine List.ext_getElem (by simp) fun d h1 h2 => ?_
  rw [List.getElem_map, List.getElem_range, h.get (by omega), List.getD_eq_getElem _ _ h2]

/-- A cell behind the list is empty. -/
theorem empty (h : Cells n a f l) {j : ℕ} (hj : j < n) (hd : l.length ≤ dist n a j) :
    f j = none := by
  rw [h.cell j hj, List.getD_eq_default _ _ hd]

/-- The first entry leaves. -/
theorem pop (h : Cells n a f (x :: l)) :
    Cells n ((a + 1) % n) (Function.update f a none) l := by
  have ha := h.start_lt
  have hlen : l.length + 1 < n := h.length_lt
  have ha' : (a + 1) % n < n := Nat.mod_lt _ (by omega)
  refine ⟨ha', by omega, fun j hj => ?_⟩
  have hd' := dist_eq ha' hj
  rw [add_mod_eq ha (by omega)] at hd'
  have hd := dist_eq ha hj
  by_cases he : j = a
  · subst he
    have hback : dist n ((j + 1) % n) j = n - 1 := by
      rw [add_mod_eq ha (by omega), hd']
      split_ifs <;> omega
    rw [Function.update_self, hback, List.getD_eq_default _ _ (by omega)]
  · have hstep : dist n a j = dist n ((a + 1) % n) j + 1 := by
      rw [add_mod_eq ha (by omega), hd', hd]
      split_ifs <;> omega
    rw [Function.update_of_ne he, h.cell j hj, hstep, List.getD_cons_succ]

/-- An entry enters behind the last. -/
theorem push (h : Cells n a f l) (hroom : l.length + 1 < n) (x : Option α) :
    Cells n a (Function.update f ((a + l.length) % n) x) (l ++ [x]) := by
  have ha := h.start_lt
  refine ⟨ha, by simpa using hroom, fun j hj => ?_⟩
  by_cases he : j = (a + l.length) % n
  · subst he
    rw [Function.update_self, dist_add ha (by omega), List.getD_append_right _ _ _ _ (le_refl _)]
    simp
  · have hne : dist n a j ≠ l.length := by
      intro hd
      apply he
      rw [← hd, add_dist ha hj]
    rw [Function.update_of_ne he, h.cell j hj]
    rcases Nat.lt_or_gt_of_ne hne with hlt | hgt
    · rw [List.getD_append _ _ _ _ hlt]
    · rw [List.getD_eq_default _ _ (by omega), List.getD_eq_default _ _ (by simp; omega)]

/-- Empty cells behind the list may be counted in. -/
theorem extend (h : Cells n a f l) {k : ℕ} (hk : l.length + k < n) :
    Cells n a f (l ++ List.replicate k none) := by
  refine ⟨h.start_lt, by simpa using hk, fun j hj => ?_⟩
  rw [h.cell j hj]
  by_cases hd : dist n a j < l.length
  · rw [List.getD_append _ _ _ _ hd]
  · rw [List.getD_append_right _ _ _ _ (by omega), List.getD_eq_default _ _ (by omega)]
    by_cases hr : dist n a j - l.length < k
    · rw [List.getD_replicate _ hr]
    · rw [List.getD_eq_default _ _ (by simpa using hr)]

end Cells

/-! ### Masked indices -/

/-- Masking reduces modulo a power of two. -/
theorem toNat_mask {n : UInt32} {k : ℕ} (hn : n.toNat = 2 ^ k) (x : UInt32) :
    (x &&& (n - 1)).toNat = x.toNat % n.toNat := by
  have hpos : 0 < 2 ^ k := Nat.two_pow_pos k
  have h1 : (1 : UInt32) ≤ n := UInt32.le_iff_toNat_le.mpr (show 1 ≤ n.toNat by omega)
  rw [UInt32.toNat_and, UInt32.toNat_sub_of_le _ _ h1, hn]
  exact Nat.and_two_pow_sub_one_eq_mod x.toNat k

theorem pow_dvd_size {n : UInt32} {k : ℕ} (hn : n.toNat = 2 ^ k) : n.toNat ∣ 2 ^ 32 := by
  have hlt : 2 ^ k < 2 ^ 32 := hn ▸ n.toNat_lt
  rw [hn]
  exact Nat.pow_dvd_pow 2 (Nat.le_of_lt ((Nat.pow_lt_pow_iff_right (by decide)).mp hlt))

theorem toNat_mask_add {n : UInt32} {k : ℕ} (hn : n.toNat = 2 ^ k) (x y : UInt32) :
    ((x + y) &&& (n - 1)).toNat = (x.toNat + y.toNat) % n.toNat := by
  rw [toNat_mask hn, UInt32.toNat_add, Nat.mod_mod_of_dvd _ (pow_dvd_size hn)]

/-- The masked difference of two indices is their distance. -/
theorem toNat_mask_sub {n : UInt32} {k : ℕ} (hn : n.toNat = 2 ^ k) {x y : UInt32}
    (hy : y.toNat < n.toNat) : ((x - y) &&& (n - 1)).toNat = dist n.toNat y.toNat x.toNat := by
  obtain ⟨c, hc⟩ := pow_dvd_size hn
  have hlt : n.toNat < 2 ^ 32 := n.toNat_lt
  have hcpos : 0 < c := by
    by_contra h0
    rw [Nat.eq_zero_of_not_pos h0] at hc
    omega
  rw [toNat_mask hn, UInt32.toNat_sub, Nat.mod_mod_of_dvd _ ⟨c, hc⟩, dist]
  have hsplit : 2 ^ 32 - y.toNat + x.toNat = x.toNat + n.toNat - y.toNat + n.toNat * (c - 1) := by
    have hm : n.toNat * c = n.toNat * (c - 1) + n.toNat := by
      rw [← Nat.mul_succ, Nat.succ_eq_add_one, Nat.sub_add_cancel hcpos]
    omega
  rw [hsplit, Nat.add_mul_mod_self_left]

/-- The masked difference of the two ends of a list of cells is its length. -/
theorem Cells.toNat_mask_sub {n x y : UInt32} {f : ℕ → Option α} {l : List (Option α)} {k : ℕ}
    (h : Cells n.toNat y.toNat f l) (hn : n.toNat = 2 ^ k)
    (hx : x.toNat = (y.toNat + l.length) % n.toNat) : ((x - y) &&& (n - 1)).toNat = l.length := by
  rw [Ring.toNat_mask_sub hn h.start_lt, hx, dist_add h.start_lt h.length_lt]

end Ring
