/-
# `memmove`

The `memmove` and `memcpy` of `shared/bcmstdlib.c`. A source below its destination is given to `memcpy`, which goes
upwards, by words where both are aligned; any other is copied downwards. For ranges that overlap it is the other way
round that would be right, so that what is copied there is right only by its content (`memmove_correct_iff`).
-/
import RouterFirmware.Lib.Copy
import RouterFirmware.Lib.CMem

namespace Router
namespace Bcm

open CMem

/-- The loop over words of `memcpy`: the memory, and `dw`, `sw` and `n` behind it. -/
def memcpyWords (m : Mem) : ℕ → ℕ → ℕ → Mem × ℕ × ℕ × ℕ
  | dw, sw, n + 4 => memcpyWords (write m dw [m sw, m (sw + 1), m (sw + 2), m (sw + 3)]) (dw + 4) (sw + 4) n
  | dw, sw, n => (m, dw, sw, n)

/-- `memcpy(dest, src, n)`. -/
def memcpy (m : Mem) (dest src n : ℕ) : Mem :=
  let (m, d, s, n) := if 4 ≤ n ∧ src % 4 = 0 ∧ dest % 4 = 0 then memcpyWords m dest src n else (m, dest, src, n)
  Copy.up m d s n

/-- `memmove(dest, src, n)`. -/
def memmove (m : Mem) (dest src n : ℕ) : Mem :=
  -- only use memmove if dest is after source, otherwise use memcopy
  if src < dest then memcpy m dest src n
  else Copy.down m dest src n

/-- A word from at least four bytes below is four bytes, one after the other. -/
theorem write_word (m : Mem) {d s : ℕ} (h : s + 4 ≤ d) :
    write m d [m s, m (s + 1), m (s + 2), m (s + 3)] = Copy.up m d s 4 := by
  funext i
  by_cases hi : d ≤ i ∧ i < d + 4
  · obtain ⟨k, rfl⟩ := Nat.exists_eq_add_of_le hi.1
    have hk : k < 4 := by omega
    have hword : write m d [m s, m (s + 1), m (s + 2), m (s + 3)] (d + k) =
        [m s, m (s + 1), m (s + 2), m (s + 3)].getD (d + k - d) 0 := if_pos hi
    rw [hword, Copy.up_inside hk, Copy.up_outside (by omega), Nat.add_sub_cancel_left]
    interval_cases k <;> rfl
  · rw [Copy.up_outside hi]
    exact if_neg hi

/-- To an aligned destination above an aligned source, words are bytes. -/
theorem memcpyWords_eq : ∀ (m : Mem) {dw sw : ℕ} (n : ℕ), sw < dw → sw % 4 = 0 → dw % 4 = 0 →
    Copy.up (memcpyWords m dw sw n).1 (memcpyWords m dw sw n).2.1 (memcpyWords m dw sw n).2.2.1
      (memcpyWords m dw sw n).2.2.2 = Copy.up m dw sw n
  | m, dw, sw, n + 4, hlt, hsw, hdw => by
    have ih := memcpyWords_eq (write m dw [m sw, m (sw + 1), m (sw + 2), m (sw + 3)]) n
      (show sw + 4 < dw + 4 by omega) (by omega) (by omega)
    rw [memcpyWords, ih, write_word m (by omega), ← Copy.up_add, Nat.add_comm]
  | m, dw, sw, 0, _, _, _ => rfl
  | m, dw, sw, 1, _, _, _ => rfl
  | m, dw, sw, 2, _, _, _ => rfl
  | m, dw, sw, 3, _, _, _ => rfl

/-- To a destination above its source, `memcpy` copies byte after byte. -/
theorem memcpy_eq (m : Mem) {dest src : ℕ} (n : ℕ) (h : src < dest) : memcpy m dest src n = Copy.up m dest src n := by
  unfold memcpy
  split_ifs with haligned
  · exact memcpyWords_eq m n h haligned.2.1 haligned.2.2
  · rfl

/-- How far two addresses are from each other. -/
def apart (dest src : ℕ) : ℕ := if src < dest then dest - src else src - dest

/-- **When `memmove` moves**: the destination holds what the source held, and every other byte is as it was, if and only
if the bytes of the source repeat at the distance of the two ranges. -/
theorem memmove_correct_iff (m : Mem) (dest src n : ℕ) :
    ((∀ i < n, memmove m dest src n (dest + i) = m (src + i)) ∧
      ∀ a, ¬(dest ≤ a ∧ a < dest + n) → memmove m dest src n a = m a) ↔
      Copy.Repeats m src (apart dest src) n := by
  unfold memmove apart
  rcases Nat.lt_trichotomy src dest with h | rfl | h
  · obtain ⟨δ, rfl⟩ := Nat.exists_eq_add_of_lt h
    rw [if_pos h, if_pos h, memcpy_eq m n h]
    have hδ : src + δ + 1 - src = δ + 1 := by omega
    rw [hδ, Nat.add_assoc src, ← Copy.repeats_iff_below (Nat.succ_pos δ) fun k hk => Copy.up_get m (Nat.succ_pos δ) hk]
    exact and_iff_left fun a ha => Copy.up_outside ha
  · rw [if_neg (Nat.lt_irrefl _), if_neg (Nat.lt_irrefl _), Nat.sub_self, Copy.down_self]
    exact ⟨fun _ k _ => rfl, fun _ => ⟨fun _ _ => rfl, fun _ _ => rfl⟩⟩
  · obtain ⟨δ, rfl⟩ := Nat.exists_eq_add_of_lt h
    have hnot : ¬dest + δ + 1 < dest := by omega
    have hδ : dest + δ + 1 - dest = δ + 1 := by omega
    rw [if_neg hnot, if_neg hnot, hδ, Nat.add_assoc dest,
      ← Copy.repeats_iff_above (Nat.succ_pos δ) fun k hk => Copy.down_get (Nat.succ_pos δ) m hk]
    exact and_iff_left fun a ha => Copy.down_outside ha

/-- Three bytes moved up by one are the first of them three times, and moved down the last. -/
theorem memmove_overlap :
    let m : Mem := fun a => UInt8.ofNat a
    (List.range 3).map (fun i => memmove m 11 10 3 (11 + i)) = [10, 10, 10] ∧
      (List.range 3).map (fun i => memmove m 10 11 3 (10 + i)) = [13, 13, 13] ∧
      ¬∀ i < 3, memmove m 11 10 3 (11 + i) = m (10 + i) := by
  refine ⟨by decide, by decide, fun h => absurd (h 1 (by decide)) (by decide)⟩

end Bcm
end Router
