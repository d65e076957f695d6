/-
# Positions one after the other

A loop goes from a position to the next one, `next`, until one stops it. Among finitely many positions it comes to one
that stops it, unless it comes back to a position where it was before (`exists_stop_iff`).

`Stops k`: it is at the `k`-th position that the loop stops.
-/
import Mathlib.Data.Fintype.EquivFin
import Mathlib.Logic.Function.Iterate
import Mathlib.Tactic

namespace Orbit

variable {α : Type*} (next : α → α) (stop : α → Prop) (x : α)

/-- The loop comes to the `k`-th position. -/
def Open (k : ℕ) : Prop := ∀ j < k, ¬stop (next^[j] x)

/-- The loop stops at the `k`-th position. -/
structure Stops (k : ℕ) : Prop where
  opened : Open next stop x k
  stop : stop (next^[k] x)

variable {next stop x}

theorem Open.mono {k k' : ℕ} (h : Open next stop x k) (hle : k' ≤ k) : Open next stop x k' :=
  fun j hj => h j (lt_of_lt_of_le hj hle)

/-- It stops once. -/
theorem Stops.unique {k k' : ℕ} (h : Stops next stop x k) (h' : Stops next stop x k') : k = k' := by
  rcases Nat.lt_trichotomy k k' with hlt | heq | hgt
  · exact absurd h.stop (h'.opened k hlt)
  · exact heq
  · exact absurd h'.stop (h.opened k' hgt)

/-- It stops at the first position that stops it. -/
theorem exists_stops {k : ℕ} (h : stop (next^[k] x)) : ∃ k, Stops next stop x k := by
  classical
  have hex : ∃ k, stop (next^[k] x) := ⟨k, h⟩
  exact ⟨Nat.find hex, fun j hj => Nat.find_min hex hj, Nat.find_spec hex⟩

/-- From a position where it was before it goes on as before. -/
theorem iterate_of_return {i j : ℕ} (h : next^[i] x = next^[j] x) (n : ℕ) : next^[i + n] x = next^[j + n] x := by
  rw [Nat.add_comm i, Nat.add_comm j, Function.iterate_add_apply, Function.iterate_add_apply, h]

/-- A loop that comes back does not stop. -/
theorem open_of_return {i j : ℕ} (hij : i < j) (hopen : ∀ k ≤ j, ¬stop (next^[k] x))
    (h : next^[i] x = next^[j] x) : ∀ k, ¬stop (next^[k] x) := by
  intro k
  induction k using Nat.strongRecOn with
  | ind k ih =>
    rcases Nat.lt_or_ge j k with hlt | hle
    · have hback : next^[k] x = next^[i + (k - j)] x := by
        rw [iterate_of_return h, Nat.add_sub_cancel' (Nat.le_of_lt hlt)]
      rw [hback]
      exact ih _ (by omega)
    · exact hopen k hle

/-- **Stop or come back.** -/
theorem exists_stop_iff [Finite α] : (∃ k, Stops next stop x k) ↔
    ∀ i j, i < j → (∀ k ≤ j, ¬stop (next^[k] x)) → next^[i] x ≠ next^[j] x := by
  constructor
  · rintro ⟨k, hk⟩ i j hij hopen h
    exact open_of_return hij hopen h k hk.stop
  · intro h
    by_contra hnone
    have hopen : ∀ k, ¬stop (next^[k] x) := fun k hk => hnone (exists_stops hk)
    apply not_injective_infinite_finite fun k => next^[k] x
    intro i j hij
    rcases Nat.lt_trichotomy i j with hlt | heq | hgt
    · exact absurd hij (h i j hlt fun k _ => hopen k)
    · exact heq
    · exact absurd hij.symm (h j i hgt fun k _ => hopen k)

end Orbit
