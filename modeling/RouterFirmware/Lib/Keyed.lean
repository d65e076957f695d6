/-
# Tables whose records have distinct keys

A table gives each slot a key, and the key `z` says that the slot is empty. `Keyed z f`: no two slots have the same
key other than `z`. Slots may be emptied (`Keyed.erase`), and a slot may be given a key that no other slot has
(`Keyed.update`).
-/
import Mathlib.Logic.Function.Basic
import Mathlib.Tactic.Common

variable {ι κ : Type*} {z : κ} {f g : ι → κ}

/-- No two slots have the same key, the empty one apart. -/
def Keyed (z : κ) (f : ι → κ) : Prop := ∀ i j, f i ≠ z → f i = f j → i = j

theorem Keyed.const (z : κ) : Keyed z fun _ : ι => z := fun _ _ h => absurd rfl h

/-- Slots that are emptied. -/
theorem Keyed.erase (h : Keyed z f) (hg : ∀ i, g i ≠ z → g i = f i) : Keyed z g := by
  intro i j hi hij
  have hfi := hg i hi
  have hfj := hg j (hij ▸ hi)
  exact h i j (hfi ▸ hi) (hfi ▸ hfj ▸ hij)

/-- A slot that takes a key of its own. -/
theorem Keyed.update [DecidableEq ι] {j : ι} {k : κ} (h : Keyed z f) (hk : ∀ i, i ≠ j → k ≠ z → f i ≠ k) :
    Keyed z (Function.update f j k) := by
  intro i l hi hil
  rcases eq_or_ne i j with hij | hij <;> rcases eq_or_ne l j with hlj | hlj
  · rw [hij, hlj]
  · rw [hij, Function.update_self] at hi hil
    rw [Function.update_of_ne hlj] at hil
    exact absurd hil.symm (hk l hlj hi)
  · rw [Function.update_of_ne hij] at hi hil
    rw [hlj, Function.update_self] at hil
    exact absurd hil (hk i hij (hil ▸ hi))
  · rw [Function.update_of_ne hij] at hi hil
    rw [Function.update_of_ne hlj] at hil
    exact h i l hi hil
