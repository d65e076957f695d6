/-
# Loops that return

A loop with a number of turns to spend, the fuel, is a function of that number: `none` as long as it is not enough.
`Returns run P` says that from some number on the loop returns one and the same result, of which `P` holds. Loops that
follow one another, or are nested, are put together by `Returns.bind`, and a turn is taken off by `Returns.turn`.
-/
import Mathlib.Tactic

namespace Fuel

variable {α β : Type*}

/-- With enough fuel there is a result, always the same, and `P` holds of it. -/
def Returns (run : ℕ → Option α) (P : α → Prop) : Prop := ∃ r, P r ∧ ∃ n, ∀ fuel ≥ n, run fuel = some r

variable {run : ℕ → Option α} {next : α → ℕ → Option β} {P Q : α → Prop} {R : β → Prop}

theorem Returns.mono (h : Returns run P) (hPQ : ∀ r, P r → Q r) : Returns run Q := by
  obtain ⟨r, hr, hrun⟩ := h
  exact ⟨r, hPQ r hr, hrun⟩

theorem returns_some {r : α} (hr : P r) : Returns (fun _ => some r) P := ⟨r, hr, 0, fun _ _ => rfl⟩

/-- A loop whose result is known. -/
theorem returns_iff {r : α} {n : ℕ} (hrun : ∀ fuel ≥ n, run fuel = some r) : Returns run P ↔ P r := by
  constructor
  · rintro ⟨r', hr', n', hn'⟩
    have hboth := hn' (max n n') (le_max_right n n')
    rw [hrun (max n n') (le_max_left n n')] at hboth
    exact Option.some.inj hboth ▸ hr'
  · intro hr
    exact ⟨r, hr, n, hrun⟩

/-- One result only. -/
theorem Returns.and (h : Returns run P) (h' : Returns run Q) : Returns run fun r => P r ∧ Q r := by
  obtain ⟨r, hr, n, hn⟩ := h
  obtain ⟨r', hr', n', hn'⟩ := h'
  have heq : r = r' := by
    have hboth := hn (max n n') (le_max_left n n')
    rw [hn' (max n n') (le_max_right n n')] at hboth
    exact (Option.some.inj hboth).symm
  exact ⟨r, ⟨hr, heq ▸ hr'⟩, n, hn⟩

/-- What follows gets the same fuel. -/
theorem Returns.bind (h : Returns run P) (hnext : ∀ r, P r → Returns (next r) R) :
    Returns (fun fuel => (run fuel).bind fun r => next r fuel) R := by
  obtain ⟨r, hr, n, hn⟩ := h
  obtain ⟨t, ht, k, hk⟩ := hnext r hr
  refine ⟨t, ht, max n k, fun fuel hfuel => ?_⟩
  show (run fuel).bind _ = _
  rw [hn fuel (le_trans (le_max_left n k) hfuel), Option.bind_some]
  exact hk fuel (le_trans (le_max_right n k) hfuel)

theorem Returns.map {f : α → β} (h : Returns run P) (hf : ∀ r, P r → R (f r)) :
    Returns (fun fuel => (run fuel).map f) R := by
  obtain ⟨r, hr, n, hn⟩ := h
  refine ⟨f r, hf r hr, n, fun fuel hfuel => ?_⟩
  show (run fuel).map f = _
  rw [hn fuel hfuel, Option.map_some]

/-- What is made of the result by a function that loses nothing. -/
theorem returns_map_iff {f : α → β} (hf : Function.Injective f) :
    Returns (fun fuel => (run fuel).map f) R ↔ Returns run fun r => R (f r) := by
  constructor
  · rintro ⟨t, ht, n, hn⟩
    obtain ⟨r, hr, rfl⟩ := Option.map_eq_some_iff.mp (hn n (le_refl n))
    refine ⟨r, ht, n, fun fuel hfuel => ?_⟩
    obtain ⟨r', hr', heq⟩ := Option.map_eq_some_iff.mp (hn fuel hfuel)
    rw [hr', hf heq]
  · exact fun h => h.map fun r hr => hr

/-- What does not depend on the result. -/
theorem returns_and_iff {p : Prop} : Returns run (fun r => p ∧ P r) ↔ p ∧ Returns run P := by
  constructor
  · rintro ⟨r, ⟨hp, hr⟩, hrun⟩
    exact ⟨hp, r, hr, hrun⟩
  · rintro ⟨hp, r, hr, hrun⟩
    exact ⟨r, ⟨hp, hr⟩, hrun⟩

/-- A turn of a loop. -/
theorem Returns.turn {loop : ℕ → Option α} (h : Returns run P) (hloop : ∀ fuel, loop (fuel + 1) = run fuel) :
    Returns loop P := by
  obtain ⟨r, hr, n, hn⟩ := h
  refine ⟨r, hr, n + 1, fun fuel hfuel => ?_⟩
  obtain ⟨fuel, rfl⟩ := Nat.exists_eq_add_one_of_ne_zero (Nat.ne_zero_of_lt hfuel)
  rw [hloop]
  exact hn fuel (Nat.le_of_succ_le_succ hfuel)

theorem returns_turn_iff {loop : ℕ → Option α} (hloop : ∀ fuel, loop (fuel + 1) = run fuel) :
    Returns loop P ↔ Returns run P := by
  constructor
  · rintro ⟨r, hr, n, hn⟩
    exact ⟨r, hr, n, fun fuel hfuel => (hloop fuel).symm.trans (hn (fuel + 1) (Nat.le_succ_of_le hfuel))⟩
  · exact fun h => h.turn hloop

/-- A loop that never has a result. -/
theorem not_returns (hrun : ∀ fuel, run fuel = none) : ¬Returns run P := by
  rintro ⟨r, -, n, hn⟩
  have h := hn n (le_refl n)
  rw [hrun] at h
  cases h

end Fuel
