/-
# Glob patterns

A pattern is a list of items: a character, any one character, a run without the separator, and any run. `Matches` says
which texts it is for. A run is tried at each length, so that what comes behind it decides (`matches_segment`,
`matches_any`).
-/
import Mathlib.Data.List.TakeWhile

namespace Glob

variable {α : Type*}

inductive Item (α : Type*) where
  | char (c : α)
  | one
  | segment
  | any

/-- The texts of a pattern, where `sep` is the separator. -/
inductive Matches (sep : α) : List (Item α) → List α → Prop
  | nil : Matches sep [] []
  | char {c p s} : Matches sep p s → Matches sep (.char c :: p) (c :: s)
  | one {c p s} : Matches sep p s → Matches sep (.one :: p) (c :: s)
  | segment {l p s} : sep ∉ l → Matches sep p s → Matches sep (.segment :: p) (l ++ s)
  | any {l p s} : Matches sep p s → Matches sep (.any :: p) (l ++ s)

variable {sep : α} {p : List (Item α)} {s : List α}

theorem matches_nil : Matches sep [] s ↔ s = [] := by
  constructor
  · rintro ⟨⟩
    rfl
  · rintro rfl
    exact .nil

theorem not_matches_char_nil {c : α} : ¬Matches sep (.char c :: p) [] := by
  rintro ⟨⟩

theorem not_matches_one_nil : ¬Matches sep (.one :: p) [] := by
  rintro ⟨⟩

theorem matches_char {c d : α} : Matches sep (.char c :: p) (d :: s) ↔ c = d ∧ Matches sep p s := by
  constructor
  · intro h
    cases h with
    | char h => exact ⟨rfl, h⟩
  · rintro ⟨rfl, h⟩
    exact .char h

theorem matches_one {d : α} : Matches sep (.one :: p) (d :: s) ↔ Matches sep p s := by
  constructor
  · intro h
    cases h with
    | one h => exact h
  · exact .one

/-- Any run: one of each length. -/
theorem matches_any : Matches sep (.any :: p) s ↔ ∃ i ≤ s.length, Matches sep p (s.drop i) := by
  constructor
  · intro h
    cases h with
    | @any l _ s h =>
      refine ⟨l.length, by simp, ?_⟩
      rwa [List.drop_left]
  · rintro ⟨i, -, h⟩
    rw [← List.take_append_drop i s]
    exact .any h

/-- A run up to the first separator at most. -/
theorem matches_segment [DecidableEq α] : Matches sep (.segment :: p) s ↔
    ∃ i ≤ (s.takeWhile (· ≠ sep)).length, Matches sep p (s.drop i) := by
  constructor
  · intro h
    cases h with
    | @segment l _ s hl h =>
      refine ⟨l.length, ?_, ?_⟩
      · have hrun : ∀ c ∈ l, decide (c ≠ sep) = true := by
          intro c hc
          rw [decide_eq_true_eq]
          rintro rfl
          exact hl hc
        rw [List.takeWhile_append_of_pos hrun, List.length_append]
        exact Nat.le_add_right _ _
      · rwa [List.drop_left]
  · rintro ⟨i, hi, h⟩
    rw [← List.take_append_drop i s]
    refine .segment (fun hmem => ?_) h
    have hinit : s.take i <+: s.takeWhile (· ≠ sep) := by
      refine List.prefix_of_prefix_length_le (List.take_prefix i s) (List.takeWhile_prefix _) ?_
      exact (List.length_take_le i s).trans hi
    have hne := List.mem_takeWhile_imp (hinit.subset hmem)
    simp at hne

end Glob
