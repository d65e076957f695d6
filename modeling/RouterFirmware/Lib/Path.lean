/-
# Names of files below a root

A name is split at '/'. Its segments are walked from a root: ".." goes up, "." and an empty segment stay, any other
goes down (`enter`). A walk without ".." does not leave the root (`level_nonneg`); a segment stands at an end of the
name or next to a '/' (`mem_splitOn_iff`).
-/
import RouterFirmware.Lib.Text

namespace CText

/-- The level below the root at which a walk is behind a segment, `d` in front of it. -/
def enter (d : ℤ) (seg : Bytes) : ℤ :=
  if seg = bytes ".." then d - 1 else if seg = bytes "." ∨ seg = [] then d else d + 1

/-- The level behind segments walked from the root. -/
def level (segs : List Bytes) : ℤ := segs.foldl enter 0

theorem le_enter {seg : Bytes} (h : seg ≠ bytes "..") (d : ℤ) : d ≤ enter d seg := by
  unfold enter
  rw [if_neg h]
  split_ifs <;> omega

theorem le_foldl_enter : ∀ {segs : List Bytes} (d : ℤ), bytes ".." ∉ segs → d ≤ segs.foldl enter d
  | [], d, _ => le_rfl
  | seg :: segs, d, h => by
    obtain ⟨hne, hsegs⟩ := not_or.mp (mt List.mem_cons.mpr h)
    rw [List.foldl_cons]
    calc d ≤ enter d seg := le_enter (Ne.symm hne) d
      _ ≤ segs.foldl enter (enter d seg) := le_foldl_enter _ hsegs

theorem level_nonneg {segs : List Bytes} (h : bytes ".." ∉ segs) : 0 ≤ level segs := le_foldl_enter 0 h

/-! ### Segments -/

variable {α : Type*} [BEq α] [LawfulBEq α] {c : α} {s : List α}

theorem exists_of_mem_splitOn : ∀ {l : List α}, s ∈ l.splitOn c →
    c ∉ s ∧ ∃ a b, l = a ++ s ++ b ∧ (a = [] ∨ ∃ x, a = x ++ [c]) ∧ (b = [] ∨ ∃ y, b = c :: y) := by
  intro l h
  by_cases hc : c ∈ l
  · obtain ⟨x, y, rfl, hx⟩ := List.eq_append_cons_of_mem hc
    rw [List.splitOn_append_cons_self_of_not_mem hx, List.mem_cons] at h
    rcases h with rfl | h
    · exact ⟨hx, [], c :: y, rfl, .inl rfl, .inr ⟨y, rfl⟩⟩
    · obtain ⟨hs, a, b, rfl, ha, hb⟩ := exists_of_mem_splitOn h
      refine ⟨hs, x ++ c :: a, b, by simp, .inr ?_, hb⟩
      rcases ha with rfl | ⟨a, rfl⟩
      · exact ⟨x, rfl⟩
      · exact ⟨x ++ c :: a, by simp⟩
  · rw [List.splitOn_eq_singleton hc, List.mem_singleton] at h
    subst h
    exact ⟨hc, [], [], by simp⟩
termination_by l => l.length
decreasing_by simp_all; omega

/-- A segment stands between two separators, or between one and an end. -/
theorem mem_splitOn_iff {l : List α} : s ∈ l.splitOn c ↔
    c ∉ s ∧ ∃ a b, l = a ++ s ++ b ∧ (a = [] ∨ ∃ x, a = x ++ [c]) ∧ (b = [] ∨ ∃ y, b = c :: y) := by
  constructor
  · exact exists_of_mem_splitOn
  · rintro ⟨hs, a, b, rfl, ha, hb⟩
    have hhead : s ∈ (s ++ b).splitOn c := by
      rcases hb with rfl | ⟨y, rfl⟩
      · rw [List.append_nil, List.splitOn_eq_singleton hs]
        exact List.mem_singleton_self s
      · rw [List.splitOn_append_cons_self_of_not_mem hs]
        exact List.mem_cons_self
    rcases ha with rfl | ⟨x, rfl⟩
    · exact hhead
    · rw [List.append_assoc, List.append_assoc, List.singleton_append, List.splitOn_append_cons_self]
      exact List.mem_append_right _ hhead

end CText
