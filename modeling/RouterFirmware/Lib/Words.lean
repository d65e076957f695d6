/-
# Words with a separator between them

A list of words is written with one separator between any two (`[sep].intercalate`), and the words of any text are what
is not empty between separators. Reading gives back what was written (`wordsOf_intercalate`).
-/
import Mathlib.Data.List.Basic

namespace Words

variable {α : Type*} {sep : α} {w : List α} {ws : List (List α)}

/-! ### Writing -/

theorem intercalate_cons (hws : ws ≠ []) : [sep].intercalate (w :: ws) = w ++ sep :: [sep].intercalate ws := by
  rw [List.intercalate_cons_of_ne_nil hws, List.append_assoc, List.singleton_append]

/-- A word at the end. -/
theorem intercalate_concat : ∀ {ws : List (List α)}, ws ≠ [] →
    [sep].intercalate (ws ++ [w]) = [sep].intercalate ws ++ sep :: w
  | [v], _ => by simp [List.intercalate]
  | v :: v' :: vs, _ => by
    rw [List.cons_append, intercalate_cons (by simp), intercalate_cons (List.cons_ne_nil v' vs),
      intercalate_concat (List.cons_ne_nil v' vs)]
    simp

/-- Words, each with the separator behind it. -/
def lead (sep : α) (ws : List (List α)) : List α := ws.flatMap (· ++ [sep])

/-- Words, each with the separator in front. -/
def trail (sep : α) (ws : List (List α)) : List α := ws.flatMap (sep :: ·)

@[simp] theorem lead_nil : lead sep [] = [] := rfl

@[simp] theorem lead_cons : lead sep (w :: ws) = w ++ sep :: lead sep ws := by simp [lead]

@[simp] theorem trail_nil : trail sep [] = [] := rfl

@[simp] theorem trail_cons : trail sep (w :: ws) = sep :: (w ++ trail sep ws) := by simp [trail]

theorem intercalate_eq_append_trail : ∀ {w : List α} {ws : List (List α)},
    [sep].intercalate (w :: ws) = w ++ trail sep ws
  | w, [] => by simp
  | w, v :: ws => by
    rw [intercalate_cons (List.cons_ne_nil v ws), intercalate_eq_append_trail, trail_cons]

/-- The text around a word. -/
theorem intercalate_append_cons : ∀ {pre : List (List α)}, ∀ {post : List (List α)},
    [sep].intercalate (pre ++ w :: post) = lead sep pre ++ (w ++ trail sep post)
  | [], post => by simp [intercalate_eq_append_trail]
  | v :: pre, post => by
    rw [List.cons_append, intercalate_cons (by simp), intercalate_append_cons, lead_cons, List.append_assoc,
      List.cons_append]

/-- The separator behind the last word is dropped. -/
theorem dropLast_lead (ws : List (List α)) : (lead sep ws).dropLast = [sep].intercalate ws := by
  rcases List.eq_nil_or_concat ws with rfl | ⟨us, u, rfl⟩
  · rfl
  · rw [List.concat_eq_append, intercalate_append_cons]
    simp [lead, ← List.append_assoc]

/-! ### Reading -/

/-- A word: not empty, and without the separator. -/
structure IsWord (sep : α) (w : List α) : Prop where
  ne_nil : w ≠ []
  sep_notMem : sep ∉ w

instance [DecidableEq α] : Decidable (IsWord sep w) :=
  decidable_of_iff (w ≠ [] ∧ sep ∉ w) ⟨fun h => ⟨h.1, h.2⟩, fun h => ⟨h.ne_nil, h.sep_notMem⟩⟩

/-- The words of a text. -/
def wordsOf [BEq α] (sep : α) (s : List α) : List (List α) := (s.splitOn sep).filter fun w => !w.isEmpty

/-- A text with words is not empty. -/
theorem intercalate_ne_nil (hws : ws ≠ []) (h : ∀ w ∈ ws, IsWord sep w) : [sep].intercalate ws ≠ [] := by
  cases ws with
  | nil => exact absurd rfl hws
  | cons w ws =>
    rw [intercalate_eq_append_trail]
    exact List.append_ne_nil_of_left_ne_nil (h w List.mem_cons_self).ne_nil _

/-- No empty word is read. -/
theorem ne_nil_of_mem_wordsOf [BEq α] {s : List α} (h : w ∈ wordsOf sep s) : w ≠ [] := by
  have hw := (List.mem_filter.mp h).2
  simpa using hw

/-- **What was written is read.** -/
theorem wordsOf_intercalate [BEq α] [LawfulBEq α] (h : ∀ w ∈ ws, IsWord sep w) :
    wordsOf sep ([sep].intercalate ws) = ws := by
  unfold wordsOf
  by_cases hws : ws = []
  · subst hws
    simp
  · rw [List.splitOn_intercalate sep (fun w hw => (h w hw).sep_notMem) hws, List.filter_eq_self]
    intro w hw
    simpa using (h w hw).ne_nil

end Words
