/-
# Strings in an array

An array need not hold a NUL, and a string that starts in one then goes on behind it. What is read here is `none` where
that happens. `strncpy` fills an array and leaves a NUL just if the string is shorter than the array
(`strIn_strncpyArray`).
-/
import RouterFirmware.Lib.Text

namespace CText

/-- `strncpy(a, s, n)`, into an array of `n` bytes. -/
def strncpyArray (n : ℕ) (s : Bytes) : Bytes := s.take n ++ List.replicate (n - s.length) 0

/-- The string at the start of an array. -/
def strIn : Bytes → Option Bytes
  | [] => none
  | c :: a => if c = 0 then some [] else (strIn a).map (c :: ·)

/-- `strsep` with one separator: the token, and what is behind the separator unless the string ends first. -/
def strsepIn (sep : UInt8) : Bytes → Option (Bytes × Option Bytes)
  | [] => none
  | c :: a =>
    if c = 0 then some ([], none)
    else if c = sep then some ([], some a)
    else (strsepIn sep a).map fun (token, rest) => (c :: token, rest)

variable {sep : UInt8} {s : Bytes}

theorem strIn_eq_some : ∀ {a t : Bytes}, strIn a = some t ↔ 0 ∉ t ∧ ∃ rest, a = t ++ 0 :: rest
  | [], t => by simp [strIn]
  | c :: a, [] => by
    by_cases hc : c = 0
    · simp [strIn, hc]
    · simp [strIn, hc, Option.map_eq_some_iff]
  | c :: a, d :: t => by
    by_cases hc : c = 0
    · simp only [strIn, hc, if_true, Option.some.injEq, List.cons_append, List.cons.injEq, List.mem_cons, not_or]
      constructor
      · rintro ⟨⟩
      · rintro ⟨⟨hne, -⟩, rest, heq, -⟩
        exact absurd heq hne
    · have ih := @strIn_eq_some a t
      simp only [strIn, hc, if_false, Option.map_eq_some_iff, List.cons_append, List.cons.injEq, List.mem_cons, not_or]
      constructor
      · rintro ⟨t', ht, rfl, rfl⟩
        obtain ⟨hnul, rest, rfl⟩ := ih.mp ht
        exact ⟨⟨Ne.symm hc, hnul⟩, rest, rfl, rfl⟩
      · rintro ⟨⟨-, hnul⟩, rest, rfl, hrest⟩
        exact ⟨t, ih.mpr ⟨hnul, rest, hrest⟩, rfl, rfl⟩

theorem strIn_eq_none : ∀ {a : Bytes}, 0 ∉ a → strIn a = none
  | [], _ => rfl
  | c :: a, h => by
    obtain ⟨hc, ha⟩ := not_or.mp (mt List.mem_cons.mpr h)
    rw [strIn, if_neg (Ne.symm hc), strIn_eq_none ha, Option.map_none]

/-- What `strsep` finds in front of a separator. -/
theorem strsepIn_eq_some (hsep : sep ≠ 0) : ∀ {a t rest : Bytes},
    strsepIn sep a = some (t, some rest) ↔ 0 ∉ t ∧ sep ∉ t ∧ a = t ++ sep :: rest
  | [], t, rest => by simp [strsepIn]
  | c :: a, [], rest => by
    by_cases hc : c = 0
    · simp [strsepIn, hc, hsep.symm]
    by_cases hcs : c = sep
    · simp [strsepIn, hcs, hsep]
    · simp [strsepIn, hc, hcs, Option.map_eq_some_iff]
  | c :: a, d :: t, rest => by
    have ih : strsepIn sep a = some (t, some rest) ↔ 0 ∉ t ∧ sep ∉ t ∧ a = t ++ sep :: rest := strsepIn_eq_some hsep
    by_cases hd : c = d
    · subst hd
      by_cases hc : c = 0
      · simp [strsepIn, hc]
      by_cases hcs : c = sep
      · simp [strsepIn, hcs, hsep]
      · simp [strsepIn, hc, hcs, Ne.symm hc, Ne.symm hcs, ih]
    · have hne : ¬c :: a = d :: t ++ sep :: rest := fun h => hd (List.cons.inj h).1
      simp only [hne, and_false, iff_false]
      unfold strsepIn
      split_ifs
      · simp
      · simp
      · simp [hd]

/-- A string is whole in the array if it is shorter. -/
theorem strIn_strncpyArray {n : ℕ} (hs : 0 ∉ s) : strIn (strncpyArray n s) = if s.length < n then some s else none := by
  split_ifs with hlen
  · rw [strIn_eq_some]
    refine ⟨hs, List.replicate (n - s.length - 1) 0, ?_⟩
    rw [strncpyArray, List.take_of_length_le hlen.le, ← List.replicate_succ, Nat.sub_add_cancel (by omega)]
  · apply strIn_eq_none
    rw [strncpyArray, Nat.sub_eq_zero_of_le (Nat.not_lt.mp hlen), List.replicate_zero, List.append_nil]
    exact fun h => hs (List.mem_of_mem_take h)

end CText
