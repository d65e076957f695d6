/-
# Tables of strings

Strings one behind the other, each with a NUL, and an empty string at the end. `tableStrings` is what a loop over such a
table comes by: string after string up to the first empty one. Of a table that is well formed these are the strings that
were put there (`TableOf.scanned`).
-/
import RouterFirmware.Lib.Text

namespace CText

/-- The strings, each with its NUL, and the empty one. -/
def table (ss : List Bytes) : Bytes := ss.flatMap (· ++ [0]) ++ [0]

/-- What a loop over the bytes comes by, where `s` is what has been seen of the string it is in. -/
def scanStrings : Bytes → Bytes → List Bytes
  | _, [] => []
  | s, c :: l => if c ≠ 0 then scanStrings (s ++ [c]) l else if s = [] then [] else s :: scanStrings [] l

/-- What a loop over a table comes by. -/
def tableStrings (l : Bytes) : List Bytes := scanStrings [] l

/-- A table of strings `name=value`, none of them empty. -/
structure TableOf (l : Bytes) (ss : List Bytes) : Prop where
  eq_table : l = table ss
  nul_notMem : ∀ s ∈ ss, (0 : UInt8) ∉ s
  named : ∀ s ∈ ss, ∃ name value, s = name ++ 61 :: value ∧ name ≠ [] ∧ (61 : UInt8) ∉ name

theorem table_cons (s : Bytes) (ss : List Bytes) : table (s :: ss) = s ++ 0 :: table ss := by
  rw [table, List.flatMap_cons, List.append_assoc, List.append_assoc]
  rfl

theorem length_table (ss : List Bytes) : (table ss).length = (ss.map fun s => s.length + 1).sum + 1 := by
  simp [table, List.length_flatMap]

/-- A string in front of its NUL. -/
theorem scanStrings_append {l : Bytes} : ∀ {t s : Bytes}, (0 : UInt8) ∉ s → scanStrings t (s ++ 0 :: l) =
    if t ++ s = [] then [] else (t ++ s) :: scanStrings [] l
  | t, [], _ => by rw [List.append_nil, List.nil_append, scanStrings, if_neg (by decide)]
  | t, c :: s, h => by
    have hc : c ≠ 0 := fun hc => h (hc ▸ List.mem_cons_self)
    have ih := @scanStrings_append l (t ++ [c]) s fun hs => h (List.mem_cons_of_mem c hs)
    rw [List.cons_append, scanStrings, if_pos hc, ih, List.append_assoc, List.singleton_append]

theorem tableStrings_table : ∀ {ss : List Bytes}, (∀ s ∈ ss, (0 : UInt8) ∉ s) → (∀ s ∈ ss, s ≠ []) →
    tableStrings (table ss) = ss
  | [], _, _ => rfl
  | s :: ss, hnul, hne => by
    obtain ⟨hs, hss⟩ := List.forall_mem_cons.mp hnul
    obtain ⟨hs', hss'⟩ := List.forall_mem_cons.mp hne
    have ih : scanStrings [] (table ss) = ss := tableStrings_table hss hss'
    rw [tableStrings, table_cons, scanStrings_append hs, List.nil_append, if_neg hs', ih]

/-- **A loop over a table comes by its strings.** -/
theorem TableOf.scanned {l : Bytes} {ss : List Bytes} (h : TableOf l ss) : tableStrings l = ss := by
  rw [h.eq_table]
  refine tableStrings_table h.nul_notMem fun s hs => ?_
  obtain ⟨name, value, rfl, -⟩ := h.named s hs
  simp

/-! ### Strings that end -/

/-- Bytes up to the first NUL, and behind it. -/
theorem eq_cstr_append {l : Bytes} (h : (0 : UInt8) ∈ l) :
    l = (cstr l).bytes ++ 0 :: l.drop ((cstr l).bytes.length + 1) := by
  change l = l.takeWhile (· ≠ 0) ++ 0 :: l.drop ((l.takeWhile (· ≠ 0)).length + 1)
  induction l with
  | nil => exact absurd h List.not_mem_nil
  | cons c l ih =>
    by_cases hc : c = 0
    · simp [hc]
    · have hl : (0 : UInt8) ∈ l := (List.mem_cons.mp h).resolve_left fun h0 => hc h0.symm
      have hcons : (c :: l).takeWhile (· ≠ 0) = c :: l.takeWhile (· ≠ 0) := List.takeWhile_cons_of_pos (by simpa using hc)
      rw [hcons, List.length_cons, List.drop_succ_cons, List.cons_append, ← ih hl]

/-- Two strings that end are two NULs. -/
theorem two_le_count_iff {l : Bytes} :
    2 ≤ l.count 0 ↔ (0 : UInt8) ∈ l ∧ (0 : UInt8) ∈ l.drop ((cstr l).bytes.length + 1) := by
  by_cases h : (0 : UInt8) ∈ l
  · have hcount := congrArg (List.count 0) (eq_cstr_append h)
    rw [List.count_append, List.count_eq_zero.mpr (cstr l).nul_notMem, List.count_cons_self] at hcount
    rw [and_iff_right h, ← List.count_pos_iff]
    omega
  · rw [List.count_eq_zero.mpr h]
    exact iff_of_false (by decide) fun hand => h hand.1

theorem length_cstr {l : Bytes} (h : (0 : UInt8) ∈ l) : (cstr l).bytes.length = l.idxOf 0 := by
  conv_rhs => rw [eq_cstr_append h, List.idxOf_append_of_notMem (cstr l).nul_notMem, List.idxOf_cons_self]
  rfl

end CText
