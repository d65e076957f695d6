/-
# The first occurrence of a text

`strstr` and `strpbrk`, as the place of what they find. A search stops at what a text begins with, skips what cannot
begin an occurrence (`strstr_append`), and in a part of a text finds nothing that the whole does not have
(`strstr_of_prefix`).
-/
import RouterFirmware.Lib.Text

namespace CText

/-- `strstr(s, pat)`: how far in `s` it is. -/
def strstr (pat : Bytes) : Bytes → Option ℕ
  | [] => if pat = [] then some 0 else none
  | c :: s => if pat.isPrefixOf (c :: s) then some 0 else (strstr pat s).map (· + 1)

/-- `strpbrk(s, set)`: how far in `s` it is. -/
def strpbrk (set : Bytes) (s : Bytes) : Option ℕ := s.findIdx? (· ∈ set)

variable {pat s t : Bytes}

/-! ### Up to a byte -/

theorem forall_ne_of_notMem {b : UInt8} (h : b ∉ s) : ∀ c ∈ s, decide (c ≠ b) = true := by
  intro c hc
  rw [decide_eq_true_eq]
  rintro rfl
  exact h hc

theorem takeWhile_ne_append {b : UInt8} (h : b ∉ s) (rest : Bytes) : (s ++ b :: rest).takeWhile (· ≠ b) = s := by
  rw [List.takeWhile_append_of_pos (forall_ne_of_notMem h), List.takeWhile_cons_of_neg (by simp), List.append_nil]

theorem takeWhile_ne_self {b : UInt8} (h : b ∉ s) : s.takeWhile (· ≠ b) = s :=
  List.takeWhile_eq_self_iff.mpr (forall_ne_of_notMem h)

theorem dropWhile_ne_append {b : UInt8} (h : b ∉ s) (rest : Bytes) :
    (s ++ b :: rest).dropWhile (· ≠ b) = b :: rest := by
  rw [List.dropWhile_append_of_pos (forall_ne_of_notMem h), List.dropWhile_cons_of_neg (by simp)]

/-- A text is split at the first of two bytes in one way. -/
theorem append_cons_inj₂ {b b' : UInt8} {t t' : Bytes} : ∀ {s s' : Bytes}, b' ∉ s → b ∉ s' →
    s ++ b :: t = s' ++ b' :: t' → s = s' ∧ b = b' ∧ t = t'
  | [], [], _, _, heq => ⟨rfl, List.cons.inj heq⟩
  | [], c :: s', _, h', heq => absurd List.mem_cons_self ((List.cons.inj heq).1 ▸ h')
  | c :: s, [], h, _, heq => absurd List.mem_cons_self ((List.cons.inj heq).1 ▸ h)
  | c :: s, c' :: s', h, h', heq => by
    obtain ⟨rfl, htail⟩ := List.cons.inj heq
    obtain ⟨rfl, hrest⟩ := append_cons_inj₂ (List.not_mem_of_not_mem_cons h) (List.not_mem_of_not_mem_cons h') htail
    exact ⟨rfl, hrest⟩

/-- At the first of a byte. -/
theorem append_cons_inj {b : UInt8} {s' t t' : Bytes} (h : b ∉ s) (h' : b ∉ s') (heq : s ++ b :: t = s' ++ b :: t') :
    s = s' ∧ t = t' := by
  obtain ⟨hs, -, ht⟩ := append_cons_inj₂ h h' heq
  exact ⟨hs, ht⟩

/-- A string in front of its NUL. -/
theorem cstr_append_nul (h : (0 : UInt8) ∉ s) (rest : Bytes) : (cstr (s ++ 0 :: rest)).bytes = s :=
  takeWhile_ne_append h rest

/-! ### Texts in a text -/

theorem strstr_eq_zero (hp : pat <+: s) : strstr pat s = some 0 := by
  cases s with
  | nil =>
    rw [strstr, if_pos (List.prefix_nil.mp hp)]
  | cons c s =>
    rw [strstr, if_pos (List.isPrefixOf_iff_prefix.mpr hp)]

/-- The search goes on where the text does not begin with it. -/
theorem strstr_cons {c : UInt8} (h : ¬pat <+: c :: s) : strstr pat (c :: s) = (strstr pat s).map (· + 1) := by
  rw [strstr, if_neg]
  rwa [List.isPrefixOf_iff_prefix]

/-- Where it is found. -/
theorem strstr_spec : ∀ {s : Bytes} {i : ℕ}, strstr pat s = some i → pat <+: s.drop i
  | [], i, h => by
    rw [strstr] at h
    split_ifs at h with hnil
    subst hnil
    exact List.nil_prefix
  | c :: s, i, h => by
    by_cases hp : pat <+: c :: s
    · rw [strstr_eq_zero hp] at h
      cases h
      exact hp
    · rw [strstr_cons hp] at h
      obtain ⟨i, hi, rfl⟩ := Option.map_eq_some_iff.mp h
      rw [List.drop_succ_cons]
      exact strstr_spec hi

/-- It finds what the text contains. -/
theorem strstr_isSome_iff : ∀ {s : Bytes}, (strstr pat s).isSome = true ↔ pat <:+: s
  | [] => by
    rw [strstr, List.infix_nil]
    split_ifs with hnil
    · simp [hnil]
    · simp [hnil]
  | c :: s => by
    rw [List.infix_cons_iff]
    by_cases hp : pat <+: c :: s
    · rw [strstr_eq_zero hp]
      exact ⟨fun _ => .inl hp, fun _ => rfl⟩
    · rw [strstr_cons hp, Option.isSome_map, strstr_isSome_iff]
      exact ⟨.inr, fun h => h.resolve_left hp⟩

/-- Bytes with which no occurrence begins. -/
theorem strstr_append {b : UInt8} (s : Bytes) : ∀ {l : Bytes}, b ∉ l →
    strstr (b :: pat) (l ++ s) = (strstr (b :: pat) s).map (· + l.length)
  | [], _ => by simp
  | c :: l, h => by
    obtain ⟨hne, hl⟩ := not_or.mp (mt List.mem_cons.mpr h)
    have hnot : ¬(b :: pat) <+: c :: (l ++ s) := by
      intro hp
      exact hne (List.cons_prefix_cons.mp hp).1
    rw [List.cons_append, strstr_cons hnot, strstr_append s hl, Option.map_map, List.length_cons]
    rfl

theorem strstr_eq_none {b : UInt8} (h : b ∉ s) : strstr (b :: pat) s = none := by
  calc strstr (b :: pat) s = strstr (b :: pat) (s ++ []) := by rw [List.append_nil]
    _ = (strstr (b :: pat) []).map (· + s.length) := strstr_append [] h
    _ = none := by rw [strstr, if_neg (List.cons_ne_nil b pat), Option.map_none]

/-- The first of a byte. -/
theorem strstr_singleton {b : UInt8} {l : Bytes} (h : b ∉ l) (s : Bytes) : strstr [b] (l ++ b :: s) = some l.length := by
  have hzero : strstr [b] (b :: s) = some 0 := strstr_eq_zero ⟨s, rfl⟩
  rw [strstr_append _ h, hzero, Option.map_some, Nat.zero_add]

/-- What is found in a part is found in the whole, there or before, and ends in the part. -/
theorem strstr_of_prefix : ∀ {s t : Bytes} {i : ℕ}, t <+: s → strstr pat t = some i →
    i + pat.length ≤ t.length ∧ ∃ j ≤ i, strstr pat s = some j
  | s, [], i, _, hfind => by
    rw [strstr] at hfind
    split_ifs at hfind with hnil
    cases hfind
    subst hnil
    exact ⟨le_rfl, 0, le_rfl, strstr_eq_zero List.nil_prefix⟩
  | [], c :: t, i, hpre, _ => absurd (List.prefix_nil.mp hpre) (List.cons_ne_nil c t)
  | d :: s, c :: t, i, hpre, hfind => by
    by_cases hp : pat <+: c :: t
    · rw [strstr_eq_zero hp] at hfind
      cases hfind
      refine ⟨?_, 0, le_rfl, strstr_eq_zero (hp.trans hpre)⟩
      rw [Nat.zero_add]
      exact hp.length_le
    · rw [strstr_cons hp] at hfind
      obtain ⟨i, hi, rfl⟩ := Option.map_eq_some_iff.mp hfind
      obtain ⟨hlen, j, hj, hs⟩ := strstr_of_prefix (List.cons_prefix_cons.mp hpre).2 hi
      refine ⟨by simp only [List.length_cons]; omega, ?_⟩
      by_cases hpd : pat <+: d :: s
      · exact ⟨0, Nat.zero_le _, strstr_eq_zero hpd⟩
      · refine ⟨j + 1, Nat.succ_le_succ hj, ?_⟩
        rw [strstr_cons hpd, hs]
        rfl

/-- The first occurrence, of a text that begins with a byte it does not have again. -/
theorem strstr_first {b : UInt8} (hpat : b ∉ pat) (t : Bytes) : ∀ {l : Bytes}, ¬(b :: pat) <:+: l →
    strstr (b :: pat) (l ++ (b :: pat ++ t)) = some l.length
  | [], _ => strstr_eq_zero ⟨t, rfl⟩
  | c :: l, h => by
    rw [List.infix_cons_iff, not_or] at h
    have hnot : ¬(b :: pat) <+: c :: (l ++ (b :: pat ++ t)) := by
      intro hp
      have hl : c :: l <+: c :: (l ++ (b :: pat ++ t)) := ⟨b :: pat ++ t, rfl⟩
      rcases List.prefix_or_prefix_of_prefix hp hl with hin | ⟨x, hx⟩
      · exact h.1 hin
      · -- the text would begin in `c :: l` and go on behind it with its first byte
        rw [List.cons_append] at hx
        obtain ⟨rfl, rfl⟩ := List.cons.inj hx
        cases x with
        | nil => exact h.1 ⟨[], by simp⟩
        | cons y x =>
          obtain ⟨z, hz⟩ := hp
          simp only [List.cons_append, List.append_assoc, List.cons.injEq, true_and, List.append_cancel_left_eq] at hz
          apply hpat
          rw [hz.1]
          exact List.mem_append_right l List.mem_cons_self
    rw [List.cons_append, strstr_cons hnot, strstr_first hpat t h.2]
    rfl

/-- The first of the set comes after bytes that are not in it. -/
theorem strpbrk_append {set : Bytes} {c : UInt8} (hc : c ∈ set) (s : Bytes) : ∀ {l : Bytes}, (∀ x ∈ l, x ∉ set) →
    strpbrk set (l ++ c :: s) = some l.length
  | [], _ => by simp [strpbrk, List.findIdx?_cons, hc]
  | x :: l, h => by
    have ih := strpbrk_append hc s fun y hy => h y (List.mem_cons_of_mem x hy)
    rw [strpbrk] at ih ⊢
    rw [List.cons_append, List.findIdx?_cons, ih]
    simp [h x List.mem_cons_self]

theorem strpbrk_eq_none {set s : Bytes} (h : ∀ x ∈ s, x ∉ set) : strpbrk set s = none := by
  unfold strpbrk
  rw [List.findIdx?_eq_none_iff]
  simpa using h

/-- The first of a byte. -/
theorem strpbrk_singleton {c : UInt8} {l : Bytes} (h : c ∉ l) (s : Bytes) : strpbrk [c] (l ++ c :: s) = some l.length := by
  apply strpbrk_append (List.mem_singleton.mpr rfl)
  intro x hx hmem
  rw [List.mem_singleton.mp hmem] at hx
  exact h hx

theorem strpbrk_singleton_none {c : UInt8} (h : c ∉ s) : strpbrk [c] s = none := by
  apply strpbrk_eq_none
  intro x hx hmem
  rw [List.mem_singleton.mp hmem] at hx
  exact h hx

end CText
