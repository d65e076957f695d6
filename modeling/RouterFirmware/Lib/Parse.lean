/-
# Numbers and prefixes in C text

`strtoul` and `strtol` to base 10 with the place where they stop, for a `long` of 32 bits, and comparison without
regard to case. Both read spaces, a sign and digits, and saturate; a negative unsigned number wraps.
-/
import RouterFirmware.Lib.Text

namespace CText

/-! ### Prefixes -/

/-- `tolower`, in the C locale. -/
def lower (c : UInt8) : UInt8 := if 65 ≤ c && c ≤ 90 then c + 32 else c

/-- `strncasecmp(a, b, sizeof(b) - 1) == 0`. -/
def imatchPrefix (a : Bytes) (b : String) : Bool := (a.take (bytes b).length).map lower == (bytes b).map lower

/-- `strcasecmp(a, b) == 0`. -/
def imatch (a : Bytes) (b : String) : Bool := a.map lower == (bytes b).map lower

/-- A prefix ends before a byte that it does not have. -/
theorem imatchPrefix_append {b : String} {c : UInt8} (hc : lower c ∉ (bytes b).map lower) (l s : Bytes) :
    imatchPrefix (l ++ c :: s) b = imatchPrefix l b := by
  unfold imatchPrefix
  rcases Nat.lt_or_ge l.length (bytes b).length with hlt | hge
  · have hlong : ((l ++ c :: s).take (bytes b).length).map lower ≠ (bytes b).map lower := by
      intro heq
      apply hc
      rw [← heq, List.take_append, List.map_append, List.mem_append]
      obtain ⟨k, hk⟩ := Nat.exists_eq_succ_of_ne_zero (Nat.sub_ne_zero_of_lt hlt)
      rw [hk]
      exact .inr (List.mem_map_of_mem List.mem_cons_self)
    have hshort : (l.take (bytes b).length).map lower ≠ (bytes b).map lower := by
      intro heq
      have hlen := congrArg List.length heq
      simp only [List.length_map, List.length_take] at hlen
      omega
    rw [beq_eq_false_iff_ne.mpr hlong, beq_eq_false_iff_ne.mpr hshort]
  · rw [List.take_append_of_le_length hge]

/-! ### Numbers -/

/-- The number a text begins with: whether it has a minus, what its digits spell, and what follows. -/
def number (s : Bytes) : Option (Bool × ℕ × Bytes) :=
  let s := sign (s.dropWhile isSpace)
  let digits := s.2.takeWhile isDigit
  if digits = [] then none else some (s.1, digitsVal digits, s.2.dropWhile isDigit)

/-- `strtoul(s, &end, 10)`: the number and what stands at `end`, unless that is the start. -/
def strtoulEnd (s : Bytes) : ℕ × Option Bytes :=
  match number s with
  | none => (0, none)
  | some (neg, n, rest) =>
    (if n ≥ 2 ^ 32 then 2 ^ 32 - 1 else if neg then (2 ^ 32 - n) % 2 ^ 32 else n, some rest)

/-- `strtol(s, &end, 10)`. -/
def strtolEnd (s : Bytes) : ℤ × Option Bytes :=
  match number s with
  | none => (0, none)
  | some (neg, n, rest) => (max (-2 ^ 31) (min (if neg then -n else n) (2 ^ 31 - 1)), some rest)

/-- A numeral, and the number it stands for: digits, with a sign in front where it may have one. -/
def IsNumeral (signed : Bool) (s : Bytes) (z : ℤ) : Prop :=
  ∃ digits, digits ≠ [] ∧ (∀ c ∈ digits, isDigit c = true) ∧
    (s = digits ∧ z = digitsVal digits ∨
      signed = true ∧ (s = 45 :: digits ∧ z = -digitsVal digits ∨ s = 43 :: digits ∧ z = digitsVal digits))

/-- Digits behind what was taken for a sign. -/
theorem number_of_sign {s digits : Bytes} {neg : Bool} (hne : digits ≠ []) (hd : ∀ c ∈ digits, isDigit c = true)
    (hspace : s.dropWhile isSpace = s) (hsign : sign s = (neg, digits)) :
    number s = some (neg, digitsVal digits, []) := by
  have htake : digits.takeWhile isDigit = digits := List.takeWhile_eq_self_iff.mpr hd
  have hdrop : digits.dropWhile isDigit = [] := List.dropWhile_eq_nil_iff.mpr hd
  unfold number
  simp only [hspace, hsign, htake, hdrop, if_neg hne]

/-- A numeral is read to its end. -/
theorem number_of_isNumeral {signed : Bool} {s : Bytes} {z : ℤ} (h : IsNumeral signed s z) :
    ∃ neg n, number s = some (neg, n, []) ∧ z = (if neg then -(n : ℤ) else n) ∧ (signed = false → neg = false) := by
  obtain ⟨digits, hne, hd, ⟨rfl, rfl⟩ | ⟨rfl, ⟨rfl, rfl⟩ | ⟨rfl, rfl⟩⟩⟩ := h
  · obtain ⟨c, l, rfl⟩ := List.exists_cons_of_ne_nil hne
    obtain ⟨hspace, hminus, hplus⟩ := isSpace_of_isDigit (hd c List.mem_cons_self)
    have hdrop : (c :: l).dropWhile isSpace = c :: l := List.dropWhile_cons_of_neg (by simp [hspace])
    have hsign : sign (c :: l) = (false, c :: l) := by rw [sign, if_neg hminus, if_neg hplus]
    exact ⟨false, _, number_of_sign hne hd hdrop hsign, rfl, fun _ => rfl⟩
  · exact ⟨true, _, number_of_sign hne hd rfl rfl, rfl, fun h => absurd h.symm Bool.false_ne_true⟩
  · exact ⟨false, _, number_of_sign hne hd rfl rfl, rfl, fun _ => rfl⟩

/-- `strtoul` reads a numeral without a sign. -/
theorem strtoulEnd_of_isNumeral {s : Bytes} {z : ℤ} (h : IsNumeral false s z) (hz : z < 2 ^ 32) :
    strtoulEnd s = (z.toNat, some []) := by
  obtain ⟨neg, n, hnum, rfl, hneg⟩ := number_of_isNumeral h
  cases hneg rfl
  simp only [Bool.false_eq_true, if_false] at hz
  unfold strtoulEnd
  rw [hnum]
  dsimp only
  rw [if_neg (by omega)]
  rfl

/-- `strtol` reads a numeral. -/
theorem strtolEnd_of_isNumeral {s : Bytes} {z : ℤ} (h : IsNumeral true s z) (hlow : -2 ^ 31 ≤ z) (hz : z < 2 ^ 31) :
    strtolEnd s = (z, some []) := by
  obtain ⟨neg, n, hnum, rfl, _⟩ := number_of_isNumeral h
  unfold strtolEnd
  rw [hnum]
  dsimp only
  rw [min_eq_left (by omega), max_eq_right (by omega)]

end CText
