/-
# Numbers in C text

What a `strtoul` reads: spaces, a sign, a prefix, and digits, each as far as it goes (`readNumber`). Which bytes are
spaces and what counts as a prefix differ between libraries and are left open. `NumberAt` says where the parts stand in
the text, and which bytes may not follow them; it is just what is read (`NumberAt.readNumber_eq`, `exists_numberAt`). A
byte is printed with two hexadecimal digits (`hexByte`), and these spell it (`valueIn_hexByte`). `Separated` are numbers
with one byte between two.
-/
import RouterFirmware.Lib.Text
import Mathlib.Data.Nat.Log

namespace CText

/-- All bytes with all members of a list, looked at in a row. -/
theorem forall_byte_mem {α : Type*} {p : UInt8 → α → Prop} [∀ c k, Decidable (p c k)] {l : List α}
    (h : ((List.range 256).all fun n => l.all fun k => decide (p (UInt8.ofNat n) k)) = true) (c : UInt8) :
    ∀ k ∈ l, p c k := by
  intro k hk
  have hc := List.all_eq_true.mp h c.toNat (List.mem_range.mpr c.toNat_lt)
  rw [UInt8.ofNat_toNat] at hc
  exact of_decide_eq_true (List.all_eq_true.mp hc k hk)

/-- A digit to base `b`. -/
def digitIn (b : ℕ) (c : UInt8) : Bool := digitOf c < b

/-- The number that digits spell to base `b`. -/
def valueIn (b : ℕ) (l : Bytes) : ℕ := l.foldl (fun n c => b * n + digitOf c) 0

theorem valueIn_lt {b : ℕ} {l : Bytes} (h : ∀ c ∈ l, digitIn b c = true) : valueIn b l < b ^ l.length := by
  induction l using List.reverseRecOn with
  | nil => exact Nat.one_pos
  | append_singleton l c ih =>
    have hl := ih fun d hd => h d (List.mem_append_left _ hd)
    have hc : digitOf c < b := of_decide_eq_true (h c (by simp))
    unfold valueIn at hl ⊢
    rw [List.foldl_concat, List.length_append, List.length_singleton, pow_succ']
    calc b * l.foldl (fun n c => b * n + digitOf c) 0 + digitOf c
        < b * (l.foldl (fun n c => b * n + digitOf c) 0 + 1) := by rw [Nat.mul_succ]; omega
      _ ≤ b * b ^ l.length := Nat.mul_le_mul_left b hl

/-- The number a text begins with: whether it has a minus, its digits, and what follows. -/
def readNumber (b : ℕ) (space : UInt8 → Bool) (hasPrefix : Bytes → Bool) (s : Bytes) : Bool × Bytes × Bytes :=
  let s := s.dropWhile space
  let minus := s.head? = some 45
  let s := if s.head? = some 43 ∨ minus then s.tail else s
  let s := if hasPrefix s then s.drop 2 else s
  (minus, s.takeWhile (digitIn b), s.dropWhile (digitIn b))

/-- `0x`, in front of a text or not. -/
def zeroX (s : Bytes) : Bool := s.head? = some 48 && (s.tail.head? = some 120 || s.tail.head? = some 88)

/-- A number at the start of a text, with the parts that are read over and the rest. -/
structure NumberAt (b : ℕ) (space : UInt8 → Bool) (hasPrefix : Bytes → Bool) (s spaces sign pre digits rest : Bytes) :
    Prop where
  text : s = spaces ++ (sign ++ (pre ++ (digits ++ rest)))
  areSpaces : ∀ c ∈ spaces, space c = true
  isSign : sign = [] ∨ sign = [43] ∨ sign = [45]
  isPre : pre = if hasPrefix (pre ++ (digits ++ rest)) then (pre ++ (digits ++ rest)).take 2 else []
  areDigits : ∀ c ∈ digits, digitIn b c = true
  -- each part goes as far as it can
  unspaced : ∀ c ∈ (sign ++ (pre ++ (digits ++ rest))).head?, space c = false
  unsigned : sign = [] → ∀ c ∈ (pre ++ (digits ++ rest)).head?, c ≠ 43 ∧ c ≠ 45
  ended : ∀ c ∈ rest.head?, digitIn b c = false

theorem dropWhile_append {p : UInt8 → Bool} {l rest : Bytes} (hl : ∀ c ∈ l, p c = true)
    (hrest : ∀ c ∈ rest.head?, p c = false) : (l ++ rest).dropWhile p = rest := by
  rw [List.dropWhile_append_of_pos hl]
  cases rest with
  | nil => rfl
  | cons c rest => exact List.dropWhile_cons_of_neg (by simp [hrest c rfl])

theorem head?_dropWhile {p : UInt8 → Bool} (s : Bytes) : ∀ c ∈ (s.dropWhile p).head?, p c = false := by
  intro c hc
  have := List.head?_dropWhile_not p s
  rw [Option.mem_def.mp hc] at this
  simpa using this

section ReadNumber

variable {b : ℕ} {space : UInt8 → Bool} {hasPrefix : Bytes → Bool} {s spaces sign pre digits rest : Bytes}

/-- The parts are read as they stand. -/
theorem NumberAt.readNumber_eq (h : NumberAt b space hasPrefix s spaces sign pre digits rest) :
    readNumber b space hasPrefix s = (decide (sign = [45]), digits, rest) := by
  have hspaces : s.dropWhile space = sign ++ (pre ++ (digits ++ rest)) := by
    rw [h.text]
    exact dropWhile_append h.areSpaces h.unspaced
  have hminus : (sign ++ (pre ++ (digits ++ rest))).head? = some 45 ↔ sign = [45] := by
    rcases h.isSign with hs | hs | hs
    · rw [hs, List.nil_append]
      exact iff_of_false (fun hhead => (h.unsigned hs 45 hhead).2 rfl) (by decide)
    · rw [hs]
      exact iff_of_false (fun hhead => absurd (Option.some.inj hhead) (by decide)) (by decide)
    · rw [hs]
      exact iff_of_true rfl rfl
  have hsign : (if (sign ++ (pre ++ (digits ++ rest))).head? = some 43 ∨
      (sign ++ (pre ++ (digits ++ rest))).head? = some 45 then (sign ++ (pre ++ (digits ++ rest))).tail
      else sign ++ (pre ++ (digits ++ rest))) = pre ++ (digits ++ rest) := by
    rcases h.isSign with hs | hs | hs
    · rw [hs, List.nil_append, if_neg]
      rintro (hhead | hhead)
      · exact (h.unsigned hs 43 hhead).1 rfl
      · exact (h.unsigned hs 45 hhead).2 rfl
    · rw [hs]
      exact if_pos (.inl rfl)
    · rw [hs]
      exact if_pos (.inr rfl)
  have hpre : (if hasPrefix (pre ++ (digits ++ rest)) then (pre ++ (digits ++ rest)).drop 2
      else pre ++ (digits ++ rest)) = digits ++ rest := by
    have hp := h.isPre
    split_ifs at hp ⊢ with hx
    · have hsplit := List.take_append_drop 2 (pre ++ (digits ++ rest))
      rw [← hp] at hsplit
      exact List.append_cancel_left hsplit
    · rw [hp, List.nil_append]
  unfold readNumber
  rw [hspaces]
  dsimp only
  rw [hsign, hpre, takeWhile_digits h.areDigits h.ended, dropWhile_append h.areDigits h.ended, decide_eq_decide.mpr hminus]

/-- What is read stands in the text. -/
theorem exists_numberAt (b : ℕ) (space : UInt8 → Bool) (hasPrefix : Bytes → Bool) (s : Bytes) :
    ∃ spaces sign pre digits rest, NumberAt b space hasPrefix s spaces sign pre digits rest := by
  have hsign : ∃ sign l, s.dropWhile space = sign ++ l ∧ (sign = [] ∨ sign = [43] ∨ sign = [45]) ∧
      (sign = [] → ∀ c ∈ l.head?, c ≠ 43 ∧ c ≠ 45) := by
    cases hl : s.dropWhile space with
    | nil => exact ⟨[], [], rfl, .inl rfl, fun _ c hc => by cases hc⟩
    | cons c l =>
      by_cases hplus : c = 43
      · exact ⟨[43], l, by rw [hplus]; rfl, .inr (.inl rfl), fun h => by cases h⟩
      · by_cases hminus : c = 45
        · exact ⟨[45], l, by rw [hminus]; rfl, .inr (.inr rfl), fun h => by cases h⟩
        · refine ⟨[], c :: l, rfl, .inl rfl, fun _ d hd => ?_⟩
          cases hd
          exact ⟨hplus, hminus⟩
  obtain ⟨sign, l, hl, hs, hunsigned⟩ := hsign
  obtain ⟨pre, t, ht, hpre⟩ : ∃ pre t, l = pre ++ t ∧ pre = if hasPrefix (pre ++ t) then (pre ++ t).take 2 else [] := by
    by_cases hx : hasPrefix l = true
    · exact ⟨l.take 2, l.drop 2, (List.take_append_drop 2 l).symm, by rw [List.take_append_drop, if_pos hx]⟩
    · exact ⟨[], l, rfl, by rw [List.nil_append, if_neg hx]⟩
  have hdigits : t.takeWhile (digitIn b) ++ t.dropWhile (digitIn b) = t := List.takeWhile_append_dropWhile
  refine ⟨s.takeWhile space, sign, pre, t.takeWhile (digitIn b), t.dropWhile (digitIn b), ?_, ?_, hs, ?_, ?_, ?_, ?_, ?_⟩
  · rw [hdigits, ← ht, ← hl, List.takeWhile_append_dropWhile]
  · exact fun c hc => List.mem_takeWhile_imp hc
  · rw [hdigits]
    exact hpre
  · exact fun c hc => List.mem_takeWhile_imp hc
  · rw [hdigits, ← ht, ← hl]
    exact head?_dropWhile s
  · rw [hdigits, ← ht]
    exact hunsigned
  · exact head?_dropWhile t

/-- Digits alone are a number. -/
theorem numberAt_digits (hdigits : ∀ c ∈ digits, digitIn b c = true) (hrest : ∀ c ∈ rest.head?, digitIn b c = false)
    (hspace : ∀ c ∈ (digits ++ rest).head?, space c = false) (hsign : ∀ c ∈ (digits ++ rest).head?, c ≠ 43 ∧ c ≠ 45)
    (hpre : hasPrefix (digits ++ rest) = false) : NumberAt b space hasPrefix (digits ++ rest) [] [] [] digits rest where
  text := rfl
  areSpaces := by simp
  isSign := .inl rfl
  isPre := by rw [List.nil_append, hpre]; rfl
  areDigits := hdigits
  unspaced := hspace
  unsigned := fun _ => hsign
  ended := hrest

end ReadNumber

/-- What counts as a prefix: `0x` to base 16, if a digit follows it. -/
def prefixIn (b : ℕ) (s : Bytes) : Bool := b = 16 && zeroX s && (s.drop 2).head?.any (digitIn 16)

/-- `strtoul(s, &endp, b)` to base 10 or 16, for an `unsigned long` of 32 bits: the number, and what `endp` is left at. -/
def strtoulIn (b : ℕ) (s : Bytes) : ℕ × Bytes :=
  let (minus, digits, rest) := readNumber b isSpace (prefixIn b) s
  if digits = [] then (0, s)
  else if valueIn b digits ≥ 2 ^ 32 then (2 ^ 32 - 1, rest)
  else (if minus then (2 ^ 32 - valueIn b digits) % 2 ^ 32 else valueIn b digits, rest)

/-- What it returns, by the parts that stand in the text. -/
theorem NumberAt.strtoulIn_eq {b : ℕ} {s spaces sign pre digits rest : Bytes}
    (h : NumberAt b isSpace (prefixIn b) s spaces sign pre digits rest) :
    strtoulIn b s = if digits = [] then (0, s) else (if 2 ^ 32 ≤ valueIn b digits then 2 ^ 32 - 1
      else if sign = [45] then (2 ^ 32 - valueIn b digits) % 2 ^ 32 else valueIn b digits, rest) := by
  unfold strtoulIn
  rw [h.readNumber_eq]
  dsimp only
  by_cases hnil : digits = []
  · rw [if_pos hnil, if_pos hnil]
  · rw [if_neg hnil, if_neg hnil]
    by_cases hover : 2 ^ 32 ≤ valueIn b digits
    · rw [if_pos hover, if_pos hover]
    · rw [if_neg hover, if_neg hover]
      by_cases hs : sign = [45]
      · rw [if_pos hs, if_pos (decide_eq_true hs)]
      · rw [if_neg hs, if_neg (by simp [hs])]

/-- Digits to base 10. -/
theorem valueIn_decimal (n : ℕ) : valueIn 10 (decimal n) = n := by
  have hdigits : ∀ (l : Bytes) (m : ℕ), (∀ c ∈ l, isDigit c = true) →
      l.foldl (fun n c => 10 * n + digitOf c) m = l.foldl (fun n c => 10 * n + (c.toNat - 48)) m := by
    intro l
    induction l with
    | nil => exact fun _ _ => rfl
    | cons c l ih =>
      intro m h
      rw [List.foldl_cons, List.foldl_cons, ih _ fun d hd => h d (List.mem_cons_of_mem c hd), digitOf,
        if_pos (h c List.mem_cons_self)]
  rw [valueIn, hdigits _ _ (isDigit_of_mem_decimal n)]
  exact digitsVal_decimal n

/-- To base 10 the digits are the decimal ones. -/
theorem digitIn_ten (c : UInt8) : digitIn 10 c = isDigit c := by
  have hlt := c.toNat_lt
  rw [digitIn, digitOf]
  cases h : isDigit c with
  | true =>
    have hc := (isDigit_iff c).mp h
    rw [if_pos rfl, decide_eq_true_iff]
    omega
  | false =>
    rw [if_neg Bool.false_ne_true, decide_eq_false_iff_not]
    simp only [Bool.and_eq_true, decide_eq_true_eq, UInt8.le_iff_toNat_le, UInt8.reduceToNat]
    split_ifs <;> omega

theorem digitIn_of_isDigit {c : UInt8} (h : isDigit c = true) : digitIn 10 c = true := (digitIn_ten c).trans h

/-- A printed number, with no digit behind it. -/
theorem numberAt_decimal {space : UInt8 → Bool} {hasPrefix : Bytes → Bool} (n : ℕ) {rest : Bytes}
    (hspace : ∀ c, isDigit c = true → space c = false) (hpre : ∀ s, hasPrefix s = false)
    (hrest : ∀ c ∈ rest.head?, digitIn 10 c = false) :
    NumberAt 10 space hasPrefix (decimal n ++ rest) [] [] [] (decimal n) rest := by
  obtain ⟨c, l, hl, hc⟩ := decimal_eq_cons n
  have hhead : ∀ d ∈ (decimal n ++ rest).head?, d = c := by
    rw [hl]
    exact fun d hd => (Option.some.inj hd).symm
  refine numberAt_digits (fun d hd => digitIn_of_isDigit (isDigit_of_mem_decimal n d hd)) hrest ?_ ?_ (hpre _)
  · intro d hd
    rw [hhead d hd]
    exact hspace c hc
  · intro d hd
    rw [hhead d hd]
    exact (isSpace_of_isDigit hc).2.symm

/-! ### Numbers in a row -/

/-- Values that `Reads` from a text one after the other, with a byte that is a `sep` between two. -/
inductive Separated (Reads : Bytes → UInt8 → Bytes → Prop) (sep : UInt8 → Prop) : Bytes → List UInt8 → Prop
  | last {s v rest} : Reads s v rest → Separated Reads sep s [v]
  | more {s v c rest vs} : Reads s v (c :: rest) → sep c → Separated Reads sep rest vs →
      Separated Reads sep s (v :: vs)

theorem Separated.ne_nil {Reads : Bytes → UInt8 → Bytes → Prop} {sep : UInt8 → Prop} {s : Bytes} {vs : List UInt8}
    (h : Separated Reads sep s vs) : vs ≠ [] := by
  cases h <;> exact List.cons_ne_nil _ _

theorem Separated.mono {Reads Reads' : Bytes → UInt8 → Bytes → Prop} {sep sep' : UInt8 → Prop} {s : Bytes}
    {vs : List UInt8} (hreads : ∀ s v rest, Reads s v rest → Reads' s v rest) (hsep : ∀ c, sep c → sep' c)
    (h : Separated Reads sep s vs) : Separated Reads' sep' s vs := by
  induction h with
  | last hr => exact .last (hreads _ _ _ hr)
  | more hr hc _ ih => exact .more (hreads _ _ _ hr) (hsep _ hc) ih

/-! ### Printing -/

/-- `%d` of an `unsigned int`. -/
def printInt (v : UInt32) : Bytes := if v.toNat < 2 ^ 31 then decimal v.toNat else 45 :: decimal (2 ^ 32 - v.toNat)

theorem nul_notMem_printInt (v : UInt32) : (0 : UInt8) ∉ printInt v := by
  unfold printInt
  split_ifs
  · exact notMem_decimal (by decide) _
  · rw [List.mem_cons, not_or]
    exact ⟨by decide, notMem_decimal (by decide) _⟩

theorem length_printInt_le (v : UInt32) : (printInt v).length ≤ 11 := by
  have hv := v.toNat_lt
  unfold printInt
  split_ifs with h
  · exact (length_decimal_le (show v.toNat < 10 ^ (9 + 1) by omega)).trans (by omega)
  · have hlen := length_decimal_le (show 2 ^ 32 - v.toNat < 10 ^ (9 + 1) by omega)
    rw [List.length_cons]
    omega

/-- `%x` of an `unsigned int`. -/
def printHex (v : UInt32) : Bytes := (Nat.toDigits 16 v.toNat).map fun c => UInt8.ofNat c.toNat

/-- How many digits a number has to base `b`. -/
def digitCount (b n : ℕ) : ℕ := Nat.log b n + 1

theorem length_toDigits {b : ℕ} (hb : 1 < b) (n : ℕ) : (Nat.toDigits b n).length = digitCount b n := by
  have hle (k : ℕ) : (Nat.toDigits b n).length ≤ k + 1 ↔ digitCount b n ≤ k + 1 := by
    rw [Nat.length_toDigits_le_iff hb (Nat.succ_pos k), digitCount, Nat.succ_le_succ_iff]
    rcases Nat.eq_zero_or_pos n with rfl | hn
    · simp [Nat.pow_pos (show 0 < b by omega)]
    · rw [← Nat.lt_succ_iff, Nat.log_lt_iff_lt_pow hb hn.ne']
  have hpos : 0 < (Nat.toDigits b n).length := Nat.length_toDigits_pos
  have hpos' : 0 < digitCount b n := Nat.succ_pos _
  have h := (hle ((Nat.toDigits b n).length - 1)).mp (by omega)
  have h' := (hle (digitCount b n - 1)).mpr (by omega)
  omega

theorem length_decimal (n : ℕ) : (decimal n).length = digitCount 10 n := by
  rw [decimal, List.length_map, length_toDigits (by decide)]

theorem length_printHex (v : UInt32) : (printHex v).length = digitCount 16 v.toNat := by
  rw [printHex, List.length_map, length_toDigits (by decide)]

/-- How much `%d` prints. -/
def intRoom (v : UInt32) : ℕ :=
  if v.toNat < 2 ^ 31 then digitCount 10 v.toNat else digitCount 10 (2 ^ 32 - v.toNat) + 1

theorem length_printInt (v : UInt32) : (printInt v).length = intRoom v := by
  unfold printInt intRoom
  split_ifs
  · exact length_decimal _
  · rw [List.length_cons, length_decimal]

/-- A digit, from 10 on a letter: `a` for 97, `A` for 65. -/
def hexDigitAt (a : UInt8) (d : ℕ) : UInt8 := if d < 10 then UInt8.ofNat (48 + d) else a + UInt8.ofNat (d - 10)

/-- `%02x` and `%02X` of a byte. -/
def hexByte (a : UInt8) (b : UInt8) : Bytes := [hexDigitAt a (b.toNat / 16), hexDigitAt a (b.toNat % 16)]

theorem length_flatMap_hexByte (a : UInt8) (l : Bytes) : (l.flatMap (hexByte a)).length = 2 * l.length := by
  rw [List.length_flatMap, List.map_congr_left fun c _ => show (hexByte a c).length = 2 from rfl, List.map_const',
    List.sum_replicate, smul_eq_mul, Nat.mul_comm]

theorem digitOf_hexDigitAt {a : UInt8} (ha : a = 97 ∨ a = 65) {d : ℕ} (hd : d < 16) :
    digitOf (hexDigitAt a d) = d := by
  rcases ha with rfl | rfl <;> interval_cases d <;> rfl

theorem valueIn_hexByte {a : UInt8} (ha : a = 97 ∨ a = 65) (b : UInt8) : valueIn 16 (hexByte a b) = b.toNat := by
  have hb := b.toNat_lt
  have hhigh := digitOf_hexDigitAt ha (show b.toNat / 16 < 16 by omega)
  have hlow := digitOf_hexDigitAt ha (show b.toNat % 16 < 16 by omega)
  rw [hexByte, valueIn, List.foldl_cons, List.foldl_cons, List.foldl_nil, hhigh, hlow]
  omega

theorem digitIn_hexByte {a : UInt8} (ha : a = 97 ∨ a = 65) (b : UInt8) : ∀ c ∈ hexByte a b, digitIn 16 c = true := by
  have hb := b.toNat_lt
  intro c hc
  simp only [hexByte, List.mem_cons, List.not_mem_nil, or_false] at hc
  rcases hc with rfl | rfl
  · rw [digitIn, digitOf_hexDigitAt ha (by omega), decide_eq_true_iff]
    omega
  · rw [digitIn, digitOf_hexDigitAt ha (by omega), decide_eq_true_iff]
    omega

end CText
