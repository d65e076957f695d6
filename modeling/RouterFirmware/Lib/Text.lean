/-
# C text functions

Bytes as the string functions of C see them: `strsep`, `atoi`, `strtoul`,
`inet_ntoa` and the printing of numbers, on lists without NUL. `strsep` writes a NUL
over the separator it finds, so what it returns is the token and what is left.

`vsnprintf` with a format and no arguments is `printf`: a conversion without its
argument is undefined, and what is put out from there on is an input.

What `strsep` makes of text that was put together is `strsep_append`, what `atoi`
makes of a number that was printed is `atoi_decimal`.
-/
import RouterFirmware.Lib.CMem
import Mathlib.Data.List.TakeWhile

namespace CText

open CMem

abbrev Bytes := List UInt8

/-- The bytes of a literal. -/
def bytes (s : String) : Bytes := s.toList.map fun c => UInt8.ofNat c.toNat

/-- The bytes of a literal are the ones it is kept as, if these are ASCII. -/
theorem bytes_of_ascii {s : String} (h : ∀ b ∈ s.toByteArray.data.toList, b < 128) :
    bytes s = s.toByteArray.data.toList := map_toList_of_ascii h

/-- Over the bytes of a list, not over all bytes. -/
instance decidableForallMem (l : Bytes) (p : UInt8 → Prop) [DecidablePred p] : Decidable (∀ c ∈ l, p c) :=
  List.decidableBAll p l

instance decidableForallMemOption (o : Option UInt8) (p : UInt8 → Prop) [DecidablePred p] : Decidable (∀ c ∈ o, p c) :=
  Option.decidableForallMem o

/-- All bytes, one after the other. -/
theorem forall_byte {p : UInt8 → Prop} : (∀ c, p c) ↔ ∀ n : Fin 256, p (UInt8.ofNat n) := by
  constructor
  · intro h n
    exact h _
  · intro h c
    have := h ⟨c.toNat, c.toNat_lt⟩
    rwa [UInt8.ofNat_toNat] at this

/-- The string that starts with these bytes: it ends at the first NUL. -/
def cstr (l : Bytes) : CStr :=
  ⟨l.takeWhile (· ≠ 0), fun h => by simpa using List.mem_takeWhile_imp h⟩

theorem cstr_bytes {l : Bytes} (h : (0 : UInt8) ∉ l) : (cstr l).bytes = l := by
  apply List.takeWhile_eq_self_iff.mpr
  intro c hc
  rw [decide_eq_true_eq]
  rintro rfl
  exact h hc

/-! ### Tokens -/

/-- `strsep(&s, delim)`: the token, and what is left unless there was no separator. -/
def strsep (delim : Bytes) : Bytes → Bytes × Option Bytes
  | [] => ([], none)
  | c :: s => if c ∈ delim then ([], some s) else (c :: (strsep delim s).1, (strsep delim s).2)

/-- A token in front of a separator. -/
theorem strsep_append {delim : Bytes} {c : UInt8} (hc : c ∈ delim) (rest : Bytes) :
    ∀ {s : Bytes}, (∀ x ∈ s, x ∉ delim) → strsep delim (s ++ c :: rest) = (s, some rest)
  | [], _ => by simp [strsep, hc]
  | x :: s, h => by
    have hs := strsep_append hc rest fun y hy => h y (List.mem_cons_of_mem x hy)
    rw [List.cons_append, strsep, if_neg (h x List.mem_cons_self), hs]

/-- Text without a separator. -/
theorem strsep_eq_none {delim : Bytes} : ∀ {s : Bytes}, (∀ x ∈ s, x ∉ delim) →
    strsep delim s = (s, none)
  | [], _ => rfl
  | x :: s, h => by
    have hs := strsep_eq_none fun y hy => h y (List.mem_cons_of_mem x hy)
    rw [strsep, if_neg (h x List.mem_cons_self), hs]

/-- The words that `foreach` copies into an array of `size` bytes. -/
def words (size : ℕ) (s : Bytes) : List Bytes :=
  ((s.splitOn 32).filter fun w => !w.isEmpty).map (·.take (size - 1))

/-! ### Numbers -/

def isDigit (c : UInt8) : Bool := 48 ≤ c && c ≤ 57

def isSpace (c : UInt8) : Bool := c == 32 || 9 ≤ c && c ≤ 13

/-- The number that digits spell. -/
def digitsVal (l : Bytes) : ℕ := l.foldl (fun n c => 10 * n + (c.toNat - 48)) 0

/-- The sign in front of a number, and the rest. -/
def sign : Bytes → Bool × Bytes
  | [] => (false, [])
  | c :: s => if c = 45 then (true, s) else if c = 43 then (false, s) else (false, c :: s)

/-- `atoi`, that is `strtol` to base 10, for a `long` of 32 bits. -/
def atoi (s : Bytes) : ℤ :=
  let s := sign (s.dropWhile isSpace)
  let n : ℤ := digitsVal (s.2.takeWhile isDigit)
  max (-2 ^ 31) (min (if s.1 then -n else n) (2 ^ 31 - 1))

/-- The value of a letter or digit as a digit. -/
def digitOf (c : UInt8) : ℕ :=
  if isDigit c then c.toNat - 48
  else if 97 ≤ c && c ≤ 122 then c.toNat - 87
  else if 65 ≤ c && c ≤ 90 then c.toNat - 55
  else 36

/-- The base that `strtoul` takes for base 0, and the digits behind the prefix. -/
def baseOf (s : Bytes) : ℕ × Bytes :=
  match s with
  | 48 :: x :: d :: rest =>
    if (x == 120 || x == 88) && digitOf d < 16 then (16, d :: rest) else (8, s)
  | 48 :: _ => (8, s)
  | _ => (10, s)

/-- `strtoul(s, NULL, 0)`, for an `unsigned long` of 32 bits. -/
def strtoul (s : Bytes) : ℕ :=
  let s := sign (s.dropWhile isSpace)
  let b := baseOf s.2
  let n := (b.2.takeWhile fun c => digitOf c < b.1).foldl (fun n c => b.1 * n + digitOf c) 0
  if n ≥ 2 ^ 32 then 2 ^ 32 - 1 else if s.1 then (2 ^ 32 - n) % 2 ^ 32 else n

/-- What `%d` prints of a number that is not negative. -/
def decimal (n : ℕ) : Bytes := (Nat.toDigits 10 n).map fun c => UInt8.ofNat c.toNat

theorem digitByte {d : ℕ} (h : d < 10) :
    UInt8.ofNat (Nat.digitChar d).toNat = UInt8.ofNat (48 + d) := by
  interval_cases d <;> rfl

/-- The last digit stands at the end. -/
theorem decimal_eq (n : ℕ) :
    decimal n = (if n < 10 then [] else decimal (n / 10)) ++ [UInt8.ofNat (48 + n % 10)] := by
  unfold decimal
  rw [Nat.toDigits_eq_if (by decide)]
  split_ifs with h
  · rw [List.map_singleton, digitByte h, Nat.mod_eq_of_lt h, List.nil_append]
  · rw [List.map_append, List.map_singleton, digitByte (Nat.mod_lt n (by decide))]

theorem toNat_digit {d : ℕ} (h : d < 10) : (UInt8.ofNat (48 + d)).toNat = 48 + d := by
  rw [UInt8.toNat_ofNat']
  omega

theorem isDigit_iff (c : UInt8) : isDigit c = true ↔ 48 ≤ c.toNat ∧ c.toNat ≤ 57 := by
  simp [isDigit, UInt8.le_iff_toNat_le]

theorem isDigit_of_mem_decimal (n : ℕ) : ∀ c ∈ decimal n, isDigit c = true := by
  induction n using Nat.strongRecOn with
  | ind n ih =>
    intro c hc
    rw [decimal_eq, List.mem_append, List.mem_singleton] at hc
    rcases hc with hc | rfl
    · split_ifs at hc with h
      · cases hc
      · exact ih (n / 10) (by omega) c hc
    · have hd := toNat_digit (Nat.mod_lt n (show 10 > 0 by decide))
      rw [isDigit_iff, hd]
      omega

theorem digitsVal_decimal (n : ℕ) : digitsVal (decimal n) = n := by
  induction n using Nat.strongRecOn with
  | ind n ih =>
    have hd := toNat_digit (Nat.mod_lt n (show 10 > 0 by decide))
    rw [decimal_eq]
    unfold digitsVal
    rw [List.foldl_append]
    split_ifs with h
    · rw [List.foldl_nil, List.foldl_cons, List.foldl_nil, hd]
      omega
    · have hq : (decimal (n / 10)).foldl (fun n c => 10 * n + (c.toNat - 48)) 0 = n / 10 :=
        ih (n / 10) (by omega)
      rw [hq, List.foldl_cons, List.foldl_nil, hd]
      omega

theorem decimal_inj {m n : ℕ} (h : decimal m = decimal n) : m = n := by
  rw [← digitsVal_decimal m, h, digitsVal_decimal]

theorem decimal_ne_nil (n : ℕ) : decimal n ≠ [] := by
  rw [decimal_eq]
  simp

theorem length_decimal_le {k : ℕ} : ∀ {n : ℕ}, n < 10 ^ (k + 1) → (decimal n).length ≤ k + 1 := by
  induction k with
  | zero =>
    intro n h
    rw [decimal_eq, if_pos (by omega)]
    simp
  | succ k ih =>
    intro n h
    rw [decimal_eq, List.length_append, List.length_singleton]
    split_ifs
    · simp
    · have hq := ih (n := n / 10) (by rw [pow_succ] at h; omega)
      omega

/-- What is no digit does not stand in a printed number. -/
theorem notMem_decimal {c : UInt8} (h : isDigit c = false) (n : ℕ) : c ∉ decimal n := by
  intro hc
  rw [isDigit_of_mem_decimal n c hc] at h
  cases h

/-- A printed number begins with a digit. -/
theorem decimal_eq_cons (n : ℕ) : ∃ c l, decimal n = c :: l ∧ isDigit c = true := by
  cases hl : decimal n with
  | nil => exact absurd hl (decimal_ne_nil n)
  | cons c l =>
    refine ⟨c, l, rfl, isDigit_of_mem_decimal n c ?_⟩
    rw [hl]
    exact List.mem_cons_self

/-- Digits up to the first byte that is none. -/
theorem takeWhile_digits {p : UInt8 → Bool} {l rest : Bytes} (hl : ∀ c ∈ l, p c = true)
    (hrest : ∀ c ∈ rest.head?, p c = false) : (l ++ rest).takeWhile p = l := by
  rw [List.takeWhile_append_of_pos hl]
  cases rest with
  | nil => simp
  | cons c rest =>
    have hc := hrest c rfl
    simp [hc]

/-- A digit is no space and no sign. -/
theorem isSpace_of_isDigit {c : UInt8} (h : isDigit c = true) : isSpace c = false ∧ c ≠ 45 ∧ c ≠ 43 := by
  have hlt := (isDigit_iff c).mp h
  refine ⟨?_, ?_, ?_⟩
  · unfold isSpace
    rw [Bool.or_eq_false_iff, beq_eq_false_iff_ne]
    refine ⟨fun he => ?_, ?_⟩
    · rw [he] at hlt
      exact absurd hlt.1 (by decide)
    · rw [Bool.and_eq_false_iff]
      refine Or.inr (decide_eq_false fun hle => ?_)
      have hle' := UInt8.le_iff_toNat_le.mp hle
      have : (13 : UInt8).toNat = 13 := rfl
      omega
  · rintro rfl
    exact absurd hlt.1 (by decide)
  · rintro rfl
    exact absurd hlt.1 (by decide)

/-- Digits are read up to the first byte that is no digit, as far as an `int` goes. -/
theorem atoi_digits_min {s : Bytes} (hne : s ≠ []) (hs : ∀ c ∈ s, isDigit c = true) {rest : Bytes}
    (hrest : ∀ c ∈ rest.head?, isDigit c = false) : atoi (s ++ rest) = min (digitsVal s : ℤ) (2 ^ 31 - 1) := by
  obtain ⟨c, l, rfl⟩ := List.exists_cons_of_ne_nil hne
  obtain ⟨hspace, hminus, hplus⟩ := isSpace_of_isDigit (hs c List.mem_cons_self)
  have hdrop : (c :: l ++ rest).dropWhile isSpace = c :: l ++ rest := by
    rw [List.cons_append, List.dropWhile_cons_of_neg (by simp [hspace])]
  have hsign : sign (c :: l ++ rest) = (false, c :: l ++ rest) := by
    rw [List.cons_append, sign, if_neg hminus, if_neg hplus]
  unfold atoi
  rw [hdrop, hsign]
  dsimp only
  rw [takeWhile_digits hs hrest]
  simp only [Bool.false_eq_true, if_false]
  omega

/-- As the number they spell, if it is an `int`. -/
theorem atoi_digits {s : Bytes} (hne : s ≠ []) (hs : ∀ c ∈ s, isDigit c = true) (h : digitsVal s < 2 ^ 31)
    {rest : Bytes} (hrest : ∀ c ∈ rest.head?, isDigit c = false) : atoi (s ++ rest) = digitsVal s := by
  rw [atoi_digits_min hne hs hrest]
  omega

/-- **A number is read as it was printed.** -/
theorem atoi_decimal {n : ℕ} (h : n < 2 ^ 31) : atoi (decimal n) = n := by
  have hdigits := @atoi_digits (decimal n) (decimal_ne_nil n) (isDigit_of_mem_decimal n)
    (by rwa [digitsVal_decimal]) [] (by simp)
  rwa [List.append_nil, digitsVal_decimal] at hdigits

/-! ### Addresses -/

/-- `inet_ntoa`, of an address in host order. -/
def inetNtoa (a : BitVec 32) : Bytes :=
  decimal (a.toNat / 2 ^ 24) ++ bytes "." ++ decimal (a.toNat / 2 ^ 16 % 256) ++ bytes "." ++
    decimal (a.toNat / 2 ^ 8 % 256) ++ bytes "." ++ decimal (a.toNat % 256)

theorem notMem_inetNtoa {c : UInt8} (hd : isDigit c = false) (hdot : c ≠ 46) (a : BitVec 32) :
    c ∉ inetNtoa a := by
  have hdot' : c ∉ bytes "." := fun h => hdot (List.mem_singleton.mp h)
  unfold inetNtoa
  simp only [List.mem_append, not_or]
  exact ⟨⟨⟨⟨⟨⟨notMem_decimal hd _, hdot'⟩, notMem_decimal hd _⟩, hdot'⟩, notMem_decimal hd _⟩, hdot'⟩,
    notMem_decimal hd _⟩

/-! ### Formats -/

/-- What `vsnprintf` puts out for a format without arguments, where `conv` is what is
put out from a conversion on. -/
def printf (conv : Bytes → Bytes) : Bytes → Bytes
  | [] => []
  | [c] => if c = 37 then conv [] else [c]
  | c :: d :: fmt =>
    if c = 37 then if d = 37 then 37 :: printf conv fmt else conv (d :: fmt)
    else c :: printf conv (d :: fmt)

/-- A format without a `%` is put out as it is, up to the first one. -/
theorem printf_append (conv : Bytes → Bytes) (rest : Bytes) : ∀ {l : Bytes}, (37 : UInt8) ∉ l →
    printf conv (l ++ rest) = l ++ printf conv rest
  | [], _ => rfl
  | c :: l, h => by
    have hc : c ≠ 37 := fun he => h (he ▸ List.mem_cons_self)
    have ih := printf_append conv rest (l := l) fun hm => h (List.mem_cons_of_mem c hm)
    cases hl : l ++ rest with
    | nil =>
      rw [hl] at ih
      rw [List.cons_append, List.cons_append, hl, printf, if_neg hc, ← ih]
      rfl
    | cons d t =>
      rw [hl] at ih
      rw [List.cons_append, List.cons_append, hl, printf, if_neg hc, ih]

theorem printf_eq_self (conv : Bytes → Bytes) {l : Bytes} (h : (37 : UInt8) ∉ l) :
    printf conv l = l := by
  have := printf_append conv [] h
  rwa [List.append_nil, printf, List.append_nil] at this

/-- If nothing is put out from a conversion on, a `%` costs a byte. -/
theorem length_printf_le : ∀ l : Bytes, (printf (fun _ => []) l).length ≤ l.length
  | [] => le_rfl
  | [c] => by
    unfold printf
    split_ifs <;> simp
  | c :: d :: fmt => by
    have h1 := length_printf_le fmt
    have h2 := length_printf_le (d :: fmt)
    unfold printf
    split_ifs
    · simp only [List.length_cons]
      omega
    · simp
    · simp only [List.length_cons] at h2 ⊢
      omega

theorem length_printf_lt : ∀ {l : Bytes}, (37 : UInt8) ∈ l →
    (printf (fun _ => []) l).length < l.length
  | [], h => by cases h
  | [c], h => by
    rw [List.mem_singleton] at h
    rw [printf, if_pos h.symm]
    exact Nat.one_pos
  | c :: d :: fmt, h => by
    have h1 := length_printf_le fmt
    unfold printf
    split_ifs with hc hd
    · simp only [List.length_cons]
      omega
    · simp
    · have hmem : (37 : UInt8) ∈ d :: fmt := (List.mem_cons.mp h).resolve_left (Ne.symm hc)
      have ih := length_printf_lt hmem
      simp only [List.length_cons] at ih ⊢
      omega

/-! ### Printing into a buffer -/

/-- A string that is being put together in a buffer, and how many bytes are left for it. -/
structure Cursor where
  str : Bytes
  len : ℤ

/-- One piece is put out: no more than fits is stored, and what is stored behind a
string that has been cut does not belong to it. -/
def Cursor.put (c : Cursor) (out : Bytes) : Cursor where
  str := if c.len ≤ 0 then c.str else c.str ++ out.take (c.len.toNat - 1)
  len := c.len - out.length

/-- The pieces, one after the other, in a buffer of `size` bytes. -/
def putAll (size : ℕ) (pieces : List Bytes) : Bytes := (pieces.foldl Cursor.put ⟨[], size⟩).str

theorem putAll_eq_take {size : ℕ} (hsize : 0 < size) (pieces : List Bytes) :
    putAll size pieces = pieces.flatten.take (size - 1) := by
  -- the string is what has been put out so far, cut
  suffices h : ∀ (pieces : List Bytes) (sofar : Bytes),
      (pieces.foldl Cursor.put ⟨sofar.take (size - 1), size - sofar.length⟩).str =
        (sofar ++ pieces.flatten).take (size - 1) by
    have := h pieces []
    simpa [putAll] using this
  intro pieces
  induction pieces with
  | nil => simp
  | cons out rest ih =>
    intro sofar
    have hput : Cursor.put ⟨sofar.take (size - 1), size - sofar.length⟩ out =
        ⟨(sofar ++ out).take (size - 1), size - (sofar ++ out).length⟩ := by
      unfold Cursor.put
      congr 1
      · dsimp only
        split_ifs with hlen
        · rw [List.take_append_of_le_length (by omega)]
        · rw [List.take_append, List.take_of_length_le (show sofar.length ≤ size - 1 by omega)]
          congr 2
          omega
      · simp only [List.length_append]
        push_cast
        ring
    rw [List.foldl_cons, hput, ih, List.flatten_cons, List.append_assoc]

end CText
