/-
# Credentials of the web client

`base64enc` of `router/shared/http.c`, which encodes what stands before the `@` of a URL, and `b64_decode` of the web
server. The encoder works on a string in front of its NUL and puts the `==` and the NUL behind each group of characters
before it knows what comes there; `turns` are the bytes that it stores, in order. A `char` is signed.

It stores inside the buffer, and what it leaves there is the encoding of as many groups of three bytes as there is room
for, which is decoded to them (`base64enc_sends`). The encoder stores nothing for an empty string or a buffer of less than
five bytes; the buffer of its caller, `wget`, is empty then.
-/
import RouterFirmware.Httpd.Request
import RouterFirmware.Lib.Base64
import RouterFirmware.Lib.InPlace

namespace Router
namespace Httpd
namespace Client

open CMem CText Base64

/-! ### `base64enc` -/

def al : Bytes := bytes "ABCDEFGHIJKLMNOPQRSTUVWXYZabcdefghijklmnopqrstuvwxyz0123456789+/"

/-- `al[i]`. -/
def alAt (i : Int32) : UInt8 := al.getD i.toNatClampNeg 0

/-- A `char` as it is promoted. -/
def promote (c : UInt8) : Int32 := c.toInt8.toInt32

/-- A byte stored at a position of the buffer. -/
abbrev Store := ℕ × UInt8

/-- The first two characters of a group, and the end of the text behind them. -/
def opening (a b : UInt8) (s : ℕ) : List Store :=
  [(s, alAt (promote a >>> 2 &&& (0x3F : Int32))),
    (s + 1, alAt (((promote a <<< 4) &&& (0x30 : Int32)) ||| ((promote b >>> 4) &&& (0x0F : Int32)))),
    (s + 3, 61), (s + 2, 61), (s + 4, 0)]

/-- The third character. -/
def middle (b c : UInt8) (s : ℕ) : Store :=
  (s + 2, alAt (((promote b <<< 2) &&& (0x3C : Int32)) ||| ((promote c >>> 6) &&& (0x03 : Int32))))

/-- The turns of the loop, with the string from `p` on and the position `s`. -/
def turns (len : ℤ) : Bytes → ℕ → List Store
  | [], _ => []
  | [a], s => if (s : ℤ) ≥ len - 4 then [] else opening a 0 s
  | [a, b], s => if (s : ℤ) ≥ len - 4 then [] else opening a b s ++ [middle b 0 s]
  | a :: b :: c :: p, s =>
    if (s : ℤ) ≥ len - 4 then []
    else opening a b s ++ [middle b c s, (s + 3, alAt (promote c &&& (0x3F : Int32)))] ++ turns len p (s + 4)

/-- The bytes stored in memory, in a buffer at `buf`. -/
def store (buf : ℕ) (m : Mem) (stores : List Store) : Mem :=
  stores.foldl (fun m x => write m (buf + x.1) [x.2]) m

/-- `base64enc(p, buf, len)`. -/
def base64enc (m : Mem) (p : CStr) (buf : ℕ) (len : ℤ) : Mem := store buf m (turns len p.bytes 0)

/-! ### The characters -/

/-- The parts of a byte that the encoder shifts and masks. -/
theorem promote_parts : ∀ a, (promote a >>> 2) &&& (0x3F : Int32) = Int32.ofNat (a.toNat / 4) ∧
    (promote a <<< 4) &&& (0x30 : Int32) = Int32.ofNat (a.toNat % 4 * 2 ^ 4) ∧
    (promote a >>> 4) &&& (0x0F : Int32) = Int32.ofNat (a.toNat / 16) ∧
    (promote a <<< 2) &&& (0x3C : Int32) = Int32.ofNat (a.toNat % 16 * 2 ^ 2) ∧
    (promote a >>> 6) &&& (0x03 : Int32) = Int32.ofNat (a.toNat / 64) ∧
    promote a &&& (0x3F : Int32) = Int32.ofNat (a.toNat % 64) := by
  refine forall_byte.mpr ?_
  decide +kernel

theorem alAt_ofNat {n : ℕ} (h : n < 64) : alAt (Int32.ofNat n) = char n := by
  have hall : ∀ n : Fin 64, alAt (Int32.ofNat n) = char n := by
    decide +kernel
  exact hall ⟨n, h⟩

/-- Bits that do not meet are added. -/
theorem int32_or_add {k b : ℕ} (a : ℕ) (h : b < 2 ^ k) :
    Int32.ofNat (a * 2 ^ k) ||| Int32.ofNat b = Int32.ofNat (a * 2 ^ k + b) := by
  rw [Nat.mul_comm a, Nat.two_pow_add_eq_or_of_lt h]
  apply Int32.toBitVec.inj
  rw [Int32.toBitVec_or]
  exact BitVec.ofNat_or.symm

theorem al_first (a : UInt8) : alAt ((promote a >>> 2) &&& (0x3F : Int32)) = char (first a) := by
  obtain ⟨hfirst, -⟩ := promote_parts a
  rw [hfirst]
  exact alAt_ofNat (first_lt a)

theorem al_second (a b : UInt8) :
    alAt (((promote a <<< 4) &&& (0x30 : Int32)) ||| ((promote b >>> 4) &&& (0x0F : Int32))) = char (second a b) := by
  obtain ⟨-, hlow, -⟩ := promote_parts a
  obtain ⟨-, -, hhigh, -⟩ := promote_parts b
  have hb := b.toNat_lt
  rw [hlow, hhigh, int32_or_add _ (by omega)]
  exact alAt_ofNat (second_lt a b)

theorem al_third (b c : UInt8) :
    alAt (((promote b <<< 2) &&& (0x3C : Int32)) ||| ((promote c >>> 6) &&& (0x03 : Int32))) = char (third b c) := by
  obtain ⟨-, -, -, hlow, -⟩ := promote_parts b
  obtain ⟨-, -, -, -, hhigh, -⟩ := promote_parts c
  have hc := c.toNat_lt
  rw [hlow, hhigh, int32_or_add _ (by omega)]
  exact alAt_ofNat (third_lt b c)

theorem al_fourth (c : UInt8) : alAt (promote c &&& (0x3F : Int32)) = char (fourth c) := by
  obtain ⟨-, -, -, -, -, hlow⟩ := promote_parts c
  rw [hlow]
  exact alAt_ofNat (fourth_lt c)

theorem opening_eq (a b : UInt8) (s : ℕ) : opening a b s =
    [(s, char (first a)), (s + 1, char (second a b)), (s + 3, 61), (s + 2, 61), (s + 4, 0)] := by
  rw [opening, al_first, al_second]

theorem middle_eq (b c : UInt8) (s : ℕ) : middle b c s = (s + 2, char (third b c)) := by
  rw [middle, al_third]

/-! ### What is stored -/

/-- **Inside the buffer**, from the position on. -/
theorem turns_inside {len : ℤ} : ∀ (p : Bytes) (s : ℕ), ∀ x ∈ turns len p s, s ≤ x.1 ∧ (x.1 : ℤ) < len
  | [], _, x, hx => absurd hx List.not_mem_nil
  | [a], s, x, hx => by
    rw [turns] at hx
    split_ifs at hx with hroom
    · exact absurd hx List.not_mem_nil
    · simp only [opening, List.mem_cons, List.not_mem_nil, or_false] at hx
      rcases hx with rfl | rfl | rfl | rfl | rfl <;> dsimp only <;> push_cast <;> omega
  | [a, b], s, x, hx => by
    rw [turns] at hx
    split_ifs at hx with hroom
    · exact absurd hx List.not_mem_nil
    · simp only [opening, middle, List.cons_append, List.nil_append, List.mem_cons, List.not_mem_nil, or_false] at hx
      rcases hx with rfl | rfl | rfl | rfl | rfl | rfl <;> dsimp only <;> push_cast <;> omega
  | a :: b :: c :: p, s, x, hx => by
    rw [turns] at hx
    split_ifs at hx with hroom
    · exact absurd hx List.not_mem_nil
    · rcases List.mem_append.mp hx with hx | hx
      · simp only [opening, middle, List.cons_append, List.nil_append, List.mem_cons, List.not_mem_nil, or_false] at hx
        rcases hx with rfl | rfl | rfl | rfl | rfl | rfl | rfl <;> dsimp only <;> push_cast <;> omega
      · have ih := turns_inside p (s + 4) x hx
        omega

/-- The rest of memory is left alone. -/
theorem store_of_forall {buf i : ℕ} : ∀ {stores : List Store} {m : Mem}, (∀ x ∈ stores, buf + x.1 ≠ i) →
    store buf m stores i = m i
  | [], _, _ => rfl
  | x :: stores, m, h => by
    have hx := h x List.mem_cons_self
    calc store buf m (x :: stores) i = store buf (write m (buf + x.1) [x.2]) stores i := rfl
      _ = write m (buf + x.1) [x.2] i := store_of_forall fun y hy => h y (List.mem_cons_of_mem x hy)
      _ = m i := by
        rw [write, if_neg]
        simp only [List.length_singleton]
        omega

theorem store_append (buf : ℕ) (m : Mem) (xs ys : List Store) :
    store buf m (xs ++ ys) = store buf (store buf m xs) ys := List.foldl_append

section Text

variable {buf : ℕ} {m : Mem}

/-- After the first two characters the text is ended for one byte. -/
theorem holds_opening (buf : ℕ) (m : Mem) (a b : UInt8) (s : ℕ) :
    Holds (store buf m (opening a b s)) (buf + s) [char (first a), char (second a b), 61, 61, 0] := by
  rw [opening_eq]
  simp [store, write, Holds, Nat.add_assoc]

/-- The third one takes the place of a `=`. -/
theorem holds_middle (buf : ℕ) (m : Mem) (a b c : UInt8) (s : ℕ) :
    Holds (store buf m (opening a b s ++ [middle b c s])) (buf + s)
      [char (first a), char (second a b), char (third b c), 61, 0] := by
  rw [opening_eq, middle_eq]
  simp [store, write, Holds, Nat.add_assoc]

/-- A whole group, with the NUL behind it. -/
theorem holds_group (buf : ℕ) (m : Mem) (a b c : UInt8) (s : ℕ) :
    Holds (store buf m (opening a b s ++ [middle b c s, (s + 3, alAt (promote c &&& (0x3F : Int32)))])) (buf + s)
      [char (first a), char (second a b), char (third b c), char (fourth c), 0] := by
  rw [opening_eq, middle_eq, al_fourth]
  simp [store, write, Holds, Nat.add_assoc]

/-- The groups that there is room for behind a position. -/
def room (len s : ℕ) : ℕ := (len - s - 1) / 4

/-- **What is left in the buffer**: the encoding of the bytes that there is room for. -/
theorem stands_turns {len : ℕ} : ∀ (p : Bytes) (s : ℕ) (m : Mem), m (buf + s) = 0 →
    Stands (store buf m (turns len p s)) (buf + s) (encode (p.take (3 * room len s)))
  | [], s, m, hz => by
    rw [List.take_nil]
    exact ⟨⟨hz, trivial⟩, List.not_mem_nil⟩
  | [a], s, m, hz => by
    rw [turns]
    split_ifs with hroom
    · rw [show room len s = 0 by unfold room; omega, Nat.mul_zero, List.take_zero]
      exact ⟨⟨hz, trivial⟩, List.not_mem_nil⟩
    · have hfit : 1 ≤ room len s := by unfold room; omega
      rw [List.take_of_length_le (by simp; omega)]
      exact ⟨holds_opening buf m a 0 s, nul_notMem_encode [a]⟩
  | [a, b], s, m, hz => by
    rw [turns]
    split_ifs with hroom
    · rw [show room len s = 0 by unfold room; omega, Nat.mul_zero, List.take_zero]
      exact ⟨⟨hz, trivial⟩, List.not_mem_nil⟩
    · have hfit : 1 ≤ room len s := by unfold room; omega
      rw [List.take_of_length_le (by simp; omega)]
      exact ⟨holds_middle buf m a b 0 s, nul_notMem_encode [a, b]⟩
  | a :: b :: c :: p, s, m, hz => by
    rw [turns]
    split_ifs with hroom
    · rw [show room len s = 0 by unfold room; omega, Nat.mul_zero, List.take_zero]
      exact ⟨⟨hz, trivial⟩, List.not_mem_nil⟩
    · have hnext : 3 * room len s = 3 * room len (s + 4) + 1 + 1 + 1 := by unfold room; omega
      obtain ⟨h0, h1, h2, h3, hnul, -⟩ := holds_group buf m a b c s
      rw [store_append]
      set m' := store buf m (opening a b s ++ [middle b c s, (s + 3, alAt (promote c &&& (0x3F : Int32)))])
      have ih : Stands (store buf m' (turns len p (s + 4))) (buf + (s + 4)) (encode (p.take (3 * room len (s + 4)))) :=
        stands_turns p (s + 4) m' hnul
      -- the rest of the text is stored behind the group
      have hframe : ∀ k < 4, store buf m' (turns len p (s + 4)) (buf + s + k) = m' (buf + s + k) := by
        intro k hk
        apply store_of_forall
        intro x hx
        have := (turns_inside p (s + 4) x hx).1
        omega
      rw [hnext, List.take_succ_cons, List.take_succ_cons, List.take_succ_cons]
      refine ⟨⟨?_, ?_, ?_, ?_, ?_⟩, nul_notMem_encode _⟩
      · exact (hframe 0 (by decide)).trans h0
      · exact (hframe 1 (by decide)).trans h1
      · exact (hframe 2 (by decide)).trans h2
      · exact (hframe 3 (by decide)).trans h3
      · exact ih.1

end Text

/-! ### `b64_decode` -/

section Decode

variable {before : UInt8 → UInt32} {size : ℕ} {prev : UInt32} {sp : Bytes}

/-- A character is read as its digit, and the parts of six bits that are used. -/
theorem sextets : ∀ n : Fin 64, (¬128 ≤ char n ∧ b64Digit (fun _ => 0) (char n) = UInt32.ofNat n ∧
      UInt32.ofNat n ≠ -1) ∧
    UInt32.ofNat n <<< 2 = UInt32.ofNat (n * 2 ^ 2) ∧
    (UInt32.ofNat n &&& 0x30) >>> 4 = UInt32.ofNat (n / 16) ∧
    (UInt32.ofNat n &&& 0xf) <<< 4 = UInt32.ofNat (n % 16 * 2 ^ 4) ∧
    (UInt32.ofNat n &&& 0x3c) >>> 2 = UInt32.ofNat (n / 4) ∧
    (UInt32.ofNat n &&& 0x3) <<< 6 = UInt32.ofNat (n % 4 * 2 ^ 6) := by
  decide +kernel

theorem b64Digit_char (before : UInt8 → UInt32) {n : ℕ} (h : n < 64) : b64Digit before (char n) = UInt32.ofNat n := by
  obtain ⟨⟨hascii, hdigit, -⟩, -⟩ := sextets ⟨n, h⟩
  unfold b64Digit at hdigit ⊢
  rw [if_neg hascii] at hdigit ⊢
  exact hdigit

theorem b64Digit_pad (before : UInt8 → UInt32) : b64Digit before 61 = -1 := rfl

theorem ofNat_ne_neg_one {n : ℕ} (h : n < 64) : UInt32.ofNat n ≠ -1 := by
  obtain ⟨⟨-, -, hne⟩, -⟩ := sextets ⟨n, h⟩
  exact hne

/-- `space[space_idx++] = c`, if there is room. -/
def put (size : ℕ) (sp : Bytes) (c : UInt8) : Bytes := if sp.length < size then sp ++ [c] else sp

theorem length_put (h : sp.length ≤ size) (c : UInt8) : (put size sp c).length ≤ size := by
  unfold put
  split_ifs
  · rw [List.length_append, List.length_singleton]
    omega
  · exact h

theorem put_append (h : sp.length ≤ size) (c : UInt8) (l : Bytes) :
    (put size sp c ++ l).take size = (sp ++ c :: l).take size := by
  unfold put
  split_ifs with hlt
  · rw [List.append_assoc, List.singleton_append]
  · rw [List.take_append_of_le_length (by omega), List.take_append_of_le_length (by omega)]

/-- Two parts of a byte are put together. -/
theorem uint32_or_add {k b : ℕ} (a : ℕ) (h : b < 2 ^ k) :
    (UInt32.ofNat (a * 2 ^ k) ||| UInt32.ofNat b).toUInt8 = UInt8.ofNat (a * 2 ^ k + b) := by
  rw [← UInt32.ofNat_or, Nat.mul_comm a, ← Nat.two_pow_add_eq_or_of_lt h, UInt32.toUInt8_ofNat']

theorem joined_first (a b : UInt8) :
    (UInt32.ofNat (first a) <<< 2 ||| (UInt32.ofNat (second a b) &&& 0x30) >>> 4).toUInt8 = a := by
  obtain ⟨-, hhigh, -⟩ := sextets ⟨first a, first_lt a⟩
  obtain ⟨-, -, hlow, -⟩ := sextets ⟨second a b, second_lt a b⟩
  have hb := b.toNat_lt
  have hrest : second a b / 16 = a.toNat % 4 := by
    unfold second
    omega
  dsimp only at hhigh
  rw [hhigh, hlow, hrest, uint32_or_add _ (by omega), first,
    show a.toNat / 4 * 2 ^ 2 + a.toNat % 4 = a.toNat by omega, UInt8.ofNat_toNat]

theorem joined_second (a b c : UInt8) : ((UInt32.ofNat (second a b) &&& 0xf) <<< 4 |||
    (UInt32.ofNat (third b c) &&& 0x3c) >>> 2).toUInt8 = b := by
  obtain ⟨-, -, -, hhigh, -⟩ := sextets ⟨second a b, second_lt a b⟩
  obtain ⟨-, -, -, -, hlow, -⟩ := sextets ⟨third b c, third_lt b c⟩
  have hb := b.toNat_lt
  have hc := c.toNat_lt
  have hfirst : second a b % 16 = b.toNat / 16 := by
    unfold second
    omega
  have hrest : third b c / 4 = b.toNat % 16 := by
    unfold third
    omega
  rw [hhigh, hlow, hfirst, hrest, uint32_or_add _ (by omega),
    show b.toNat / 16 * 2 ^ 4 + b.toNat % 16 = b.toNat by omega, UInt8.ofNat_toNat]

theorem joined_third (b c : UInt8) : ((UInt32.ofNat (third b c) &&& 0x3) <<< 6 |||
    UInt32.ofNat (fourth c)).toUInt8 = c := by
  obtain ⟨-, -, -, -, -, hhigh⟩ := sextets ⟨third b c, third_lt b c⟩
  have hc := c.toNat_lt
  have hfirst : third b c % 4 = c.toNat / 64 := by
    unfold third
    omega
  rw [hhigh, hfirst, uint32_or_add _ (fourth_lt c), fourth,
    show c.toNat / 64 * 2 ^ 6 + c.toNat % 64 = c.toNat by omega, UInt8.ofNat_toNat]

/-- A `=` is skipped. -/
theorem step_pad (x : Decoder) : x.step before size 61 = x := by
  rw [Decoder.step, b64Digit_pad, if_pos rfl]

theorem step_zero {n : ℕ} (h : n < 64) :
    Decoder.step before size ⟨0, prev, sp⟩ (char n) = ⟨1, UInt32.ofNat n, sp⟩ := by
  rw [Decoder.step, b64Digit_char before h, if_neg (ofNat_ne_neg_one h)]
  rfl

theorem step_one (a b : UInt8) :
    Decoder.step before size ⟨1, UInt32.ofNat (first a), sp⟩ (char (second a b)) =
      ⟨2, UInt32.ofNat (second a b), put size sp a⟩ := by
  rw [Decoder.step, b64Digit_char before (second_lt a b), if_neg (ofNat_ne_neg_one (second_lt a b))]
  dsimp only
  rw [joined_first a b]
  rfl

theorem step_two (a b c : UInt8) :
    Decoder.step before size ⟨2, UInt32.ofNat (second a b), sp⟩ (char (third b c)) =
      ⟨3, UInt32.ofNat (third b c), put size sp b⟩ := by
  rw [Decoder.step, b64Digit_char before (third_lt b c), if_neg (ofNat_ne_neg_one (third_lt b c))]
  dsimp only
  rw [joined_second a b c]
  rfl

theorem step_three (b c : UInt8) :
    Decoder.step before size ⟨3, UInt32.ofNat (third b c), sp⟩ (char (fourth c)) =
      ⟨0, UInt32.ofNat (fourth c), put size sp c⟩ := by
  rw [Decoder.step, b64Digit_char before (fourth_lt c), if_neg (ofNat_ne_neg_one (fourth_lt c))]
  dsimp only
  rw [joined_third b c]
  rfl

/-- The decoder on a text that was encoded, with what it has decoded before. -/
theorem foldl_encode : ∀ (l : Bytes) (prev : UInt32) {sp : Bytes}, sp.length ≤ size →
    ((encode l).foldl (Decoder.step before size) ⟨0, prev, sp⟩).space = (sp ++ l).take size
  | [], prev, sp, h => by
    rw [List.append_nil, List.take_of_length_le h]
    rfl
  | [a], prev, sp, h => by
    simp only [encode, List.foldl_cons, List.foldl_nil, step_zero (first_lt a), step_one, step_pad]
    calc put size sp a = (put size sp a ++ []).take size := by
          rw [List.append_nil, List.take_of_length_le (length_put h a)]
      _ = (sp ++ [a]).take size := put_append h a []
  | [a, b], prev, sp, h => by
    simp only [encode, List.foldl_cons, List.foldl_nil, step_zero (first_lt a), step_one, step_two, step_pad]
    calc put size (put size sp a) b = (put size (put size sp a) b ++ []).take size := by
          rw [List.append_nil, List.take_of_length_le (length_put (length_put h a) b)]
      _ = (put size sp a ++ [b]).take size := put_append (length_put h a) b []
      _ = (sp ++ [a, b]).take size := put_append h a [b]
  | a :: b :: c :: l, prev, sp, h => by
    have ha := length_put h a
    have hb := length_put ha b
    simp only [encode, List.foldl_cons, step_zero (first_lt a), step_one, step_two, step_three]
    rw [foldl_encode l _ (length_put hb c)]
    calc (put size (put size (put size sp a) b) c ++ l).take size
        = (put size (put size sp a) b ++ c :: l).take size := put_append hb c l
      _ = (put size sp a ++ b :: c :: l).take size := put_append ha b (c :: l)
      _ = (sp ++ a :: b :: c :: l).take size := put_append h a (b :: c :: l)

/-- **What was encoded is decoded**, as far as there is room. -/
theorem b64Decode_encode (before : UInt8 → UInt32) (l : Bytes) (size : ℕ) :
    b64Decode before (encode l) size = l.take size :=
  foldl_encode l 0 (Nat.zero_le size)

end Decode

/-! ### Both -/

/-- The text in the buffer. -/
def output (m : Mem) (p : CStr) (buf len : ℕ) : Bytes := scan (base64enc m p buf len) buf len

/-- The encoder stores inside the buffer and leaves a text there, the encoding of the beginning of the string. It is the
whole string if there is room, and the decoder gives it back. -/
structure Sends (m : Mem) (p : CStr) (buf len : ℕ) : Prop where
  inside : ∀ x ∈ turns len p.bytes 0, x.1 < len
  text : 0 < len → Stands (base64enc m p buf len) buf (output m p buf len) ∧ (output m p buf len).length < len
  encoded : ∃ l, l <+: p.bytes ∧ output m p buf len = encode l
  decoded : 4 * ((p.length + 2) / 3) + 1 ≤ len → output m p buf len = encode p.bytes ∧
    ∀ before size, p.length ≤ size → b64Decode before (output m p buf len) size = p.bytes

section Sends

variable {m : Mem} {buf len : ℕ}

theorem output_eq (p : CStr) (hbuf : 0 < len → m buf = 0) :
    output m p buf len = encode (p.bytes.take (3 * room len 0)) ∧
      (0 < len → Stands (base64enc m p buf len) buf (output m p buf len) ∧ (output m p buf len).length < len) := by
  rcases Nat.eq_zero_or_pos len with rfl | hlen
  · refine ⟨?_, fun h => absurd h (Nat.lt_irrefl 0)⟩
    rw [room, show 3 * ((0 - 0 - 1) / 4) = 0 by omega, List.take_zero]
    rfl
  · have hstands : Stands (base64enc m p buf len) buf (encode (p.bytes.take (3 * room len 0))) :=
      stands_turns p.bytes 0 m (hbuf hlen)
    have hlength : (encode (p.bytes.take (3 * room len 0))).length < len := by
      have htake := List.length_take_le (3 * room len 0) p.bytes
      rw [length_encode]
      unfold room at htake ⊢
      omega
    have heq : output m p buf len = encode (p.bytes.take (3 * room len 0)) := hstands.scan hlength
    rw [heq]
    exact ⟨rfl, fun _ => ⟨hstands, hlength⟩⟩

/-- **The credentials that are sent are the ones that are read**, with a buffer that is empty before. -/
theorem base64enc_sends (p : CStr) (hbuf : 0 < len → m buf = 0) : Sends m p buf len := by
  obtain ⟨heq, htext⟩ := output_eq p hbuf
  refine ⟨fun x hx => ?_, htext, ⟨_, List.take_prefix _ _, heq⟩, fun hroom => ?_⟩
  · have := (turns_inside p.bytes 0 x hx).2
    omega
  · have hall : p.bytes.take (3 * room len 0) = p.bytes := by
      apply List.take_of_length_le
      have hlength : p.bytes.length = p.length := rfl
      unfold room
      omega
    rw [hall] at heq
    refine ⟨heq, fun before size hsize => ?_⟩
    rw [heq, b64Decode_encode, List.take_of_length_le hsize]

end Sends

/-- In the buffer of `wget`. -/
theorem admin_sends : Sends (fun _ => 0) (CStr.lit "admin:admin") 0 128 := base64enc_sends _ fun _ => rfl

end Client
end Httpd
end Router
