/-
# Base 64

`encode l` is the text of the bytes `l`: three bytes are four characters of six bits each, and at the end `=` stands for
characters that are not needed. Its length is `length_encode`; whole groups are encoded by themselves (`encode_append`).
Other characters may stand between (`Interspersed`); a reader that skips them does not see them (`Interspersed.foldl_eq`).
-/
import RouterFirmware.Lib.Text

namespace Base64

open CText

def alphabet : Bytes := bytes "ABCDEFGHIJKLMNOPQRSTUVWXYZabcdefghijklmnopqrstuvwxyz0123456789+/"

/-- The character of six bits. -/
def char (n : ℕ) : UInt8 := alphabet.getD n 0

/-! ### The four groups of six bits -/

def first (a : UInt8) : ℕ := a.toNat / 4

def second (a b : UInt8) : ℕ := a.toNat % 4 * 16 + b.toNat / 16

def third (b c : UInt8) : ℕ := b.toNat % 16 * 4 + c.toNat / 64

def fourth (c : UInt8) : ℕ := c.toNat % 64

theorem first_lt (a : UInt8) : first a < 64 := by
  have ha := a.toNat_lt
  unfold first
  omega

theorem second_lt (a b : UInt8) : second a b < 64 := by
  have hb := b.toNat_lt
  unfold second
  omega

theorem third_lt (b c : UInt8) : third b c < 64 := by
  have hc := c.toNat_lt
  unfold third
  omega

theorem fourth_lt (c : UInt8) : fourth c < 64 := Nat.mod_lt _ (by decide)

def encode : Bytes → Bytes
  | [] => []
  | [a] => [char (first a), char (second a 0), 61, 61]
  | [a, b] => [char (first a), char (second a b), char (third b 0), 61]
  | a :: b :: c :: l => char (first a) :: char (second a b) :: char (third b c) :: char (fourth c) :: encode l

/-- Four characters for three bytes. -/
theorem length_encode : ∀ l : Bytes, (encode l).length = 4 * ((l.length + 2) / 3)
  | [] => rfl
  | [a] => by simp [encode]
  | [a, b] => by simp [encode]
  | a :: b :: c :: l => by
    have ih := length_encode l
    simp only [encode, List.length_cons] at ih ⊢
    omega

theorem encode_append {l' : Bytes} : ∀ {l : Bytes}, l.length % 3 = 0 → encode (l ++ l') = encode l ++ encode l'
  | [], _ => rfl
  | [_], h => absurd h (by simp)
  | [_, _], h => absurd h (by simp)
  | a :: b :: c :: l, h => by
    have hl : l.length % 3 = 0 := by
      simp only [List.length_cons] at h
      omega
    simp only [List.cons_append, encode, encode_append hl]

theorem char_ne_zero {n : ℕ} (h : n < 64) : char n ≠ 0 := by
  have hnul : (0 : UInt8) ∉ alphabet := by decide +kernel
  have hlen : alphabet.length = 64 := by decide +kernel
  rw [char, List.getD_eq_getElem _ _ (hlen ▸ h)]
  exact fun h0 => hnul (h0 ▸ List.getElem_mem _)

theorem nul_notMem_encode : ∀ l : Bytes, (0 : UInt8) ∉ encode l
  | [] => List.not_mem_nil
  | [a] => by
    have h1 := char_ne_zero (first_lt a)
    have h2 := char_ne_zero (second_lt a 0)
    simp [encode, h1.symm, h2.symm]
  | [a, b] => by
    have h1 := char_ne_zero (first_lt a)
    have h2 := char_ne_zero (second_lt a b)
    have h3 := char_ne_zero (third_lt b 0)
    simp [encode, h1.symm, h2.symm, h3.symm]
  | a :: b :: c :: l => by
    have h1 := char_ne_zero (first_lt a)
    have h2 := char_ne_zero (second_lt a b)
    have h3 := char_ne_zero (third_lt b c)
    have h4 := char_ne_zero (fourth_lt c)
    have ih := nul_notMem_encode l
    simp [encode, h1.symm, h2.symm, h3.symm, h4.symm, ih]

/-! ### Other characters between -/

/-- The text with characters between that are not of the alphabet. -/
inductive Interspersed : Bytes → Bytes → Prop
  | nil : Interspersed [] []
  | same {c l t} : Interspersed l t → Interspersed (c :: l) (c :: t)
  | other {c l t} : c ∉ alphabet → c ≠ 0 → Interspersed l t → Interspersed l (c :: t)

theorem Interspersed.foldl_eq {β : Type*} {f : β → UInt8 → β} {l t : Bytes} (h : Interspersed l t)
    (hskip : ∀ c ∈ t, c ∉ alphabet → ∀ x, f x c = x) (x : β) : t.foldl f x = l.foldl f x := by
  induction h generalizing x with
  | nil => rfl
  | @same c l t _ ih => exact ih (fun d hd => hskip d (List.mem_cons_of_mem c hd)) (f x c)
  | @other c l t hc _ _ ih =>
    rw [List.foldl_cons, hskip c List.mem_cons_self hc]
    exact ih (fun d hd => hskip d (List.mem_cons_of_mem c hd)) x

end Base64
