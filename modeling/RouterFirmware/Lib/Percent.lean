/-
# Percent encodings

`Encodes plain e d`: the text `e` stands for the bytes `d`, each byte either as
`%XX` with two hex digits or by one character, which `plain` allows for it. An
encoding is not longer than three characters a byte (`Encodes.length_le`), and
as no character is a '%' by itself, it stands for one text only
(`encodes_plain_iff`, `encodes_escape_iff`).
-/
import Mathlib.Data.List.Basic
import Mathlib.Tactic.Use

namespace Percent

/-- The value of a hex digit, of either case. -/
def hexVal (c : UInt8) : Option ℕ :=
  if 48 ≤ c ∧ c ≤ 57 then some (c.toNat - 48)
  else if 65 ≤ c ∧ c ≤ 70 then some (c.toNat - 55)
  else if 97 ≤ c ∧ c ≤ 102 then some (c.toNat - 87)
  else none

/-- The text `e` stands for the bytes `d`. -/
inductive Encodes (plain : UInt8 → UInt8 → Prop) : List UInt8 → List UInt8 → Prop
  | nil : Encodes plain [] []
  | plain {x c : UInt8} {e d : List UInt8} : plain x c → Encodes plain e d → Encodes plain (x :: e) (c :: d)
  | escape {a b : UInt8} {h l : ℕ} {e d : List UInt8} : hexVal a = some h → hexVal b = some l →
      Encodes plain e d → Encodes plain (37 :: a :: b :: e) (UInt8.ofNat (16 * h + l) :: d)

variable {plain : UInt8 → UInt8 → Prop} {e d : List UInt8}

theorem Encodes.append {e' d' : List UInt8} (h : Encodes plain e d) (h' : Encodes plain e' d') :
    Encodes plain (e ++ e') (d ++ d') := by
  induction h with
  | nil => exact h'
  | plain hp _ ih => exact .plain hp ih
  | escape ha hb _ ih => exact .escape ha hb ih

theorem Encodes.length_le (h : Encodes plain e d) : d.length ≤ e.length := by
  induction h with
  | nil => exact Nat.le_refl _
  | plain _ _ ih => simpa using ih
  | escape _ _ _ ih =>
    simp only [List.length_cons]
    omega

theorem Encodes.mono {plain' : UInt8 → UInt8 → Prop} (hp : ∀ x c, plain x c → plain' x c)
    (h : Encodes plain e d) : Encodes plain' e d := by
  induction h with
  | nil => exact .nil
  | plain hx _ ih => exact .plain (hp _ _ hx) ih
  | escape ha hb _ ih => exact .escape ha hb ih

/-- A character that is not of an escape is there only where it stands for a byte. -/
theorem Encodes.notMem {b : UInt8} (hb : b ≠ 37) (hhex : hexVal b = none) (h : Encodes plain e d) :
    (∀ c ∈ d, ¬plain b c) → b ∉ e := by
  induction h with
  | nil => simp
  | @plain x c e d hx _ ih =>
    intro hd
    rw [List.forall_mem_cons] at hd
    rw [List.mem_cons, not_or]
    refine ⟨?_, ih hd.2⟩
    rintro rfl
    exact hd.1 hx
  | @escape x y _ _ e d hx hy _ ih =>
    intro hd
    rw [List.forall_mem_cons] at hd
    simp only [List.mem_cons, not_or]
    refine ⟨hb, ?_, ?_, ih hd.2⟩
    · rintro rfl
      rw [hhex] at hx
      cases hx
    · rintro rfl
      rw [hhex] at hy
      cases hy

theorem encodes_nil_right : Encodes plain e [] ↔ e = [] := by
  constructor
  · intro h
    cases h
    rfl
  · rintro rfl
    exact .nil

/-- A character that is not '%' stands for one byte. -/
theorem encodes_plain_iff {x c : UInt8} (hx : x ≠ 37) :
    Encodes plain (x :: e) (c :: d) ↔ plain x c ∧ Encodes plain e d := by
  constructor
  · intro h
    cases h with
    | plain hp h => exact ⟨hp, h⟩
    | escape ha hb h => exact absurd rfl hx
  · rintro ⟨hp, h⟩
    exact .plain hp h

/-- A '%' stands for the byte of the two digits behind it. -/
theorem encodes_escape_iff (hplain : ∀ c, ¬ plain 37 c) {a b c : UInt8} {h l : ℕ} (ha : hexVal a = some h)
    (hb : hexVal b = some l) :
    Encodes plain (37 :: a :: b :: e) (c :: d) ↔ c = UInt8.ofNat (16 * h + l) ∧ Encodes plain e d := by
  constructor
  · intro he
    cases he with
    | plain hp _ => exact absurd hp (hplain c)
    | escape ha' hb' he =>
      cases Option.some.inj (ha.symm.trans ha')
      cases Option.some.inj (hb.symm.trans hb')
      exact ⟨rfl, he⟩
  · rintro ⟨rfl, he⟩
    exact .escape ha hb he

end Percent
