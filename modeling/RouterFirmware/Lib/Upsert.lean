/-
# Replacing an entry of a table

A table has an entry or none in each slot. `Replaced key good t t'` says that `t'` is `t` with one entry for the
key, a good one, in the place of those it had: the entries with another key are where they were. Entries are
taken out with `drop` and put in with `put`; what makes of these a replacement is `replaced_put_iff`, and what
makes one without a new entry is `replaced_drop_iff`.
-/
import Mathlib.Logic.Function.Basic
import Mathlib.Tactic

namespace Upsert

variable {ι α : Type*} {key good : α → Prop} {t t' : ι → Option α} {D : ι → Prop} {i j : ι} {m r : α}

/-- One entry for the key, and that a good one, and no other entry changed. -/
def Replaced (key good : α → Prop) (t t' : ι → Option α) : Prop :=
  (∃ i m, t' i = some m ∧ good m ∧ ∀ j m', t' j = some m' → key m' → j = i) ∧
    ∀ j m, ¬key m → (t' j = some m ↔ t j = some m)

/-- An entry that is taken out has the key, if the others are as before. -/
theorem key_of_dropped (h : ∀ j m, ¬key m → (t' j = some m ↔ t j = some m))
    (hdrop : ∀ j m, D j → ¬key m → t' j ≠ some m) (j : ι) (m : α) (hj : D j) (hm : t j = some m) : key m := by
  by_contra hkey
  exact hdrop j m hj hkey ((h j m hkey).mpr hm)

/-- The slots `D` emptied. -/
def drop (D : ι → Prop) [DecidablePred D] (t : ι → Option α) : ι → Option α := fun j => if D j then none else t j

/-- An entry put into a slot. -/
def put [DecidableEq ι] (i : ι) (r : α) (t : ι → Option α) : ι → Option α := fun j => if j = i then some r else t j

theorem drop_eq_some [DecidablePred D] : drop D t j = some m ↔ ¬D j ∧ t j = some m := by
  unfold drop
  split_ifs with h <;> simp [h]

/-- Without a new entry, a good one must be left. -/
theorem replaced_drop_iff [DecidablePred D] :
    Replaced key good t (drop D t) ↔
      (∃ j m, ¬D j ∧ t j = some m ∧ good m ∧ ∀ k m', ¬D k → t k = some m' → key m' → k = j) ∧
        ∀ j m, D j → t j = some m → key m := by
  constructor
  · rintro ⟨⟨i, m, hi, hgood, hone⟩, hothers⟩
    obtain ⟨hD, hm⟩ := drop_eq_some.mp hi
    refine ⟨⟨i, m, hD, hm, hgood, fun k m' hk hm' => hone k m' (drop_eq_some.mpr ⟨hk, hm'⟩)⟩, ?_⟩
    exact key_of_dropped hothers fun j m hj _ hm => (drop_eq_some.mp hm).1 hj
  · rintro ⟨⟨j, m, hD, hm, hgood, hone⟩, hdropped⟩
    refine ⟨⟨j, m, drop_eq_some.mpr ⟨hD, hm⟩, hgood, fun k m' hm' => ?_⟩, fun k m' hkey => ?_⟩
    · exact hone k m' (drop_eq_some.mp hm').1 (drop_eq_some.mp hm').2
    · rw [drop_eq_some]
      exact and_iff_right_of_imp fun hm' hk => hkey (hdropped k m' hk hm')

variable [DecidableEq ι]

theorem put_of_ne (h : j ≠ i) : put i r t j = t j := if_neg h

theorem put_same : put i r t i = some r := if_pos rfl

variable [DecidablePred D]

/-- A new entry replaces those that were taken out if it is good and they were the ones with the key. -/
theorem replaced_put_iff (hi : drop D t i = none) (hr : key r) :
    Replaced key good t (put i r (drop D t)) ↔
      good r ∧ (∀ j m, t j = some m → key m → D j) ∧ ∀ j m, D j → t j = some m → key m := by
  constructor
  · rintro ⟨⟨k, m, hk, hgood, hone⟩, hothers⟩
    obtain rfl : i = k := hone i r put_same hr
    rw [put_same] at hk
    cases hk
    refine ⟨hgood, fun j m hm hkey => ?_, key_of_dropped hothers fun j m hj hkey hm => ?_⟩
    · by_contra hj
      have hdrop : drop D t j = some m := drop_eq_some.mpr ⟨hj, hm⟩
      have hji : j ≠ i := by
        rintro rfl
        rw [hi] at hdrop
        cases hdrop
      exact hji (hone j m (by rwa [put_of_ne hji]) hkey)
    · by_cases hji : j = i
      · rw [hji, put_same] at hm
        cases hm
        exact hkey hr
      · rw [put_of_ne hji] at hm
        exact (drop_eq_some.mp hm).1 hj
  · rintro ⟨hgood, hall, hdropped⟩
    refine ⟨⟨i, r, put_same, hgood, fun j m hm hkey => ?_⟩, fun j m hkey => ?_⟩
    · by_contra hji
      rw [put_of_ne hji, drop_eq_some] at hm
      exact hm.1 (hall j m hm.2 hkey)
    · by_cases hji : j = i
      · rw [hji, put_same]
        constructor
        · intro hm
          cases hm
          exact absurd hr hkey
        · intro hm
          have hD : D i := by
            by_contra hD
            rw [drop, if_neg hD, hm] at hi
            cases hi
          exact absurd (hdropped i m hD hm) hkey
      · rw [put_of_ne hji, drop_eq_some]
        exact and_iff_right_of_imp fun hm hj => hkey (hdropped j m hj hm)

end Upsert
