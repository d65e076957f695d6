/-
# Counting through slots

`nth p is n` is the `n`-th of the slots `is` that are taken, those with `p`; it is found by counting down, and there
is none for a negative `n`. It is a compact list of the taken slots: the numbers below their count have one each
(`nth_isSome_iff`), and each taken slot has one number (`existsUnique_nth`).
-/
import Mathlib.Data.Finset.Card
import Mathlib.Tactic

namespace Slots

variable {ι : Type*} (p : ι → Prop) [DecidablePred p]

/-- The `n`-th taken slot. -/
def nth : List ι → ℤ → Option ι
  | [], _ => none
  | i :: is, n => if p i then if n = 0 then some i else nth is (n - 1) else nth is n

variable {p}

theorem nth_eq_some_iff {i : ι} : ∀ {is : List ι} {n : ℤ},
    nth p is n = some i ↔ 0 ≤ n ∧ (is.filter p)[n.toNat]? = some i
  | [], n => by simp [nth]
  | j :: is, n => by
    unfold nth
    by_cases hj : p j
    · rw [if_pos hj, List.filter_cons_of_pos (by simpa using hj)]
      by_cases hn : n = 0
      · subst hn
        simp
      · rw [if_neg hn, nth_eq_some_iff]
        rcases lt_or_gt_of_ne hn with hneg | hpos
        · constructor <;> intro h <;> omega
        · rw [show n.toNat = (n - 1).toNat + 1 by omega, List.getElem?_cons_succ]
          constructor <;> rintro ⟨-, h⟩ <;> exact ⟨by omega, h⟩
    · rw [if_neg hj, List.filter_cons_of_neg (by simpa using hj)]
      exact nth_eq_some_iff

/-- There is one for each number below the count. -/
theorem nth_isSome_iff {is : List ι} {n : ℤ} : (nth p is n).isSome ↔ 0 ≤ n ∧ n < (is.filter p).length := by
  rw [Option.isSome_iff_exists]
  constructor
  · rintro ⟨i, hi⟩
    obtain ⟨hn, hget⟩ := nth_eq_some_iff.mp hi
    have hlt := (List.getElem?_eq_some_iff.mp hget).1
    omega
  · rintro ⟨hn, hlt⟩
    have hget : n.toNat < (is.filter p).length := by omega
    exact ⟨_, nth_eq_some_iff.mpr ⟨hn, List.getElem?_eq_getElem hget⟩⟩

theorem mem_of_nth {is : List ι} {n : ℤ} {i : ι} (h : nth p is n = some i) : i ∈ is ∧ p i := by
  have hmem := List.mem_of_getElem? (nth_eq_some_iff.mp h).2
  rw [List.mem_filter, decide_eq_true_eq] at hmem
  exact hmem

/-- Each taken slot has one number. -/
theorem existsUnique_nth {is : List ι} (hnodup : is.Nodup) {i : ι} (hi : i ∈ is) (hp : p i) :
    ∃! n : ℤ, nth p is n = some i := by
  have hmem : i ∈ is.filter p := List.mem_filter.mpr ⟨hi, decide_eq_true hp⟩
  obtain ⟨k, hk, hget⟩ := List.mem_iff_getElem.mp hmem
  refine ⟨k, nth_eq_some_iff.mpr ⟨Int.natCast_nonneg k, List.getElem?_eq_some_iff.mpr ⟨hk, hget⟩⟩, ?_⟩
  intro n hn
  obtain ⟨hnonneg, hgetn⟩ := nth_eq_some_iff.mp hn
  obtain ⟨hlt, hgetn⟩ := List.getElem?_eq_some_iff.mp hgetn
  have heq := (hnodup.filter p).getElem_inj_iff.mp (hgetn.trans hget.symm)
  omega

/-- The taken slots are as many as the set has members, if it has no others. -/
theorem length_filter_mem {map : Finset ℕ} {k : ℕ} (h : ∀ i ∈ map, i < k) :
    ((List.range k).filter (· ∈ map)).length = map.card := by
  have hset : ((List.range k).filter (· ∈ map)).toFinset = map := by
    ext i
    simp only [List.mem_toFinset, List.mem_filter, List.mem_range, decide_eq_true_eq]
    exact ⟨fun hi => hi.2, fun hi => ⟨h i hi, hi⟩⟩
  rw [← List.toFinset_card_of_nodup ((List.nodup_range).filter _), hset]

end Slots
