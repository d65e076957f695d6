/-
# Times in seconds and microseconds

`struct timeval` with the operations of `sys/time.h`, on unbounded integers.
`us` is the time in microseconds. `timeradd` and `timersub` carry once; in
microseconds they are exact whatever the fields are. `timercmp` compares the
fields in order. On proper values, whose microseconds make at most a full
second, it never contradicts the times; on normalised ones the carry leaves what is normalised.
-/
import Mathlib.Tactic

/-- `struct timeval`. -/
structure Timeval where
  sec : ℤ
  usec : ℤ
deriving DecidableEq, Repr

namespace Timeval

/-- The time in microseconds. -/
def us (t : Timeval) : ℤ := t.sec * 1000000 + t.usec

/-- `timerisset` and `timerclear`. -/
def timerisset (t : Timeval) : Bool := t.sec ≠ 0 ∨ t.usec ≠ 0

def zero : Timeval := ⟨0, 0⟩

/-- `timercmp(a, b, <)`. -/
def timercmpLt (a b : Timeval) : Bool :=
  if a.sec = b.sec then a.usec < b.usec else a.sec < b.sec

/-- `timeradd(a, b, result)`. -/
def timeradd (a b : Timeval) : Timeval :=
  if a.usec + b.usec ≥ 1000000 then ⟨a.sec + b.sec + 1, a.usec + b.usec - 1000000⟩
  else ⟨a.sec + b.sec, a.usec + b.usec⟩

/-- `timersub(a, b, result)`. -/
def timersub (a b : Timeval) : Timeval :=
  if a.usec - b.usec < 0 then ⟨a.sec - b.sec - 1, a.usec - b.usec + 1000000⟩
  else ⟨a.sec - b.sec, a.usec - b.usec⟩

/-- Neither field is negative, and the microseconds make at most a second. -/
structure Proper (t : Timeval) : Prop where
  sec_nonneg : 0 ≤ t.sec
  usec_nonneg : 0 ≤ t.usec
  usec_le : t.usec ≤ 1000000

variable {a b : Timeval}

@[simp] theorem us_timeradd (a b : Timeval) : (timeradd a b).us = a.us + b.us := by
  unfold timeradd us
  split_ifs <;> simp only <;> ring

@[simp] theorem us_timersub (a b : Timeval) : (timersub a b).us = a.us - b.us := by
  unfold timersub us
  split_ifs <;> simp only <;> ring

@[simp] theorem us_zero : zero.us = 0 := rfl

theorem Proper.us_nonneg (h : Proper a) : 0 ≤ a.us := by
  have h1 := h.sec_nonneg
  have h2 := h.usec_nonneg
  unfold us
  omega

/-- The comparison never contradicts the times. -/
theorem Proper.le_of_timercmpLt (ha : Proper a) (hb : Proper b) (h : timercmpLt a b = true) :
    a.us ≤ b.us := by
  have h1 := ha.usec_le
  have h2 := hb.usec_nonneg
  unfold timercmpLt at h
  unfold us
  split_ifs at h with hs <;> simp only [decide_eq_true_eq] at h <;> omega

/-- What is not less can be subtracted. -/
theorem Proper.timersub (ha : Proper a) (hb : Proper b) (h : timercmpLt a b = false) :
    Proper (timersub a b) := by
  have ha1 := ha.usec_le
  have ha2 := ha.usec_nonneg
  have hb1 := hb.usec_le
  have hb2 := hb.usec_nonneg
  unfold timercmpLt at h
  unfold Timeval.timersub
  split_ifs at h ⊢ <;> rw [decide_eq_false_iff_not] at h
  all_goals exact ⟨by simp only; omega, by simp only; omega, by simp only; omega⟩

/-- The microseconds make less than a second, as the carry leaves them. -/
structure Carried (t : Timeval) : Prop where
  usec_nonneg : 0 ≤ t.usec
  usec_lt : t.usec < 1000000

/-- Carried, and not negative. -/
structure Normalised (t : Timeval) : Prop extends Carried t where
  sec_nonneg : 0 ≤ t.sec

theorem carried_iff {t : Timeval} : Carried t ↔ 0 ≤ t.usec ∧ t.usec < 1000000 :=
  ⟨fun h => ⟨h.usec_nonneg, h.usec_lt⟩, fun h => ⟨h.1, h.2⟩⟩

theorem normalised_iff {t : Timeval} : Normalised t ↔ Carried t ∧ 0 ≤ t.sec :=
  ⟨fun h => ⟨h.toCarried, h.sec_nonneg⟩, fun h => ⟨h.1, h.2⟩⟩

instance (t : Timeval) : Decidable (Carried t) := decidable_of_iff _ carried_iff.symm

instance (t : Timeval) : Decidable (Normalised t) := decidable_of_iff _ normalised_iff.symm

theorem normalised_zero : Normalised zero := by decide

/-- A sum is carried. -/
theorem Carried.timeradd (ha : Carried a) (hb : Carried b) : Carried (timeradd a b) := by
  have ha1 := ha.usec_nonneg
  have ha2 := ha.usec_lt
  have hb1 := hb.usec_nonneg
  have hb2 := hb.usec_lt
  unfold Timeval.timeradd
  split_ifs <;> exact ⟨by simp only; omega, by simp only; omega⟩

theorem Carried.timersub (ha : Carried a) (hb : Carried b) : Carried (timersub a b) := by
  have ha1 := ha.usec_nonneg
  have ha2 := ha.usec_lt
  have hb1 := hb.usec_nonneg
  have hb2 := hb.usec_lt
  unfold Timeval.timersub
  split_ifs <;> exact ⟨by simp only; omega, by simp only; omega⟩

/-- What is not less can be subtracted, with the carry. -/
theorem Normalised.timersub (ha : Normalised a) (hb : Normalised b) (h : timercmpLt a b = false) :
    Normalised (timersub a b) := by
  refine ⟨ha.toCarried.timersub hb.toCarried, ?_⟩
  have hproper : Proper a := ⟨ha.sec_nonneg, ha.usec_nonneg, ha.usec_lt.le⟩
  exact (hproper.timersub ⟨hb.sec_nonneg, hb.usec_nonneg, hb.usec_lt.le⟩ h).sec_nonneg

theorem timersub_self (a : Timeval) : timersub a a = zero := by
  unfold timersub zero
  simp

/-- Nothing normalised is less than nothing. -/
theorem Normalised.eq_zero (ha : Normalised a) (h : timercmpLt zero a = false) : a = zero := by
  have h1 := ha.sec_nonneg
  have h2 := ha.usec_nonneg
  have hzero : zero.sec = 0 ∧ zero.usec = 0 := ⟨rfl, rfl⟩
  unfold timercmpLt at h
  split_ifs at h with hs <;> rw [decide_eq_false_iff_not] at h
  · obtain ⟨sec, usec⟩ := a
    rw [zero, Timeval.mk.injEq]
    simp only at h1 h2 h hs
    omega
  · omega

theorem timercmpLt_irrefl (a : Timeval) : timercmpLt a a = false := by
  simp [timercmpLt]

theorem timercmpLt_asymm (h : timercmpLt a b = true) : timercmpLt b a = false := by
  unfold timercmpLt at *
  split_ifs at h ⊢ <;> rw [decide_eq_true_eq] at h <;> rw [decide_eq_false_iff_not] <;> omega

end Timeval
