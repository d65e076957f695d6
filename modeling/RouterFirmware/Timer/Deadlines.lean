/-
# Deadlines of the event queue

When an event is due, counted from now: the head of the queue after the time
that remains on the interval timer, or after its own `it_value` while that is
not running (in the callbacks of `alarm_handler`, say), and every further
event its `it_value` after the one before. Here too is what `timerroundup`
does to a time in microseconds (`rounded`), for a granularity that divides the
second: the kernel shows 1000000/HZ, and HZ is 100.
-/
import RouterFirmware.Lib.Delta
import RouterFirmware.Timer.Queue

namespace Router
namespace Timer

open Timeval

/-! ### Rounding -/

theorem roundup_eq (x g : ℤ) : roundup x g = x + g - 1 - (x + g - 1) % g := by
  have h := Int.mul_ediv_add_emod (x + g - 1) g
  unfold roundup
  rw [Int.mul_comm]
  omega

theorem le_roundup {g : ℤ} (hg : 0 < g) (x : ℤ) : x ≤ roundup x g := by
  have h := Int.emod_lt_of_pos (x + g - 1) hg
  rw [roundup_eq]
  omega

theorem dvd_roundup (x g : ℤ) : g ∣ roundup x g := Dvd.intro_left _ rfl

theorem roundup_of_dvd {g x : ℤ} (hg : 0 < g) (h : g ∣ x) : roundup x g = x := by
  obtain ⟨k, rfl⟩ := h
  have hmod : (g * k + g - 1) % g = g - 1 := by
    rw [show g * k + g - 1 = g - 1 + g * k by ring, Int.add_mul_emod_self_left]
    exact Int.emod_eq_of_lt (by omega) (by omega)
  rw [roundup_eq, hmod]
  omega

theorem roundup_mono {g x y : ℤ} (hg : 0 < g) (h : x ≤ y) : roundup x g ≤ roundup y g :=
  Int.mul_le_mul_of_nonneg_right (Int.ediv_le_ediv hg (by omega)) hg.le

theorem le_roundup_of_pos {g x : ℤ} (hg : 0 < g) (hx : 1 ≤ x) : g ≤ roundup x g :=
  Int.le_of_dvd (by have := le_roundup hg x; omega) (dvd_roundup x g)

/-- What `timerroundup` makes of a time in microseconds. -/
def rounded (g x : ℤ) : ℤ := if 0 ≤ x ∧ x < 1000000 then roundup (max x 1) g else x

/-- How much that adds. -/
def excess (g x : ℤ) : ℤ := rounded g x - x

theorem le_rounded {g : ℤ} (hg : 0 < g) (x : ℤ) : x ≤ rounded g x := by
  unfold rounded
  split_ifs
  · exact (le_max_left x 1).trans (le_roundup hg _)
  · exact le_refl x

/-- The fields after `timerroundup`. -/
theorem timerroundup_of_sec_zero {t : Timeval} (h : t.sec = 0) (hu : 0 ≤ t.usec) (g : ℤ) :
    timerroundup t g = ⟨0, roundup (max t.usec 1) g⟩ := by
  unfold timerroundup timerisset
  by_cases h0 : t.usec = 0
  · simp [h, h0]
  · have hmax : max t.usec 1 = t.usec := max_eq_left (by omega)
    simp [h, h0, hmax]

theorem timerroundup_of_sec_ne {t : Timeval} (h : t.sec ≠ 0) (g : ℤ) : timerroundup t g = t := by
  unfold timerroundup timerisset
  simp [h]

theorem us_timerroundup {t : Timeval} {g : ℤ} (hg : 0 < g) (hdvd : g ∣ 1000000) (h0 : 0 ≤ t.usec)
    (h1 : t.usec ≤ 1000000) (hneg : t.sec < 0 → t.usec < 1000000) :
    (timerroundup t g).us = rounded g t.us := by
  have hu : t.us = t.sec * 1000000 + t.usec := rfl
  by_cases hs : t.sec = 0
  · have hus : t.us = t.usec := by rw [hu, hs]; ring
    rw [timerroundup_of_sec_zero hs h0, hus]
    show (0 : ℤ) * 1000000 + roundup (max t.usec 1) g = _
    unfold rounded
    split_ifs with hlt
    · ring
    · have hfull : t.usec = 1000000 := by omega
      have hmax : max (1000000 : ℤ) 1 = 1000000 := rfl
      rw [hfull, hmax, roundup_of_dvd hg hdvd]
      ring
  · rw [timerroundup_of_sec_ne hs]
    unfold rounded
    rw [if_neg (by omega)]

section Nonneg

variable {t : Timeval} {g : ℤ}

/-- A time that has been rounded up is set and passes the assertions. -/
theorem timerroundup_set (hs : 0 ≤ t.sec) (hu : 0 ≤ t.usec) (hg : 0 < g) :
    (timerroundup t g).timerisset = true ∧
      ((timerroundup t g).sec > 0 ∨ (timerroundup t g).usec ≥ g) := by
  by_cases h : t.sec = 0
  · have hge := le_roundup_of_pos hg (le_max_right t.usec 1)
    rw [timerroundup_of_sec_zero h hu]
    refine ⟨?_, Or.inr hge⟩
    unfold timerisset
    rw [decide_eq_true_eq]
    exact Or.inr (show roundup (max t.usec 1) g ≠ 0 by omega)
  · rw [timerroundup_of_sec_ne h]
    refine ⟨?_, Or.inl (by omega)⟩
    unfold timerisset
    rw [decide_eq_true_eq]
    exact Or.inl h

theorem timerroundup_nonneg (hs : 0 ≤ t.sec) (hu : 0 ≤ t.usec) (hg : 0 < g) :
    0 ≤ (timerroundup t g).sec ∧ 0 ≤ (timerroundup t g).usec := by
  by_cases h : t.sec = 0
  · have hge := le_roundup_of_pos hg (le_max_right t.usec 1)
    rw [timerroundup_of_sec_zero h hu]
    exact ⟨le_refl _, hg.le.trans hge⟩
  · rw [timerroundup_of_sec_ne h]
    exact ⟨hs, hu⟩

theorem timerroundup_idem (hu : 0 ≤ t.usec) (hg : 0 < g) :
    timerroundup (timerroundup t g) g = timerroundup t g := by
  by_cases h : t.sec = 0
  · have hge := le_roundup_of_pos hg (le_max_right t.usec 1)
    rw [timerroundup_of_sec_zero h hu, timerroundup_of_sec_zero rfl (show 0 ≤ roundup _ g by omega)]
    have hmax : max (roundup (max t.usec 1) g) 1 = roundup (max t.usec 1) g :=
      max_eq_left (by omega)
    simp only [hmax, roundup_of_dvd hg (dvd_roundup _ g)]
  · rw [timerroundup_of_sec_ne h, timerroundup_of_sec_ne h]

theorem proper_timerroundup (ht : Proper t) (hg : 0 < g) (hdvd : g ∣ 1000000) :
    Proper (timerroundup t g) := by
  have hu := ht.usec_nonneg
  have hle := ht.usec_le
  by_cases h : t.sec = 0
  · have hge := le_roundup_of_pos hg (le_max_right t.usec 1)
    have hmono := roundup_mono hg (max_le hle (by decide) : max t.usec 1 ≤ 1000000)
    rw [roundup_of_dvd hg hdvd] at hmono
    rw [timerroundup_of_sec_zero h hu]
    exact ⟨le_refl _, show 0 ≤ roundup (max t.usec 1) g by omega, hmono⟩
  · rw [timerroundup_of_sec_ne h]
    exact ht

end Nonneg

/-! ### Deadlines -/

variable {n : ℕ}

namespace Timers

/-- The time until the head `h` of the queue is due. -/
def remaining (s : Timers n) (h : Fin n) : ℤ :=
  if s.itimer.timerisset then s.itimer.us else (s.value h).us

/-- The delta list of the queue `l`, from now on, in microseconds. -/
def deltas (s : Timers n) : List (Fin n) → List (Fin n × ℤ)
  | [] => []
  | h :: l => (h, s.remaining h) :: l.map fun q => (q, (s.value q).us)

/-- When the events of the queue `l` are due. -/
def deadlines (s : Timers n) (l : List (Fin n)) : List (Fin n × ℤ) := Delta.due 0 (s.deltas l)

/-- The events of the queue with their values. -/
def values (s : Timers n) (l : List (Fin n)) : List (Fin n × Timeval) :=
  l.map fun q => (q, s.value q)

/-- The head's value is what remains: the values are the delta list. -/
theorem deltas_eq_amounts {s : Timers n} : ∀ {l : List (Fin n)},
    (∀ h ∈ l.head?, s.remaining h = (s.value h).us) →
    s.deltas l = Delta.amounts Timeval.us (s.values l)
  | [], _ => rfl
  | h :: l, hs => by
    rw [deltas, hs h rfl, values, Delta.amounts, List.map_map]
    rfl

theorem deadlines_map_fst (s : Timers n) (l : List (Fin n)) :
    (s.deadlines l).map Prod.fst = l := by
  rw [deadlines, Delta.due_map_fst]
  cases l with
  | nil => rfl
  | cons h l => simp [deltas, Function.comp_def]

/-- The interval timer issued again for a head that is not overdue. -/
theorem reissue_eq {s : Timers n} {h : Fin n} (hs : 0 ≤ (s.value h).sec) (hu : 0 ≤ (s.value h).usec)
    (hg : 0 < s.gGranularity) :
    s.reissue h = some ((s.setValue h (timerroundup (s.value h) s.gGranularity)).setitimer
      (timerroundup (s.value h) s.gGranularity)) := by
  obtain ⟨hset, hassert⟩ := timerroundup_set hs hu (Int.natCast_pos.mpr hg)
  unfold reissue
  simp only [hset, if_true]
  rw [if_pos ⟨hassert, hassert⟩]

end Timers

end Timer
end Router
