/-
# timer_cancel and the deadlines of the others

A cancelled head should leave its remaining time to its successor; the code
takes the remaining time off it and hands over what has elapsed. An event
behind the head should leave its own value to its successor; the code leaves
nothing, and issues the interval timer for the whole value of the head again,
whatever has elapsed of it. `timer_settime` with a zero value clears the value
before it cancels. So cancelling moves the other deadlines, but for the cases
of `cancel_keeps_iff`.
-/
import RouterFirmware.Timer.Settime

namespace Router
namespace Timer

open Timeval Timers

variable {n : ℕ}

/-- The ways a queued timer is cancelled. -/
inductive Removal
  | cancel
  | delete
  | settime (itInterval : Timespec)

/-- `timer_cancel(e)`, `timer_delete(e)`, or `timer_settime` with a zero value. -/
def remove (s : Timers n) (e : Fin n) : Removal → Option (Timers n)
  | .cancel => timerCancel s e
  | .delete => (timerDelete s e).map Prod.fst
  | .settime itInterval => timerSettime s e ⟨itInterval, ⟨0, 0⟩⟩

/-- The deadlines of the events other than `e`, in order, are those of before
up to `g`. -/
def Unmoved (g : ℤ) (e : Fin n) (D D' : List (Fin n × ℤ)) : Prop :=
  List.Forall₂ (fun p p' => p'.1 = p.1 ∧ |p'.2 - p.2| ≤ g) (D.filter fun p => p.1 ≠ e) D'

/-- The interval timer is off for an empty queue, and else issued for the
head. The kernel takes the seconds as unsigned: negative ones are no time. -/
def Armed (s : Timers n) : List (Fin n) → Prop
  | [] => s.itimer = Timeval.zero
  | h :: _ => 0 ≤ s.itimer.sec ∧ s.itimer.us = (s.value h).us

/-- The event `e` has left the queue, and the others are not moved. -/
structure KeepsOthers (s s' : Timers n) (e : Fin n) (pre post : List (Fin n)) : Prop where
  queue : s'.Queue (pre ++ post)
  unmoved : Unmoved s.gGranularity e (s.deadlines (pre ++ e :: post)) (s'.deadlines (pre ++ post))
  armed : Armed s' (pre ++ post)

/-! ### The loop and the unlinking -/

theorem cancelLoop_eq {s : Timers n} {e : Fin n} {post : List (Fin n)} : ∀ {pre : List (Fin n)}
    {fuel : ℕ} {pp : Option (Fin n)}, Linked s.next (s.load pp) (pre ++ e :: post) → e ∉ pre →
    pre.length < fuel → s.cancelLoop e fuel pp = s.unlink e (pre.getLast?.or pp)
  | [], fuel + 1, pp, h, _, _ => by
    rw [cancelLoop, h.1]
    exact if_pos rfl
  | q :: pre, fuel + 1, pp, h, he, hf => by
    have hqe : q ≠ e := fun hqe => he (hqe ▸ List.mem_cons_self)
    have hloop := cancelLoop_eq (show Linked s.next (s.load (some q)) _ from h.2)
      (fun hm => he (List.mem_cons_of_mem _ hm)) (Nat.lt_of_succ_lt_succ hf)
    rw [cancelLoop, h.1]
    simp only [if_neg hqe]
    rw [hloop, List.getLast?_cons]
    cases pre.getLast? <;> rfl

/-- The state when the event is out of the queue, before the timer is issued. -/
def Timers.unlinked (s : Timers n) (e : Fin n) (pp : Option (Fin n)) : Timers n :=
  ((s.cancelHead e).store ((s.cancelHead e).next e) pp).setNext e none

theorem cancelHead_links (s : Timers n) (e : Fin n) : SameLinks s (s.cancelHead e) := by
  unfold cancelHead
  cases s.next e with
  | none => exact ⟨rfl, rfl, rfl, rfl⟩
  | some q =>
    simp only
    split_ifs
    · exact (sameLinks_setValue _ _ _).trans (sameLinks_setValue _ _ _)
    · exact ⟨rfl, rfl, rfl, rfl⟩

theorem unlinked_facts {s : Timers n} {e : Fin n} (pre post : List (Fin n))
    (hq : s.Queue (pre ++ e :: post)) :
    (s.unlinked e pre.getLast?).Queue (pre ++ post) ∧
      (s.unlinked e pre.getLast?).value = (s.cancelHead e).value ∧
      (s.unlinked e pre.getLast?).gGranularity = s.gGranularity := by
  have hlinks := cancelHead_links s e
  refine ⟨(hlinks.queue hq).unlink, ?_, ?_⟩
  · rw [unlinked, value_setNext, value_store]
  · show ((s.cancelHead e).store _ _).gGranularity = _
    cases pre.getLast? <;> exact hlinks.gGranularity

/-- The unlinking, then the timer for the new head if there is one. -/
theorem unlink_eq {s : Timers n} {e : Fin n} (pre post : List (Fin n))
    (hq : s.Queue (pre ++ e :: post)) :
    s.unlink e pre.getLast? =
      match pre ++ post with
      | [] => some ((s.unlinked e pre.getLast?).setitimer Timeval.zero)
      | h :: _ => (s.unlinked e pre.getLast?).reissue h := by
  have hhead := (unlinked_facts pre post hq).1.head_eq
  unfold Timers.unlinked at hhead ⊢
  unfold Timers.unlink
  dsimp only
  rw [hhead]
  cases pre ++ post <;> rfl

/-! ### The three ways -/

/-- The state in which the event is cancelled. -/
def base (s : Timers n) (e : Fin n) : Removal → Timers n
  | .settime itInterval => (s.setInterval e itInterval.toTimeval).setValue e Timeval.zero
  | _ => s

/-- What is done once it is. -/
def finish (e : Fin n) (how : Removal) (s : Timers n) : Timers n :=
  match how with
  | .delete =>
    let s := (s.setCancelled e true).setDeleted e true
    { s.setNext e s.eventFreelist with eventFreelist := some e }
  | _ => s.setCancelled e true

theorem remove_eq {s : Timers n} {e : Fin n} (hc : (s.event e).cancelled = false)
    (hd : (s.event e).deleted = false) (how : Removal) :
    remove s e how = ((base s e how).cancelLoop e (n + 1) none).map (finish e how) := by
  cases how with
  | cancel =>
    simp only [remove, timerCancel, hc, base, Bool.false_eq_true, if_false]
    rfl
  | delete =>
    simp only [remove, timerDelete, hd, timerCancel, hc, base, Option.map_map, Bool.false_eq_true,
      if_false]
    rfl
  | settime itInterval =>
    have hv : ((s.setInterval e itInterval.toTimeval).setValue e
        (Timespec.toTimeval ⟨0, 0⟩)).value e = Timeval.zero := setValue_self ..
    have hcancelled : (((s.setInterval e itInterval.toTimeval).setValue e
        (Timespec.toTimeval ⟨0, 0⟩)).event e).cancelled = false := by
      simp [setValue, setInterval, setEvent, hc]
    simp only [remove, timerSettime, hv]
    rw [if_pos (by decide), timerCancel, hcancelled]
    rfl

theorem value_finish (e : Fin n) (how : Removal) (s : Timers n) : (finish e how s).value = s.value := by
  cases how with
  | cancel => exact value_setCancelled s e true
  | delete =>
    show (Timers.setNext ((s.setCancelled e true).setDeleted e true) e _).value = _
    rw [value_setNext, setDeleted, value_setEvent]
    exact (Function.update_eq_self ..).trans (value_setCancelled s e true)
  | settime itInterval => exact value_setCancelled s e true

theorem itimer_finish (e : Fin n) (how : Removal) (s : Timers n) :
    (finish e how s).itimer = s.itimer := by
  cases how <;> rfl

theorem queue_finish {e : Fin n} (how : Removal) {s : Timers n} {l : List (Fin n)} (hq : s.Queue l)
    (he : e ∉ l) : (finish e how s).Queue l := by
  have hset : (s.setCancelled e true).Queue l := by
    unfold Queue
    rw [next_setCancelled]
    exact hq
  cases how with
  | cancel => exact hset
  | delete =>
    show Linked (Timers.setNext ((s.setCancelled e true).setDeleted e true) e _).next _ l
    rw [next_setNext, setDeleted, next_setEvent]
    exact Linked.update_of_notMem (Linked.update_of_notMem hset he _) he _
  | settime itInterval => exact hset

/-- Whether the others are kept is decided before the end. -/
theorem keepsOthers_finish {s t : Timers n} {e : Fin n} (how : Removal) (pre post : List (Fin n))
    (hq : t.Queue (pre ++ post)) (he : e ∉ pre ++ post) :
    KeepsOthers s (finish e how t) e pre post ↔
      Unmoved s.gGranularity e (s.deadlines (pre ++ e :: post)) (t.deadlines (pre ++ post)) ∧
        Armed t (pre ++ post) := by
  have hdeadlines : (finish e how t).deadlines (pre ++ post) = t.deadlines (pre ++ post) := by
    unfold deadlines
    cases pre ++ post with
    | nil => rfl
    | cons h l => rw [deltas, deltas, remaining, remaining, value_finish, itimer_finish]
  have harmed : Armed (finish e how t) (pre ++ post) ↔ Armed t (pre ++ post) := by
    cases pre ++ post with
    | nil => rw [Armed, Armed, itimer_finish]
    | cons h l => rw [Armed, Armed, itimer_finish, value_finish]
  constructor
  · intro h
    exact ⟨hdeadlines ▸ h.unmoved, harmed.mp h.armed⟩
  · intro h
    exact ⟨queue_finish how hq he, hdeadlines ▸ h.1, harmed.mpr h.2⟩

/-! ### Comparing deadlines -/

theorem unmoved_nil (g : ℤ) (e : Fin n) : Unmoved g e [] [] := List.Forall₂.nil

theorem unmoved_skip {g d : ℤ} {e : Fin n} {D D' : List (Fin n × ℤ)} :
    Unmoved g e ((e, d) :: D) D' ↔ Unmoved g e D D' := by
  unfold Unmoved
  rw [List.filter_cons_of_neg (by simp)]

theorem unmoved_cons {g a b : ℤ} {e q : Fin n} (hq : q ≠ e) {D D' : List (Fin n × ℤ)} :
    Unmoved g e ((q, a) :: D) ((q, b) :: D') ↔ |b - a| ≤ g ∧ Unmoved g e D D' := by
  unfold Unmoved
  rw [List.filter_cons_of_pos (by simpa using hq), List.forall₂_cons]
  simp

/-- The same differences counted from two times. -/
theorem unmoved_due_append {g : ℤ} {e : Fin n} {D D' : List (Fin n × ℤ)} : ∀ {l : List (Fin n × ℤ)}
    {a b : ℤ}, (∀ p ∈ l, p.1 ≠ e) →
    (Unmoved g e (Delta.due a l ++ D) (Delta.due b l ++ D') ↔
      (l ≠ [] → |b - a| ≤ g) ∧ Unmoved g e D D')
  | [], a, b, _ => by simp [Delta.due]
  | (q, d) :: l, a, b, hl => by
    have hq : q ≠ e := hl (q, d) List.mem_cons_self
    have hrest : Unmoved g e (Delta.due (a + d) l ++ D) (Delta.due (b + d) l ++ D') ↔
        (l ≠ [] → |b + d - (a + d)| ≤ g) ∧ Unmoved g e D D' :=
      unmoved_due_append fun p hp => hl p (List.mem_cons_of_mem _ hp)
    have hshift : b + d - (a + d) = b - a := by ring
    rw [Delta.due, Delta.due, List.cons_append, List.cons_append, unmoved_cons hq, hrest, hshift]
    simp only [ne_eq, reduceCtorEq, not_false_eq_true, forall_const]
    tauto

theorem unmoved_due {g a b : ℤ} {e : Fin n} {l : List (Fin n × ℤ)} (hl : ∀ p ∈ l, p.1 ≠ e) :
    Unmoved g e (Delta.due a l) (Delta.due b l) ↔ (l ≠ [] → |b - a| ≤ g) := by
  have h : Unmoved g e (Delta.due a l ++ []) (Delta.due b l ++ []) ↔
      (l ≠ [] → |b - a| ≤ g) ∧ Unmoved g e [] [] := unmoved_due_append hl
  rw [List.append_nil, List.append_nil] at h
  rw [h]
  exact and_iff_left (unmoved_nil g e)

/-! ### When the others are kept -/

/-- The condition. `r` is the time remaining on the interval timer, `v` the
values before; `excess` is what rounding up adds.

* alone on the queue: always;
* at its head: the time elapsed and the time remaining differ by at most the
  granularity, counting the rounding of the successor; with its value cleared
  first, twice the time remaining takes the place of their difference;
* behind the head `h`: the time elapsed and the rounding of `h` are at most
  the granularity; and if there are events behind `e`, its value is no further
  from that. -/
def Harmless (s : Timers n) (e : Fin n) (how : Removal) : List (Fin n) → List (Fin n) → Prop
  | [], [] => True
  | [], q :: _ =>
    match how with
    | .settime _ => s.itimer.us ≤ (s.value q).us ∧
      |excess s.gGranularity ((s.value q).us - s.itimer.us) - 2 * s.itimer.us| ≤ s.gGranularity
    | _ => |(s.value e).us - s.itimer.us - s.itimer.us +
      excess s.gGranularity ((s.value q).us + ((s.value e).us - s.itimer.us))| ≤ s.gGranularity
  | h :: _, post =>
    (s.value h).us - s.itimer.us + excess s.gGranularity (s.value h).us ≤ s.gGranularity ∧
      (post ≠ [] → |(s.value h).us - s.itimer.us + excess s.gGranularity (s.value h).us -
        (s.value e).us| ≤ s.gGranularity)

/-- The timer issued for the head `h` with a value that is not overdue. -/
theorem deadlines_reissued {t : Timers n} {h : Fin n} {l : List (Fin n)} (hl : h ∉ l) {v : Timeval}
    (hset : v.timerisset = true) :
    ((t.setValue h v).setitimer v).deadlines (h :: l) =
      (h, v.us) :: Delta.due v.us (l.map fun q => (q, (t.value q).us)) := by
  have hrest : (l.map fun q => (q, ((t.setValue h v).value q).us)) =
      l.map fun q => (q, (t.value q).us) := by
    apply List.map_congr_left
    intro q hq
    have hqh : q ≠ h := fun hqh => hl (hqh ▸ hq)
    rw [setValue_of_ne _ _ hqh]
  rw [deadlines, deltas, remaining]
  show Delta.due 0 ((h, if v.timerisset then v.us else _) ::
    l.map fun q => (q, ((t.setValue h v).value q).us)) = _
  rw [if_pos hset, Delta.due, zero_add, hrest]

theorem base_links (s : Timers n) (e : Fin n) (how : Removal) : SameLinks s (base s e how) := by
  cases how with
  | settime itInterval =>
    exact SameLinks.trans ⟨next_setInterval s e _, rfl, rfl, rfl⟩ (sameLinks_setValue _ _ _)
  | cancel => exact ⟨rfl, rfl, rfl, rfl⟩
  | delete => exact ⟨rfl, rfl, rfl, rfl⟩

theorem base_value (s : Timers n) {e q : Fin n} (how : Removal) (h : q ≠ e) :
    (base s e how).value q = s.value q := by
  cases how with
  | settime itInterval =>
    show ((s.setInterval e _).setValue e _).value q = _
    rw [setValue_of_ne _ _ h, value_setInterval]
  | cancel => rfl
  | delete => rfl

theorem cancelHead_behind {s : Timers n} {e : Fin n} (h : s.eventQueue ≠ some e) :
    s.cancelHead e = s := by
  unfold cancelHead
  cases s.next e with
  | none => rfl
  | some q => exact if_neg h

theorem cancelHead_first {s : Timers n} {e q : Fin n} (h : s.eventQueue = some e)
    (hnext : s.next e = some q) (hqe : q ≠ e) :
    (s.cancelHead e).value q = timeradd (s.value q) (timersub (s.value e) s.itimer) ∧
      ∀ x ≠ e, x ≠ q → (s.cancelHead e).value x = s.value x := by
  unfold cancelHead
  rw [hnext]
  simp only [h, if_true]
  refine ⟨?_, fun x hx hxq => ?_⟩
  · rw [setValue_self, setValue_self, setValue_of_ne _ _ hqe]
  · rw [setValue_of_ne _ _ hxq, setValue_of_ne _ _ hx]

/-- The fields of what the successor of a cancelled head gets. -/
theorem handover_fields {q v r : Timeval} (hq : Proper q) (hv : Proper v) (hr : Proper r)
    (h : r.us ≤ v.us ∨ v = Timeval.zero) :
    0 ≤ (timeradd q (timersub v r)).usec ∧ (timeradd q (timersub v r)).usec ≤ 1000000 ∧
      ((timeradd q (timersub v r)).sec < 0 → (timeradd q (timersub v r)).usec < 1000000) ∧
      (0 ≤ (timeradd q (timersub v r)).us ↔ 0 ≤ (timeradd q (timersub v r)).sec) := by
  have hq1 := hq.usec_nonneg
  have hq2 := hq.usec_le
  have hq3 := hq.sec_nonneg
  have hv1 := hv.usec_nonneg
  have hv2 := hv.usec_le
  have hr1 := hr.usec_nonneg
  have hr2 := hr.usec_le
  have hcases : r.sec * 1000000 + r.usec ≤ v.sec * 1000000 + v.usec ∨ v.sec = 0 ∧ v.usec = 0 := by
    refine h.imp id fun h0 => ?_
    rw [h0]
    exact ⟨rfl, rfl⟩
  clear h
  unfold timeradd timersub us
  split_ifs <;> simp only at * <;> omega

/-- No timer can be issued for a head that is overdue. -/
theorem reissue_overdue {t t' : Timers n} {h : Fin n} (hneg : (t.value h).sec < 0)
    (ht : t.reissue h = some t') : t'.itimer.sec < 0 := by
  have hset : (t.value h).timerisset = true := by
    unfold timerisset
    rw [decide_eq_true_eq]
    exact Or.inl (by omega)
  unfold reissue at ht
  simp only [timerroundup_of_sec_ne (show (t.value h).sec ≠ 0 by omega), hset, if_true] at ht
  split_ifs at ht
  rw [← Option.some.inj ht]
  exact hneg

section Cases

variable {s : Timers n} {e : Fin n}

theorem notMem_of_queue {pre post : List (Fin n)} (hq : s.Queue (pre ++ e :: post)) :
    e ∉ pre ++ post :=
  (List.nodup_cons.mp (List.nodup_middle.mp hq.nodup)).1

variable (hc : (s.event e).cancelled = false) (hd : (s.event e).deleted = false)

include hc hd

/-- A cancelled event, up to the timer issued for the new head. -/
theorem remove_unlink (how : Removal) (pre post : List (Fin n)) (hq : s.Queue (pre ++ e :: post)) :
    remove s e how = ((base s e how).unlink e pre.getLast?).map (finish e how) := by
  have hq' := (base_links s e how).queue hq
  have he : e ∉ pre := fun hm => notMem_of_queue hq (List.mem_append_left _ hm)
  have hlen : pre.length < n + 1 := by
    have hle := hq.length_le
    rw [List.length_append] at hle
    omega
  rw [remove_eq hc hd how, cancelLoop_eq (show Linked _ (Timers.load _ none) _ from hq') he hlen,
    Option.or_none]

/-- Alone on the queue. -/
theorem remove_alone (how : Removal) (hq : s.Queue [e]) :
    ∃ s', remove s e how = some s' ∧ KeepsOthers s s' e [] [] := by
  have hq' := (base_links s e how).queue hq
  have hunlinked : (((base s e how).unlinked e none).setitimer Timeval.zero).Queue ([] ++ []) :=
    (unlinked_facts [] [] hq').1
  refine ⟨finish e how (((base s e how).unlinked e none).setitimer Timeval.zero), ?_, ?_⟩
  · rw [remove_unlink hc hd how [] [] hq, unlink_eq [] [] hq']
    rfl
  · refine (keepsOthers_finish how [] [] hunlinked (by simp)).mpr ⟨?_, rfl⟩
    show Unmoved _ e [(e, _)] []
    exact unmoved_skip.mpr (unmoved_nil _ e)

/-- With others on the queue: what is compared, if the new head is not overdue. -/
theorem remove_reissued (how : Removal) (pre post : List (Fin n)) (hq : s.Queue (pre ++ e :: post))
    (hg : 0 < s.gGranularity) {h : Fin n} {l : List (Fin n)} (hl : pre ++ post = h :: l)
    {x : Timeval} (hx : ((base s e how).cancelHead e).value h = x) (hsec : 0 ≤ x.sec)
    (husec : 0 ≤ x.usec) :
    (∃ s', remove s e how = some s' ∧ KeepsOthers s s' e pre post) ↔
      Unmoved s.gGranularity e (s.deadlines (pre ++ e :: post))
        ((h, (timerroundup x s.gGranularity).us) :: Delta.due (timerroundup x s.gGranularity).us
          (l.map fun q => (q, (((base s e how).cancelHead e).value q).us))) := by
  have hlinks := base_links s e how
  have hq' := hlinks.queue hq
  obtain ⟨hqt, hvt, hgt⟩ := unlinked_facts pre post hq'
  have hrun : remove s e how =
      (((base s e how).unlinked e pre.getLast?).reissue h).map (finish e how) := by
    rw [remove_unlink hc hd how pre post hq, unlink_eq pre post hq', hl]
  generalize (base s e how).unlinked e pre.getLast? = t at hqt hvt hgt hrun
  rw [hlinks.gGranularity] at hgt
  have hval : t.value h = x := by rw [hvt, hx]
  have hre := reissue_eq (s := t) (h := h) (by rw [hval]; exact hsec) (by rw [hval]; exact husec)
    (by rw [hgt]; exact hg)
  rw [hval, hgt] at hre
  rw [hre, Option.map_some] at hrun
  have hset := (timerroundup_set hsec husec (Int.natCast_pos.mpr hg)).1
  have hnn := (timerroundup_nonneg hsec husec (Int.natCast_pos.mpr hg)).1
  generalize timerroundup x s.gGranularity = v at *
  have hhl : h ∉ l := by
    have hnd := hqt.nodup
    rw [hl] at hnd
    exact (List.nodup_cons.mp hnd).1
  have hqs : ((t.setValue h v).setitimer v).Queue (pre ++ post) := by
    show Linked (t.setValue h v).next _ _
    rw [next_setValue]
    exact hqt
  have harmed : Armed ((t.setValue h v).setitimer v) (pre ++ post) := by
    rw [hl]
    refine ⟨hnn, ?_⟩
    show v.us = ((t.setValue h v).value h).us
    rw [setValue_self]
  have hiff := keepsOthers_finish (s := s) how pre post hqs (notMem_of_queue hq)
  have hdead : ((t.setValue h v).setitimer v).deadlines (pre ++ post) =
      (h, v.us) :: Delta.due v.us (l.map fun q => (q, (((base s e how).cancelHead e).value q).us)) := by
    rw [hl, deadlines_reissued hhl hset, hvt]
  rw [hdead] at hiff
  constructor
  · rintro ⟨s', hs', hk⟩
    rw [← Option.some.inj (hrun.symm.trans hs')] at hk
    exact (hiff.mp hk).1
  · intro hu
    exact ⟨_, hrun, hiff.mpr ⟨hu, harmed⟩⟩

/-- Behind the head `h`. -/
theorem remove_behind (how : Removal) {h : Fin n} {pre post : List (Fin n)}
    (hq : s.Queue (h :: pre ++ e :: post)) (hh : Proper (s.value h))
    (hrun : s.itimer.timerisset = true) (hrem : s.itimer.us ≤ (s.value h).us)
    (hg : 0 < s.gGranularity) (hdvd : (s.gGranularity : ℤ) ∣ 1000000) :
    (∃ s', remove s e how = some s' ∧ KeepsOthers s s' e (h :: pre) post) ↔
      Harmless s e how (h :: pre) post := by
  have hout := notMem_of_queue hq
  have hlinks := base_links s e how
  have hhe : h ≠ e := fun hhe => hout (hhe ▸ List.mem_cons_self)
  have hrest : ∀ q ∈ pre ++ post, q ≠ e := fun q hq hqe => hout (hqe ▸ List.mem_cons_of_mem _ hq)
  have hcancel : (base s e how).cancelHead e = base s e how := by
    apply cancelHead_behind
    rw [hlinks.eventQueue, hq.1]
    exact fun hs => hhe (Option.some.inj hs)
  have hx : ((base s e how).cancelHead e).value h = s.value h := by rw [hcancel, base_value s how hhe]
  have hvals : ((pre ++ post).map fun q => (q, (((base s e how).cancelHead e).value q).us)) =
      (pre.map fun q => (q, (s.value q).us)) ++ post.map fun q => (q, (s.value q).us) := by
    rw [← List.map_append]
    apply List.map_congr_left
    intro q hq
    rw [hcancel, base_value s how (hrest q hq)]
  have hold : s.deadlines (h :: pre ++ e :: post) = (h, s.itimer.us) ::
      (Delta.due s.itimer.us (pre.map fun q => (q, (s.value q).us)) ++
        (e, s.itimer.us + ((pre.map fun q => (q, (s.value q).us)).map Prod.snd).sum + (s.value e).us) ::
          Delta.due (s.itimer.us + ((pre.map fun q => (q, (s.value q).us)).map Prod.snd).sum +
            (s.value e).us) (post.map fun q => (q, (s.value q).us))) := by
    rw [deadlines, List.cons_append, deltas, remaining, if_pos hrun, Delta.due, zero_add,
      List.map_append, Delta.due_append]
    rfl
  have hround := us_timerroundup (Int.natCast_pos.mpr hg) hdvd hh.usec_nonneg hh.usec_le
    (fun hneg => absurd hh.sec_nonneg (by omega))
  have hpre : ∀ p ∈ pre.map fun q => (q, (s.value q).us), p.1 ≠ e := by
    intro p hp
    obtain ⟨q, hq, rfl⟩ := List.mem_map.mp hp
    exact hrest q (List.mem_append_left _ hq)
  have hpost : ∀ p ∈ post.map fun q => (q, (s.value q).us), p.1 ≠ e := by
    intro p hp
    obtain ⟨q, hq, rfl⟩ := List.mem_map.mp hp
    exact hrest q (List.mem_append_right _ hq)
  have hl : h :: pre ++ post = h :: (pre ++ post) := rfl
  rw [remove_reissued hc hd how (h :: pre) post hq hg hl hx hh.sec_nonneg hh.usec_nonneg, hvals, hold,
    hround, Delta.due_append, unmoved_cons hhe, unmoved_due_append hpre, unmoved_skip,
    unmoved_due hpost]
  have hle := le_rounded (Int.natCast_pos.mpr hg) (s.value h).us
  have hnonneg : 0 ≤ rounded s.gGranularity (s.value h).us - s.itimer.us := by omega
  have hshift : ∀ c : ℤ, rounded s.gGranularity (s.value h).us + c - (s.itimer.us + c + (s.value e).us) =
      rounded s.gGranularity (s.value h).us - s.itimer.us - (s.value e).us := fun c => by ring
  have hexcess : (s.value h).us - s.itimer.us + excess s.gGranularity (s.value h).us =
      rounded s.gGranularity (s.value h).us - s.itimer.us := by
    unfold excess
    ring
  rw [Harmless, hexcess, hshift, abs_of_nonneg hnonneg]
  simp only [ne_eq, List.map_eq_nil_iff]
  tauto

/-- The head of the queue, with a successor. -/
theorem remove_first (how : Removal) {q : Fin n} {post : List (Fin n)} (hq : s.Queue (e :: q :: post))
    (hqp : Proper (s.value q)) (hit : Proper s.itimer) (hrun : s.itimer.timerisset = true)
    (hg : 0 < s.gGranularity) (hdvd : (s.gGranularity : ℤ) ∣ 1000000) {v : Timeval}
    (hv : (base s e how).value e = v) (hvp : Proper v) (hbase : s.itimer.us ≤ v.us ∨ v = Timeval.zero) :
    (∃ s', remove s e how = some s' ∧ KeepsOthers s s' e [] (q :: post)) ↔
      0 ≤ (s.value q).us + (v.us - s.itimer.us) ∧
        |rounded s.gGranularity ((s.value q).us + (v.us - s.itimer.us)) -
          (s.itimer.us + (s.value q).us)| ≤ s.gGranularity := by
  have hlinks := base_links s e how
  have hout : e ∉ q :: post := (List.nodup_cons.mp hq.nodup).1
  have hqe : q ≠ e := fun hqe => hout (hqe ▸ List.mem_cons_self)
  have hqpost : q ∉ post := (List.nodup_cons.mp (List.nodup_cons.mp hq.nodup).2).1
  have hq' := hlinks.queue hq
  obtain ⟨hx, hother⟩ := cancelHead_first hq'.1 hq'.2.1 hqe
  rw [base_value s how hqe, hv, hlinks.itimer] at hx
  obtain ⟨hu0, hu1, hneg, hsec⟩ := handover_fields hqp hvp hit hbase
  have hus : (timeradd (s.value q) (timersub v s.itimer)).us =
      (s.value q).us + (v.us - s.itimer.us) := by rw [us_timeradd, us_timersub]
  by_cases h0 : 0 ≤ (timeradd (s.value q) (timersub v s.itimer)).us
  · have hvals : (post.map fun x => (x, (((base s e how).cancelHead e).value x).us)) =
        post.map fun x => (x, (s.value x).us) := by
      apply List.map_congr_left
      intro x hx
      have hxe : x ≠ e := fun hxe => hout (hxe ▸ List.mem_cons_of_mem _ hx)
      have hxq : x ≠ q := fun hxq => hqpost (hxq ▸ hx)
      rw [hother x hxe hxq, base_value s how hxe]
    have hold : s.deadlines ([] ++ e :: q :: post) = (e, s.itimer.us) ::
        (q, s.itimer.us + (s.value q).us) ::
          Delta.due (s.itimer.us + (s.value q).us) (post.map fun x => (x, (s.value x).us)) := by
      rw [List.nil_append, deadlines, deltas, remaining, if_pos hrun, Delta.due, zero_add]
      rfl
    have hpost : ∀ p ∈ post.map fun x => (x, (s.value x).us), p.1 ≠ e := by
      intro p hp
      obtain ⟨x, hx, rfl⟩ := List.mem_map.mp hp
      exact fun hxe => hout (hxe ▸ List.mem_cons_of_mem _ hx)
    have hround := us_timerroundup (Int.natCast_pos.mpr hg) hdvd hu0 hu1 hneg
    rw [remove_reissued hc hd how [] (q :: post) hq hg rfl hx (hsec.mp h0) hu0, hvals, hold, hround,
      unmoved_skip, unmoved_cons hqe, unmoved_due hpost, hus]
    rw [hus] at h0
    tauto
  · -- the successor would be overdue
    have hq'' := (unlinked_facts [] (q :: post) hq').2.1
    constructor
    · rintro ⟨s', hs', hk⟩
      rw [remove_unlink hc hd how [] (q :: post) hq, unlink_eq [] (q :: post) hq'] at hs'
      obtain ⟨t', ht', rfl⟩ := Option.map_eq_some_iff.mp hs'
      have hover := reissue_overdue (by rw [hq'', hx]; exact Int.not_le.mp fun h => h0 (hsec.mpr h)) ht'
      have harmed := hk.armed.1
      rw [itimer_finish] at harmed
      omega
    · rintro ⟨hle, -⟩
      rw [hus] at h0
      exact absurd hle h0

end Cases

/-- **Cancelling a timer keeps the others just in these cases**: for every
queue, every time elapsed since the interval timer was issued, every event on
the queue and each way of cancelling it. -/
theorem cancel_keeps_iff {s : Timers n} {e : Fin n} {pre post : List (Fin n)}
    (hq : s.Queue (pre ++ e :: post)) (hproper : ∀ q ∈ pre ++ e :: post, Proper (s.value q))
    (hit : Proper s.itimer) (hrun : s.itimer.timerisset = true)
    (hrem : ∀ h ∈ (pre ++ e :: post).head?, s.itimer.us ≤ (s.value h).us)
    (hc : (s.event e).cancelled = false) (hd : (s.event e).deleted = false)
    (hg : 0 < s.gGranularity) (hdvd : (s.gGranularity : ℤ) ∣ 1000000) (how : Removal) :
    (∃ s', remove s e how = some s' ∧ KeepsOthers s s' e pre post) ↔ Harmless s e how pre post := by
  cases pre with
  | cons h pre =>
    exact remove_behind hc hd how hq (hproper h List.mem_cons_self) hrun (hrem h rfl) hg hdvd
  | nil =>
    cases post with
    | nil => exact iff_of_true (remove_alone hc hd how hq) trivial
    | cons q post =>
      have he := hproper e List.mem_cons_self
      have hqp := hproper q (List.mem_cons_of_mem _ List.mem_cons_self)
      have hle := hrem e rfl
      have hq0 := hqp.us_nonneg
      -- with the value as it was, the successor cannot be overdue
      have hdirect : (0 ≤ (s.value q).us + ((s.value e).us - s.itimer.us) ∧
          |rounded s.gGranularity ((s.value q).us + ((s.value e).us - s.itimer.us)) -
            (s.itimer.us + (s.value q).us)| ≤ s.gGranularity) ↔
          |(s.value e).us - s.itimer.us - s.itimer.us +
            excess s.gGranularity ((s.value q).us + ((s.value e).us - s.itimer.us))| ≤
              s.gGranularity := by
        have hsame : (s.value e).us - s.itimer.us - s.itimer.us +
            excess s.gGranularity ((s.value q).us + ((s.value e).us - s.itimer.us)) =
            rounded s.gGranularity ((s.value q).us + ((s.value e).us - s.itimer.us)) -
              (s.itimer.us + (s.value q).us) := by
          unfold excess
          ring
        rw [hsame]
        exact and_iff_right (by omega)
      cases how with
      | cancel =>
        exact (remove_first hc hd .cancel hq hqp hit hrun hg hdvd rfl he (Or.inl hle)).trans hdirect
      | delete =>
        exact (remove_first hc hd .delete hq hqp hit hrun hg hdvd rfl he (Or.inl hle)).trans hdirect
      | settime itInterval =>
        have hzero : Proper Timeval.zero := ⟨by decide, by decide, by decide⟩
        have hv : (base s e (.settime itInterval)).value e = Timeval.zero := setValue_self ..
        rw [remove_first hc hd (.settime itInterval) hq hqp hit hrun hg hdvd hv hzero (Or.inr rfl)]
        have hx : (s.value q).us + (Timeval.zero.us - s.itimer.us) = (s.value q).us - s.itimer.us := by
          rw [us_zero]
          ring
        have hsame : excess s.gGranularity ((s.value q).us - s.itimer.us) - 2 * s.itimer.us =
            rounded s.gGranularity ((s.value q).us - s.itimer.us) -
              (s.itimer.us + (s.value q).us) := by
          unfold excess
          ring
        show _ ↔ s.itimer.us ≤ (s.value q).us ∧ |excess _ _ - 2 * s.itimer.us| ≤ _
        rw [hx, hsame, sub_nonneg]

/-- The first of two events. -/
abbrev head : Fin 2 := ⟨0, Nat.two_pos⟩

/-- The second of two events. -/
abbrev behind : Fin 2 := ⟨1, Nat.one_lt_two⟩

/-- Two events, the first on the queue before the second. -/
def twoQueued (v w itimer : Timeval) : Timers 2 where
  event i := if i = head then ⟨Timeval.zero, v, false, false, some behind⟩ else ⟨Timeval.zero, w, false, false, none⟩
  eventQueue := some head
  eventFreelist := none
  gGranularity := 10000
  itimer := itimer

/-- Half of the head's time has elapsed: the successor is not moved. -/
theorem cancel_keeps_iff_half :
    ∃ s', remove (twoQueued ⟨4, 0⟩ ⟨5, 0⟩ ⟨2, 0⟩) 0 .cancel = some s' ∧
      KeepsOthers (twoQueued ⟨4, 0⟩ ⟨5, 0⟩ ⟨2, 0⟩) s' 0 [] [1] := by
  have hq : (twoQueued ⟨4, 0⟩ ⟨5, 0⟩ ⟨2, 0⟩).Queue ([] ++ 0 :: [1]) := ⟨rfl, rfl, rfl⟩
  have hproper : ∀ q : Fin 2, Proper ((twoQueued ⟨4, 0⟩ ⟨5, 0⟩ ⟨2, 0⟩).value q) := by
    intro q
    fin_cases q
    · exact ⟨by decide, by decide, by decide⟩
    · exact ⟨by decide, by decide, by decide⟩
  refine (cancel_keeps_iff hq (fun q _ => hproper q) ⟨by decide, by decide, by decide⟩ (by decide)
    (by decide) rfl rfl (by decide) (by decide) .cancel).mpr ?_
  unfold Harmless
  decide

/-- A head of ten seconds cancelled after one: its successor, due in fourteen,
is due in six. And of three seconds, one elapsed, the second event cancelled:
the head is due in three. -/
theorem cancel_moves_others :
    (∃ s', timerCancel (twoQueued ⟨10, 0⟩ ⟨5, 0⟩ ⟨9, 0⟩) 0 = some s' ∧
      (twoQueued ⟨10, 0⟩ ⟨5, 0⟩ ⟨9, 0⟩).deadlines [0, 1] = [(0, 9000000), (1, 14000000)] ∧
      s'.deadlines [1] = [(1, 6000000)]) ∧
    ∃ s', timerCancel (twoQueued ⟨3, 0⟩ ⟨5, 0⟩ ⟨2, 0⟩) 1 = some s' ∧
      (twoQueued ⟨3, 0⟩ ⟨5, 0⟩ ⟨2, 0⟩).deadlines [0, 1] = [(0, 2000000), (1, 7000000)] ∧
      s'.deadlines [0] = [(0, 3000000)] :=
  ⟨⟨_, rfl, by decide, by decide⟩, ⟨_, rfl, by decide, by decide⟩⟩

end Timer
end Router
