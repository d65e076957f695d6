/-
# The values on the queue are normalised

`rounds` are the times a step of the system rounds up: what is requested, the interval of a recurring event, and what
the head has to wait when the timer is issued for it. In a run whose steps round up roundable times only, every value on
the queue is normalised (`queue_normalised`). Nothing is asked of the caller beyond that.
-/
import RouterFirmware.Timer.Rounding

namespace Router
namespace Timer

open Timeval Timers

variable {n : ℕ} {R : Type}

/-- The time that `getitimer` shows from now on. -/
def Action.shown : Action n R → Option Timeval
  | .elapse v => some v
  | _ => none

namespace Sys

/-- The times that are rounded up in a step. -/
def rounds (s : Sys n R) : Action n R → List Timeval
  | .api (.settime e value) =>
    if sets value then s.timers.settimeRounds e value else (s.timers.handedOver e zero).toList
  | .api (.cancel e) => (s.timers.handedOver e (s.timers.value e)).toList
  | .api (.delete e) => (s.timers.handedOver e (s.timers.value e)).toList
  | .ret =>
    match s.handler with
    | .callback e => s.timers.alarmRounds e
    | _ => []
  | _ => []

/-- A step that rounds up to normalised times only, where `getitimer` shows such. -/
def Carries (s : Sys n R) (a : Action n R) : Prop :=
  (∀ t ∈ s.rounds a, Roundable s.timers.gGranularity t) ∧ ∀ v ∈ a.shown, Normalised v

instance (s : Sys n R) (a : Action n R) : Decidable (s.Carries a) := inferInstanceAs (Decidable (_ ∧ _))

/-- The invariant: the values on the queue and the interval timer are normalised, and an event that was freed in its own
callback has been cancelled. -/
structure Level (s : Sys n R) (q f : List (Fin n)) : Prop where
  pool : Pool s.timers s.live q f
  fired : ∀ e ∈ f, s.handler = .callback e → (s.timers.event e).cancelled = true
  value : ∀ e ∈ q, Normalised (s.timers.value e)
  itimer : Normalised s.timers.itimer

variable {s s' : Sys n R} {q f : List (Fin n)} {e : Fin n}

theorem eq_zero_of_timerisset {t : Timeval} (ht : t.timerisset = false) : t = zero := by
  obtain ⟨sec, usec⟩ := t
  unfold timerisset at ht
  simp only [decide_eq_false_iff_not, not_or, not_not] at ht
  rw [zero, ht.1, ht.2]

theorem sameLinks_setInterval (t : Timers n) (e : Fin n) (v : Timeval) : SameLinks t (t.setInterval e v) :=
  ⟨next_setInterval t e v, rfl, rfl, rfl⟩

/-- The events that are free after a call: those before, and one that has been cancelled. -/
theorem Level.fired_of_flags (h : Level s q f) {t : Timers n} {f' : List (Fin n)} {c d : Bool}
    (hflags : FlagsBut e c d s.timers t) (hf : ∀ p ∈ f', p = e ∧ c = true ∨ p ≠ e ∧ p ∈ f) :
    ∀ p ∈ f', s.handler = .callback p → (t.event p).cancelled = true := by
  intro p hp hcall
  rcases hf p hp with ⟨rfl, rfl⟩ | ⟨hpe, hp⟩
  · exact hflags.cancelled_self
  · rw [hflags.cancelled p hpe]
    exact h.fired p hp hcall

theorem timerCreate_value {t t' : Timers n} {clockId : ℤ} {evp : Option Sigevent}
    (hrun : timerCreate t clockId evp = some (t', e)) : t'.value = t.value ∧ t'.itimer = t.itimer := by
  unfold timerCreate at hrun
  split_ifs at hrun
  cases hfree : t.eventFreelist with
  | none =>
    rw [hfree] at hrun
    cases hrun
  | some x =>
    rw [hfree] at hrun
    obtain ⟨-, hrun⟩ := Option.ite_none_right_eq_some.mp hrun
    cases hrun
    refine ⟨?_, rfl⟩
    show (Timers.setNext _ e none).value = _
    rw [value_setNext]
    show ((t.setCancelled e false).setDeleted e false).value = _
    rw [setDeleted, value_setEvent]
    exact (Function.update_eq_self ..).trans (value_setCancelled t e false)

theorem Level.create (h : Level s q f) {clockId : ℤ} {evp : Option Sigevent}
    (hrun : s.call (.create clockId evp e) = some s') : ∃ f', Level s' q f' := by
  rw [Sys.call] at hrun
  cases hcreate : timerCreate s.timers clockId evp with
  | none =>
    simp only [hcreate] at hrun
    cases hrun
  | some r =>
    obtain ⟨t, e'⟩ := r
    simp only [hcreate] at hrun
    split_ifs at hrun with he
    cases hrun
    subst he
    obtain ⟨f', rfl, hpool, hflags⟩ := h.pool.create hcreate
    obtain ⟨hvalue, hitimer⟩ := timerCreate_value hcreate
    have hf : e' ∉ f' := (List.nodup_cons.mp h.pool.owns.free.nodup).1
    refine ⟨f', hpool, h.fired_of_flags hflags fun p hp => .inr ⟨?_, List.mem_cons_of_mem _ hp⟩, fun p hp => ?_, ?_⟩
    · exact fun hpe => hf (hpe ▸ hp)
    · show Normalised (t.value p)
      rw [hvalue]
      exact h.value p hp
    · show Normalised t.itimer
      rw [hitimer]
      exact h.itimer

/-- `timer_cancel` of a live timer, from a state with the queue and the flags of `s`. -/
theorem Level.cancelled (h : Level s q f) (hl : s.live e = true) {t t' : Timers n} (ht : Owns t q f)
    (hsame : SameFlags s.timers t) (hval : ∀ x ∈ q, x ≠ e → Normalised (t.value x)) (hit : t.itimer = s.timers.itimer)
    (hrel : Released t e q) (hrun : timerCancel t e = some t') : Level { s with timers := t' } (q.erase e) f := by
  have hready := h.pool.same ht hsame h.pool.queued
  obtain ⟨hpool, hflags⟩ := hready.cancel hrun
  obtain ⟨hvalue, hitimer⟩ := timerCancel_normalised ht (hready.queued e) hval (hit ▸ h.itimer) hrel hrun
  refine ⟨hpool, fun p hp hcall => ?_, hvalue, hitimer⟩
  have hpe : p ≠ e := fun hpe => h.pool.not_free hl (hpe ▸ hp)
  show (t'.event p).cancelled = true
  rw [hflags.cancelled p hpe, hsame.cancelled]
  exact h.fired p hp hcall

theorem Level.settime (h : Level s q f) {value : Itimerspec} (hc : s.Carries (.api (.settime e value)))
    (hrun : s.call (.settime e value) = some s') : ∃ q', Level s' q' f := by
  rw [Sys.call] at hrun
  split_ifs at hrun with hl
  obtain ⟨t, hset, rfl⟩ := Option.map_eq_some_iff.mp hrun
  have hround := hc.1
  simp only [rounds] at hround
  cases hsets : sets value with
  | false =>
    -- the timer is disarmed, its value cleared first
    have hzero : value.itValue.toTimeval = zero := eq_zero_of_timerisset hsets
    rw [hsets, if_neg Bool.false_ne_true] at hround
    have hlinks := (sameLinks_setInterval s.timers e value.itInterval.toTimeval).trans
      (sameLinks_setValue _ e value.itValue.toTimeval)
    have hprep := (sameFlags_setInterval s.timers e value.itInterval.toTimeval).trans
      (sameFlags_setValue _ e value.itValue.toTimeval)
    have hready := h.pool.owns.same hlinks.next hlinks.eventQueue hprep.eventFreelist
    have hother : ∀ x ≠ e, ((s.timers.setInterval e value.itInterval.toTimeval).setValue e
        value.itValue.toTimeval).value x = s.timers.value x := by
      intro x hx
      rw [setValue_of_ne _ _ hx, value_setInterval]
    have hself : ((s.timers.setInterval e value.itInterval.toTimeval).setValue e
        value.itValue.toTimeval).value e = zero := by
      rw [setValue_self, hzero]
    have hcancel : timerCancel ((s.timers.setInterval e value.itInterval.toTimeval).setValue e
        value.itValue.toTimeval) e = some t := by
      rw [← hset]
      unfold timerSettime
      simp only [hself]
      exact (if_pos rfl).symm
    have hrel : Released ((s.timers.setInterval e value.itInterval.toTimeval).setValue e
        value.itValue.toTimeval) e q := by
      refine ⟨?_, ?_⟩
      · rintro y post rfl
        have hye : y ≠ e := fun hye => (List.nodup_cons.mp h.pool.owns.queue.nodup).1 (hye ▸ List.mem_cons_self)
        rw [hself, hother y hye]
        exact hround _ (Option.mem_toList.mpr (handedOver_first h.pool.owns zero))
      · rintro y post rfl he
        have hye : y ≠ e := fun hye => (List.nodup_cons.mp h.pool.owns.queue.nodup).1 (hye ▸ he)
        rw [hother y hye]
        exact hround _ (Option.mem_toList.mpr (handedOver_behind h.pool.owns he zero))
    have hlevel := h.cancelled hl hready hprep (fun x hx hxe => hother x hxe ▸ h.value x hx) rfl hrel hcancel
    refine ⟨q.erase e, ?_⟩
    exact ⟨hlevel.pool, hlevel.fired, hlevel.value, hlevel.itimer⟩
  | true =>
    rw [hsets, if_pos rfl] at hround
    obtain ⟨q', howns, hflags, hmem, hvalue, hitimer⟩ := timerSettime_normalised h.pool.owns (h.pool.not_free hl)
      h.value h.itimer hsets hround hset
    refine ⟨q', h.pool.set howns hmem hflags, h.fired_of_flags hflags fun p hp => .inr ⟨?_, hp⟩, hvalue, hitimer⟩
    exact fun hpe => h.pool.not_free hl (hpe ▸ hp)

theorem Level.delete (h : Level s q f) (hc : s.Carries (.api (.delete e))) (hrun : s.call (.delete e) = some s') :
    Level s' (q.erase e) (e :: f) := by
  rw [Sys.call] at hrun
  split_ifs at hrun with hl
  obtain ⟨r, hdelete, rfl⟩ := Option.map_eq_some_iff.mp hrun
  obtain ⟨hpool, hflags⟩ := h.pool.delete hl hdelete
  have hrel : Released s.timers e q := h.pool.owns.released fun v hv => hc.1 v (Option.mem_toList.mpr hv)
  unfold timerDelete at hdelete
  rw [h.pool.undeleted e hl] at hdelete
  obtain ⟨t, hcancel, rfl⟩ := Option.map_eq_some_iff.mp hdelete
  obtain ⟨hvalue, hitimer⟩ := timerCancel_normalised h.pool.owns (h.pool.queued e) (fun x hx _ => h.value x hx)
    h.itimer hrel hcancel
  refine ⟨hpool, h.fired_of_flags hflags fun p hp => ?_, fun p hp => ?_, hitimer⟩
  · by_cases hpe : p = e
    · exact .inl ⟨hpe, rfl⟩
    · exact .inr ⟨hpe, (List.mem_cons.mp hp).resolve_left hpe⟩
  · show Normalised ((Timers.setNext (t.setDeleted e true) e _).value p)
    rw [value_setNext, setDeleted, value_setEvent]
    rw [show Function.update t.value e (t.event e).itValue = t.value from Function.update_eq_self ..]
    exact hvalue p hp

theorem Level.call (h : Level s q f) {c : Api n R} (hc : s.Carries (.api c)) (hrun : s.call c = some s') :
    ∃ q' f', Level s' q' f' := by
  cases c with
  | create clockId evp e =>
    obtain ⟨f', hlevel⟩ := h.create hrun
    exact ⟨q, f', hlevel⟩
  | connect e routine arg =>
    rw [Sys.call] at hrun
    obtain ⟨-, hrun⟩ := Option.ite_none_right_eq_some.mp hrun
    cases hrun
    exact ⟨q, f, h.pool, h.fired, h.value, h.itimer⟩
  | settime e value =>
    obtain ⟨q', hlevel⟩ := h.settime hc hrun
    exact ⟨q', f, hlevel⟩
  | cancel e =>
    rw [Sys.call] at hrun
    split_ifs at hrun with hl
    obtain ⟨t, hcancel, rfl⟩ := Option.map_eq_some_iff.mp hrun
    have hrel : Released s.timers e q := h.pool.owns.released fun v hv => hc.1 v (Option.mem_toList.mpr hv)
    exact ⟨_, _, h.cancelled hl h.pool.owns (SameFlags.refl _) (fun x hx _ => h.value x hx) rfl hrel hcancel⟩
  | delete e => exact ⟨_, _, h.delete hc hrun⟩

theorem alarmReissue_normalised {t : Timers n} (hval : ∀ x ∈ q, Normalised (t.value x)) (hit : Normalised t.itimer)
    (hhead : ∀ h, t.eventQueue = some h → Roundable t.gGranularity (t.value h)) :
    (∀ x ∈ q, Normalised (t.alarmReissue.value x)) ∧ Normalised t.alarmReissue.itimer := by
  unfold alarmReissue
  cases hq : t.eventQueue with
  | none => exact ⟨hval, hit⟩
  | some h =>
    have hround := (hhead h hq).normalised
    constructor
    · intro x hx
      show Normalised ((t.setValue h _).value x)
      rw [value_setValue, Function.update_apply]
      split_ifs
      · exact hround
      · exact hval x hx
    · show Normalised (if ((t.setValue h _).value h).timerisset then (t.setValue h _).value h else ⟨0, 1⟩)
      rw [setValue_self]
      split_ifs
      · exact hround
      · decide

theorem Level.ret (h : Level s q f) (hhandler : s.handler = .callback e) (hc : s.Carries (.ret : Action n R))
    (hrun : s.ret e = some s') : ∃ q', Level s' q' f := by
  have hround : ∀ t ∈ s.timers.alarmRounds e, Roundable s.timers.gGranularity t := by
    have hall := hc.1
    simp only [rounds, hhandler] at hall
    exact hall
  have hef : s.timers.recurs e = true → e ∉ f := by
    intro hrecurs hf
    rw [recurs, h.fired e hf hhandler] at hrecurs
    cases hrecurs
  unfold Sys.ret at hrun
  cases hrequeue : s.timers.alarmRequeue e with
  | none =>
    rw [hrequeue] at hrun
    cases hrun
  | some t =>
    simp only [hrequeue] at hrun
    split_ifs at hrun with hcheck hagain
    all_goals
      rw [Bool.not_eq_false] at hcheck
      obtain ⟨q', hput⟩ := h.pool.owns.putBack hef h.value hround hrequeue hcheck
      have hqueued : ∀ x ∈ q', (s.timers.event x).cancelled = false := by
        intro x hx
        rcases hput.mem x hx with hq | ⟨rfl, hrecurs⟩
        · exact h.pool.queued x hq
        · rw [recurs, Bool.and_eq_true, Bool.not_eq_true'] at hrecurs
          exact hrecurs.1
      cases hrun
    · -- the loop goes on
      refine ⟨q', h.pool.same hput.owns hput.flags hqueued, (fun p _ hcall => by cases hcall), hput.value, ?_⟩
      show Normalised t.itimer
      rw [hput.itimer]
      exact h.itimer
    · -- the timer is issued for the head
      obtain ⟨hnext, hqueue, hsame⟩ := t.alarmReissue_same
      have howns := hput.owns.same hnext hqueue hsame.eventFreelist
      obtain ⟨hvalue, hitimer⟩ := alarmReissue_normalised hput.value (hput.itimer ▸ h.itimer) fun x hx =>
        hput.head x hx (Bool.eq_false_iff.mpr hagain)
      exact ⟨q', h.pool.same howns (hput.flags.trans hsame) hqueued, (fun p _ hcall => by cases hcall), hvalue, hitimer⟩

theorem alarmPop_value {t t' : Timers n} (hpop : t.alarmPop = some (t', e)) :
    t'.value = t.value ∧ t'.itimer = t.itimer := by
  unfold alarmPop at hpop
  cases hq : t.eventQueue with
  | none =>
    rw [hq] at hpop
    cases hpop
  | some x =>
    rw [hq] at hpop
    cases hpop
    refine ⟨?_, rfl⟩
    rw [value_setNext]
    rfl

variable [DecidableEq R]

theorem Level.fire (h : Level s q f) {routine : R} {arg : ℤ} (hrun : s.step (.fire e routine arg) = some s') :
    ∃ q', Level s' q' f := by
  rw [Sys.step] at hrun
  split_ifs at hrun with htop
  cases hpop : s.timers.alarmPop with
  | none =>
    simp only [hpop] at hrun
    cases hrun
  | some r =>
    obtain ⟨t, e'⟩ := r
    simp only [hpop] at hrun
    split_ifs at hrun with he
    cases hrun
    obtain ⟨rfl, -⟩ := he
    obtain ⟨q', rfl, hpool, -⟩ := h.pool.pop hpop
    obtain ⟨hvalue, hitimer⟩ := alarmPop_value hpop
    refine ⟨q', hpool, fun p hp hcall => ?_, fun p hp => ?_, ?_⟩
    · cases hcall
      exact absurd hp (h.pool.owns.disjoint List.mem_cons_self)
    · show Normalised (t.value p)
      rw [hvalue]
      exact h.value p (List.mem_cons_of_mem _ hp)
    · show Normalised t.itimer
      rw [hitimer]
      exact h.itimer

/-- A step that rounds up to normalised times keeps the invariant. -/
theorem Level.step (h : Level s q f) {a : Action n R} (hc : s.Carries a) (hrun : s.step a = some s') :
    ∃ q' f', Level s' q' f' := by
  cases a with
  | api c =>
    rw [Sys.step] at hrun
    split_ifs at hrun
    exact h.call hc hrun
  | elapse v =>
    rw [Sys.step] at hrun
    split_ifs at hrun
    cases hrun
    exact ⟨q, f, h.pool.same (h.pool.owns.same rfl rfl rfl) (sameFlags_setitimer _ _) h.pool.queued, h.fired, h.value,
      hc.2 v rfl⟩
  | signal =>
    rw [Sys.step] at hrun
    split_ifs at hrun
    cases hrun
    exact ⟨q, f, h.pool, (fun p _ hcall => by cases hcall), h.value, h.itimer⟩
  | fire e routine arg =>
    obtain ⟨q', hlevel⟩ := h.fire hrun
    exact ⟨q', f, hlevel⟩
  | ret =>
    rw [Sys.step] at hrun
    cases hhandler : s.handler with
    | callback e =>
      rw [hhandler] at hrun
      obtain ⟨q', hlevel⟩ := h.ret hhandler hc hrun
      exact ⟨q', f, hlevel⟩
    | idle =>
      rw [hhandler] at hrun
      cases hrun
    | top =>
      rw [hhandler] at hrun
      cases hrun

omit [DecidableEq R] in
theorem init_level (n g : ℕ) : Level (init n g R) [] (List.finRange n) := by
  refine ⟨(init_inv n g).pool, (fun p _ hcall => by cases hcall), by simp, normalised_zero⟩

/-- The steps that meet `Carries`. -/
def carryStep (s : Sys n R) (a : Action n R) : Option (Sys n R) := if s.Carries a then s.step a else none

/-- **The queue is normalised**: in every run that rounds up to normalised times only, the values on the queue are. -/
theorem queue_normalised {g : ℕ} {es : List (Action n R)} {s : Sys n R}
    (h : Run.Trace (fun s a s' => s.carryStep a = some s') (init n g R) es s) :
    ∃ q, s.timers.Queue q ∧ ∀ e ∈ q, Normalised (s.timers.value e) := by
  have hlevel : ∃ q f, Level s q f := by
    refine h.inv (I := fun _ s => ∃ q f, Level s q f) ⟨_, _, init_level n g⟩ ?_
    rintro es s a s' ⟨q, f, hlevel⟩ hstep
    obtain ⟨hc, hstep⟩ := Option.ite_none_right_eq_some.mp hstep
    exact hlevel.step hc hstep
  obtain ⟨q, f, hlevel⟩ := hlevel
  exact ⟨q, hlevel.pool.owns.queue, hlevel.value⟩

/-- A timer of a second, which recurs, fires. -/
theorem queue_normalised_recurring : ∃ s : Sys 1 Unit,
    Run.Trace (fun s a s' => s.carryStep a = some s') (init 1 10000 Unit) (firstAlarm 1 ++ [.ret]) s ∧
      ∃ q, s.timers.Queue q ∧ ∀ e ∈ q, Normalised (s.timers.value e) := by
  obtain ⟨s, hs⟩ := Run.exists_trace (f := carryStep) (s := init 1 10000 Unit)
    (show (Run.exec carryStep (firstAlarm 1 ++ [.ret]) (init 1 10000 Unit)).isSome = true by decide)
  exact ⟨s, hs, queue_normalised hs⟩

/-- The only event. -/
abbrev single : Fin 1 := ⟨0, Nat.one_pos⟩

/-- A timer is created and set to 995 milliseconds. -/
def nearlySecond : List (Action 1 Unit) :=
  [.api (.create clockRealtime none single), .api (.settime single ⟨⟨0, 0⟩, ⟨0, 995000000⟩⟩)]

/-- It stands on the queue with a million microseconds. -/
theorem nearly_second_queued : ¬ ∀ (es : List (Action 1 Unit)) (s : Sys 1 Unit), Runs 10000 es s →
    (∀ e value, .api (.settime e value) ∈ es →
      Normalised value.itValue.toTimeval ∧ Normalised value.itInterval.toTimeval) →
    (∀ v, .elapse v ∈ es → Normalised v) → ∀ q, s.timers.Queue q → ∀ e ∈ q, Normalised (s.timers.value e) := by
  intro h
  have hexec : (Run.exec step nearlySecond (init 1 10000 Unit)).any (fun s => s.timers.eventQueue = some 0 ∧
      s.timers.next 0 = none ∧ s.timers.value 0 = ⟨0, 1000000⟩) = true := by decide
  obtain ⟨s, hs, hqueue⟩ := (Option.any_eq_true _ _).mp hexec
  obtain ⟨hhead, hnext, hvalue⟩ := of_decide_eq_true hqueue
  have hnormal := h nearlySecond s (Run.trace_of_exec hs) (fun e value hmem => ?_) (by simp [nearlySecond]) [0]
    ⟨hhead, hnext⟩ 0 (List.mem_singleton_self 0)
  · rw [hvalue] at hnormal
    exact absurd hnormal.usec_lt (by decide)
  · simp only [nearlySecond, List.mem_cons, Action.api.injEq, Api.settime.injEq, reduceCtorEq, List.not_mem_nil,
      or_false, false_or] at hmem
    obtain ⟨-, rfl⟩ := hmem
    decide

end Sys

end Timer
end Router
