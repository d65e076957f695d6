/-
# The event queue of linux_timer

Timers over one interval timer: `timer_settime`, `timer_cancel` and
`timer_delete`. The events stand in a pool of `n` structures (`g_maxevents`),
linked by `next` into the queue, where `it_value` is the difference to the
event before; a `struct event **` is none for `&event_queue` and `p` for
`&p->next`. `itimer` is what `getitimer` shows at the time of the call, and
what `setitimer` leaves. SIGALRM is blocked during the calls, so each is one
step; the debug output is left out, and so is the callback of an event, which
these functions do not touch.

A call is undefined where an assertion fails, where `check_event_queue` exits,
and where a walk along the queue does not end.
-/
import RouterFirmware.Lib.Timeval
import RouterFirmware.Lib.Linked

namespace Router
namespace Timer

open Timeval

/-- `struct timespec` and `struct itimerspec`. -/
structure Timespec where
  sec : ℤ
  nsec : ℤ

structure Itimerspec where
  itInterval : Timespec
  itValue : Timespec

/-- `TIMESPEC_TO_TIMEVAL`. -/
def Timespec.toTimeval (ts : Timespec) : Timeval := ⟨ts.sec, ts.nsec.tdiv 1000⟩

/-- `ROUNDUP(x, y)`. -/
def roundup (x y : ℤ) : ℤ := (x + y - 1) / y * y

/-- `timerroundup(t, g)`. -/
def timerroundup (t : Timeval) (g : ℤ) : Timeval :=
  let t := if t.timerisset then t else { t with usec := 1 }
  if t.sec = 0 then { t with usec := roundup t.usec g } else t

/-- `struct event`; the flags are `TFLAG_CANCELLED` and `TFLAG_DELETED`. -/
structure Event (n : ℕ) where
  itInterval : Timeval
  itValue : Timeval
  cancelled : Bool
  deleted : Bool
  next : Option (Fin n)

/-- The globals, the pool and the interval timer. -/
structure Timers (n : ℕ) where
  event : Fin n → Event n
  eventQueue : Option (Fin n)
  eventFreelist : Option (Fin n)
  gGranularity : ℕ
  itimer : Timeval

namespace Timers

variable {n : ℕ}

/-- The fields of an event, and writing to them. -/
def value (s : Timers n) (e : Fin n) : Timeval := (s.event e).itValue
def next (s : Timers n) (e : Fin n) : Option (Fin n) := (s.event e).next

def setEvent (s : Timers n) (e : Fin n) (ev : Event n) : Timers n :=
  { s with event := Function.update s.event e ev }

def setValue (s : Timers n) (e : Fin n) (v : Timeval) : Timers n :=
  s.setEvent e { s.event e with itValue := v }

def setInterval (s : Timers n) (e : Fin n) (v : Timeval) : Timers n :=
  s.setEvent e { s.event e with itInterval := v }

def setNext (s : Timers n) (e : Fin n) (o : Option (Fin n)) : Timers n :=
  s.setEvent e { s.event e with next := o }

def setCancelled (s : Timers n) (e : Fin n) (b : Bool) : Timers n :=
  s.setEvent e { s.event e with cancelled := b }

def setDeleted (s : Timers n) (e : Fin n) (b : Bool) : Timers n :=
  s.setEvent e { s.event e with deleted := b }

/-- Reading and writing through a `struct event **`. -/
def load (s : Timers n) : Option (Fin n) → Option (Fin n)
  | none => s.eventQueue
  | some p => s.next p

def store (s : Timers n) (o : Option (Fin n)) : Option (Fin n) → Timers n
  | none => { s with eventQueue := o }
  | some p => s.setNext p o

/-- The loop of `check_event_queue`, with `k` events to go before it exits. -/
def checkLoop (s : Timers n) : ℕ → Option (Fin n) → Bool
  | _, none => true
  | 0, some _ => false
  | k + 1, some e => s.checkLoop k (s.next e)

/-- `check_event_queue`, false where it exits. -/
def checkEventQueue (s : Timers n) : Bool := s.checkLoop (n + 1) s.eventQueue

/-- `setitimer(ITIMER_REAL, itimer, NULL)`; the interval is always 0. -/
def setitimer (s : Timers n) (v : Timeval) : Timers n := { s with itimer := v }

/-- The end of `timer_settime` and of `timer_cancel`: the interval timer is
issued again for the event `h` at the head of the queue. -/
def reissue (s : Timers n) (h : Fin n) : Option (Timers n) :=
  let v := timerroundup (s.value h) s.gGranularity
  let s := s.setValue h v
  let itimer := if v.timerisset then v else ⟨0, 1⟩
  if (itimer.sec > 0 ∨ itimer.usec ≥ s.gGranularity) ∧ (v.sec > 0 ∨ v.usec ≥ s.gGranularity) then
    some (s.setitimer itimer)
  else none

/-- What `timer_cancel` does if the event is the next to expire and has a
successor: the time on the interval timer is taken off the event, and what
that leaves is added to the successor. -/
def cancelHead (s : Timers n) (e : Fin n) : Timers n :=
  match s.next e with
  | none => s
  | some q =>
    if s.eventQueue = some e then
      let s := s.setValue e (timersub (s.value e) s.itimer)
      s.setValue q (timeradd (s.value q) (s.value e))
    else s

/-- The unlinking in `timer_cancel`, where `*ppevent == event`. -/
def unlink (s : Timers n) (e : Fin n) (ppevent : Option (Fin n)) : Option (Timers n) :=
  let s := s.cancelHead e
  let s := s.store (s.next e) ppevent
  let s := s.setNext e none
  match s.eventQueue with
  | some h => s.reissue h
  | none => some (s.setitimer Timeval.zero)

/-- The loop of `timer_cancel`. -/
def cancelLoop (s : Timers n) (e : Fin n) : ℕ → Option (Fin n) → Option (Timers n)
  | 0, _ => none
  | fuel + 1, ppevent =>
    match s.load ppevent with
    | none => some s
    | some q => if q = e then s.unlink e ppevent else s.cancelLoop e fuel (some q)

end Timers

open Timers

variable {n : ℕ}

/-- `timer_cancel(timerid)`. -/
def timerCancel (s : Timers n) (e : Fin n) : Option (Timers n) :=
  if (s.event e).cancelled then some s
  else (s.cancelLoop e (n + 1) none).map fun s => s.setCancelled e true

/-- `timer_delete(timerid)`. -/
def timerDelete (s : Timers n) (e : Fin n) : Option (Timers n × ℤ) :=
  if (s.event e).deleted then some (s, 1)
  else
    (timerCancel s e).map fun s =>
      let s := s.setDeleted e true
      let s := s.setNext e s.eventFreelist
      ({ s with eventFreelist := some e }, 0)

namespace Timers

/-- The head of the queue is set to the time remaining on the interval timer,
if that runs and does not show more. -/
def correctHead (s : Timers n) : Timers n :=
  match s.itimer.timerisset, s.eventQueue with
  | true, some h => if timercmpLt (s.value h) s.itimer then s else s.setValue h s.itimer
  | _, _ => s

/-- The loop of `timer_settime`: where the event goes, its value and that of
the event behind it adjusted. -/
def settimeLoop (e : Fin n) : ℕ → Timers n → Option (Fin n) → Option (Timers n × Option (Fin n))
  | 0, _, _ => none
  | fuel + 1, s, ppevent =>
    match s.load ppevent with
    | none => some (s, ppevent)
    | some q =>
      if timercmpLt (s.value e) (s.value q) then
        some (s.setValue q (timersub (s.value q) (s.value e)), ppevent)
      else settimeLoop e fuel (s.setValue e (timersub (s.value e) (s.value q))) (some q)

end Timers

/-- `timer_settime(timerid, flags, value, ovalue)`; it returns 0. -/
def timerSettime (s : Timers n) (e : Fin n) (value : Itimerspec) : Option (Timers n) :=
  let s := s.setInterval e value.itInterval.toTimeval
  let s := s.setValue e value.itValue.toTimeval
  if (s.value e).timerisset = false then timerCancel s e
  else
    let s := s.setValue e (timerroundup (s.value e) s.gGranularity)
    match settimeLoop e (n + 1) s.correctHead none with
    | none => none
    | some (s, ppevent) =>
      let s := s.setNext e (s.load ppevent)
      let s := s.store (some e) ppevent
      if s.checkEventQueue = false then none
      else
        (if s.eventQueue = some e then s.reissue e else some s).map fun s => s.setCancelled e false

/-! ### What the writes do -/

namespace Timers

variable (s : Timers n) (e : Fin n)

theorem value_setEvent (ev : Event n) :
    (s.setEvent e ev).value = Function.update s.value e ev.itValue := by
  funext q
  unfold value setEvent
  by_cases h : q = e
  · subst h
    simp
  · simp [h]

theorem next_setEvent (ev : Event n) :
    (s.setEvent e ev).next = Function.update s.next e ev.next := by
  funext q
  unfold next setEvent
  by_cases h : q = e
  · subst h
    simp
  · simp [h]

@[simp] theorem value_setValue (v : Timeval) :
    (s.setValue e v).value = Function.update s.value e v := value_setEvent s e _

@[simp] theorem value_setInterval (v : Timeval) : (s.setInterval e v).value = s.value :=
  (value_setEvent s e _).trans (Function.update_eq_self ..)

@[simp] theorem value_setNext (o : Option (Fin n)) : (s.setNext e o).value = s.value :=
  (value_setEvent s e _).trans (Function.update_eq_self ..)

@[simp] theorem value_setCancelled (b : Bool) : (s.setCancelled e b).value = s.value :=
  (value_setEvent s e _).trans (Function.update_eq_self ..)

@[simp] theorem next_setValue (v : Timeval) : (s.setValue e v).next = s.next :=
  (next_setEvent s e _).trans (Function.update_eq_self ..)

@[simp] theorem next_setInterval (v : Timeval) : (s.setInterval e v).next = s.next :=
  (next_setEvent s e _).trans (Function.update_eq_self ..)

@[simp] theorem next_setNext (o : Option (Fin n)) :
    (s.setNext e o).next = Function.update s.next e o := next_setEvent s e _

@[simp] theorem next_setCancelled (b : Bool) : (s.setCancelled e b).next = s.next :=
  (next_setEvent s e _).trans (Function.update_eq_self ..)

@[simp] theorem value_store (o pp : Option (Fin n)) : (s.store o pp).value = s.value := by
  cases pp with
  | none => rfl
  | some p => exact value_setNext s p o

/-- The events on the queue, in order. -/
def Queue (s : Timers n) (l : List (Fin n)) : Prop := Linked s.next s.eventQueue l

variable {s e} {l : List (Fin n)}

theorem Queue.length_le (h : s.Queue l) : l.length ≤ n := by
  have hcard := h.nodup.length_le_card
  rwa [Fintype.card_fin] at hcard

theorem checkLoop_of_linked : ∀ {k : ℕ} {o : Option (Fin n)} {l : List (Fin n)},
    Linked s.next o l → l.length ≤ k → s.checkLoop k o = true
  | _, _, [], h, _ => by
    rw [show _ = none from h]
    cases ‹ℕ› <;> rfl
  | k + 1, _, q :: l, h, hk => by
    rw [h.1, checkLoop]
    exact checkLoop_of_linked h.2 (Nat.le_of_succ_le_succ hk)

/-- A queue that ends passes the check. -/
theorem Queue.check (h : s.Queue l) : s.checkEventQueue = true :=
  checkLoop_of_linked h (Nat.le_succ_of_le h.length_le)

/-- What `&event_queue` or the `next` of an event in the queue points to. -/
theorem Queue.load {pre post : List (Fin n)} (h : s.Queue (pre ++ post)) :
    Linked s.next (s.load pre.getLast?) post := by
  rcases List.eq_nil_or_concat pre with rfl | ⟨pre', p, rfl⟩
  · exact h
  · rw [List.concat_eq_append, List.append_assoc] at h
    rw [List.concat_eq_append, List.getLast?_concat]
    exact h.suffix.2

/-- Linking an event in behind `pre`. -/
theorem Queue.link {pre post : List (Fin n)} (h : s.Queue (pre ++ post)) (he : e ∉ pre ++ post) :
    ((s.setNext e (s.load pre.getLast?)).store (some e) pre.getLast?).Queue (pre ++ e :: post) := by
  have hpost : e ∉ post := fun hm => he (List.mem_append_right _ hm)
  have hnew := h.load.push hpost
  rcases List.eq_nil_or_concat pre with rfl | ⟨pre', p, rfl⟩
  · show Linked (s.setNext e _).next (some e) _
    rw [next_setNext]
    exact hnew
  · have hold := h.update_of_notMem he (s.load (pre'.concat p).getLast?)
    rw [List.concat_eq_append, List.append_assoc] at hold he ⊢
    rw [List.concat_eq_append] at hnew
    rw [List.getLast?_concat] at hold hnew ⊢
    have hp : p ∉ e :: post := by
      have hnd := hold.nodup
      intro hm
      rcases List.mem_cons.mp hm with rfl | hm
      · exact he (List.mem_append_right _ List.mem_cons_self)
      · exact (List.nodup_cons.mp (List.nodup_append.mp hnd).2.1).1 hm
    show Linked ((s.setNext e _).setNext p (some e)).next s.eventQueue _
    rw [next_setNext, next_setNext]
    exact hold.graft hnew hp

/-- Taking an event out from behind `pre`. -/
theorem Queue.unlink {pre post : List (Fin n)} (h : s.Queue (pre ++ e :: post)) :
    ((s.store (s.next e) pre.getLast?).setNext e none).Queue (pre ++ post) := by
  have hnd := h.nodup
  have hout : e ∉ pre ++ post := by
    intro hm
    have hcount := List.nodup_middle.mp hnd
    exact (List.nodup_cons.mp hcount).1 hm
  have hpost : Linked s.next (s.next e) post := h.suffix.2
  rcases List.eq_nil_or_concat pre with rfl | ⟨pre', p, rfl⟩
  · show Linked (Timers.setNext _ e none).next (s.next e) post
    rw [next_setNext]
    exact hpost.update_of_notMem hout none
  · rw [List.concat_eq_append, List.append_assoc] at h hout ⊢
    rw [List.getLast?_concat]
    have hp : p ∉ post := by
      have hnd' := (List.nodup_append.mp h.nodup).2.1
      intro hm
      exact (List.nodup_cons.mp hnd').1 (List.mem_cons_of_mem _ hm)
    have hgraft := h.graft hpost hp
    show Linked (Timers.setNext (s.setNext p (s.next e)) e none).next s.eventQueue _
    rw [next_setNext, next_setNext]
    exact hgraft.update_of_notMem hout none

end Timers

end Timer
end Router
