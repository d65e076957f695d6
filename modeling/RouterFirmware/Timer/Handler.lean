/-
# The alarm handler of linux_timer

`timer_create`, `timer_connect` and `alarm_handler`, and the system they make
with `Timer/Queue.lean`: a program that calls the timer functions, SIGALRM,
and callbacks that call the timer functions again. The handler is cut where it
leaves the module: before it takes the head off the queue (`top`) and while the
callback runs (`callback`). SIGALRM is blocked from its start to its end, so
the program's own calls and another alarm come before or after it, never within.

A call is undefined where an assertion fails, where the module exits, and where
NULL is dereferenced. When the signal comes is left open: an alarm may have
been pending while it was blocked, so it may find the interval timer running.
-/
import RouterFirmware.Lib.Run
import RouterFirmware.Timer.Settime

namespace Router
namespace Timer

open Timeval Timers

variable {n : ℕ} {R : Type}

/-- `struct sigevent`, as far as it is read, and the values it is compared with. -/
structure Sigevent where
  sigevNotify : ℤ
  sigevSigno : ℤ

def clockRealtime : ℤ := 0
def sigevSignal : ℤ := 0
def sigalrm : ℤ := 14

/-- `init_event_queue(n)`, where `setitimer` reports the granularity `g`. The
structures are zeroed and linked in the order they stand in. -/
def initEventQueue (n g : ℕ) : Timers n where
  event i :=
    { itInterval := Timeval.zero, itValue := Timeval.zero, cancelled := false, deleted := false,
      next := if h : i.val + 1 < n then some ⟨i.val + 1, h⟩ else none }
  eventQueue := none
  eventFreelist := if h : 0 < n then some ⟨0, h⟩ else none
  gGranularity := g
  itimer := Timeval.zero

/-- The event at the head of the free list is taken off it, with no flags. -/
def Timers.take (s : Timers n) (e : Fin n) : Timers n :=
  let s := (s.setCancelled e false).setDeleted e false
  let s := { s with eventFreelist := s.next e }
  s.setNext e none

/-- `timer_create(clock_id, evp, pTimer)`. It returns 0. -/
def timerCreate (s : Timers n) (clockId : ℤ) (evp : Option Sigevent) : Option (Timers n × Fin n) :=
  if clockId ≠ clockRealtime then none
  else if evp.any fun evp => evp.sigevNotify ≠ sigevSignal ∨ evp.sigevSigno ≠ sigalrm then none
  else
    match s.eventFreelist with
    | none => none
    | some event =>
      let s := s.take event
      if s.checkEventQueue then some (s, event) else none

namespace Timers

/-- The top of the handler's loop: the event at the head of the queue is taken off it. -/
def alarmPop (s : Timers n) : Option (Timers n × Fin n) :=
  match s.eventQueue with
  | none => none
  | some event => some (({ s with eventQueue := s.next event }).setNext event none, event)

/-- After the callback: an event that has not been cancelled and is a recurring
one is put back on the queue. -/
def alarmRequeue (s : Timers n) (event : Fin n) : Option (Timers n) :=
  if (s.event event).cancelled then some s
  else if (s.event event).itInterval.timerisset then
    let s := s.setValue event (s.event event).itInterval
    let s := s.setValue event (timerroundup (s.value event) s.gGranularity)
    (settimeLoop event (n + 1) s none).map fun (s, ppevent) => s.linked event ppevent
  else some s

/-- The condition of the handler's loop: the head expires within half the granularity. -/
def alarmAgain (s : Timers n) : Bool :=
  match s.eventQueue with
  | none => false
  | some h => timercmpLt (s.value h) ⟨0, (s.gGranularity / 2 : ℕ)⟩

/-- The end of the handler: the timer is issued again for the head. -/
def alarmReissue (s : Timers n) : Timers n :=
  match s.eventQueue with
  | none => s
  | some h =>
    let s := s.setValue h (timerroundup (s.value h) s.gGranularity)
    s.setitimer (if (s.value h).timerisset then s.value h else ⟨0, 1⟩)

end Timers

/-! ### The system -/

/-- Where `alarm_handler` is: not running, at the top of its loop, or in the
callback of an event. -/
inductive Handler (n : ℕ) where
  | idle
  | top
  | callback (event : Fin n)
  deriving DecidableEq

/-- The module, the callbacks of its events, and the handler. `live` and
`armed` are the program's view: the timers created and not deleted, and those
set by `timer_settime` since they were created. -/
structure Sys (n : ℕ) (R : Type) where
  timers : Timers n
  func : Fin n → Option R
  arg : Fin n → ℤ
  handler : Handler n
  live : Fin n → Bool
  armed : Fin n → Bool

/-- The calls the program makes, with the timer `timer_create` gave it; a
routine may be NULL. -/
inductive Api (n : ℕ) (R : Type) where
  | create (clockId : ℤ) (evp : Option Sigevent) (timerid : Fin n)
  | connect (timerid : Fin n) (routine : Option R) (arg : ℤ)
  | settime (timerid : Fin n) (value : Itimerspec)
  | cancel (timerid : Fin n)
  | delete (timerid : Fin n)

/-- What happens: a call, time passing, SIGALRM, the handler calling the
callback of an event, and that callback returning. -/
inductive Action (n : ℕ) (R : Type) where
  | api (call : Api n R)
  | elapse (itimer : Timeval)
  | signal
  | fire (event : Fin n) (routine : R) (arg : ℤ)
  | ret

namespace Sys

/-- The system after `init_event_queue(n)`. -/
def init (n g : ℕ) (R : Type) : Sys n R where
  timers := initEventQueue n g
  func _ := none
  arg _ := 0
  handler := .idle
  live _ := false
  armed _ := false

/-- A request that sets the timer and does not disarm it. -/
def sets (value : Itimerspec) : Bool := value.itValue.toTimeval.timerisset

/-- A call by the program. Only live timers are used. -/
def call (s : Sys n R) : Api n R → Option (Sys n R)
  | .create clockId evp e =>
    match timerCreate s.timers clockId evp with
    | none => none
    | some (t, e') =>
      if e' = e then
        some { s with timers := t, live := Function.update s.live e true,
                      armed := Function.update s.armed e false }
      else none
  | .connect e routine arg =>
    if s.live e = true ∧ routine.isSome = true then
      some { s with func := Function.update s.func e routine, arg := Function.update s.arg e arg }
    else none
  | .settime e value =>
    if s.live e then
      (timerSettime s.timers e value).map fun t =>
        { s with timers := t, armed := Function.update s.armed e (s.armed e || sets value) }
    else none
  | .cancel e =>
    if s.live e then (timerCancel s.timers e).map fun t => { s with timers := t } else none
  | .delete e =>
    if s.live e then
      (timerDelete s.timers e).map fun t =>
        { s with timers := t.1, live := Function.update s.live e false,
                 armed := Function.update s.armed e false }
    else none

/-- The callback of `e` has returned: the event may go back on the queue, and
the loop goes on or the handler ends. -/
def ret (s : Sys n R) (e : Fin n) : Option (Sys n R) :=
  match s.timers.alarmRequeue e with
  | none => none
  | some t =>
    if t.checkEventQueue = false then none
    else if t.alarmAgain then some { s with timers := t, handler := .top }
    else some { s with timers := t.alarmReissue, handler := .idle }

variable [DecidableEq R]

/-- One step of the system. -/
def step (s : Sys n R) : Action n R → Option (Sys n R)
  | .api c => if s.handler = .top then none else s.call c
  | .elapse v =>
    if v.us ≤ s.timers.itimer.us then some { s with timers := s.timers.setitimer v } else none
  | .signal => if s.handler = .idle then some { s with handler := .top } else none
  | .fire e routine arg =>
    if s.handler = .top then
      match s.timers.alarmPop with
      | none => none
      | some (t, e') =>
        if e' = e ∧ s.func e = some routine ∧ s.arg e = arg then
          some { s with timers := t, handler := .callback e }
        else none
    else none
  | .ret =>
    match s.handler with
    | .callback e => s.ret e
    | _ => none

/-- The runs of the system from its start. -/
def Runs (g : ℕ) (es : List (Action n R)) (s : Sys n R) : Prop :=
  Run.Trace (fun s a s' => s.step a = some s') (init n g R) es s

end Sys

end Timer
end Router
