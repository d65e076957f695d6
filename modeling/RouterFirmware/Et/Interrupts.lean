/-
# Interrupts of the Ethernet driver

`et_isr`, `et_dpc` and the calls that re-initialise the chip (`et/sys/et_linux.c`, `etc.c`, `etc47xx.c`), as far as
interrupts go: the chip's status and mask, what `ch->intstatus` and `et->events` keep of it, and the tasklet. `et_isr` is
one step; the others are cut at each call of the chip and each test, and between any two of their steps the chip may raise
bits, and `et_isr` may run if the mask lets it. A locked call and the tasklet do not run within each other.

`et_down` ends where it gives the lock back: `tasklet_kill` only waits.

The tasklet takes it that interrupts are off while it runs. A call that re-initialises the chip turns them on while the
tasklet is scheduled, and then what `et_isr` leaves in `et->events` is dropped. `interrupts_sound` says that all is well
as long as no interrupt brings the tasklet what it no longer looks for.
-/
import RouterFirmware.Lib.Bits
import RouterFirmware.Lib.Run

namespace Router
namespace Et

open Bits Run

/-! ### The chip -/

abbrev Word := BitVec 32

def iPc : Word := 0x00000400
def iPd : Word := 0x00000800
def iDe : Word := 0x00001000
def iRu : Word := 0x00002000
def iRo : Word := 0x00004000
def iXu : Word := 0x00008000
def iTo : Word := 0x00000080
def iRi : Word := 0x00010000
def iXi : Word := 0x01000000

def iErrors : Word := iPc ||| iPd ||| iDe ||| iRu ||| iRo ||| iXu
def defIntmask : Word := iXi ||| iRi ||| iErrors

def intrTx : Word := 0x1
def intrRx : Word := 0x2
def intrError : Word := 0x4
def intrTo : Word := 0x8
def intrNew : Word := 0x10

/-- The registers `regs->intstatus` and `regs->intmask`, and `ch->intstatus` and `ch->intmask`. -/
structure Chip where
  status : Word
  mask : Word
  intstatus : Word
  intmask : Word
deriving DecidableEq

namespace Chip

variable (c : Chip)

/-- The bits that `chipgetintrevents` reads and clears. -/
def fresh (inIsr : Bool) : Word := c.status &&& if inIsr then c.intmask else defIntmask

/-- The events of status bits. -/
def eventsOf (isNew : Bool) (intstatus : Word) : Word :=
  if intstatus = 0 then 0
  else bitIf isNew intrNew ||| flagTo intstatus iRi intrRx ||| flagTo intstatus iXi intrTx |||
    flagTo intstatus iErrors intrError ||| flagTo intstatus iTo intrTo

/-- `chipgetintrevents(ch, in_isr)`. -/
def getintrevents (inIsr : Bool) : Word × Chip :=
  (eventsOf (c.fresh inIsr != 0) (c.intstatus ||| c.fresh inIsr),
    { c with status := c.status &&& ~~~c.fresh inIsr, intstatus := c.intstatus ||| c.fresh inIsr })

/-- `chipintrson(ch)`. -/
def intrson : Chip := { c with mask := defIntmask, intmask := defIntmask }

/-- `chipintrsoff(ch)`. -/
def intrsoff : Chip := { c with mask := 0, intmask := 0 }

/-- `chiptxreclaim(ch, forceall)`. -/
def txreclaim : Chip := { c with intstatus := c.intstatus &&& ~~~iXi }

/-- `chiprxreclaim(ch)`. -/
def rxreclaim : Chip := { c with intstatus := c.intstatus &&& ~~~iRi }

/-- `chiprx(ch)`, with a frame or without one. -/
def rx (frame : Bool) : Chip := if frame then c else c.rxreclaim

/-- `chiperrors(ch)`. -/
def errors : Bool × Chip :=
  (c.intstatus &&& ~~~iRu &&& iErrors != 0, { c with intstatus := c.intstatus &&& ~~~iErrors })

/-- `sb_core_reset`, in `chipreset(ch)`. -/
def coreReset : Chip := { c with status := 0, mask := 0 }

/-- The end of `chipreset(ch)`. -/
def zapStatus : Chip := { c with intstatus := 0 }

end Chip

/-! ### The driver -/

/-- Where `et_reset` is: in `chipreset`, with the core not reset yet or with it reset, in front of `chiptxreclaim` or
`chiprxreclaim`, or in front of `et->events = 0` or `et->resched = 0`. -/
inductive Reset where
  | core
  | status
  | tx
  | rx
  | events
  | resched
deriving DecidableEq

/-- What comes behind `et_reset`: `etc_init` with interrupts turned on, the rest of `et_dpc`, or the end. -/
inductive Next where
  | init
  | dpc
  | unlock
deriving DecidableEq

/-- What runs, and the step it is in front of. -/
inductive At where
  | idle
  -- `et_up` and `et_down`
  | flagUp
  | intrsoff
  | flagDown
  -- `et_init`, `et_reset`
  | reset (r : Reset) (next : Next)
  | init
  | unlock
  -- `et_dpc`
  | testUp
  | testResched
  | getEvents
  | clearResched
  | testRx
  | rx (processed : ℕ)
  | testTx
  | txreclaim
  | testError
  | errors
  | zapEvents
  | testDown
  | again
  | intrson
  | done
deriving DecidableEq

/-- The driver: the chip, `et->events`, `et->resched` and `etc->up`, whether the tasklet is scheduled, what runs, and
whether an assertion of `et_isr` has failed. -/
structure Driver where
  ch : Chip
  events : Word
  resched : Bool
  up : Bool
  scheduled : Bool
  pos : At
  failed : Bool
deriving DecidableEq

def rxbnd : ℕ := 8

/-- As `et_attach` leaves it. -/
def attached : Driver where
  ch := ⟨0, 0, 0, defIntmask⟩
  events := 0
  resched := false
  up := false
  scheduled := false
  pos := .idle
  failed := false

/-- The chip raises status bits, `et_isr` runs, the tasklet is run, a call re-initialises the chip
(`et_set_multicast_list`, `etc_ioctl`), or goes up or down; or what runs takes its next step, where the chip may have a
frame. -/
inductive Event where
  | raise (bits : Word)
  | isr
  | tasklet
  | reinit
  | up
  | down
  | next (frame : Bool)
deriving DecidableEq

namespace Driver

variable (s : Driver)

/-- `et_isr`. -/
def isr : Driver :=
  if !s.up then s
  else
    let (events, ch) := s.ch.getintrevents true
    if !hasBit events intrNew then { s with ch := ch }
    else { s with
      ch := ch.intrsoff
      events := events
      scheduled := true
      failed := s.failed || (s.events != 0 || s.resched) }

/-- A step of `et_reset`. -/
def resetStep (next : Next) : Reset → Driver
  | .core => { s with ch := s.ch.coreReset, pos := .reset .status next }
  | .status => { s with ch := s.ch.zapStatus, pos := .reset .tx next }
  | .tx => { s with ch := s.ch.txreclaim, pos := .reset .rx next }
  | .rx => { s with ch := s.ch.rxreclaim, pos := .reset .events next }
  | .events => { s with events := 0, pos := .reset .resched next }
  | .resched => { s with
      resched := false
      pos := match next with
        | .init => .init
        | .dpc => .zapEvents
        | .unlock => .unlock }

/-- The next step of what runs. -/
def advance (frame : Bool) : Option Driver :=
  match s.pos with
  | .idle => none
  | .flagUp => some { s with up := true, pos := .reset .core .init }
  | .intrsoff => some { s with ch := s.ch.intrsoff, pos := .flagDown }
  | .flagDown => some { s with up := false, pos := .reset .core .unlock }
  | .reset r next => some (s.resetStep next r)
  | .init => some { s with ch := s.ch.intrson, pos := .unlock }
  | .unlock => some { s with pos := .idle }
  | .testUp => some { s with pos := if s.up then .testResched else .done }
  | .testResched => some { s with pos := if s.resched then .getEvents else .testRx }
  | .getEvents =>
    let (events, ch) := s.ch.getintrevents false
    some { s with ch := ch, events := events, pos := .clearResched }
  | .clearResched => some { s with resched := false, pos := .testRx }
  | .testRx => some { s with pos := if hasBit s.events intrRx then .rx 0 else .testTx }
  | .rx processed =>
    if !frame then some { s with ch := s.ch.rx false, pos := .testTx }
    else if rxbnd ≤ processed + 1 then some { s with ch := s.ch.rx true, resched := true, pos := .testTx }
    else some { s with ch := s.ch.rx true, pos := .rx (processed + 1) }
  | .testTx => some { s with pos := if hasBit s.events intrTx then .txreclaim else .testError }
  | .txreclaim => some { s with ch := s.ch.txreclaim, pos := .testError }
  | .testError => some { s with pos := if hasBit s.events intrError then .errors else .zapEvents }
  | .errors =>
    let (reinit, ch) := s.ch.errors
    some { s with ch := ch, pos := if reinit then .reset .core .dpc else .zapEvents }
  | .zapEvents => some { s with events := 0, pos := .testDown }
  | .testDown => some (if s.up then { s with pos := .again } else { s with resched := false, pos := .done })
  | .again => some (if s.resched then { s with scheduled := true, pos := .done } else { s with pos := .intrson })
  | .intrson => some { s with ch := s.ch.intrson, pos := .done }
  | .done => some { s with pos := .idle }

/-- A call starts, when nothing else runs. -/
def call (pos : At) : Option Driver := if s.pos = .idle then some { s with pos := pos } else none

/-- A step of the system. -/
def step : Event → Option Driver
  | .raise bits => some { s with ch := { s.ch with status := s.ch.status ||| bits } }
  | .isr => if s.ch.status &&& s.ch.mask ≠ 0 then some s.isr else none
  | .tasklet => if s.scheduled then { s with scheduled := false }.call .testUp else none
  | .reinit => s.call (.reset .core .init)
  | .up => s.call (if s.up then .unlock else .flagUp)
  | .down => s.call .intrsoff
  | .next frame => s.advance frame

/-- No assertion has failed; and when nothing runs and the tasklet is not scheduled, no receive or transmit event is
left. -/
structure Sound : Prop where
  asserts : s.failed = false
  kept : s.up = true → s.pos = .idle → s.scheduled = false → hasBit s.ch.intstatus (iRi ||| iXi) = false

/-- What the tasklet no longer looks for: receive events once it has looked for them, transmit events as well later on,
and at last nothing before it turns interrupts on. -/
def missed : At → Word
  | .rx _ | .testTx => iRi
  | .txreclaim | .testError | .errors | .zapEvents => iRi ||| iXi
  | .testDown | .again | .intrson => BitVec.allOnes 32
  | _ => 0

/-- No interrupt brings what is no longer looked for. -/
def Timely (e : Event) : Prop := e = .isr → hasBit (s.ch.fresh true) (missed s.pos) = false

instance (e : Event) : Decidable (s.Timely e) := inferInstanceAs (Decidable (_ → _))

end Driver

/-! ### Bits -/

theorem hasBit_mask (w m b : Word) : hasBit (w &&& m) b = hasBit w (m &&& b) := by rw [hasBit, hasBit, BitVec.and_assoc]

theorem hasBit_none (w : Word) : hasBit w 0 = false := by simp [hasBit]

theorem hasBit_either (w a b : Word) : hasBit w (a ||| b) = (hasBit w a || hasBit w b) := by
  have h := hasBit_or a b w
  rwa [hasBit, hasBit, hasBit, BitVec.and_comm _ w, BitVec.and_comm a w, BitVec.and_comm b w] at h

namespace Chip

variable (c : Chip)

theorem eventsOf_rx (isNew : Bool) (w : Word) : hasBit (eventsOf isNew w) intrRx = hasBit w iRi := by
  unfold eventsOf
  split_ifs with h
  · rw [h]
    decide
  · simp only [hasBit_or, hasBit_flagTo, hasBit_bitIf]
    simp [show hasBit intrNew intrRx = false by decide, show hasBit intrRx intrRx = true by decide,
      show hasBit intrTx intrRx = false by decide, show hasBit intrError intrRx = false by decide,
      show hasBit intrTo intrRx = false by decide]

theorem eventsOf_tx (isNew : Bool) (w : Word) : hasBit (eventsOf isNew w) intrTx = hasBit w iXi := by
  unfold eventsOf
  split_ifs with h
  · rw [h]
    decide
  · simp only [hasBit_or, hasBit_flagTo, hasBit_bitIf]
    simp [show hasBit intrNew intrTx = false by decide, show hasBit intrRx intrTx = false by decide,
      show hasBit intrTx intrTx = true by decide, show hasBit intrError intrTx = false by decide,
      show hasBit intrTo intrTx = false by decide]

theorem eventsOf_new (isNew : Bool) (w : Word) : hasBit (eventsOf isNew w) intrNew = (isNew && w != 0) := by
  unfold eventsOf
  split_ifs with h
  · rw [h]
    simp
  · have hw : w ≠ 0#32 := h
    simp only [hasBit_or, hasBit_flagTo, hasBit_bitIf]
    simp [hw, show hasBit intrNew intrNew = true by decide, show hasBit intrRx intrNew = false by decide,
      show hasBit intrTx intrNew = false by decide, show hasBit intrError intrNew = false by decide,
      show hasBit intrTo intrNew = false by decide]

@[simp] theorem rxreclaim_rx : hasBit c.rxreclaim.intstatus iRi = false := by
  rw [rxreclaim, hasBit_mask, show ~~~iRi &&& iRi = 0 by decide, hasBit_none]

@[simp] theorem rxreclaim_tx : hasBit c.rxreclaim.intstatus iXi = hasBit c.intstatus iXi := by
  rw [rxreclaim, hasBit_mask, show ~~~iRi &&& iXi = iXi by decide]

@[simp] theorem txreclaim_tx : hasBit c.txreclaim.intstatus iXi = false := by
  rw [txreclaim, hasBit_mask, show ~~~iXi &&& iXi = 0 by decide, hasBit_none]

@[simp] theorem txreclaim_rx : hasBit c.txreclaim.intstatus iRi = hasBit c.intstatus iRi := by
  rw [txreclaim, hasBit_mask, show ~~~iXi &&& iRi = iRi by decide]

@[simp] theorem errors_rx : hasBit c.errors.2.intstatus iRi = hasBit c.intstatus iRi := by
  rw [errors, hasBit_mask, show ~~~iErrors &&& iRi = iRi by decide]

@[simp] theorem errors_tx : hasBit c.errors.2.intstatus iXi = hasBit c.intstatus iXi := by
  rw [errors, hasBit_mask, show ~~~iErrors &&& iXi = iXi by decide]

end Chip

/-! ### The invariant -/

namespace Driver

variable (s : Driver)

/-- What is left is among the events that the tasklet is given. -/
def Covered : Prop :=
  (hasBit s.ch.intstatus iRi = true → hasBit s.events intrRx = true) ∧
    (hasBit s.ch.intstatus iXi = true → hasBit s.events intrTx = true)

/-- Neither receive nor transmit events are left. -/
def Clean : Prop := hasBit s.ch.intstatus iRi = false ∧ hasBit s.ch.intstatus iXi = false

/-- Nothing is left, and the tasklet has been given nothing. -/
def Quiet : Prop := s.Clean ∧ s.events = 0 ∧ s.resched = false

/-- Interrupts are off until `et_init` turns them on, and more and more is cleared. -/
def ResetOk (next : Next) : Reset → Prop
  | .core => next = .unlock → s.up = false
  | .status => s.ch.mask = 0 ∧ (next = .unlock → s.up = false)
  | .tx | .rx | .events => s.ch.mask = 0 ∧ s.Clean ∧ (next = .unlock → s.up = false)
  | .resched => s.ch.mask = 0 ∧ s.Clean ∧ s.events = 0 ∧ (next = .unlock → s.up = false)

/-- What holds in front of each step. -/
def PosOk : At → Prop
  | .idle | .unlock | .done => s.up = true → (s.scheduled = true ∨ s.ch.mask ≠ 0) ∧ (s.resched = true ∨ s.Covered)
  | .flagUp | .intrsoff | .flagDown => True
  | .reset r next => s.ResetOk next r
  | .init => s.ch.mask = 0 ∧ s.Quiet
  | .testUp => s.up = true → s.resched = true ∨ s.Covered
  | .testResched => s.resched = true ∨ s.Covered
  | .getEvents => s.resched = true
  | .clearResched => s.Covered ∧ s.ch.mask = 0
  | .testRx => s.Covered ∧ s.resched = false
  | .rx _ => hasBit s.events intrRx = true ∧ s.resched = false ∧ s.Covered
  | .testTx => (s.resched = true ∨ hasBit s.ch.intstatus iRi = false) ∧
      (hasBit s.ch.intstatus iXi = true → hasBit s.events intrTx = true)
  | .txreclaim => (s.resched = true ∨ hasBit s.ch.intstatus iRi = false) ∧ hasBit s.events intrTx = true
  | .testError | .errors | .zapEvents => s.resched = true ∨ s.Clean
  | .testDown | .again => s.events = 0 ∧ (s.resched = true ∨ s.Clean)
  | .intrson => s.Quiet

/-- While interrupts are on, nothing is left. -/
structure Inv : Prop where
  asserts : s.failed = false
  armed : s.ch.mask ≠ 0 → s.Quiet
  posOk : s.PosOk s.pos

variable {s} {s' : Driver}

theorem Clean.covered (h : s.Clean) : s.Covered := ⟨by simp [h.1], by simp [h.2]⟩

theorem Inv.sound (h : s.Inv) : s.Sound := by
  refine ⟨h.asserts, fun hup hidle hsched => ?_⟩
  have hpos := h.posOk
  rw [hidle] at hpos
  have hmask : s.ch.mask ≠ 0 := (hpos hup).1.resolve_left (by simp [hsched])
  obtain ⟨hrx, htx⟩ := (h.armed hmask).1
  rw [hasBit_either, hrx, htx]
  rfl

theorem inv_attached : attached.Inv := ⟨rfl, fun h => absurd rfl h, fun h => absurd h (by decide)⟩

theorem inv_raise (h : s.Inv) (bits : Word) :
    ({ s with ch := { s.ch with status := s.ch.status ||| bits } } : Driver).Inv :=
  ⟨h.asserts, h.armed, h.posOk⟩

/-- What `chipgetintrevents` gives covers what is left. -/
theorem covered_getintrevents {inIsr : Bool} (hch : s'.ch.intstatus = (s.ch.getintrevents inIsr).2.intstatus)
    (hevents : s'.events = (s.ch.getintrevents inIsr).1) : s'.Covered := by
  rw [Covered, hch, hevents]
  exact ⟨fun hrx => (Chip.eventsOf_rx _ _).trans hrx, fun htx => (Chip.eventsOf_tx _ _).trans htx⟩

/-- What `et_isr` does when the interrupt is not for the driver, and when it is. -/
theorem isr_cases (s : Driver) : s.isr = s ∨ s.ch.fresh true ≠ 0 ∧ s.isr = { s with
    ch := (s.ch.getintrevents true).2.intrsoff
    events := (s.ch.getintrevents true).1
    scheduled := true
    failed := s.failed || (s.events != 0 || s.resched) } := by
  unfold isr
  by_cases hup : s.up = true
  · rw [if_neg (by simp [hup])]
    by_cases hr : s.ch.fresh true = 0#32
    · have hsame : (s.ch.getintrevents true).2 = s.ch := by
        have hall : s.ch.status &&& ~~~0#32 = s.ch.status := BitVec.and_allOnes
        rw [Chip.getintrevents, hr, hall, BitVec.or_zero]
      have hnew : hasBit (s.ch.getintrevents true).1 intrNew = false := by
        rw [Chip.getintrevents, Chip.eventsOf_new, hr]
        rfl
      left
      calc (if !hasBit (s.ch.getintrevents true).1 intrNew then { s with ch := (s.ch.getintrevents true).2 } else _)
          = { s with ch := (s.ch.getintrevents true).2 } := if_pos (by rw [hnew]; rfl)
        _ = s := by rw [hsame]
    · have hnew : hasBit (s.ch.getintrevents true).1 intrNew = true := by
        rw [Chip.getintrevents, Chip.eventsOf_new]
        simp [hr]
      exact Or.inr ⟨hr, if_neg fun hold => absurd (hnew.symm.trans (Bool.not_eq_true' _ ▸ hold)) (by decide)⟩
  · exact Or.inl (if_pos (by simpa using hup))

/-- `et_isr` runs while interrupts are on, so nothing is left but what it brings. -/
theorem inv_isr (h : s.Inv) (hmask : s.ch.mask ≠ 0) (ht : hasBit (s.ch.fresh true) (missed s.pos) = false) :
    s.isr.Inv := by
  obtain ⟨⟨hrx, htx⟩, hevents, hresched⟩ := h.armed hmask
  obtain hsame | ⟨hfresh, hisr⟩ := s.isr_cases
  · rw [hsame]
    exact h
  have hcovered : s.isr.Covered := covered_getintrevents (by rw [hisr]; rfl) (by rw [hisr])
  have hbrx : hasBit s.isr.ch.intstatus iRi = hasBit (s.ch.fresh true) iRi := by
    rw [hisr]
    exact (hasBit_or _ _ _).trans (by rw [hrx, Bool.false_or])
  have hbtx : hasBit s.isr.ch.intstatus iXi = hasBit (s.ch.fresh true) iXi := by
    rw [hisr]
    exact (hasBit_or _ _ _).trans (by rw [htx, Bool.false_or])
  have hpos' : s.isr.pos = s.pos := by rw [hisr]
  have hresched' : s.isr.resched = false := by rw [hisr, hresched]
  have hclean : hasBit (s.ch.fresh true) (iRi ||| iXi) = false → s.isr.Clean := by
    rw [hasBit_either, Bool.or_eq_false_iff]
    exact fun hb => ⟨hbrx.trans hb.1, hbtx.trans hb.2⟩
  have hnone : hasBit (s.ch.fresh true) (BitVec.allOnes 32) = false → False := by
    intro hb
    rw [hasBit, BitVec.and_allOnes] at hb
    exact hfresh (by simpa using hb)
  refine ⟨by rw [hisr]; simp [h.asserts, hevents, hresched], fun hm => absurd (by rw [hisr]; rfl) hm, ?_⟩
  have hpos := h.posOk
  rw [hpos']
  cases hp : s.pos with
  | idle | unlock | done => exact fun _ => ⟨Or.inl (by rw [hisr]), Or.inr hcovered⟩
  | flagUp | intrsoff | flagDown => trivial
  | reset r next =>
    rw [hp] at hpos
    cases r with
    | core => exact fun hn => (congrArg up hisr).trans (hpos hn)
    | status | tx | rx | events | resched => exact absurd hpos.1 hmask
  | init => rw [hp] at hpos; exact absurd hpos.1 hmask
  | testUp => exact fun _ => Or.inr hcovered
  | testResched => exact Or.inr hcovered
  | getEvents => rw [hp] at hpos; exact absurd (hpos.symm.trans hresched) (by decide)
  | clearResched => rw [hp] at hpos; exact absurd hpos.2 hmask
  | testRx => exact ⟨hcovered, hresched'⟩
  | rx k => rw [hp] at hpos; exact absurd (hevents ▸ hpos.1) (by decide)
  | testTx => rw [hp] at ht; exact ⟨Or.inr (hbrx.trans ht), hcovered.2⟩
  | txreclaim => rw [hp] at hpos; exact absurd (hevents ▸ hpos.2) (by decide)
  | testError | errors | zapEvents => rw [hp] at ht; exact Or.inr (hclean ht)
  | testDown | again | intrson => rw [hp] at ht; exact (hnone ht).elim

theorem inv_at {pos : At} (h : s.Inv) (hpos : s.PosOk pos) : ({ s with pos := pos } : Driver).Inv :=
  ⟨h.asserts, h.armed, hpos⟩

/-- A call starts when nothing runs. -/
theorem inv_call {pos : At} (h : s.Inv) (hpos : s.PosOk .idle → s.PosOk pos) (hs : s.call pos = some s') : s'.Inv := by
  unfold call at hs
  split_ifs at hs with hidle
  have hpos' := h.posOk
  rw [hidle] at hpos'
  exact Option.some.inj hs ▸ inv_at h (hpos hpos')

/-- Where interrupts are on, no event is there. -/
theorem Inv.off (h : s.Inv) {b : Word} (hb : hasBit s.events b = true) : s.ch.mask = 0 := by
  by_contra hm
  rw [(h.armed hm).2.1] at hb
  exact absurd (hb.symm.trans (hasBit_zero b)) (by decide)

theorem inv_reset (h : s.Inv) {r : Reset} {next : Next} (hp : s.pos = .reset r next) : (s.resetStep next r).Inv := by
  have hpos := h.posOk
  rw [hp] at hpos
  cases r with
  | core => exact ⟨h.asserts, fun hm => absurd rfl hm, rfl, hpos⟩
  | status => exact ⟨h.asserts, fun hm => absurd hpos.1 hm, hpos.1, ⟨hasBit_zero _, hasBit_zero _⟩, hpos.2⟩
  | tx => exact ⟨h.asserts, fun hm => absurd hpos.1 hm, hpos.1,
      ⟨(Chip.txreclaim_rx _).trans hpos.2.1.1, Chip.txreclaim_tx _⟩, hpos.2.2⟩
  | rx => exact ⟨h.asserts, fun hm => absurd hpos.1 hm, hpos.1,
      ⟨Chip.rxreclaim_rx _, (Chip.rxreclaim_tx _).trans hpos.2.1.2⟩, hpos.2.2⟩
  | events => exact ⟨h.asserts, fun hm => absurd hpos.1 hm, hpos.1, hpos.2.1, rfl, hpos.2.2⟩
  | resched =>
    obtain ⟨hoff, hclean, hevents, hdown⟩ := hpos
    refine ⟨h.asserts, fun hm => absurd hoff hm, ?_⟩
    cases next with
    | init => exact ⟨hoff, hclean, hevents, rfl⟩
    | dpc => exact Or.inr hclean
    | unlock => exact fun hup => absurd (hup.symm.trans (hdown rfl)) (by decide)

/-- Each step of a call or of the tasklet finds what it needs, and leaves what the next one needs. -/
theorem inv_advance (h : s.Inv) {frame : Bool} (hs : s.advance frame = some s') : s'.Inv := by
  have hpos := h.posOk
  unfold advance at hs
  cases hp : s.pos with
  | idle => rw [hp] at hs; cases hs
  | flagUp => rw [hp] at hs; cases hs; exact ⟨h.asserts, h.armed, nofun⟩
  | intrsoff => rw [hp] at hs; cases hs; exact ⟨h.asserts, fun hm => absurd rfl hm, trivial⟩
  | flagDown => rw [hp] at hs; cases hs; exact ⟨h.asserts, h.armed, fun _ => rfl⟩
  | reset r next => rw [hp] at hs; cases hs; exact inv_reset h hp
  | init =>
    rw [hp] at hs hpos
    cases hs
    have hon : defIntmask ≠ 0 := by decide
    exact ⟨h.asserts, fun _ => hpos.2, fun _ => ⟨Or.inr hon, Or.inr (Clean.covered hpos.2.1)⟩⟩
  | unlock | done => rw [hp] at hs hpos; cases hs; exact inv_at h hpos
  | testUp =>
    rw [hp] at hs hpos
    cases hs
    refine inv_at h ?_
    split_ifs with hup
    · exact hpos hup
    · exact fun hup' => absurd hup' hup
  | testResched =>
    rw [hp] at hs hpos
    cases hs
    refine inv_at h ?_
    split_ifs with hr
    · exact hr
    · exact ⟨hpos.resolve_left hr, by simpa using hr⟩
  | getEvents =>
    rw [hp] at hs hpos
    cases hs
    have hoff : s.ch.mask = 0 := by
      by_contra hm
      exact absurd (hpos.symm.trans (h.armed hm).2.2) (by decide)
    exact ⟨h.asserts, fun hm => absurd hoff hm, covered_getintrevents rfl rfl, hoff⟩
  | clearResched => rw [hp] at hs hpos; cases hs; exact ⟨h.asserts, fun hm => absurd hpos.2 hm, hpos.1, rfl⟩
  | testRx =>
    rw [hp] at hs hpos
    cases hs
    refine inv_at h ?_
    split_ifs with hb
    · exact ⟨hb, hpos.2, hpos.1⟩
    · exact ⟨Or.inr (by simpa using mt hpos.1.1 hb), hpos.1.2⟩
  | rx processed =>
    rw [hp] at hs hpos
    obtain ⟨hb, hresched, hcovered⟩ := hpos
    have hoff : s.ch.mask = 0 := h.off hb
    cases frame with
    | false =>
      cases hs
      exact ⟨h.asserts, fun hm => absurd hoff hm, Or.inr (Chip.rxreclaim_rx _),
        fun htx => hcovered.2 ((Chip.rxreclaim_tx _).symm.trans htx)⟩
    | true =>
      simp only [Bool.not_true, Bool.false_eq_true, if_false] at hs
      split_ifs at hs with hbound
      · cases hs
        exact ⟨h.asserts, fun hm => absurd hoff hm, Or.inl rfl, hcovered.2⟩
      · cases hs
        exact ⟨h.asserts, fun hm => absurd hoff hm, hb, hresched, hcovered⟩
  | testTx =>
    rw [hp] at hs hpos
    cases hs
    refine inv_at h ?_
    split_ifs with hb
    · exact ⟨hpos.1, hb⟩
    · exact hpos.1.imp_right fun hrx => ⟨hrx, by simpa using mt hpos.2 hb⟩
  | txreclaim =>
    rw [hp] at hs hpos
    cases hs
    exact ⟨h.asserts, fun hm => absurd (h.off hpos.2) hm,
      hpos.1.imp_right fun hrx => ⟨(Chip.txreclaim_rx _).trans hrx, Chip.txreclaim_tx _⟩⟩
  | testError =>
    rw [hp] at hs hpos
    cases hs
    refine inv_at h ?_
    split_ifs
    · exact hpos
    · exact hpos
  | errors =>
    rw [hp] at hs hpos
    cases hs
    have hclean : s.Clean → Clean { s with ch := s.ch.errors.2 } :=
      fun hc => ⟨(Chip.errors_rx _).trans hc.1, (Chip.errors_tx _).trans hc.2⟩
    refine ⟨h.asserts, fun hm => ⟨hclean (h.armed hm).1, (h.armed hm).2⟩, ?_⟩
    change PosOk _ (if s.ch.errors.1 then .reset .core .dpc else .zapEvents)
    cases s.ch.errors.1 with
    | true => exact nofun
    | false => exact hpos.imp_right hclean
  | zapEvents =>
    rw [hp] at hs hpos
    cases hs
    exact ⟨h.asserts, fun hm => ⟨(h.armed hm).1, rfl, (h.armed hm).2.2⟩, rfl, hpos⟩
  | testDown =>
    rw [hp] at hs hpos
    cases hs
    split_ifs with hup
    · exact inv_at h hpos
    · exact ⟨h.asserts, fun hm => ⟨(h.armed hm).1, (h.armed hm).2.1, rfl⟩, fun hup' => absurd hup' hup⟩
  | again =>
    rw [hp] at hs hpos
    cases hs
    split_ifs with hr
    · exact ⟨h.asserts, h.armed, fun _ => ⟨Or.inl rfl, Or.inl hr⟩⟩
    · exact inv_at h ⟨hpos.2.resolve_left hr, hpos.1, by simpa using hr⟩
  | intrson =>
    rw [hp] at hs hpos
    cases hs
    have hon : defIntmask ≠ 0 := by decide
    exact ⟨h.asserts, fun _ => hpos, fun _ => ⟨Or.inr hon, Or.inr (Clean.covered hpos.1)⟩⟩

theorem inv_tasklet (h : s.Inv) (hs : ({ s with scheduled := false } : Driver).call .testUp = some s') : s'.Inv := by
  unfold call at hs
  split_ifs at hs with hidle
  have hpos : s.PosOk .idle := (show s.pos = .idle from hidle) ▸ h.posOk
  exact Option.some.inj hs ▸ ⟨h.asserts, h.armed, fun hup => (hpos hup).2⟩

theorem inv_step {e : Event} (h : s.Inv) (ht : s.Timely e) (hs : s.step e = some s') : s'.Inv := by
  cases e with
  | raise bits => exact Option.some.inj hs ▸ inv_raise h bits
  | isr =>
    have hs : (if s.ch.status &&& s.ch.mask ≠ 0 then some s.isr else none) = some s' := hs
    split_ifs at hs with hm
    have hmask : s.ch.mask ≠ 0 := fun h0 => hm (by rw [h0]; exact BitVec.and_zero)
    exact Option.some.inj hs ▸ inv_isr h hmask (ht rfl)
  | tasklet =>
    have hs : (if s.scheduled then ({ s with scheduled := false } : Driver).call .testUp else none) = some s' := hs
    split_ifs at hs
    exact inv_tasklet h hs
  | reinit =>
    refine inv_call h (fun _ => ?_) hs
    exact nofun
  | up =>
    refine inv_call h (fun hpos => ?_) hs
    split_ifs
    · exact hpos
    · trivial
  | down =>
    refine inv_call h (fun _ => ?_) hs
    trivial
  | next frame => exact inv_advance h hs

end Driver

/-! ### Runs -/

open Driver

/-- **Interrupts of the Ethernet driver.** In a run in which no interrupt brings the tasklet what it no longer looks for,
no assertion fails and no event is left. -/
theorem interrupts_sound {es : List Event} {s : Driver}
    (h : Trace (fun s e s' => Driver.Timely s e ∧ Driver.step s e = some s') attached es s) : s.Sound :=
  Inv.sound (h.inv (I := fun _ s => Inv s) inv_attached fun _ _ _ _ hs hstep => inv_step hs hstep.1 hstep.2)

/-! ### A frame that is fetched, and one that is forgotten -/

/-- The interface goes up. -/
def goUp : List Event := .up :: List.replicate 9 (.next false)

/-- A frame comes, and the tasklet fetches it. -/
def fetched : List Event :=
  goUp ++ [Event.raise iRi, Event.isr, Event.tasklet] ++ List.replicate 3 (Event.next false) ++ [Event.next true] ++
    List.replicate 8 (Event.next false)

/-- An interrupt comes at the start of a call that re-initialises the chip. The tasklet finds interrupts on and no
events; a frame comes when it has looked for one; and it does so again. -/
def forgotten : List Event :=
  goUp ++ [Event.raise iRi, Event.reinit, Event.isr] ++ List.replicate 8 (Event.next false) ++ [Event.tasklet] ++
    List.replicate 3 (Event.next false) ++ [Event.raise iRi, Event.isr] ++ List.replicate 7 (Event.next false) ++
    [Event.tasklet] ++ List.replicate 10 (Event.next false)

/-- The steps in which no interrupt brings what is no longer looked for. -/
def timelyStep (s : Driver) (e : Event) : Option Driver := if s.Timely e then s.step e else none

theorem fetched_sound : ∃ s, Trace (fun s e s' => Driver.Timely s e ∧ Driver.step s e = some s') attached fetched s ∧
    s.pos = .idle ∧ s.Sound := by
  have hrun : (exec timelyStep fetched attached).any (fun s => s.pos == .idle) = true := by decide +kernel
  obtain ⟨s, hs, hidle⟩ := (Option.any_eq_true _ _).mp hrun
  have htrace : Trace (fun s e s' => Driver.Timely s e ∧ Driver.step s e = some s') attached fetched s := by
    refine (trace_of_exec hs).mono fun s e s' hstep => ?_
    unfold timelyStep at hstep
    split_ifs at hstep with ht
    exact ⟨ht, hstep⟩
  exact ⟨s, htrace, by simpa using hidle, interrupts_sound htrace⟩

theorem forgotten_unsound : ¬∀ (es : List Event) (s : Driver),
    Trace (fun s e s' => Driver.step s e = some s') attached es s → s.Sound := by
  intro hclaim
  have hrun : (exec Driver.step forgotten attached).any (fun s =>
      s.up && s.pos == .idle && !s.scheduled && hasBit s.ch.intstatus (iRi ||| iXi)) = true := by
    decide +kernel
  obtain ⟨s, hs, hleft⟩ := (Option.any_eq_true _ _).mp hrun
  simp only [Bool.and_eq_true, beq_iff_eq, Bool.not_eq_true'] at hleft
  obtain ⟨⟨⟨hup, hidle⟩, hsched⟩, hbit⟩ := hleft
  have hkept := (hclaim forgotten s (trace_of_exec hs)).kept hup hidle hsched
  exact absurd (hbit.symm.trans hkept) (by decide)

end Et
end Router
