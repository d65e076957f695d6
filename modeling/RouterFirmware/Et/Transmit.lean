/-
# The transmit queue of the Ethernet driver

`et_start`, `et_dpc`, `et_up`, `et_down` and the calls that re-initialise the chip (`et/sys/et_linux.c`, `etc.c`), as far as
packets to send go: the software queue `txq`, the ring of `Dma.Ring`, and the net queue, which is stopped when `txq` is
long and woken when it is short again. The driver's lock keeps the entry points apart, so each is one step. A packet has
one buffer, and an Ethernet header in it. The kernel does not call `et_start` while the interface is down: it has not been
opened, or `et_down` has stopped the net queue.

What sends the rest of `txq` is the interrupt for a descriptor that is done. A call that re-initialises the chip empties
the ring and sends nothing: `tx_queue_iff` says that this is all that goes wrong.
-/
import RouterFirmware.Dma.Tx

namespace Router
namespace Et

open Dma Run

/-- A packet of one buffer. -/
structure Skb where
  id : ℕ
  len : ℕ
  pos : 0 < len

def ntxd : UInt32 := 64
def datahiwat : ℕ := 50

/-- What the status register shows at each read: a descriptor that is active, or the end. -/
structure Hardware where
  curr : ℕ → TxRing Skb → UInt32
  inRange : ∀ k (di : TxRing Skb), di.InRange (curr k di)

/-- `dma_txinit(di)`. -/
def txinit (di : TxRing Skb) : TxRing Skb :=
  if di.ntxd = 0 then di else { di with txin := 0, txout := 0, txavail := di.ntxd - 1 }

/-- The software queue, the ring, the packets freed and those handed to `et_start`, `netif_queue_stopped`, `etc->up`. -/
structure Sender where
  txq : List Skb
  ring : TxRing Skb
  freed : List Skb
  handed : List Skb
  stopped : Bool
  up : Bool

/-- As `et_attach` leaves it. -/
def idle : Sender := ⟨[], dma32Txinit ntxd ⟨6, rfl⟩ 0, [], [], false, false⟩

/-- The entry points. `et_dpc` runs with a transmit event or without one, and finds an error for which it re-initialises
the chip or not. -/
inductive Entry where
  | start (skb : Skb)
  | dpc (tx reset : Bool) (hw : Hardware)
  | reinit
  | up
  | down

namespace Sender

variable (s : Sender)

/-- `chiptx(ch, p)`; where the ring is full the packet is freed. -/
def chiptx (p : Skb) : Sender :=
  let (ring, error) := dma32Txfast s.ring (some ⟨p, p.len, []⟩)
  { s with ring := ring, freed := if error = 0 then s.freed else s.freed ++ [p] }

/-- The loop of `et_sendnext` over the packets of `txq`. -/
def sendLoop : List Skb → Sender → Sender
  | [], s => { s with txq := [] }
  | p :: txq, s => if 0 < s.ring.txavail then sendLoop txq (s.chiptx p) else { s with txq := p :: txq }

/-- The end of `et_sendnext`: the net queue is stopped, or woken. -/
def flow : Sender :=
  if datahiwat < s.txq.length ∧ s.stopped = false then { s with stopped := true }
  else if s.stopped = true ∧ s.txq.length < datahiwat / 2 then { s with stopped := false }
  else s

/-- `et_sendnext(et)`. -/
def sendnext : Sender := (sendLoop s.txq s).flow

/-- `chiptxreclaim(ch, forceall)`. -/
def txreclaim (forceall : Bool) (curr : ℕ → TxRing Skb → UInt32) : Option Sender :=
  (dma32Txreclaim s.ring forceall curr).map fun (ring, ps) => { s with ring := ring, freed := s.freed ++ ps }

/-- `et_reset(et)`. -/
def reset : Option Sender := s.txreclaim true fun _ _ => 0

/-- `et_init(et, options)`. -/
def init : Option Sender := s.reset.map fun s => { s with ring := txinit s.ring }

/-- `et_start(skb, dev)`. -/
def start (skb : Skb) : Sender := sendnext { s with txq := s.txq ++ [skb], handed := s.handed ++ [skb] }

/-- What `et_dpc` does on a transmit event, and on an error. -/
def dpcTx (tx : Bool) (hw : Hardware) : Option Sender := if tx then s.txreclaim false hw.curr else some s

def dpcError (reset : Bool) : Option Sender := if reset then s.init else some s

/-- `et_dpc(data)`. -/
def dpc (tx reset : Bool) (hw : Hardware) : Option Sender :=
  if !s.up then some s
  else
    (s.dpcTx tx hw).bind fun s => (s.dpcError reset).map fun s => if s.txq = [] then s else s.sendnext

/-- `et_up(et)`. -/
def ifup : Option Sender :=
  if s.up then some s else ({ s with up := true } : Sender).init.map fun s => { s with stopped := false }

/-- `et_down(et, 1)`. -/
def ifdown : Option Sender :=
  ({ s with stopped := true, up := false } : Sender).reset.map fun s => { s with txq := [], freed := s.freed ++ s.txq }

def step : Entry → Option Sender
  | .start skb => if s.up then some (s.start skb) else none
  | .dpc tx reset hw => s.dpc tx reset hw
  | .reinit => s.init
  | .up => s.ifup
  | .down => s.ifdown

/-- Each packet is in one place, `chiptx` has never found the ring full, and while the interface is up what waits is
waited for. -/
structure Sound : Prop where
  conserved : s.handed.Perm (s.txq ++ s.ring.pending ++ s.freed)
  never_full : s.ring.txnobuf = 0
  outstanding : s.up = true → s.txq ≠ [] → 0 < s.ring.active
  stopped : s.up = true → s.stopped = true → s.txq ≠ []

end Sender

/-! ### The ring -/

variable {di : TxRing Skb}

/-- The ring is as `Dma.Tx` says, with its flow control value right, and was never full. -/
structure RingOk (di : TxRing Skb) : Prop where
  size : di.ntxd = ntxd
  avail : di.txavail = di.avail
  never_full : di.txnobuf = 0
  slots : ∃ l, Holds di l

theorem RingOk.active_of_full (h : RingOk di) (hfull : ¬0 < di.txavail) : 0 < di.active := by
  obtain ⟨l, hl⟩ := h.slots
  have havail := hl.avail
  have hzero : di.txavail.toNat = 0 := Nat.eq_zero_of_not_pos fun hpos => hfull (UInt32.lt_iff_toNat_lt.mpr hpos)
  have hsize : di.ntxd.toNat = 64 := by rw [h.size]; rfl
  have hactive : di.active = l.length := hl.ntxdactive
  rw [← h.avail, hzero, hsize] at havail
  omega

/-- A packet is accepted where `txavail` says so. -/
theorem RingOk.txfast (h : RingOk di) (hroom : 0 < di.txavail) (p : Skb) :
    (dma32Txfast di (some ⟨p, p.len, []⟩)).2 = 0 ∧ RingOk (dma32Txfast di (some ⟨p, p.len, []⟩)).1 ∧
      (dma32Txfast di (some ⟨p, p.len, []⟩)).1.pending = di.pending ++ [p] := by
  obtain ⟨l, hl⟩ := h.slots
  have ha := hl.cells.start_lt
  have hroom' : l.length + 1 < di.ntxd.toNat := by
    have havail := hl.avail
    have hpos := UInt32.lt_iff_toNat_lt.mp hroom
    have hzero : (0 : UInt32).toNat = 0 := rfl
    rw [h.avail] at hpos
    omega
  have hnext : di.nexttxd di.txout ≠ di.txin := by
    intro heq
    have hmod := toNat_nexttxd_add hl.txout
    rw [heq, Ring.add_mod_eq ha hroom'] at hmod
    split_ifs at hmod <;> omega
  have hloop : txfastLoop di [p.len] di.txout = some (di.nexttxd di.txout) := by
    rw [txfastLoop, if_neg hnext, if_neg (Nat.ne_of_gt p.pos), txfastLoop]
  have hfills : FillsOne di (some ⟨p, p.len, []⟩) := Or.inl ⟨p.len, List.mem_singleton_self _, Nat.ne_of_gt p.pos⟩
  have hok : (dma32Txfast di (some ⟨p, p.len, []⟩)).2 = 0 ∧ (dma32Txfast di (some ⟨p, p.len, []⟩)).1.txnobuf = di.txnobuf ∧
      (dma32Txfast di (some ⟨p, p.len, []⟩)).1.ntxd = di.ntxd := by
    rw [dma32Txfast, chainLens, hloop]
    exact ⟨rfl, rfl, rfl⟩
  obtain ⟨hret, hnobuf, hsize⟩ := hok
  obtain ⟨hfail, -⟩ | ⟨-, havail, l', hl', hp⟩ := txfast_spec hl hfills
  · rw [hret] at hfail
    cases hfail
  · refine ⟨hret, ⟨hsize.trans h.size, havail, hnobuf.trans h.never_full, _, hl'⟩, ?_⟩
    rw [hl'.pending, List.filterMap_append, hp, hl.pending]
    rfl

theorem getnexttxp_txnobuf {forceall : Bool} {curr : UInt32} {r : TxRing Skb × Option Skb}
    (h : dma32Getnexttxp di forceall curr = some r) : r.1.txnobuf = di.txnobuf := by
  unfold dma32Getnexttxp at h
  by_cases hn : di.ntxd = 0
  · rw [if_pos hn] at h
    rw [← Option.some.inj h]
  · rw [if_neg hn] at h
    dsimp only at h
    generalize (if forceall then di.txout else curr) = last at h
    split_ifs at h
    · rw [← Option.some.inj h]
    · obtain ⟨-, -, rfl⟩ := Option.map_eq_some_iff.mp h
      rfl

theorem txreclaimLoop_txnobuf {forceall : Bool} {curr : ℕ → TxRing Skb → UInt32} : ∀ {fuel k : ℕ} {di : TxRing Skb}
    {r : TxRing Skb × List Skb}, txreclaimLoop forceall curr fuel k di = some r → r.1.txnobuf = di.txnobuf
  | fuel + 1, k, di, r, h => by
    unfold txreclaimLoop at h
    split at h
    · cases h
    · rename_i di' hget
      rw [← Option.some.inj h]
      exact getnexttxp_txnobuf hget
    · rename_i di' p hget
      obtain ⟨r', hr', rfl⟩ := Option.map_eq_some_iff.mp h
      exact (txreclaimLoop_txnobuf hr').trans (getnexttxp_txnobuf hget)

/-- What is reclaimed leaves the ring, all of it if that is forced. -/
theorem RingOk.txreclaim (h : RingOk di) {forceall : Bool} {curr : ℕ → TxRing Skb → UInt32}
    (hcurr : forceall = false → ∀ k (di : TxRing Skb), di.InRange (curr k di)) :
    ∃ di' ps, dma32Txreclaim di forceall curr = some (di', ps) ∧ RingOk di' ∧ di.pending = ps ++ di'.pending ∧
      (forceall = true → Holds di' []) := by
  obtain ⟨l, hl⟩ := h.slots
  obtain ⟨d, di', hloop, hsize, hl', havail, hall⟩ := txreclaimLoop_spec hcurr 0 hl hl.cells.length_lt
  refine ⟨di', (l.take d).filterMap id, hloop, ⟨hsize.trans h.size, havail, ?_, _, hl'⟩, ?_, fun hf => ?_⟩
  · exact (txreclaimLoop_txnobuf hloop).trans h.never_full
  · rw [hl.pending, hl'.pending, ← List.filterMap_append, List.take_append_drop]
  · have hnil := hl'
    rwa [hall hf, List.drop_length] at hnil

/-- An empty ring is started anew. -/
theorem RingOk.txinit (h : RingOk di) (hempty : Holds di []) : RingOk (txinit di) ∧ Holds (txinit di) [] := by
  have hpos : 0 < di.ntxd.toNat := hempty.ntxd_pos
  have hne : di.ntxd ≠ 0 := by
    rw [h.size]
    decide
  have hcells : Ring.Cells di.ntxd.toNat 0 di.txp [] :=
    ⟨hpos, hpos, fun j hj => hempty.cells.empty hj (Nat.zero_le _)⟩
  have hholds : Holds ({ di with txin := 0, txout := 0, txavail := di.ntxd - 1 } : TxRing Skb) [] :=
    ⟨hcells, (Nat.zero_mod _).symm⟩
  unfold Et.txinit
  rw [if_neg hne]
  refine ⟨⟨h.size, ?_, h.never_full, _, hholds⟩, hholds⟩
  simp [TxRing.avail, TxRing.ntxdactive, xxd]

theorem active_zero (h : Holds di []) : di.active = 0 := h.ntxdactive

/-! ### Each entry point -/

namespace Sender

variable {s : Sender}

/-- What holds after every run. -/
structure Kept (s : Sender) : Prop where
  ring : RingOk s.ring
  conserved : s.handed.Perm (s.txq ++ s.ring.pending ++ s.freed)
  down : s.up = false → s.txq = []
  stopped : s.up = true → s.stopped = true → s.txq ≠ []

/-- What waits is waited for. -/
def Waited (s : Sender) : Prop := s.up = true → s.txq ≠ [] → 0 < s.ring.active

theorem Kept.sound_iff (h : s.Kept) : s.Sound ↔ s.Waited :=
  ⟨fun hs => hs.outstanding, fun hw => ⟨h.conserved, h.ring.never_full, hw, h.stopped⟩⟩

/-- `et_sendnext` moves packets from `txq` to the ring, until the one is empty or the other is full. -/
theorem sendLoop_spec : ∀ (txq : List Skb) {s : Sender}, RingOk s.ring →
    RingOk (sendLoop txq s).ring ∧ (sendLoop txq s).up = s.up ∧ (sendLoop txq s).stopped = s.stopped ∧
      (sendLoop txq s).handed = s.handed ∧ (sendLoop txq s).freed = s.freed ∧
      s.ring.pending ++ txq = (sendLoop txq s).ring.pending ++ (sendLoop txq s).txq ∧
      ((sendLoop txq s).txq ≠ [] → 0 < (sendLoop txq s).ring.active)
  | [], s, h => ⟨h, rfl, rfl, rfl, rfl, rfl, fun hne => absurd rfl hne⟩
  | p :: txq, s, h => by
    unfold sendLoop
    split_ifs with hroom
    · obtain ⟨hret, hring, hpending⟩ := h.txfast hroom p
      have hfreed : (s.chiptx p).freed = s.freed := if_pos hret
      obtain ⟨hok, hup, hstopped, hhanded, hfreed', hsplit, hactive⟩ := sendLoop_spec txq (s := s.chiptx p) hring
      refine ⟨hok, hup, hstopped, hhanded, hfreed'.trans hfreed, ?_, hactive⟩
      have hchip : (s.chiptx p).ring.pending = s.ring.pending ++ [p] := hpending
      rw [← hsplit, hchip, List.append_assoc]
      rfl
    · exact ⟨h, rfl, rfl, rfl, rfl, rfl, fun _ => h.active_of_full hroom⟩

/-- The ring is right, and each packet is in one place. -/
structure Placed (s : Sender) : Prop where
  ring : RingOk s.ring
  conserved : s.handed.Perm (s.txq ++ s.ring.pending ++ s.freed)

theorem Kept.placed (h : s.Kept) : s.Placed := ⟨h.ring, h.conserved⟩

@[simp] theorem flow_txq (s : Sender) : s.flow.txq = s.txq := by
  unfold flow
  split_ifs <;> rfl

@[simp] theorem flow_ring (s : Sender) : s.flow.ring = s.ring := by
  unfold flow
  split_ifs <;> rfl

@[simp] theorem flow_freed (s : Sender) : s.flow.freed = s.freed := by
  unfold flow
  split_ifs <;> rfl

@[simp] theorem flow_handed (s : Sender) : s.flow.handed = s.handed := by
  unfold flow
  split_ifs <;> rfl

@[simp] theorem flow_up (s : Sender) : s.flow.up = s.up := by
  unfold flow
  split_ifs <;> rfl

/-- The net queue is stopped only while `txq` is not short. -/
theorem flow_stopped (h : s.flow.stopped = true) : s.flow.txq ≠ [] := by
  rw [flow_txq]
  rintro hnil
  unfold flow at h
  rw [hnil, List.length_nil] at h
  cases hs : s.stopped <;> simp [hs, datahiwat] at h

theorem sendnext_spec (h : s.Placed) (hup : s.up = true) : s.sendnext.Kept ∧ s.sendnext.Waited := by
  obtain ⟨hring, hup', -, hhanded, hfreed, hsplit, hactive⟩ := sendLoop_spec s.txq h.ring
  have hsame : s.sendnext.up = true := by rw [sendnext, flow_up, hup', hup]
  refine ⟨⟨by rwa [sendnext, flow_ring], ?_, fun hdown => ?_, fun _ => flow_stopped⟩, fun _ => ?_⟩
  · rw [sendnext, flow_handed, flow_txq, flow_ring, flow_freed, hhanded, hfreed]
    refine h.conserved.trans (List.Perm.append_right _ ?_)
    calc (s.txq ++ s.ring.pending).Perm (s.ring.pending ++ s.txq) := List.perm_append_comm
      _ = (sendLoop s.txq s).ring.pending ++ (sendLoop s.txq s).txq := hsplit
      _ |>.Perm ((sendLoop s.txq s).txq ++ (sendLoop s.txq s).ring.pending) := List.perm_append_comm
  · exact absurd (hsame.symm.trans hdown) (by decide)
  · rwa [sendnext, flow_txq, flow_ring]

/-- What is reclaimed is freed. -/
theorem txreclaim_spec (h : s.Placed) {forceall : Bool} {curr : ℕ → TxRing Skb → UInt32}
    (hcurr : forceall = false → ∀ k (di : TxRing Skb), di.InRange (curr k di)) :
    ∃ ring freed, s.txreclaim forceall curr = some { s with ring := ring, freed := freed } ∧
      ({ s with ring := ring, freed := freed } : Sender).Placed ∧ (forceall = true → Holds ring []) := by
  obtain ⟨ring, ps, hreclaim, hring, hpending, hall⟩ := h.ring.txreclaim hcurr
  refine ⟨ring, s.freed ++ ps, by rw [txreclaim, hreclaim]; rfl, ⟨hring, ?_⟩, hall⟩
  have hmove : (s.txq ++ s.ring.pending ++ s.freed).Perm (s.txq ++ ring.pending ++ (s.freed ++ ps)) := by
    rw [hpending, List.append_assoc, List.append_assoc, List.append_assoc, ← List.append_assoc ring.pending]
    exact List.Perm.append_left _ List.perm_append_comm
  exact h.conserved.trans hmove

/-- A chip that has been initialised holds nothing. -/
theorem init_spec (h : s.Placed) : ∃ ring freed, s.init = some { s with ring := ring, freed := freed } ∧
    ({ s with ring := ring, freed := freed } : Sender).Placed ∧ Holds ring [] := by
  obtain ⟨ring, freed, hreset, ⟨hring, hplaced⟩, hempty⟩ := @txreclaim_spec s h true (fun _ _ => 0) nofun
  obtain ⟨hring', hempty'⟩ := hring.txinit (hempty rfl)
  refine ⟨txinit ring, freed, by rw [init, reset, hreset]; rfl, ⟨hring', ?_⟩, hempty'⟩
  rw [hempty'.pending]
  rwa [(hempty rfl).pending] at hplaced

/-- `et_dpc`, up to where it sends. -/
theorem dpc_parts (h : s.Placed) (tx reset : Bool) (hw : Hardware) : ∃ ring freed,
    ((s.dpcTx tx hw).bind fun s => s.dpcError reset) = some { s with ring := ring, freed := freed } ∧
      ({ s with ring := ring, freed := freed } : Sender).Placed := by
  have htx : ∃ ring freed, s.dpcTx tx hw = some { s with ring := ring, freed := freed } ∧
      ({ s with ring := ring, freed := freed } : Sender).Placed := by
    cases tx with
    | true =>
      obtain ⟨ring, freed, hr, hp, -⟩ := @txreclaim_spec s h false hw.curr fun _ => hw.inRange
      exact ⟨ring, freed, hr, hp⟩
    | false => exact ⟨s.ring, s.freed, rfl, h⟩
  obtain ⟨ring, freed, hr, hp⟩ := htx
  rw [hr, Option.bind_some]
  cases reset with
  | true =>
    obtain ⟨ring', freed', hr', hp', -⟩ := init_spec hp
    exact ⟨ring', freed', hr', hp'⟩
  | false => exact ⟨ring, freed, rfl, hp⟩

/-- What a step leaves: all that holds after every run; and what waits is waited for, but for a call that re-initialises
the chip while packets wait. -/
theorem step_spec (h : s.Kept) {e : Entry} {s' : Sender} (hs : s.step e = some s') :
    s'.Kept ∧ (s.Waited → (s'.Waited ↔ (e = .reinit → s.up = true → s.txq = []))) := by
  cases e with
  | start skb =>
    have hs : (if s.up then some (s.start skb) else none) = some s' := hs
    split_ifs at hs with hup
    rw [← Option.some.inj hs]
    have hplaced : ({ s with txq := s.txq ++ [skb], handed := s.handed ++ [skb] } : Sender).Placed := by
      refine ⟨h.ring, (h.conserved.append_right [skb]).trans ?_⟩
      show (s.txq ++ s.ring.pending ++ s.freed ++ [skb]).Perm (s.txq ++ [skb] ++ s.ring.pending ++ s.freed)
      simp only [List.append_assoc]
      refine List.Perm.append_left _ ?_
      rw [← List.append_assoc]
      exact List.perm_append_comm
    obtain ⟨hkept, hwaited⟩ := sendnext_spec hplaced hup
    exact ⟨hkept, fun _ => ⟨fun _ => nofun, fun _ => hwaited⟩⟩
  | dpc tx reset hw' =>
    have hs : s.dpc tx reset hw' = some s' := hs
    unfold dpc at hs
    by_cases hup : s.up = true
    · rw [if_neg (by simp [hup])] at hs
      obtain ⟨ring, freed, hparts, hplaced⟩ := dpc_parts h.placed tx reset hw'
      have hs : ((s.dpcTx tx hw').bind fun s => s.dpcError reset).map (fun s => if s.txq = [] then s else s.sendnext) =
          some s' := Option.map_bind.trans hs
      rw [hparts] at hs
      rw [← Option.some.inj hs]
      dsimp only
      split_ifs with hnil
      · exact ⟨⟨hplaced.ring, hplaced.conserved, h.down, h.stopped⟩,
          fun _ => ⟨fun _ => nofun, fun _ _ hne => absurd hnil hne⟩⟩
      · obtain ⟨hkept, hwaited⟩ := sendnext_spec hplaced hup
        exact ⟨hkept, fun _ => ⟨fun _ => nofun, fun _ => hwaited⟩⟩
    · rw [if_pos (by simpa using hup)] at hs
      rw [← Option.some.inj hs]
      exact ⟨h, fun hw => ⟨fun _ => nofun, fun _ => hw⟩⟩
  | reinit =>
    obtain ⟨ring, freed, hinit, hplaced, hempty⟩ := init_spec h.placed
    rw [← Option.some.inj (hinit.symm.trans hs)]
    refine ⟨⟨hplaced.ring, hplaced.conserved, h.down, h.stopped⟩,
      fun _ => ⟨fun hwait _ hup => ?_, fun hnil hup hne => ?_⟩⟩
    · by_contra hne
      exact absurd (hwait hup hne) (by rw [active_zero hempty]; decide)
    · exact absurd (hnil rfl hup) hne
  | up =>
    have hs : s.ifup = some s' := hs
    unfold ifup at hs
    split_ifs at hs with hup
    · rw [← Option.some.inj hs]
      exact ⟨h, fun hw => ⟨fun _ => nofun, fun _ => hw⟩⟩
    · have hnil : s.txq = [] := h.down (by simpa using hup)
      obtain ⟨ring, freed, hinit, hplaced, -⟩ := @init_spec { s with up := true } ⟨h.ring, h.conserved⟩
      rw [hinit] at hs
      rw [← Option.some.inj hs]
      exact ⟨⟨hplaced.ring, hplaced.conserved, nofun, fun _ => nofun⟩,
        fun _ => ⟨fun _ => nofun, fun _ _ hne => absurd hnil hne⟩⟩
  | down =>
    obtain ⟨ring, freed, hreset, hplaced, -⟩ :=
      @txreclaim_spec { s with stopped := true, up := false } ⟨h.ring, h.conserved⟩ true (fun _ _ => 0) nofun
    have hs : (({ s with stopped := true, up := false } : Sender).reset.map fun s =>
      ({ s with txq := [], freed := s.freed ++ s.txq } : Sender)) = some s' := hs
    rw [reset, hreset] at hs
    rw [← Option.some.inj hs]
    refine ⟨⟨hplaced.ring, hplaced.conserved.trans ?_, fun _ => rfl, nofun⟩,
      fun _ => ⟨fun _ => nofun, fun _ => nofun⟩⟩
    show (s.txq ++ ring.pending ++ freed).Perm ([] ++ ring.pending ++ (freed ++ s.txq))
    rw [List.nil_append, ← List.append_assoc, List.append_assoc s.txq]
    exact List.perm_append_comm

end Sender

/-! ### Runs -/

open Sender

theorem kept_idle : idle.Kept := by
  have hempty : Holds (dma32Txinit ntxd ⟨6, rfl⟩ 0 : TxRing Skb) [] := holds_txinit ntxd ⟨6, rfl⟩ 0
  refine ⟨⟨rfl, rfl, rfl, _, hempty⟩, ?_, fun _ => rfl, nofun⟩
  rw [show idle.ring.pending = [] from hempty.pending]
  exact List.Perm.nil

/-- A run from the start. -/
abbrev Ran (es : List Entry) (s : Sender) : Prop := Trace (fun s e s' => Sender.step s e = some s') idle es s

theorem kept_of_ran {es : List Entry} {s : Sender} (h : Ran es s) : s.Kept :=
  h.inv (I := fun _ s => s.Kept) kept_idle fun _ _ _ _ hkept hstep => (step_spec hkept hstep).1

/-- What waits is waited for, as long as the chip is re-initialised with `txq` empty. -/
theorem waited_of_ran {es : List Entry} {s : Sender} (h : Ran es s)
    (hreinit : ∀ pre s, pre ++ [.reinit] <+: es → Ran pre s → s.up = true → s.txq = []) : s.Waited := by
  induction h with
  | nil => exact nofun
  | @snoc es s s' e hrun hstep ih =>
    have hwaited := ih fun pre t hpre => hreinit pre t (hpre.trans (List.prefix_append es [e]))
    exact ((step_spec (kept_of_ran hrun) hstep).2 hwaited).mpr fun he => hreinit es s (by rw [he]) hrun

/-- **The transmit queue of the Ethernet driver.** In all of a run each packet is in one place, the ring is never found
full, and what waits is waited for, if and only if no call re-initialises the chip while the interface is up and packets
wait. -/
theorem tx_queue_iff (es : List Entry) : (∀ pre s, pre <+: es → Ran pre s → s.Sound) ↔
    ∀ pre s, pre ++ [.reinit] <+: es → Ran pre s → s.up = true → s.txq = [] := by
  constructor
  · intro hsound pre s hpre hrun
    have hkept := kept_of_ran hrun
    have hwaited := hkept.sound_iff.mp (hsound pre s ((List.prefix_append pre [.reinit]).trans hpre) hrun)
    obtain ⟨ring, freed, hinit, -, -⟩ := init_spec hkept.placed
    obtain ⟨hkept', hiff⟩ := step_spec hkept (e := .reinit) hinit
    exact (hiff hwaited).mp (hkept'.sound_iff.mp (hsound _ _ hpre (hrun.snoc hinit))) rfl
  · intro hreinit pre s hpre hrun
    exact (kept_of_ran hrun).sound_iff.mpr (waited_of_ran hrun fun pre' t hpre' => hreinit pre' t (hpre'.trans hpre))

/-! ### More packets than the ring has room for -/

/-- A packet of 60 bytes. -/
def packet (id : ℕ) : Skb := ⟨id, 60, by decide⟩

/-- One more than there is room for, and then a call that re-initialises the chip. -/
def overfull : List Entry := .up :: (List.range 64).map (fun id => .start (packet id)) ++ [.reinit]

/-- A packet waits, and no descriptor is outstanding. -/
theorem overfull_stalls : ¬∀ (es : List Entry) (s : Sender), Ran es s → s.Sound := by
  intro hclaim
  have hrun : (exec Sender.step overfull idle).any (fun s => s.up && !s.txq.isEmpty && s.ring.active == 0) = true := by
    decide +kernel
  obtain ⟨s, hs, hstalled⟩ := (Option.any_eq_true _ _).mp hrun
  simp only [Bool.and_eq_true, Bool.not_eq_true', List.isEmpty_eq_false_iff, beq_iff_eq] at hstalled
  obtain ⟨⟨hup, hne⟩, hactive⟩ := hstalled
  exact absurd ((hclaim overfull s (trace_of_exec hs)).outstanding hup hne) (by rw [hactive]; decide)

end Et
end Router
