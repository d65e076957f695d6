/-
# Rotating the transmit ring

`dma32_txrotate` moves the active entries up to where the hardware has stopped. An entry is its descriptor, its packet
and its DMA handle. The descriptors and the packets are moved, from the last to the first, each into a slot that is
free by then (`txrotateLoop_moved`); the handles are not. When there is nothing to rotate each entry is moved onto
itself, and cleared (`txrotateLoop_zero`).

So the queue is kept where the ring is too full for the call to do anything, and else where the hardware is not at
`txin`, or nothing is active, and the handles in the slots taken happen to be those of the slots left
(`txrotate_preserves_iff`).
-/
import RouterFirmware.Dma.Descriptors

namespace Router
namespace Dma

open Ring Bits

variable {Pkt Dmah : Type*}

/-- The active descriptor that the status register shows, as an index: `XS_AD_MASK`, `XS_AD_SHIFT` and `B2I`. -/
def activeDescriptor (status : UInt32) : UInt32 := ((status &&& 0xfff00000) >>> 20) / 8

/-- The arrays that are rotated. -/
structure TxEntries (Pkt : Type*) where
  txd32 : ℕ → Dma32dd
  txp : ℕ → Option Pkt

/-- One turn of the loop: the entry `old` is moved to `new`, and `old` cleared. -/
def TxEntries.move (e : TxEntries Pkt) (ntxd old new : UInt32) : TxEntries Pkt :=
  -- EOT is set only in the last entry in the ring
  let w := (e.txd32 old.toNat).ctrl &&& ~~~ctrlEot
  let w := if new = ntxd - 1 then w ||| ctrlEot else w
  let txd32 := Function.update e.txd32 new.toNat ⟨w, (e.txd32 old.toNat).addr⟩
  -- zap the old tx dma descriptor address field
  let txd32 := Function.update txd32 old.toNat { txd32 old.toNat with addr := 0xdeadbeef#32 }
  let txp := Function.update e.txp new.toNat (e.txp old.toNat)
  ⟨txd32, Function.update txp old.toNat none⟩

namespace TxDma

/-- The loop of `dma32_txrotate`, from `old` backwards to `txin`. -/
def txrotateLoop (di : TxDma Pkt Dmah) (rot : UInt32) : ℕ → UInt32 → TxEntries Pkt → Option (TxEntries Pkt)
  | 0, _, _ => none
  | fuel + 1, old, e =>
    if old = di.prevtxd di.txin then some e
    else txrotateLoop di rot fuel (di.prevtxd old) (e.move di.ntxd old (xxd (old + rot) di.ntxd))

/-- How far `dma32_txrotate` rotates: `TXD(ad - di->txin)`. -/
def rot (di : TxDma Pkt Dmah) (status : UInt32) : UInt32 := xxd (activeDescriptor status - di.txin) di.ntxd

/-- The end of `dma32_txrotate`: `txin` and `txout`, flow control, and the chip is kicked. -/
def rotateTo (di : TxDma Pkt Dmah) (status : UInt32) (e : TxEntries Pkt) : TxDma Pkt Dmah :=
  let txout := xxd (di.txout + di.rot status) di.ntxd
  let di := { di with
    pow2 := di.ring_pow2
    txd32 := e.txd32
    txp := e.txp
    txin := activeDescriptor status
    txout := txout
    ptr := txout * 8 }
  { di with
    pow2 := di.ring_pow2
    txavail := di.avail }

/-- `dma32_txrotate(di)`, where the status register shows `status`. -/
def dma32Txrotate (di : TxDma Pkt Dmah) (status : UInt32) : Option (TxDma Pkt Dmah) :=
  -- full-ring case is a lot harder - don't worry about this
  if di.rot status ≥ di.ntxd - di.ntxdactive di.txin di.txout then some di
  else
    (di.txrotateLoop (di.rot status) di.ntxd.toNat (di.prevtxd di.txout) ⟨di.txd32, di.txp⟩).map (di.rotateTo status)

/-! ### One turn -/

theorem slot_ne {di : TxDma Pkt Dmah} (ha : di.txin.toNat < di.ntxd.toNat) {p q : ℕ} (hp : p < di.ntxd.toNat)
    (hq : q < di.ntxd.toNat) (hne : p ≠ q) : di.slot p ≠ di.slot q := by
  rcases Nat.lt_or_gt_of_ne hne with h | h
  · exact TxRing.slot_ne ha h hq
  · exact (TxRing.slot_ne ha h hp).symm

section Move

variable {di : TxDma Pkt Dmah} {e : TxEntries Pkt} {old new : UInt32} {j i k : ℕ}

theorem move_other (ha : di.txin.toNat < di.ntxd.toNat) (hold : old.toNat = di.slot j) (hnew : new.toNat = di.slot i)
    (hj : j < di.ntxd.toNat) (hi : i < di.ntxd.toNat) (hk : k < di.ntxd.toNat) (hkj : k ≠ j) (hki : k ≠ i) :
    (e.move di.ntxd old new).txd32 (di.slot k) = e.txd32 (di.slot k) ∧
      (e.move di.ntxd old new).txp (di.slot k) = e.txp (di.slot k) := by
  have hslotj := slot_ne ha hk hj hkj
  have hsloti := slot_ne ha hk hi hki
  unfold TxEntries.move
  dsimp only
  rw [hold, hnew, Function.update_of_ne hslotj, Function.update_of_ne hsloti, Function.update_of_ne hslotj,
    Function.update_of_ne hsloti]
  exact ⟨rfl, rfl⟩

/-- A descriptor as it stands in the slot `i` after a move. -/
def moved (di : TxDma Pkt Dmah) (dd : Dma32dd) (i : ℕ) : Dma32dd :=
  ⟨(dd.ctrl &&& ~~~ctrlEot) ||| bitIf (i = di.ntxd.toNat - 1) ctrlEot, dd.addr⟩

theorem move_new (ha : di.txin.toNat < di.ntxd.toNat) (hold : old.toNat = di.slot j) (hnew : new.toNat = di.slot i)
    (hj : j < di.ntxd.toNat) (hi : i < di.ntxd.toNat) (hij : i ≠ j) :
    (e.move di.ntxd old new).txd32 (di.slot i) = di.moved (e.txd32 (di.slot j)) (di.slot i) ∧
      (e.move di.ntxd old new).txp (di.slot i) = e.txp (di.slot j) := by
  have hslot := slot_ne ha hi hj hij
  have heot : new = di.ntxd - 1 ↔ di.slot i = di.ntxd.toNat - 1 := by
    rw [← UInt32.toNat_inj, toNat_ntxd_sub, hnew]
  unfold TxEntries.move moved
  dsimp only
  rw [or_ite, decide_eq_decide.mpr heot, hold, hnew, Function.update_of_ne hslot, Function.update_self,
    Function.update_of_ne hslot, Function.update_self]
  exact ⟨rfl, rfl⟩

/-- What is moved is gone from where it was, also when it was moved nowhere. -/
theorem move_old (e : TxEntries Pkt) (ntxd old new : UInt32) : (e.move ntxd old new).txp old.toNat = none :=
  Function.update_self _ _ _

end Move

/-! ### The loop -/

/-- After the entries from the `j`-th on: they are `r` slots further up, the others where they were. -/
structure Moved (di : TxDma Pkt Dmah) (r j : ℕ) (e : TxEntries Pkt) : Prop where
  moved : ∀ k, j ≤ k → k < di.active →
    e.txd32 (di.slot (k + r)) = di.moved (di.txd32 (di.slot k)) (di.slot (k + r)) ∧
      e.txp (di.slot (k + r)) = di.txp (di.slot k)
  rest : ∀ k < j, e.txd32 (di.slot k) = di.txd32 (di.slot k) ∧ e.txp (di.slot k) = di.txp (di.slot k)

theorem slot_zero {di : TxDma Pkt Dmah} (ha : di.txin.toNat < di.ntxd.toNat) : di.slot 0 = di.txin.toNat :=
  Nat.mod_eq_of_lt ha

/-- The entry in front of `t` is not the one in front of `txin`. -/
theorem prevtxd_ne {di : TxDma Pkt Dmah} (ha : di.txin.toNat < di.ntxd.toNat) {t : UInt32} {j : ℕ}
    (hj : j + 1 < di.ntxd.toNat) (ht : t.toNat = di.slot (j + 1)) : di.prevtxd t ≠ di.prevtxd di.txin := by
  intro heq
  have hprev : (di.prevtxd t).toNat = di.slot j := toNat_prevtxd_add hj ht
  have hstop : (di.prevtxd di.txin).toNat = di.slot (di.ntxd.toNat - 1) := by
    obtain ⟨k, hk⟩ := di.pow2
    have h1 : (1 : UInt32).toNat = 1 := rfl
    rw [TxRing.prevtxd, xxd, toNat_mask_sub hk (by rw [h1]; omega), h1, Ring.dist,
      Nat.add_sub_assoc (by omega)]
    rfl
  rw [heq, hstop] at hprev
  exact slot_ne ha (by omega) (by omega) (by omega) hprev

theorem toNat_target (di : TxDma Pkt Dmah) {t : UInt32} (rot : UInt32) {j : ℕ} (ht : t.toNat = di.slot j) :
    (xxd (t + rot) di.ntxd).toNat = di.slot (j + rot.toNat) := by
  obtain ⟨k, hk⟩ := di.pow2
  rw [xxd, toNat_mask_add hk, ht, slot, Nat.mod_add_mod, Nat.add_assoc, slot]

/-- **The loop moves every entry**, when there is room for all of them. -/
theorem txrotateLoop_moved {di : TxDma Pkt Dmah} (ha : di.txin.toNat < di.ntxd.toNat) {rot : UInt32}
    (hrot : rot.toNat ≠ 0) (hroom : di.active + rot.toNat < di.ntxd.toNat) :
    ∀ {j fuel : ℕ} {t : UInt32} {e : TxEntries Pkt}, t.toNat = di.slot j → j ≤ di.active → j < fuel →
    Moved di rot.toNat j e →
    ∃ e', di.txrotateLoop rot fuel (di.prevtxd t) e = some e' ∧ Moved di rot.toNat 0 e'
  | 0, fuel + 1, t, e, ht, _, _, h => by
    have htxin : t = di.txin := UInt32.toNat_inj.mp (ht.trans (slot_zero ha))
    exact ⟨e, by rw [txrotateLoop, htxin, if_pos rfl], h⟩
  | j + 1, fuel + 1, t, e, ht, hj, hf, h => by
    have hold : (di.prevtxd t).toNat = di.slot j := toNat_prevtxd_add (by omega) ht
    have hnew := toNat_target di rot hold
    rw [txrotateLoop, if_neg (prevtxd_ne ha (by omega) ht)]
    refine txrotateLoop_moved ha hrot hroom hold (by omega) (by omega) ⟨fun k hk hlt => ?_, fun k hk => ?_⟩
    · rcases Nat.eq_or_lt_of_le hk with rfl | hk
      · obtain ⟨htxd, htxp⟩ := move_new (e := e) ha hold hnew (by omega) (by omega) (by omega)
        obtain ⟨hd, hp⟩ := h.rest j (Nat.lt_succ_self j)
        rw [htxd, htxp, hd, hp]
        exact ⟨rfl, rfl⟩
      · obtain ⟨htxd, htxp⟩ := move_other (e := e) (k := k + rot.toNat) ha hold hnew (by omega) (by omega) (by omega)
          (by omega) (by omega)
        rw [htxd, htxp]
        exact h.moved k hk hlt
    · obtain ⟨htxd, htxp⟩ := move_other (e := e) (k := k) ha hold hnew (by omega) (by omega) (by omega) (by omega)
        (by omega)
      rw [htxd, htxp]
      exact h.rest k (by omega)

/-- **With nothing to rotate** the packets of all entries are lost. -/
theorem txrotateLoop_zero {di : TxDma Pkt Dmah} (ha : di.txin.toNat < di.ntxd.toNat) {rot : UInt32}
    (hrot : rot.toNat = 0) (hactive : di.active < di.ntxd.toNat) :
    ∀ {j fuel : ℕ} {t : UInt32} {e : TxEntries Pkt}, t.toNat = di.slot j → j ≤ di.active → j < fuel →
    (∀ k, j ≤ k → k < di.active → e.txp (di.slot k) = none) →
    ∃ e', di.txrotateLoop rot fuel (di.prevtxd t) e = some e' ∧ ∀ k < di.active, e'.txp (di.slot k) = none
  | 0, fuel + 1, t, e, ht, _, _, h => by
    have htxin : t = di.txin := UInt32.toNat_inj.mp (ht.trans (slot_zero ha))
    exact ⟨e, by rw [txrotateLoop, htxin, if_pos rfl], fun k hk => h k (Nat.zero_le k) hk⟩
  | j + 1, fuel + 1, t, e, ht, hj, hf, h => by
    have hold : (di.prevtxd t).toNat = di.slot j := toNat_prevtxd_add (by omega) ht
    have hnew := toNat_target di rot hold
    rw [hrot, Nat.add_zero] at hnew
    rw [txrotateLoop, if_neg (prevtxd_ne ha (by omega) ht)]
    refine txrotateLoop_zero ha hrot hactive hold (by omega) (by omega) fun k hk hlt => ?_
    rcases Nat.eq_or_lt_of_le hk with rfl | hk
    · rw [← hold]
      exact move_old _ _ _ _
    · rw [(move_other ha hold hnew (by omega) (by omega) (by omega) (by omega) (by omega)).2]
      exact h k hk hlt

/-! ### The queue -/

/-- The active entries, from `txin` to `txout`: address, control word without the end of the table, packet, handle. -/
def entries (di : TxDma Pkt Dmah) : List (BitVec 32 × BitVec 32 × Option Pkt × Dmah) :=
  (List.range di.active).map fun d =>
    ((di.txd32 (di.slot d)).addr, (di.txd32 (di.slot d)).ctrl &&& ~~~ctrlEot, di.txp (di.slot d),
      di.txpDmah (di.slot d))

/-- `CTRL_EOT` stands in the last descriptor of the table and in no other. -/
def EotLast (di : TxDma Pkt Dmah) : Prop :=
  ∀ d < di.active, (hasBit (di.txd32 (di.slot d)).ctrl ctrlEot = true ↔ di.slot d = di.ntxd.toNat - 1)

/-- A ring as the calls leave it: the indices are in the table, and the last active entry is that of a packet. -/
structure RingState (di : TxDma Pkt Dmah) : Prop where
  txin_lt : di.txin.toNat < di.ntxd.toNat
  txout_lt : di.txout.toNat < di.ntxd.toNat
  eot : di.EotLast
  last : ∀ d, d + 1 = di.active → di.txp (di.slot d) ≠ none

/-- An accepted chain that fills a descriptor leaves such a ring. -/
theorem RingState.txfast {di : TxDma Pkt Dmah} (hr : di.RingState) {chain : PktChain Pkt Dmah} {commit : Bool}
    (hacc : (di.dma32Txfast (some chain) commit).ret = 0) (hne : nonempty chain.bufs ≠ []) :
    (di.dma32Txfast (some chain) commit).di.RingState := by
  have ha := hr.txin_lt
  obtain ⟨htxout, hroom, hdd, htxp, hkept⟩ := txfast_frame ha hr.txout_lt hacc hne
  have hlength := List.length_pos_of_ne_nil hne
  obtain ⟨hntxd, htxin⟩ := txfast_size di (some chain) commit
  have hslot : ∀ d, (di.dma32Txfast (some chain) commit).di.slot d = di.slot d := fun d => by
    rw [slot, slot, hntxd, htxin]
  have hactive : (di.dma32Txfast (some chain) commit).di.active = di.active + (nonempty chain.bufs).length := by
    obtain ⟨k, hk⟩ := di.pow2
    show (xxd (_ - _) _).toNat = _
    rw [hntxd, htxin, xxd, toNat_mask_sub hk ha, htxout]
    exact dist_add ha hroom
  refine ⟨?_, ?_, fun d hd => ?_, fun d hd => ?_⟩
  · rw [hntxd, htxin]
    exact ha
  · rw [hntxd, htxout]
    exact Nat.mod_lt _ (by omega)
  · rw [hslot, hntxd]
    rw [hactive] at hd
    rcases Nat.lt_or_ge d di.active with hlt | hge
    · rw [hkept d hlt]
      exact hr.eot d hlt
    · obtain ⟨k, rfl⟩ := Nat.exists_eq_add_of_le hge
      have hk := List.getElem?_eq_getElem (show k < (nonempty chain.bufs).length by omega)
      rw [hdd k _ hk, (ddAt_bits _ _ _ _ _).2.2.2, decide_eq_true_iff]
  · have hlast : d = di.active + ((nonempty chain.bufs).length - 1) := by omega
    rw [hslot, hlast, htxp]
    exact Option.some_ne_none _

/-- The queue of `di'` is that of `di`. -/
structure Preserved (di di' : TxDma Pkt Dmah) : Prop where
  txin_lt : di'.txin.toNat < di'.ntxd.toNat
  txout_lt : di'.txout.toNat < di'.ntxd.toNat
  entries : di'.entries = di.entries
  eot : di'.EotLast

section RotateTo

variable {di : TxDma Pkt Dmah} {status : UInt32} {e : TxEntries Pkt}

theorem toNat_rot (ha : di.txin.toNat < di.ntxd.toNat) (status : UInt32) :
    (di.rot status).toNat = Ring.dist di.ntxd.toNat di.txin.toNat (activeDescriptor status).toNat := by
  obtain ⟨k, hk⟩ := di.pow2
  exact toNat_mask_sub hk ha

/-- Seen from the hardware's position, the slots are `rot` further. -/
theorem slot_rotateTo (ha : di.txin.toNat < di.ntxd.toNat) (d : ℕ) :
    (di.rotateTo status e).slot d = di.slot (d + (di.rot status).toNat) := by
  have hrot := toNat_rot ha status
  show ((activeDescriptor status).toNat + d) % di.ntxd.toNat = (di.txin.toNat + (d + _)) % di.ntxd.toNat
  rw [hrot, Ring.dist, Nat.add_left_comm, Nat.add_comm d, ← Nat.mod_add_mod, ← @Nat.mod_add_mod (di.txin.toNat + _)]
  congr 2
  rw [Nat.add_mod_mod, Nat.add_sub_cancel' (by omega), Nat.add_mod_right]

theorem txout_rotateTo (hr : di.RingState) :
    (di.rotateTo status e).txout.toNat = (di.rotateTo status e).slot di.active := by
  have hactive := (TxRing.txout_active hr.txin_lt).1
  rw [Nat.mod_eq_of_lt hr.txout_lt] at hactive
  rw [slot_rotateTo hr.txin_lt, ← toNat_target di _ hactive]
  rfl

theorem active_rotateTo (hr : di.RingState) (had : (activeDescriptor status).toNat < di.ntxd.toNat) :
    (di.rotateTo status e).active = di.active := by
  obtain ⟨k, hk⟩ := di.pow2
  have htxout : (di.rotateTo status e).txout.toNat = (di.rotateTo status e).slot di.active := txout_rotateTo hr
  have hlt := (TxRing.txout_active hr.txin_lt).2
  show (((di.rotateTo status e).txout - activeDescriptor status) &&& (di.ntxd - 1)).toNat = _
  rw [toNat_mask_sub hk had, htxout]
  exact dist_add had hlt

/-- What is read at the slots of the queue after the entries were moved. -/
theorem entries_rotateTo (hr : di.RingState) (had : (activeDescriptor status).toNat < di.ntxd.toNat)
    (h : Moved di (di.rot status).toNat 0 e) :
    (di.rotateTo status e).entries = di.entries ↔ ∀ d < di.active,
      di.txpDmah (di.slot (d + (di.rot status).toNat)) = di.txpDmah (di.slot d) := by
  unfold entries
  rw [active_rotateTo hr had, List.map_inj_left]
  refine ⟨fun hall d hd => ?_, fun hall d hd => ?_⟩
  · have heq := hall d (List.mem_range.mpr hd)
    rw [slot_rotateTo hr.txin_lt] at heq
    simp only [Prod.mk.injEq] at heq
    exact heq.2.2.2
  · have hlt := List.mem_range.mp hd
    obtain ⟨hdd, hp⟩ := h.moved d (Nat.zero_le d) hlt
    have hctrl : ∀ (w : BitVec 32) (p : Bool), (w &&& ~~~ctrlEot ||| bitIf p ctrlEot) &&& ~~~ctrlEot = w &&& ~~~ctrlEot := by
      intro w p
      have hnone : bitIf p ctrlEot &&& ~~~ctrlEot = 0#32 := by cases p <;> decide
      rw [BitVec.and_or_distrib_right, BitVec.and_assoc, BitVec.and_self, hnone, BitVec.or_zero]
    rw [slot_rotateTo hr.txin_lt]
    refine Prod.ext ?_ (Prod.ext ?_ (Prod.ext hp (hall d hlt)))
    · show (e.txd32 _).addr = _
      rw [hdd]
      rfl
    · show (e.txd32 _).ctrl &&& ~~~ctrlEot = _
      rw [hdd]
      exact hctrl _ _

theorem eotLast_rotateTo (hr : di.RingState) (had : (activeDescriptor status).toNat < di.ntxd.toNat)
    (h : Moved di (di.rot status).toNat 0 e) : (di.rotateTo status e).EotLast := by
  intro d hd
  rw [active_rotateTo hr had] at hd
  obtain ⟨hdd, -⟩ := h.moved d (Nat.zero_le d) hd
  rw [slot_rotateTo hr.txin_lt]
  show hasBit (e.txd32 _).ctrl ctrlEot = true ↔ _ = di.ntxd.toNat - 1
  have hclear : ∀ w : BitVec 32, hasBit (w &&& ~~~ctrlEot) ctrlEot = false := by
    intro w
    unfold hasBit
    rw [BitVec.and_assoc, show ~~~ctrlEot &&& ctrlEot = 0#32 by decide, BitVec.and_zero]
    rfl
  have hset : hasBit ctrlEot ctrlEot = true := by decide
  rw [hdd, moved, hasBit_or, hclear, hasBit_bitIf, hset, Bool.false_or, Bool.and_true, decide_eq_true_iff]

/-- Entries that were moved are the queue again, with their handles or without. -/
theorem preserved_rotateTo (hr : di.RingState) (had : (activeDescriptor status).toNat < di.ntxd.toNat)
    (h : Moved di (di.rot status).toNat 0 e) : Preserved di (di.rotateTo status e) ↔ ∀ d < di.active,
      di.txpDmah (di.slot (d + (di.rot status).toNat)) = di.txpDmah (di.slot d) := by
  rw [← entries_rotateTo hr had h]
  refine ⟨fun hp => hp.entries, fun hentries => ⟨had, ?_, hentries, eotLast_rotateTo hr had h⟩⟩
  rw [txout_rotateTo hr]
  exact Nat.mod_lt _ (Nat.zero_lt_of_lt had)

end RotateTo

/-- **When `dma32_txrotate` preserves the queue**: the ring is too full, and nothing is done; or the hardware is at a
descriptor of the table, it is not at `txin` while there are active entries, and the handles in the slots the entries
get are those in the slots they had. -/
theorem txrotate_preserves_iff {di : TxDma Pkt Dmah} (hr : di.RingState) (status : UInt32) :
    (∃ di', di.dma32Txrotate status = some di' ∧ Preserved di di') ↔
      di.ntxd.toNat ≤ (di.rot status).toNat + di.active ∨
      (activeDescriptor status).toNat < di.ntxd.toNat ∧ (di.active = 0 ∨ di.rot status ≠ 0) ∧
        ∀ d < di.active, di.txpDmah (di.slot (d + (di.rot status).toNat)) = di.txpDmah (di.slot d) := by
  have ha := hr.txin_lt
  obtain ⟨hactive, hlt⟩ := TxRing.txout_active ha
  rw [Nat.mod_eq_of_lt hr.txout_lt] at hactive
  have hpunt : di.rot status ≥ di.ntxd - di.ntxdactive di.txin di.txout ↔
      di.ntxd.toNat ≤ (di.rot status).toNat + di.active := by
    have hle : di.ntxdactive di.txin di.txout ≤ di.ntxd := UInt32.le_iff_toNat_le.mpr (Nat.le_of_lt hlt)
    rw [ge_iff_le, UInt32.le_iff_toNat_le, UInt32.toNat_sub_of_le _ _ hle]
    show di.ntxd.toNat - di.active ≤ _ ↔ _
    omega
  unfold dma32Txrotate
  by_cases hfull : di.ntxd.toNat ≤ (di.rot status).toNat + di.active
  · rw [if_pos (hpunt.mpr hfull)]
    exact ⟨fun _ => .inl hfull, fun _ => ⟨di, rfl, ha, hr.txout_lt, rfl, hr.eot⟩⟩
  · rw [if_neg (mt hpunt.mp hfull), or_iff_right hfull]
    by_cases hrot : (di.rot status).toNat = 0
    · have hrot0 : di.rot status = 0 := UInt32.toNat_inj.mp hrot
      obtain ⟨e, hloop, hnone⟩ := @txrotateLoop_zero _ _ di ha (di.rot status) hrot hlt di.active di.ntxd.toNat
        di.txout ⟨di.txd32, di.txp⟩ hactive (le_refl _) hlt fun k hk hk' => absurd hk' (by omega)
      rw [hloop]
      constructor
      · rintro ⟨di', hdi', h⟩
        obtain rfl := Option.some.inj hdi'
        refine ⟨h.txin_lt, .inl ?_, fun d _ => by rw [hrot, Nat.add_zero]⟩
        by_contra hne
        -- the packet of the last entry is gone
        have hlast : di.active - 1 < di.active := by omega
        have hentries := h.entries
        unfold entries at hentries
        rw [active_rotateTo hr h.txin_lt, List.map_inj_left] at hentries
        have heq := hentries _ (List.mem_range.mpr hlast)
        rw [slot_rotateTo ha, hrot, Nat.add_zero] at heq
        simp only [Prod.mk.injEq] at heq
        exact hr.last (di.active - 1) (by omega) (heq.2.2.1.symm.trans (hnone _ hlast))
      · rintro ⟨had, hor, hdmah⟩
        have hzero : di.active = 0 := hor.resolve_right fun hne => hne hrot0
        have hmoved : Moved di (di.rot status).toNat 0 e :=
          ⟨fun k _ hk => absurd hk (by omega), fun k hk => absurd hk (by omega)⟩
        exact ⟨_, rfl, (preserved_rotateTo hr had hmoved).mpr hdmah⟩
    · have hrot0 : di.rot status ≠ 0 := fun h0 => hrot (by rw [h0]; rfl)
      obtain ⟨e, hloop, hmoved⟩ := @txrotateLoop_moved _ _ di ha (di.rot status) hrot (by omega) di.active
        di.ntxd.toNat di.txout ⟨di.txd32, di.txp⟩ hactive (le_refl _) hlt
        ⟨fun k hk hk' => absurd hk' (by omega), fun k _ => ⟨rfl, rfl⟩⟩
      rw [hloop]
      constructor
      · rintro ⟨di', hdi', h⟩
        obtain rfl := Option.some.inj hdi'
        exact ⟨h.txin_lt, .inr hrot0, (preserved_rotateTo hr h.txin_lt hmoved).mp h⟩
      · rintro ⟨had, -, hdmah⟩
        exact ⟨_, rfl, (preserved_rotateTo hr had hmoved).mpr hdmah⟩

/-- A ring of eight with one packet of one buffer. -/
def onePacket : TxDma ℕ Unit :=
  ((idleDma 3 rfl).dma32Txfast (some ⟨7, ⟨100#32, 0x1000#32, none⟩, []⟩) true).di

theorem ringState_onePacket : onePacket.RingState where
  txin_lt := by decide
  txout_lt := by decide
  eot := by
    unfold EotLast
    decide
  last d hd := by
    have hactive : onePacket.active = 1 := by decide
    obtain rfl : d = 0 := by omega
    decide

/-- Rotated to the third descriptor. -/
theorem txrotate_preserves_iff_two :
    ∃ di', onePacket.dma32Txrotate 0x01000000 = some di' ∧ Preserved onePacket di' :=
  (txrotate_preserves_iff ringState_onePacket 0x01000000).mpr
    (.inr ⟨by decide, .inr (by decide), fun _ _ => rfl⟩)

/-- With the hardware at `txin` the packet is lost, and the address of its buffer. -/
theorem txrotate_clears : onePacket.RingState ∧ onePacket.entries = [(0x1000#32, 0xe0000064#32, some 7, ())] ∧
    ¬∃ di', onePacket.dma32Txrotate 0 = some di' ∧ Preserved onePacket di' := by
  have hafter : (onePacket.dma32Txrotate 0).map entries = some [(0xdeadbeef#32, 0xe0000064#32, none, ())] := by decide
  have hbefore : onePacket.entries = [(0x1000#32, 0xe0000064#32, some 7, ())] := by decide
  refine ⟨ringState_onePacket, hbefore, ?_⟩
  rintro ⟨di', hdi', h⟩
  rw [hdi', Option.map_some, h.entries, hbefore] at hafter
  exact absurd hafter (by decide)

end TxDma

end Dma
end Router
