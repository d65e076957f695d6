/-
# The transmit descriptors

`dma32_txfast` with what it writes for the hardware: a descriptor for each buffer that is not empty, with the flags
for the start and the end of the frame and for the end of the table. Without the descriptors it is the call on the ring
(`txfast_toTxRing`).

The flag for the start is given with the chain's own buffer and the one for the end with its last; when the last is
empty the end is put on afterwards (`frame_patch`), but when the first is empty nothing puts the start on
(`txfast_wellFormed_iff`). A chain that does not fit is given up with descriptors already written, all of them in front
of `txin` (`txfast_rejected`).
-/
import RouterFirmware.Lib.Bits
import RouterFirmware.Dma.Tx

namespace Router
namespace Dma

open Ring Bits

variable {Pkt Dmah : Type*}

/-! ### Control words -/

/-- `CTRL_BC_MASK`, `CTRL_AE` and the flags of a control word. -/
def ctrlBcMask : BitVec 32 := 0x1fff#32
def ctrlAe : BitVec 32 := 0x30000#32
def ctrlAeShift : ℕ := 16
def ctrlEot : BitVec 32 := 0x10000000#32
def ctrlIoc : BitVec 32 := 0x20000000#32
def ctrlEof : BitVec 32 := 0x40000000#32
def ctrlSof : BitVec 32 := 0x80000000#32

/-- `PCI32ADDR_HIGH` and its shift, and `SB_PCI_DMA`. -/
def pci32addrHigh : BitVec 32 := 0xc0000000#32
def pci32addrHighShift : ℕ := 30
def sbPciDma : BitVec 32 := 0x40000000#32

/-- `dma32dd_t`, as the processor reads it. -/
structure Dma32dd where
  ctrl : BitVec 32
  addr : BitVec 32
deriving DecidableEq

/-- The descriptor `dma32_dd_upd` writes, where SB addresses are at `dataoffsetlow`; `*flags` is left as its control
word. -/
def dma32DdUpd (dataoffsetlow pa flags bufcount : BitVec 32) : Dma32dd :=
  let flags := flags ||| (bufcount &&& ctrlBcMask)
  if dataoffsetlow ≠ sbPciDma ∨ pa &&& pci32addrHigh = 0#32 then ⟨flags, pa + dataoffsetlow⟩
  else
    -- address extension
    let ae := (pa &&& pci32addrHigh) >>> pci32addrHighShift
    ⟨flags ||| ae <<< ctrlAeShift, (pa &&& ~~~pci32addrHigh) + dataoffsetlow⟩

/-- The byte count of a descriptor, and the address of its buffer: the extension bits on top of what `dma32_getnexttxp`
unmaps. -/
def Dma32dd.count (dd : Dma32dd) : BitVec 32 := dd.ctrl &&& ctrlBcMask
def Dma32dd.busAddr (dataoffsetlow : BitVec 32) (dd : Dma32dd) : BitVec 32 :=
  (dd.addr - dataoffsetlow) ||| ((dd.ctrl &&& ctrlAe) >>> ctrlAeShift) <<< pci32addrHighShift

/-- `dma32_dd_upd` adds the count and the extension to the flags. -/
theorem ddUpd_ctrl (off pa flags len : BitVec 32) : ∃ ae : BitVec 2,
    (dma32DdUpd off pa flags len).ctrl = flags ||| (len &&& ctrlBcMask ||| (ae.setWidth 32) <<< ctrlAeShift) ∧
      (dma32DdUpd off pa flags len).addr - off ||| (ae.setWidth 32) <<< pci32addrHighShift = pa := by
  unfold dma32DdUpd
  dsimp only
  split_ifs with h
  · refine ⟨0#2, by simp, ?_⟩
    simp [BitVec.add_sub_cancel]
  · have hae : ((pa.extractLsb' 30 2).setWidth 32) = (pa &&& pci32addrHigh) >>> pci32addrHighShift := by
      apply BitVec.eq_of_getLsbD_eq
      intro i hi
      simp only [pci32addrHigh, pci32addrHighShift, BitVec.getLsbD_setWidth, BitVec.getLsbD_extractLsb',
        BitVec.getLsbD_ushiftRight, BitVec.getLsbD_and]
      interval_cases i <;> simp
    refine ⟨pa.extractLsb' 30 2, ?_, ?_⟩
    · rw [hae, BitVec.or_assoc]
    · rw [hae, BitVec.add_sub_cancel]
      apply BitVec.eq_of_getLsbD_eq
      intro i hi
      simp only [pci32addrHigh, pci32addrHighShift, BitVec.getLsbD_shiftLeft, BitVec.getLsbD_or, BitVec.getLsbD_not,
        BitVec.getLsbD_ushiftRight, BitVec.getLsbD_and]
      interval_cases i <;> simp

/-- The flags of a descriptor: the start of the frame, its end, the end of the table. -/
def txFlags (sof eof eot : Bool) : BitVec 32 :=
  bitIf sof ctrlSof ||| bitIf eof (ctrlIoc ||| ctrlEof) ||| bitIf eot ctrlEot

/-- Neither the count nor the extension touches a flag. -/
theorem hasBit_ddUpd (off pa flags len : BitVec 32) {g : BitVec 32}
    (hg : g ∈ [ctrlSof, ctrlEof, ctrlIoc, ctrlEot]) :
    hasBit (dma32DdUpd off pa flags len).ctrl g = hasBit flags g := by
  obtain ⟨ae, hctrl, -⟩ := ddUpd_ctrl off pa flags len
  obtain ⟨hcount, hae⟩ : ctrlBcMask &&& g = 0#32 ∧
      ∀ ae : BitVec 2, (ae.setWidth 32) <<< ctrlAeShift &&& g = 0#32 := by
    simp only [List.mem_cons, List.not_mem_nil, or_false] at hg
    rcases hg with rfl | rfl | rfl | rfl <;> exact ⟨by decide, by decide⟩
  rw [hctrl, hasBit_or, hasBit_or]
  unfold hasBit
  rw [BitVec.and_assoc, hcount, hae ae, BitVec.and_zero]
  simp

theorem count_ddUpd (off pa len : BitVec 32) (sof eof eot : Bool) :
    (dma32DdUpd off pa (txFlags sof eof eot) len).count = len &&& ctrlBcMask := by
  obtain ⟨ae, hctrl, -⟩ := ddUpd_ctrl off pa (txFlags sof eof eot) len
  have hflags : ∀ sof eof eot, txFlags sof eof eot &&& ctrlBcMask = 0#32 := by decide
  have hae : ∀ ae : BitVec 2, (ae.setWidth 32) <<< ctrlAeShift &&& ctrlBcMask = 0#32 := by decide
  rw [Dma32dd.count, hctrl, BitVec.and_or_distrib_right, BitVec.and_or_distrib_right, hflags, hae,
    BitVec.and_assoc, BitVec.and_self, BitVec.zero_or, BitVec.or_zero]

theorem busAddr_ddUpd (off pa len : BitVec 32) (sof eof eot : Bool) :
    (dma32DdUpd off pa (txFlags sof eof eot) len).busAddr off = pa := by
  obtain ⟨ae, hctrl, haddr⟩ := ddUpd_ctrl off pa (txFlags sof eof eot) len
  have hflags : ∀ sof eof eot, txFlags sof eof eot &&& ctrlAe = 0#32 := by decide
  have hcount : ctrlBcMask &&& ctrlAe = 0#32 := by decide
  have hae : ∀ ae : BitVec 2,
      ((ae.setWidth 32) <<< ctrlAeShift &&& ctrlAe) >>> ctrlAeShift = ae.setWidth 32 := by decide
  rw [Dma32dd.busAddr, hctrl, BitVec.and_or_distrib_right, BitVec.and_or_distrib_right, hflags,
    BitVec.and_assoc, hcount, BitVec.and_zero, BitVec.zero_or, BitVec.zero_or, hae, haddr]

/-- Flags put on top of those a descriptor has. -/
theorem ddUpd_or (off pa flags len g : BitVec 32) :
    { dma32DdUpd off pa flags len with ctrl := (dma32DdUpd off pa flags len).ctrl ||| g } =
      dma32DdUpd off pa (flags ||| g) len := by
  unfold dma32DdUpd
  dsimp only
  split_ifs
  · rw [BitVec.or_assoc, BitVec.or_comm (len &&& ctrlBcMask) g, ← BitVec.or_assoc]
  · rw [BitVec.or_assoc, BitVec.or_assoc, ← BitVec.or_assoc (len &&& ctrlBcMask), BitVec.or_comm _ g,
      ← BitVec.or_assoc, BitVec.or_assoc (flags ||| g)]

theorem txFlags_bits : ∀ sof eof eot,
    hasBit (txFlags sof eof eot) ctrlSof = sof ∧ hasBit (txFlags sof eof eot) ctrlEof = eof ∧
      hasBit (txFlags sof eof eot) ctrlIoc = eof ∧ hasBit (txFlags sof eof eot) ctrlEot = eot := by decide

theorem txFlags_or : ∀ sof eot, txFlags sof false eot ||| (ctrlIoc ||| ctrlEof) = txFlags sof true eot := by decide

/-! ### The call -/

/-- A packet buffer: its length, the address `DMA_MAP` gives it on the bus, and the handle it stores, if it does. -/
structure Buf (Dmah : Type*) where
  len : BitVec 32
  pa : BitVec 32
  dmah : Option Dmah

/-- The chain of a packet: its own buffer and those behind it (`PKTNEXT`). -/
structure PktChain (Pkt Dmah : Type*) where
  p0 : Pkt
  first : Buf Dmah
  rest : List (Buf Dmah)

def PktChain.bufs (c : PktChain Pkt Dmah) : List (Buf Dmah) := c.first :: c.rest

/-- The descriptors, and the DMA handles parallel to them. -/
structure TxTable (Dmah : Type*) where
  txd32 : ℕ → Dma32dd
  txpDmah : ℕ → Dmah

/-- The transmit part of `dma_info_t` with the descriptors, and the `ptr` register. -/
structure TxDma (Pkt Dmah : Type*) extends TxRing Pkt, TxTable Dmah where
  dataoffsetlow : BitVec 32
  ptr : UInt32

theorem TxDma.ring_pow2 (di : TxDma Pkt Dmah) : ∃ k, di.ntxd.toNat = 2 ^ k := di.pow2

/-- A buffer is mapped and described at `txout`. -/
def TxTable.put (t : TxTable Dmah) (txout : UInt32) (b : Buf Dmah) (dd : Dma32dd) : TxTable Dmah where
  txd32 := Function.update t.txd32 txout.toNat dd
  txpDmah := Function.update t.txpDmah txout.toNat (b.dmah.getD (t.txpDmah txout.toNat))

namespace TxDma

/-- The loop of `dma32_txfast`, at `p0` itself or behind it: what it has written, and `txout` and the flags behind the
last buffer, or none when the ring is out of descriptors. -/
def txfastLoop (di : TxDma Pkt Dmah) :
    Bool → List (Buf Dmah) → UInt32 → BitVec 32 → TxTable Dmah → TxTable Dmah × Option (UInt32 × BitVec 32)
  | _, [], txout, flags, t => (t, some (txout, flags))
  | isP0, b :: next, txout, flags, t =>
    if di.nexttxd txout = di.txin then (t, none)
    else if b.len = 0#32 then txfastLoop di false next txout flags t
    else
      let flags := txFlags isP0 next.isEmpty (txout = di.ntxd - 1)
      let dd := dma32DdUpd di.dataoffsetlow b.pa flags b.len
      txfastLoop di false next (di.nexttxd txout) dd.ctrl (t.put txout b dd)

/-- What a call leaves: the state, what it returns, and the packets it frees. -/
structure TxResult (Pkt Dmah : Type*) where
  di : TxDma Pkt Dmah
  ret : ℤ
  freed : List Pkt

/-- `dma32_txfast(di, p0, commit)`. -/
def dma32Txfast (di : TxDma Pkt Dmah) (chain : Option (PktChain Pkt Dmah)) (commit : Bool) : TxResult Pkt Dmah :=
  let bufs := match chain with
    | none => []
    | some c => c.bufs
  match di.txfastLoop true bufs di.txout 0#32 di.toTxTable with
  | (t, none) =>
    ⟨{ di with toTxTable := t, txavail := 0, txnobuf := di.txnobuf + 1 }, -1, (chain.map PktChain.p0).toList⟩
  | (t, some (txout, flags)) =>
    let last := (di.prevtxd txout).toNat
    -- if last txd eof not set, fix it
    let txd32 :=
      if hasBit flags ctrlEof then t.txd32
      else Function.update t.txd32 last { t.txd32 last with ctrl := flags ||| ctrlIoc ||| ctrlEof }
    let di := { di with
      txd32 := txd32
      txpDmah := t.txpDmah
      txp := Function.update di.txp last (chain.map PktChain.p0)
      txout := txout
      ptr := if commit then txout * 8 else di.ptr }
    ⟨{ di with txavail := di.avail }, 0, []⟩

/-! ### Without the descriptors -/

/-- The chain as the ring sees it. -/
def PktChain.toBufChain (c : PktChain Pkt Dmah) : BufChain Pkt :=
  ⟨c.p0, c.first.len.toNat, c.rest.map (·.len.toNat)⟩

theorem toNat_len_eq_zero (b : Buf Dmah) : b.len.toNat = 0 ↔ b.len = 0#32 := by
  rw [← BitVec.toNat_inj]
  rfl

/-- The loop on the ring is the one that fills descriptors. -/
theorem txfastLoop_ring (di : TxDma Pkt Dmah) : ∀ (isP0 : Bool) (bufs : List (Buf Dmah)) (txout : UInt32)
    (flags : BitVec 32) (t : TxTable Dmah), Dma.txfastLoop di.toTxRing (bufs.map (·.len.toNat)) txout =
      (di.txfastLoop isP0 bufs txout flags t).2.map Prod.fst
  | _, [], _, _, _ => rfl
  | isP0, b :: next, txout, flags, t => by
    rw [List.map_cons, Dma.txfastLoop, txfastLoop]
    by_cases hfull : di.nexttxd txout = di.txin
    · rw [if_pos hfull, if_pos hfull]
      rfl
    · rw [if_neg hfull, if_neg hfull]
      by_cases hlen : b.len = 0#32
      · rw [if_pos ((toNat_len_eq_zero b).mpr hlen), if_pos hlen]
        exact txfastLoop_ring di _ next _ _ _
      · rw [if_neg (mt (toNat_len_eq_zero b).mp hlen), if_neg hlen]
        exact txfastLoop_ring di _ next _ _ _

/-- **Without its descriptors the call is the one on the ring.** -/
theorem txfast_toTxRing (di : TxDma Pkt Dmah) (chain : Option (PktChain Pkt Dmah)) (commit : Bool) :
    ((di.dma32Txfast chain commit).di.toTxRing, (di.dma32Txfast chain commit).ret) =
      Dma.dma32Txfast di.toTxRing (chain.map PktChain.toBufChain) := by
  have hloop : Dma.txfastLoop di.toTxRing (chainLens (chain.map PktChain.toBufChain)) di.txout =
      (di.txfastLoop true (match chain with
        | none => []
        | some c => c.bufs) di.txout 0#32 di.toTxTable).2.map Prod.fst := by
    rw [← txfastLoop_ring]
    cases chain with
    | none => rfl
    | some c => rfl
  have hp0 : (chain.map PktChain.toBufChain).map BufChain.p0 = chain.map PktChain.p0 := by
    cases chain with
    | none => rfl
    | some c => rfl
  unfold dma32Txfast Dma.dma32Txfast
  dsimp only
  rw [hloop, hp0]
  generalize di.txfastLoop true _ di.txout 0#32 di.toTxTable = r
  obtain ⟨t, _ | ⟨txout, flags⟩⟩ := r
  · rfl
  · rfl

/-- The size of the ring and where it starts are left alone. -/
theorem txfast_size (di : TxDma Pkt Dmah) (chain : Option (PktChain Pkt Dmah)) (commit : Bool) :
    (di.dma32Txfast chain commit).di.ntxd = di.ntxd ∧ (di.dma32Txfast chain commit).di.txin = di.txin := by
  unfold dma32Txfast
  dsimp only
  generalize di.txfastLoop true _ di.txout 0#32 di.toTxTable = r
  obtain ⟨t, _ | ⟨txout, flags⟩⟩ := r <;> exact ⟨rfl, rfl⟩

end TxDma

/-! ### Where the loop writes -/

/-- Different steps from `txin` are different descriptors. -/
theorem TxRing.slot_ne {di : TxRing Pkt} {d m : ℕ} (ha : di.txin.toNat < di.ntxd.toNat) (hd : d < m)
    (hm : m < di.ntxd.toNat) :
    (di.txin.toNat + d) % di.ntxd.toNat ≠ (di.txin.toNat + m) % di.ntxd.toNat := by
  intro heq
  have h := dist_add ha hm
  rw [← heq, dist_add ha (by omega)] at h
  omega

/-- The descriptors up to `txout` are left alone. -/
theorem TxDma.txfastLoop_frame {di : TxDma Pkt Dmah} (ha : di.txin.toNat < di.ntxd.toNat) {d : ℕ} :
    ∀ {isP0 : Bool} {bufs : List (Buf Dmah)} {txout : UInt32} {flags : BitVec 32} {t : TxTable Dmah} {m : ℕ},
    txout.toNat % di.ntxd.toNat = (di.txin.toNat + m) % di.ntxd.toNat → m < di.ntxd.toNat → d < m →
    (di.txfastLoop isP0 bufs txout flags t).1.txd32 ((di.txin.toNat + d) % di.ntxd.toNat) =
        t.txd32 ((di.txin.toNat + d) % di.ntxd.toNat) ∧
      (di.txfastLoop isP0 bufs txout flags t).1.txpDmah ((di.txin.toNat + d) % di.ntxd.toNat) =
        t.txpDmah ((di.txin.toNat + d) % di.ntxd.toNat)
  | _, [], _, _, _, _, _, _, _ => ⟨rfl, rfl⟩
  | isP0, b :: next, txout, flags, t, m, ht, hm, hd => by
    unfold txfastLoop
    split_ifs with hfull hlen
    · exact ⟨rfl, rfl⟩
    · exact txfastLoop_frame ha ht hm hd
    · obtain ⟨hnext, hm'⟩ := TxRing.next_free ha ht hm hfull
      have hne : (di.txin.toNat + d) % di.ntxd.toNat ≠ txout.toNat := by
        intro heq
        apply TxRing.slot_ne ha hd hm
        rw [← ht, ← heq, Nat.mod_mod]
      dsimp only
      generalize dma32DdUpd di.dataoffsetlow b.pa _ b.len = dd
      obtain ⟨htxd, hdmah⟩ := @txfastLoop_frame di ha d false next (di.nexttxd txout) dd.ctrl (t.put txout b dd)
        (m + 1) (by rw [hnext, Nat.mod_mod]) hm' (Nat.lt_succ_of_lt hd)
      rw [htxd, hdmah]
      exact ⟨Function.update_of_ne hne _ _, Function.update_of_ne hne _ _⟩

/-- Out of descriptors. -/
theorem TxDma.txfastLoop_none {di : TxDma Pkt Dmah} :
    ∀ {isP0 : Bool} {bufs : List (Buf Dmah)} {txout : UInt32} {flags : BitVec 32} {t : TxTable Dmah},
    (di.txfastLoop isP0 bufs txout flags t).2 = none → ∃ i, di.nexttxd i = di.txin
  | _, [], _, _, _, h => by cases h
  | isP0, b :: next, txout, flags, t, h => by
    unfold txfastLoop at h
    split_ifs at h with hfull hlen
    · exact ⟨txout, hfull⟩
    · exact txfastLoop_none h
    · exact txfastLoop_none h

/-- `txout` is as many steps from `txin` as there are active descriptors. -/
theorem TxRing.txout_active {di : TxRing Pkt} (ha : di.txin.toNat < di.ntxd.toNat) :
    di.txout.toNat % di.ntxd.toNat = (di.txin.toNat + di.active) % di.ntxd.toNat ∧ di.active < di.ntxd.toNat := by
  obtain ⟨k, hk⟩ := di.pow2
  have hactive : di.active = Ring.dist di.ntxd.toNat di.txin.toNat di.txout.toNat := toNat_mask_sub hk ha
  rw [hactive]
  refine ⟨?_, Nat.mod_lt _ (by omega)⟩
  rw [Ring.dist, Nat.add_mod_mod, Nat.add_sub_cancel' (by omega), Nat.add_mod_right]

/-- **A rejected transmit has no effect**: `txin`, `txout`, the packets and the active descriptors with their handles
are what they were, and the chain is freed, once. -/
theorem txfast_rejected (di : TxDma Pkt Dmah) (chain : Option (PktChain Pkt Dmah)) (commit : Bool)
    (h : (di.dma32Txfast chain commit).ret = -1) :
    (di.dma32Txfast chain commit).di.txin = di.txin ∧ (di.dma32Txfast chain commit).di.txout = di.txout ∧
      (di.dma32Txfast chain commit).di.txp = di.txp ∧
      (∀ d < di.active,
        (di.dma32Txfast chain commit).di.txd32 ((di.txin.toNat + d) % di.ntxd.toNat) =
            di.txd32 ((di.txin.toNat + d) % di.ntxd.toNat) ∧
          (di.dma32Txfast chain commit).di.txpDmah ((di.txin.toNat + d) % di.ntxd.toNat) =
            di.txpDmah ((di.txin.toNat + d) % di.ntxd.toNat)) ∧
      ∃ c, chain = some c ∧ (di.dma32Txfast chain commit).freed = [c.p0] := by
  cases chain with
  | none =>
    have hret : (0 : ℤ) = -1 := h
    exact absurd hret (by decide)
  | some c =>
    unfold TxDma.dma32Txfast at h ⊢
    dsimp only at h ⊢
    cases hloop : (di.txfastLoop true c.bufs di.txout 0#32 di.toTxTable).2 with
    | some r =>
      rw [show di.txfastLoop true c.bufs di.txout 0#32 di.toTxTable = (_, some r) from Prod.ext rfl hloop] at h
      have hret : (0 : ℤ) = -1 := h
      exact absurd hret (by decide)
    | none =>
      -- the ring is full at `txin`, which is a descriptor then
      obtain ⟨i, hi⟩ := TxDma.txfastLoop_none hloop
      have ha : di.txin.toNat < di.ntxd.toNat := by
        obtain ⟨k, hk⟩ := di.pow2
        rw [← hi, TxRing.nexttxd, xxd, toNat_mask hk]
        exact Nat.mod_lt _ (hk ▸ Nat.two_pow_pos k)
      obtain ⟨hout, hactive⟩ := TxRing.txout_active ha
      rw [show di.txfastLoop true c.bufs di.txout 0#32 di.toTxTable =
        ((di.txfastLoop true c.bufs di.txout 0#32 di.toTxTable).1, none) from Prod.ext rfl hloop]
      exact ⟨rfl, rfl, rfl, fun d hd => TxDma.txfastLoop_frame ha hout hactive hd, c, rfl, rfl⟩

/-- A ring of `2 ^ k` descriptors with nothing in it. -/
def idleDma (k : ℕ) (hk : (UInt32.ofNat (2 ^ k)).toNat = 2 ^ k) : TxDma ℕ Unit where
  toTxRing := dma32Txinit (UInt32.ofNat (2 ^ k)) ⟨k, hk⟩ 0
  toTxTable := ⟨fun _ => ⟨0#32, 0#32⟩, fun _ => ()⟩
  dataoffsetlow := 0#32
  ptr := 0

/-- A chain of four buffers does not fit a ring of four. -/
theorem txfast_rejected_four :
    let c : PktChain ℕ Unit := ⟨7, ⟨100#32, 0#32, none⟩, List.replicate 3 ⟨100#32, 0x1000#32, none⟩⟩
    let r := (idleDma 2 rfl).dma32Txfast (some c) true
    r.ret = -1 ∧ r.di.txout = (idleDma 2 rfl).txout ∧ r.freed = [7] := by
  intro c r
  have hret : r.ret = -1 := by decide
  obtain ⟨-, hout, -, -, c', hc, hfreed⟩ := txfast_rejected (idleDma 2 rfl) (some c) true hret
  cases hc
  exact ⟨hret, hout, hfreed⟩

/-! ### What a frame looks like -/

/-- The buffers that get a descriptor. -/
def nonempty (bufs : List (Buf Dmah)) : List (Buf Dmah) := bufs.filter (·.len ≠ 0#32)

/-- The last buffer of the chain gets one. -/
def lastFilled (bufs : List (Buf Dmah)) : Bool := bufs.getLast?.any (·.len ≠ 0#32)

/-- The buffer behind which only empty ones are is the last with a descriptor, and it is the last of the chain or not. -/
theorem isEmpty_eq {b : Buf Dmah} (hb : b.len ≠ 0#32) (next : List (Buf Dmah)) :
    next.isEmpty = ((nonempty next).isEmpty && lastFilled (b :: next)) := by
  cases next with
  | nil => simp [nonempty, lastFilled, hb]
  | cons c next =>
    symm
    rw [List.isEmpty_cons, Bool.and_eq_false_iff]
    by_cases hnil : nonempty (c :: next) = []
    · right
      have hempty := List.filter_eq_nil_iff.mp hnil
      rw [lastFilled, List.getLast?_cons_cons, List.getLast?_eq_some_getLast (List.cons_ne_nil c next),
        Option.any_some]
      exact Bool.eq_false_iff.mpr (hempty _ (List.getLast_mem _))
    · left
      simpa using hnil

namespace TxDma

/-- The `m`-th descriptor from `txin`. -/
def slot (di : TxDma Pkt Dmah) (m : ℕ) : ℕ := (di.txin.toNat + m) % di.ntxd.toNat

/-- The descriptor of a buffer, in the slot `i`. -/
def ddAt (di : TxDma Pkt Dmah) (b : Buf Dmah) (sof eof : Bool) (i : ℕ) : Dma32dd :=
  dma32DdUpd di.dataoffsetlow b.pa (txFlags sof eof (i = di.ntxd.toNat - 1)) b.len

theorem toNat_ntxd_sub (di : TxDma Pkt Dmah) : (di.ntxd - 1).toNat = di.ntxd.toNat - 1 := by
  obtain ⟨k, hk⟩ := di.pow2
  have hpos : 0 < di.ntxd.toNat := hk ▸ Nat.two_pow_pos k
  exact UInt32.toNat_sub_of_le _ _ (UInt32.le_iff_toNat_le.mpr hpos)

/-- The descriptors the loop writes, and the flags it ends with: those of the last one. -/
structure Filled (di : TxDma Pkt Dmah) (isP0 : Bool) (bufs : List (Buf Dmah)) (m : ℕ) (flags : BitVec 32)
    (t' : TxTable Dmah) (txout' : UInt32) (flags' : BitVec 32) : Prop where
  txout : txout'.toNat = di.slot (m + (nonempty bufs).length)
  room : m + (nonempty bufs).length < di.ntxd.toNat
  dd : ∀ k b, (nonempty bufs)[k]? = some b → t'.txd32 (di.slot (m + k)) =
    di.ddAt b (isP0 && bufs.head?.any (·.len ≠ 0#32) && k = 0)
      (k + 1 = (nonempty bufs).length && lastFilled bufs) (di.slot (m + k))
  flags : flags' = if nonempty bufs = [] then flags
    else (t'.txd32 (di.slot (m + ((nonempty bufs).length - 1)))).ctrl

theorem txfastLoop_filled {di : TxDma Pkt Dmah} (ha : di.txin.toNat < di.ntxd.toNat) :
    ∀ {isP0 : Bool} {bufs : List (Buf Dmah)} {txout : UInt32} {flags : BitVec 32} {t t' : TxTable Dmah} {m : ℕ}
      {txout' : UInt32} {flags' : BitVec 32}, txout.toNat = di.slot m → m < di.ntxd.toNat →
    di.txfastLoop isP0 bufs txout flags t = (t', some (txout', flags')) →
    di.Filled isP0 bufs m flags t' txout' flags'
  | _, [], _, _, _, _, _, _, _, ht, hm, h => by
    cases h
    exact ⟨ht, hm, fun k b hk => by simp [nonempty] at hk, rfl⟩
  | isP0, b :: next, txout, flags, t, t', m, txout', flags', ht, hm, h => by
    unfold txfastLoop at h
    split_ifs at h with hfull hlen
    · cases h
    · have hne : nonempty (b :: next) = nonempty next := by simp [nonempty, hlen]
      have hrec := txfastLoop_filled ha ht hm h
      refine ⟨by rw [hne]; exact hrec.txout, by rw [hne]; exact hrec.room, fun k c hk => ?_, by rw [hne]; exact hrec.flags⟩
      rw [hne] at hk ⊢
      rw [hrec.dd k c hk]
      cases next with
      | nil => simp [nonempty] at hk
      | cons c next => simp [hlen, lastFilled]
    · have hne : nonempty (b :: next) = b :: nonempty next := by simp [nonempty, hlen]
      have hmod : txout.toNat % di.ntxd.toNat = (di.txin.toNat + m) % di.ntxd.toNat := by
        rw [ht, slot, Nat.mod_mod]
      obtain ⟨hnext, hm'⟩ := TxRing.next_free ha hmod hm hfull
      have heot : decide (txout = di.ntxd - 1) = decide (di.slot m = di.ntxd.toNat - 1) := by
        rw [decide_eq_decide, ← UInt32.toNat_inj, toNat_ntxd_sub, ht]
      have hdd : dma32DdUpd di.dataoffsetlow b.pa (txFlags isP0 next.isEmpty (txout = di.ntxd - 1)) b.len =
          di.ddAt b isP0 ((nonempty next).isEmpty && lastFilled (b :: next)) (di.slot m) := by
        rw [ddAt, heot, isEmpty_eq hlen]
      dsimp only at h
      rw [hdd] at h
      have hrec := txfastLoop_filled ha hnext hm' h
      -- what is written at `txout` stays
      have hfirst : t'.txd32 (di.slot m) =
          di.ddAt b isP0 ((nonempty next).isEmpty && lastFilled (b :: next)) (di.slot m) := by
        have hframe := (@txfastLoop_frame _ _ di ha m false next (di.nexttxd txout)
          (di.ddAt b isP0 ((nonempty next).isEmpty && lastFilled (b :: next)) (di.slot m)).ctrl
          (t.put txout b (di.ddAt b isP0 ((nonempty next).isEmpty && lastFilled (b :: next)) (di.slot m)))
          (m + 1) (by rw [hnext, Nat.mod_mod]) hm' (Nat.lt_succ_self m)).1
        rw [h, ← slot] at hframe
        rw [hframe, ← ht]
        exact Function.update_self _ _ _
      refine ⟨?_, ?_, fun k c hk => ?_, ?_⟩
      · rw [hrec.txout, hne, List.length_cons, Nat.add_assoc, Nat.add_comm 1]
      · have := hrec.room
        rw [hne, List.length_cons]
        omega
      · rw [hne] at hk ⊢
        cases k with
        | zero =>
          cases hk
          have hone : (nonempty next).isEmpty = decide (0 + 1 = (b :: nonempty next).length) := by
            cases nonempty next <;> simp
          rw [Nat.add_zero, hfirst, ← hone]
          simp [hlen]
        | succ k =>
          have hk' : (nonempty next)[k]? = some c := hk
          rw [show m + (k + 1) = m + 1 + k by omega, hrec.dd k c hk']
          cases next with
          | nil => simp [nonempty] at hk'
          | cons d next => simp [lastFilled]
      · rw [hne, if_neg (List.cons_ne_nil _ _), hrec.flags]
        split_ifs with hnil
        · rw [hnil, List.length_singleton, Nat.sub_self, Nat.add_zero, hfirst, hnil]
        · have hlength := List.length_pos_of_ne_nil hnil
          rw [List.length_cons, show m + 1 + ((nonempty next).length - 1) =
            m + ((nonempty next).length + 1 - 1) by omega]

theorem ddAt_bits (di : TxDma Pkt Dmah) (b : Buf Dmah) (sof eof : Bool) (i : ℕ) :
    hasBit (di.ddAt b sof eof i).ctrl ctrlSof = sof ∧ hasBit (di.ddAt b sof eof i).ctrl ctrlEof = eof ∧
      hasBit (di.ddAt b sof eof i).ctrl ctrlIoc = eof ∧
      hasBit (di.ddAt b sof eof i).ctrl ctrlEot = decide (i = di.ntxd.toNat - 1) := by
  unfold ddAt
  rw [hasBit_ddUpd _ _ _ _ (by simp), hasBit_ddUpd _ _ _ _ (by simp), hasBit_ddUpd _ _ _ _ (by simp),
    hasBit_ddUpd _ _ _ _ (by simp)]
  exact txFlags_bits _ _ _

/-- The end flags, put on afterwards. -/
theorem ddAt_patch (di : TxDma Pkt Dmah) (b : Buf Dmah) (sof : Bool) (i : ℕ) :
    { di.ddAt b sof false i with ctrl := (di.ddAt b sof false i).ctrl ||| ctrlIoc ||| ctrlEof } =
      di.ddAt b sof true i := by
  unfold ddAt
  rw [BitVec.or_assoc, ddUpd_or, txFlags_or]

/-- **What an accepted chain leaves**: a descriptor for each buffer that is not empty; the last has the end flags, the
first the start flag if the chain's own buffer is not empty; the packet is kept with the last. The descriptors that were
active are left alone. -/
theorem txfast_frame {di : TxDma Pkt Dmah} {chain : PktChain Pkt Dmah} {commit : Bool}
    (ha : di.txin.toNat < di.ntxd.toNat) (hout : di.txout.toNat < di.ntxd.toNat)
    (hacc : (di.dma32Txfast (some chain) commit).ret = 0) (hne : nonempty chain.bufs ≠ []) :
    (di.dma32Txfast (some chain) commit).di.txout.toNat = di.slot (di.active + (nonempty chain.bufs).length) ∧
      di.active + (nonempty chain.bufs).length < di.ntxd.toNat ∧
      (∀ k b, (nonempty chain.bufs)[k]? = some b →
        (di.dma32Txfast (some chain) commit).di.txd32 (di.slot (di.active + k)) =
          di.ddAt b (chain.first.len ≠ 0#32 && k = 0) (k + 1 = (nonempty chain.bufs).length)
            (di.slot (di.active + k))) ∧
      (di.dma32Txfast (some chain) commit).di.txp (di.slot (di.active + ((nonempty chain.bufs).length - 1))) =
        some chain.p0 ∧
      ∀ d < di.active, (di.dma32Txfast (some chain) commit).di.txd32 (di.slot d) = di.txd32 (di.slot d) := by
  obtain ⟨hactive, hlt⟩ := TxRing.txout_active ha
  rw [Nat.mod_eq_of_lt hout] at hactive
  unfold dma32Txfast at hacc ⊢
  dsimp only at hacc ⊢
  rcases hloop : di.txfastLoop true chain.bufs di.txout 0#32 di.toTxTable with ⟨t, _ | ⟨txout, flags⟩⟩
  · rw [hloop] at hacc
    have hret : (-1 : ℤ) = 0 := hacc
    exact absurd hret (by decide)
  · have hfilled := txfastLoop_filled ha hactive hlt hloop
    have hroom := hfilled.room
    obtain ⟨len, hlen⟩ : ∃ len, (nonempty chain.bufs).length = len + 1 :=
      ⟨_, (Nat.sub_add_cancel (List.length_pos_of_ne_nil hne)).symm⟩
    rw [hlen] at hroom
    have hprev : (di.prevtxd txout).toNat = di.slot (di.active + len) := by
      have htxout := hfilled.txout
      rw [hlen, ← Nat.add_assoc] at htxout
      exact toNat_prevtxd_add (by omega) htxout
    have htxp : Function.update di.txp (di.prevtxd txout).toNat (some chain.p0)
        (di.slot (di.active + ((nonempty chain.bufs).length - 1))) = some chain.p0 := by
      rw [hlen, hprev]
      exact Function.update_self _ _ _
    have hkept : ∀ d < di.active, (if hasBit flags ctrlEof then t.txd32
        else Function.update t.txd32 (di.prevtxd txout).toNat
          { t.txd32 (di.prevtxd txout).toNat with ctrl := flags ||| ctrlIoc ||| ctrlEof }) (di.slot d) =
        di.txd32 (di.slot d) := by
      intro d hd
      have hmod : di.txout.toNat % di.ntxd.toNat = (di.txin.toNat + di.active) % di.ntxd.toNat := by
        rw [hactive, Nat.mod_mod]
      have hold := (@txfastLoop_frame _ _ di ha d true chain.bufs di.txout 0#32 di.toTxTable di.active hmod hlt hd).1
      rw [hloop, ← slot] at hold
      have hslot : di.slot d ≠ di.slot (di.active + len) := TxRing.slot_ne ha (by omega) (by omega)
      rw [hprev]
      split_ifs
      · exact hold
      · rw [Function.update_of_ne hslot]
        exact hold
    refine ⟨hfilled.txout, hfilled.room, fun k b hk => ?_, htxp, hkept⟩
    have hk' : k < len + 1 := hlen ▸ (List.getElem?_eq_some_iff.mp hk).1
    have hsof : (chain.bufs.head?.any fun b => decide (b.len ≠ 0#32)) = decide (chain.first.len ≠ 0#32) := rfl
    have hdd := hfilled.dd k b hk
    rw [Bool.true_and, hsof, hlen] at hdd
    have hflags := hfilled.flags
    rw [if_neg hne, hlen, Nat.add_sub_cancel] at hflags
    -- the end flags stand where the last buffer is not empty
    obtain ⟨c, hc⟩ : ∃ c, (nonempty chain.bufs)[len]? = some c :=
      ⟨_, List.getElem?_eq_getElem (by omega)⟩
    have hlast := hfilled.dd len c hc
    rw [Bool.true_and, hsof, hlen] at hlast
    have heof : hasBit flags ctrlEof = lastFilled chain.bufs := by
      rw [hflags, hlast, (ddAt_bits _ _ _ _ _).2.1, decide_eq_true rfl, Bool.true_and]
    rw [hlen]
    dsimp only
    rw [heof, hprev]
    by_cases hfull : lastFilled chain.bufs = true
    · rw [if_pos hfull, hdd, hfull, Bool.and_true]
    · rw [if_neg hfull]
      have hfalse : lastFilled chain.bufs = false := Bool.eq_false_iff.mpr hfull
      by_cases hkl : k = len
      · subst hkl
        obtain rfl : b = c := Option.some.inj (hk.symm.trans hc)
        rw [Function.update_self, hflags, hdd, hfalse, Bool.and_false, ddAt_patch, decide_eq_true rfl]
      · have hslot : di.slot (di.active + k) ≠ di.slot (di.active + len) :=
          TxRing.slot_ne ha (by omega) (by omega)
        have hnot : ¬k + 1 = len + 1 := by omega
        rw [Function.update_of_ne hslot, hdd, hfalse, Bool.and_false, decide_eq_false hnot]

/-- The descriptors from `txout` on, up to the `txout` of `di'`, with their indices. -/
def filled (di di' : TxDma Pkt Dmah) : List (ℕ × Dma32dd) :=
  (List.range (di.ntxdactive di.txout di'.txout).toNat).map fun d =>
    ((di.txout.toNat + d) % di.ntxd.toNat, di'.txd32 ((di.txout.toNat + d) % di.ntxd.toNat))

/-- What `txfast_frame` says, of the descriptors that were filled. -/
theorem filled_getElem? {di : TxDma Pkt Dmah} {chain : PktChain Pkt Dmah} {commit : Bool}
    (ha : di.txin.toNat < di.ntxd.toNat) (hout : di.txout.toNat < di.ntxd.toNat)
    (hacc : (di.dma32Txfast (some chain) commit).ret = 0) (hne : nonempty chain.bufs ≠ []) (k : ℕ) :
    (filled di (di.dma32Txfast (some chain) commit).di)[k]? = (nonempty chain.bufs)[k]?.map fun b =>
      (di.slot (di.active + k), di.ddAt b (chain.first.len ≠ 0#32 && k = 0) (k + 1 = (nonempty chain.bufs).length)
        (di.slot (di.active + k))) := by
  obtain ⟨hactive, -⟩ := TxRing.txout_active ha
  rw [Nat.mod_eq_of_lt hout] at hactive
  obtain ⟨htxout, hroom, hdd, -⟩ := txfast_frame ha hout hacc hne
  have hslot : ∀ d, (di.txout.toNat + d) % di.ntxd.toNat = di.slot (di.active + d) := fun d => by
    rw [hactive, Nat.mod_add_mod, Nat.add_assoc, slot]
  have hcount : (di.ntxdactive di.txout (di.dma32Txfast (some chain) commit).di.txout).toNat =
      (nonempty chain.bufs).length := by
    obtain ⟨j, hj⟩ := di.pow2
    rw [TxRing.ntxdactive, xxd, toNat_mask_sub hj hout, htxout, ← hslot, dist_add hout (by omega)]
  unfold filled
  rw [List.getElem?_map, hcount]
  cases hk : (nonempty chain.bufs)[k]? with
  | none =>
    rw [List.getElem?_eq_none (by rw [List.length_range]; exact List.getElem?_eq_none_iff.mp hk)]
    rfl
  | some b =>
    have hlt := (List.getElem?_eq_some_iff.mp hk).1
    rw [List.getElem?_range hlt, Option.map_some, hslot, hdd k b hk]
    rfl

end TxDma

/-! ### Well-formed frames -/

/-- The descriptors of a frame: of the buffers that are not empty, in order; the first has the start flag, the last the
end flag and the interrupt, and the one at the end of the table the flag for that. -/
structure WellFormed (dataoffsetlow : BitVec 32) (ntxd : UInt32) (bufs : List (Buf Dmah))
    (dds : List (ℕ × Dma32dd)) : Prop where
  buffers : dds.map (fun d => (d.2.busAddr dataoffsetlow, d.2.count)) = (nonempty bufs).map fun b => (b.pa, b.len)
  sof : ∀ k d, dds[k]? = some d → (hasBit d.2.ctrl ctrlSof = true ↔ k = 0)
  eof : ∀ k d, dds[k]? = some d → (hasBit d.2.ctrl ctrlEof = true ↔ k + 1 = dds.length)
  ioc : ∀ k d, dds[k]? = some d → (hasBit d.2.ctrl ctrlIoc = true ↔ k + 1 = dds.length)
  eot : ∀ d ∈ dds, (hasBit d.2.ctrl ctrlEot = true ↔ d.1 = ntxd.toNat - 1)

/-- The count of a descriptor has 13 bits. -/
theorem and_bcMask_eq_self (len : BitVec 32) : len &&& ctrlBcMask = len ↔ len ≤ ctrlBcMask := by
  have hmask : (len &&& ctrlBcMask).toNat = len.toNat % 2 ^ 13 := by
    rw [BitVec.toNat_and]
    exact Nat.and_two_pow_sub_one_eq_mod len.toNat 13
  rw [← BitVec.toNat_inj, hmask, BitVec.le_def]
  have hconst : ctrlBcMask.toNat = 8191 := rfl
  omega

/-- A frame whose descriptors are these is well formed if the start flag is there and every length fits its count. -/
theorem wellFormed_iff {di : TxDma Pkt Dmah} {bufs : List (Buf Dmah)} {dds : List (ℕ × Dma32dd)} {first : Bool}
    {m : ℕ} (hne : nonempty bufs ≠ [])
    (hdds : ∀ k, dds[k]? = (nonempty bufs)[k]?.map fun b =>
      (di.slot (m + k), di.ddAt b (first && k = 0) (k + 1 = (nonempty bufs).length) (di.slot (m + k)))) :
    WellFormed di.dataoffsetlow di.ntxd bufs dds ↔ first = true ∧ ∀ b ∈ nonempty bufs, b.len ≤ ctrlBcMask := by
  have hlength : dds.length = (nonempty bufs).length := by
    apply Nat.le_antisymm
    · apply List.getElem?_eq_none_iff.mp
      rw [hdds, List.getElem?_eq_none (le_refl _)]
      rfl
    · apply List.getElem?_eq_none_iff.mp
      have := hdds dds.length
      rw [List.getElem?_eq_none (le_refl _)] at this
      simpa using this.symm
  have hbuffers : dds.map (fun d => (d.2.busAddr di.dataoffsetlow, d.2.count)) =
      (nonempty bufs).map fun b => (b.pa, b.len &&& ctrlBcMask) := by
    refine List.ext_getElem? fun k => ?_
    rw [List.getElem?_map, List.getElem?_map, hdds, Option.map_map]
    congr 1
    funext b
    exact Prod.ext (busAddr_ddUpd _ _ _ _ _ _) (count_ddUpd _ _ _ _ _ _)
  have hbits : ∀ k d, dds[k]? = some d → ∃ b, (nonempty bufs)[k]? = some b ∧ d = (di.slot (m + k),
      di.ddAt b (first && k = 0) (k + 1 = (nonempty bufs).length) (di.slot (m + k))) := by
    intro k d hk
    rw [hdds] at hk
    obtain ⟨b, hb, rfl⟩ := Option.map_eq_some_iff.mp hk
    exact ⟨b, hb, rfl⟩
  constructor
  · intro h
    obtain ⟨b, l, hbl⟩ := List.exists_cons_of_ne_nil hne
    refine ⟨?_, fun b hb => ?_⟩
    · have h0 := hdds 0
      rw [hbl, List.getElem?_cons_zero, Option.map_some] at h0
      have hsof := (h.sof 0 _ h0).mpr rfl
      rw [(TxDma.ddAt_bits _ _ _ _ _).1] at hsof
      exact (Bool.and_eq_true_iff.mp hsof).1
    · have hall := h.buffers
      rw [hbuffers, List.map_inj_left] at hall
      exact (and_bcMask_eq_self _).mp (Prod.ext_iff.mp (hall b hb)).2
  · rintro ⟨hfirst, hlen⟩
    refine ⟨?_, fun k d hk => ?_, fun k d hk => ?_, fun k d hk => ?_, fun d hd => ?_⟩
    · rw [hbuffers]
      refine List.map_congr_left fun b hb => ?_
      rw [(and_bcMask_eq_self _).mpr (hlen b hb)]
    · obtain ⟨b, -, rfl⟩ := hbits k d hk
      rw [(TxDma.ddAt_bits _ _ _ _ _).1, hfirst, Bool.true_and, decide_eq_true_iff]
    · obtain ⟨b, -, rfl⟩ := hbits k d hk
      rw [(TxDma.ddAt_bits _ _ _ _ _).2.1, decide_eq_true_iff, hlength]
    · obtain ⟨b, -, rfl⟩ := hbits k d hk
      rw [(TxDma.ddAt_bits _ _ _ _ _).2.2.1, decide_eq_true_iff, hlength]
    · obtain ⟨k, hk⟩ := List.mem_iff_getElem?.mp hd
      obtain ⟨b, -, rfl⟩ := hbits k d hk
      rw [(TxDma.ddAt_bits _ _ _ _ _).2.2.2, decide_eq_true_iff]

/-- **When the descriptors of a frame are well formed**: the chain's own buffer is not empty, and no buffer is longer
than the count of a descriptor. -/
theorem txfast_wellFormed_iff (di : TxDma Pkt Dmah) (chain : PktChain Pkt Dmah) (commit : Bool)
    (ha : di.txin.toNat < di.ntxd.toNat) (hout : di.txout.toNat < di.ntxd.toNat)
    (hacc : (di.dma32Txfast (some chain) commit).ret = 0) (htotal : 0 < (chain.bufs.map (·.len.toNat)).sum) :
    WellFormed di.dataoffsetlow di.ntxd chain.bufs (di.filled (di.dma32Txfast (some chain) commit).di) ↔
      chain.first.len ≠ 0#32 ∧ ∀ b ∈ chain.bufs, b.len ≤ ctrlBcMask := by
  have hne : nonempty chain.bufs ≠ [] := by
    intro hnil
    have hempty := List.filter_eq_nil_iff.mp hnil
    have hzero : (chain.bufs.map (·.len.toNat)).sum = 0 := by
      rw [List.sum_eq_zero_iff]
      intro x hx
      obtain ⟨b, hb, rfl⟩ := List.mem_map.mp hx
      exact (TxDma.toNat_len_eq_zero b).mpr (by simpa using hempty b hb)
    omega
  rw [wellFormed_iff hne (TxDma.filled_getElem? ha hout hacc hne), decide_eq_true_iff]
  refine and_congr_right fun _ => ⟨fun h b hb => ?_, fun h b hb => h b (List.mem_of_mem_filter hb)⟩
  by_cases hlen : b.len = 0#32
  · rw [hlen]
    decide
  · exact h b (List.mem_filter.mpr ⟨hb, by simpa using hlen⟩)

/-- A packet whose own buffer is empty, with its data behind it: the one descriptor it takes has no start flag. -/
theorem txfast_no_start :
    let c : PktChain ℕ Unit := ⟨7, ⟨0#32, 0x1000#32, none⟩, [⟨100#32, 0x2000#32, none⟩]⟩
    let r := (idleDma 3 rfl).dma32Txfast (some c) true
    r.ret = 0 ∧ 0 < (c.bufs.map (·.len.toNat)).sum ∧ (idleDma 3 rfl).filled r.di = [(0, ⟨0x60000064#32, 0x2000#32⟩)] ∧
      ¬WellFormed 0#32 8 c.bufs ((idleDma 3 rfl).filled r.di) := by
  intro c r
  have hfilled : (idleDma 3 rfl).filled r.di = [(0, ⟨0x60000064#32, 0x2000#32⟩)] := by decide
  refine ⟨by decide, by decide, hfilled, fun h => ?_⟩
  rw [hfilled] at h
  exact absurd ((h.sof 0 _ rfl).mpr rfl) (by decide)

/-- A packet of one buffer. -/
theorem txfast_wellFormed_iff_one :
    let c : PktChain ℕ Unit := ⟨7, ⟨100#32, 0x1000#32, none⟩, []⟩
    WellFormed 0#32 8 c.bufs ((idleDma 3 rfl).filled ((idleDma 3 rfl).dma32Txfast (some c) true).di) := by
  intro c
  exact (txfast_wellFormed_iff (idleDma 3 rfl) c true (by decide) (by decide) (by decide) (by decide)).mpr
    ⟨by decide, by decide⟩

end Dma
end Router
