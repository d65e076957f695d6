/-
# The descriptor rings of hnddma

The index macros and the calls of the 32-bit engine on its two rings: the
transmit ring with `dma32_txfast`, `dma32_getnexttxp`, `dma32_txreclaim`,
`_dma_txblock` and `_dma_txunblock`, and the receive ring with `_dma_rxfill`,
`dma32_getnextrxp`, `_dma_rxreclaim` and `_dma_rx`. A ring is its indices and
the array of packet pointers parallel to the descriptors. What is written
into the descriptors themselves (addresses, control words, the `ptr`
register) is for the hardware and is left out; what the hardware answers,
its current descriptor, is an argument of the calls that read it.

Loops take fuel where they run along the ring; a ring of `n` descriptors
takes less than `n` steps around.
-/
import Mathlib.Data.List.Basic
import Mathlib.Tactic

namespace Router
namespace Dma

variable {Pkt : Type*}

/-- `XXD(x, n)`, for `n` a power of 2. -/
def xxd (x n : UInt32) : UInt32 := x &&& (n - 1)

/-! ### Transmit -/

/-- The transmit part of `dma_info_t`. -/
structure TxRing (Pkt : Type*) where
  ntxd : UInt32
  pow2 : ∃ k, ntxd.toNat = 2 ^ k
  txin : UInt32
  txout : UInt32
  txp : ℕ → Option Pkt
  txavail : UInt32
  txnobuf : UInt32

namespace TxRing

/-- `NEXTTXD`, `PREVTXD` and `NTXDACTIVE`. -/
def nexttxd (di : TxRing Pkt) (i : UInt32) : UInt32 := xxd (i + 1) di.ntxd
def prevtxd (di : TxRing Pkt) (i : UInt32) : UInt32 := xxd (i - 1) di.ntxd
def ntxdactive (di : TxRing Pkt) (h t : UInt32) : UInt32 := xxd (t - h) di.ntxd

/-- `di->ntxd - NTXDACTIVE(di->txin, di->txout) - 1`. -/
def avail (di : TxRing Pkt) : UInt32 := di.ntxd - di.ntxdactive di.txin di.txout - 1

end TxRing

/-- `dma32_txinit`, on a ring whose packet array is clear. -/
def dma32Txinit (ntxd : UInt32) (pow2 : ∃ k, ntxd.toNat = 2 ^ k) (txnobuf : UInt32) : TxRing Pkt :=
  ⟨ntxd, pow2, 0, 0, fun _ => none, ntxd - 1, txnobuf⟩

/-- A chain of packet buffers: the packet pointer, the length of its own
buffer and those of the buffers behind it (`PKTNEXT`). -/
structure BufChain (Pkt : Type*) where
  p0 : Pkt
  len0 : ℕ
  lens : List ℕ

/-- The loop of `dma32_txfast` over the buffers: `txout` behind the last
descriptor filled, or none when the ring is out of descriptors. -/
def txfastLoop (di : TxRing Pkt) : List ℕ → UInt32 → Option UInt32
  | [], txout => some txout
  | len :: lens, txout =>
    if di.nexttxd txout = di.txin then none
    else if len = 0 then txfastLoop di lens txout
    else txfastLoop di lens (di.nexttxd txout)

/-- The lengths the loop walks; there are none for a NULL packet. -/
def chainLens : Option (BufChain Pkt) → List ℕ
  | none => []
  | some c => c.len0 :: c.lens

/-- `dma32_txfast(di, p0, commit)`. -/
def dma32Txfast (di : TxRing Pkt) (chain : Option (BufChain Pkt)) : TxRing Pkt × ℤ :=
  match txfastLoop di (chainLens chain) di.txout with
  | none => ({ di with txavail := 0, txnobuf := di.txnobuf + 1 }, -1)
  | some txout =>
    -- save the packet, bump the index, then flow control
    let di := { di with
      txp := Function.update di.txp (di.prevtxd txout).toNat (chain.map BufChain.p0)
      txout := txout }
    ({ di with txavail := di.avail }, 0)

/-- The loop of `dma32_getnexttxp` from `i`: where it ends, the array, and the
packet found. -/
def nexttxpLoop (di : TxRing Pkt) (last : UInt32) :
    ℕ → UInt32 → (ℕ → Option Pkt) → Option (UInt32 × (ℕ → Option Pkt) × Option Pkt)
  | 0, _, _ => none
  | fuel + 1, i, txp =>
    if i = last then some (i, txp, none)
    else
      match txp i.toNat with
      | some p => some (di.nexttxd i, Function.update txp i.toNat none, some p)
      | none => nexttxpLoop di last fuel (di.nexttxd i) (Function.update txp i.toNat none)

/-- `dma32_getnexttxp(di, forceall)`, where the status register shows `curr`. -/
def dma32Getnexttxp (di : TxRing Pkt) (forceall : Bool) (curr : UInt32) :
    Option (TxRing Pkt × Option Pkt) :=
  if di.ntxd = 0 then some (di, none)
  else
    let last := if forceall then di.txout else curr
    if di.txin = 0 ∧ last > di.txout then some (di, none)
    else
      (nexttxpLoop di last di.ntxd.toNat di.txin di.txp).map fun (i, txp, p) =>
        let di := { di with txin := i, txp := txp }
        ({ di with txavail := di.avail }, p)

/-- The loop of `dma32_txreclaim`, and the packets it frees; `curr k` is what
the status register shows at the `k`-th read. -/
def txreclaimLoop (forceall : Bool) (curr : ℕ → TxRing Pkt → UInt32) :
    ℕ → ℕ → TxRing Pkt → Option (TxRing Pkt × List Pkt)
  | 0, _, _ => none
  | fuel + 1, k, di =>
    match dma32Getnexttxp di forceall (curr k di) with
    | none => none
    | some (di', none) => some (di', [])
    | some (di', some p) =>
      (txreclaimLoop forceall curr fuel (k + 1) di').map fun (di'', ps) => (di'', p :: ps)

/-- `dma32_txreclaim(di, forceall)`. -/
def dma32Txreclaim (di : TxRing Pkt) (forceall : Bool) (curr : ℕ → TxRing Pkt → UInt32) :
    Option (TxRing Pkt × List Pkt) :=
  txreclaimLoop forceall curr di.ntxd.toNat 0 di

/-- `_dma_txblock`. -/
def _dmaTxblock (di : TxRing Pkt) : TxRing Pkt := { di with txavail := 0 }

/-- `_dma_txunblock`. -/
def _dmaTxunblock (di : TxRing Pkt) : TxRing Pkt := { di with txavail := di.avail }

/-! ### Receive -/

/-- The receive part of `dma_info_t`. -/
structure RxRing (Pkt : Type*) where
  nrxd : UInt32
  pow2 : ∃ k, nrxd.toNat = 2 ^ k
  rxin : UInt32
  rxout : UInt32
  rxp : ℕ → Option Pkt
  nrxpost : UInt32
  rxbufsize : UInt32
  rxoffset : UInt32
  rxgiants : UInt32
  rxnobuf : UInt32

namespace RxRing

/-- `NEXTRXD` and `NRXDACTIVE`. -/
def nextrxd (di : RxRing Pkt) (i : UInt32) : UInt32 := xxd (i + 1) di.nrxd
def nrxdactive (di : RxRing Pkt) (h t : UInt32) : UInt32 := xxd (t - h) di.nrxd

end RxRing

/-- The ring after `dma_attach` and `_dma_rxinit`: no buffer is posted. -/
def _dmaRxinit (nrxd : UInt32) (pow2 : ∃ k, nrxd.toNat = 2 ^ k)
    (nrxpost rxbufsize rxoffset : UInt32) : RxRing Pkt :=
  ⟨nrxd, pow2, 0, 0, fun _ => none, nrxpost, rxbufsize, rxoffset, 0, 0⟩

/-- The loop of `_dma_rxfill`, with `n` buffers to go: `alloc i` is the
`i`-th `PKTGET`. It gives the ring and the buffers posted, and stops at the
first buffer that cannot be had; it is undefined where the assertion on the
slot fails. -/
def rxfillLoop (alloc : ℕ → Option Pkt) : ℕ → ℕ → RxRing Pkt → Option (RxRing Pkt × List Pkt)
  | 0, _, di => some (di, [])
  | n + 1, i, di =>
    match alloc i with
    | none => some ({ di with rxnobuf := di.rxnobuf + 1 }, [])
    | some p =>
      if di.rxp di.rxout.toNat = none then
        let di := { di with
          rxp := Function.update di.rxp di.rxout.toNat (some p)
          rxout := di.nextrxd di.rxout }
        (rxfillLoop alloc n (i + 1) di).map fun (di', ps) => (di', p :: ps)
      else none

/-- `_dma_rxfill`. -/
def _dmaRxfill (di : RxRing Pkt) (alloc : ℕ → Option Pkt) : Option (RxRing Pkt × List Pkt) :=
  rxfillLoop alloc (di.nrxpost - di.nrxdactive di.rxin di.rxout).toNat 0 di

/-- `dma32_getnextrxp(di, forceall)`, where the status register shows `curr`;
undefined where the assertion on the pointer fails. -/
def dma32Getnextrxp (di : RxRing Pkt) (forceall : Bool) (curr : UInt32) :
    Option (RxRing Pkt × Option Pkt) :=
  let i := di.rxin
  if i = di.rxout then some (di, none)
  else if forceall = false ∧ i = curr then some (di, none)
  else
    match di.rxp i.toNat with
    | none => none
    | some p =>
      some ({ di with rxp := Function.update di.rxp i.toNat none, rxin := di.nextrxd i }, some p)

/-- `_dma_getnextrxp`. -/
def _dmaGetnextrxp (di : RxRing Pkt) (forceall : Bool) (curr : UInt32) :
    Option (RxRing Pkt × Option Pkt) :=
  if di.nrxd = 0 then some (di, none) else dma32Getnextrxp di forceall curr

/-- The loop of `_dma_rxreclaim`, and the buffers it frees. -/
def rxreclaimLoop : ℕ → RxRing Pkt → Option (RxRing Pkt × List Pkt)
  | 0, _ => none
  | fuel + 1, di =>
    match _dmaGetnextrxp di true 0 with
    | none => none
    | some (di', none) => some (di', [])
    | some (di', some p) => (rxreclaimLoop fuel di').map fun (di'', ps) => (di'', p :: ps)

/-- `_dma_rxreclaim`. -/
def _dmaRxreclaim (di : RxRing Pkt) : Option (RxRing Pkt × List Pkt) :=
  rxreclaimLoop di.nrxd.toNat di

/-- A `uint` stored into an `int`. -/
def toCInt (x : UInt32) : ℤ := (x.toNat : ℤ).bmod (2 ^ 32)

/-- `skiplen -= di->rxbufsize`, an `int` less a `uint`, and not below 0. -/
def skipRest (skiplen : ℤ) (rxbufsize : UInt32) : ℤ :=
  let skiplen := (skiplen - rxbufsize.toNat).bmod (2 ^ 32)
  if skiplen < 0 then 0 else skiplen

/-- The loop of `_dma_rx`, before its `k`-th read of the status register:
`curr k` is what that shows, and `len16 p` the header word of the buffer `p`.
It gives the ring, the packet with its length, and the buffers freed. -/
def rxLoop (len16 : Pkt → UInt16) (curr : ℕ → UInt32) :
    ℕ → ℕ → ℤ → RxRing Pkt → Option (RxRing Pkt × Option (Pkt × UInt32) × List Pkt)
  | 0, _, _, _ => none
  | fuel + 1, k, skiplen, di =>
    match _dmaGetnextrxp di false (curr k) with
    | none => none
    | some (di, none) => some (di, none, [])
    | some (di, some p) =>
      if 0 < skiplen then
        let skiplen := skipRest skiplen di.rxbufsize
        (rxLoop len16 curr fuel (k + 1) skiplen di).map fun (di, q, ps) => (di, q, p :: ps)
      else
        let len := (len16 p).toUInt32
        if len > di.rxbufsize - di.rxoffset then
          let skiplen := if len > 0 then toCInt (len - (di.rxbufsize - di.rxoffset)) else skiplen
          let di := { di with rxgiants := di.rxgiants + 1 }
          (rxLoop len16 curr fuel (k + 1) skiplen di).map fun (di, q, ps) => (di, q, p :: ps)
        else some (di, some (p, di.rxoffset + len), [])

/-- `_dma_rx`. -/
def _dmaRx (len16 : Pkt → UInt16) (di : RxRing Pkt) (curr : ℕ → UInt32) :
    Option (RxRing Pkt × Option (Pkt × UInt32) × List Pkt) :=
  rxLoop len16 curr di.nrxd.toNat 0 0 di

end Dma
end Router
