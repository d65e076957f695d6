/-
# The precedence packet queue

`struct pktq` of bcmutils: up to 16 FIFOs of packets, chained through the link
field of the packets themselves. The state is the queue and the links; an
operation is a function to `Option`, undefined where an ASSERT fails, where
NULL would be followed, or where a loop over the packets of one precedence
does not end within the `2^16` steps that a `uint16` length allows.

The three operations that take the first packet of a precedence share their
text in the source, and so do the two that take the last: `unlinkHead` and
`unlinkTail`. A precedence is a natural number; the array has entries behind
`num_prec` too, about which nothing is known.
-/
import RouterFirmware.Lib.Linked

namespace Router
namespace Bcm

variable {Pkt : Type*} [DecidableEq Pkt]

/-- `struct pktq_prec`. -/
structure PktqPrec (Pkt : Type*) where
  head : Option Pkt
  tail : Option Pkt
  len : UInt16
  max : UInt16

/-- `struct pktq`. -/
structure Pktq (Pkt : Type*) where
  numPrec : UInt16
  hiPrec : UInt16
  max : UInt16
  len : UInt16
  q : ℕ → PktqPrec Pkt

/-- A queue and the link field (`PKTLINK`) of the packets. -/
structure PktqSt (Pkt : Type*) where
  link : Pkt → Option Pkt
  pq : Pktq Pkt

/-- `PKTQ_MAX_PREC`. -/
def pktqMaxPrec : ℕ := 16

/-- The steps a loop over one precedence may take. -/
def pktqFuel : ℕ := 2 ^ 16

/-- `pktq_full` and `pktq_pfull`. -/
def Pktq.full (pq : Pktq Pkt) : Prop := pq.len ≥ pq.max
def Pktq.pfull (pq : Pktq Pkt) (prec : ℕ) : Prop := (pq.q prec).len ≥ (pq.q prec).max

instance (pq : Pktq Pkt) : Decidable pq.full := inferInstanceAs (Decidable (pq.len ≥ pq.max))
instance (pq : Pktq Pkt) (prec : ℕ) : Decidable (pq.pfull prec) :=
  inferInstanceAs (Decidable ((pq.q prec).len ≥ (pq.q prec).max))

/-- The queue with its entry `prec` replaced. -/
def Pktq.setq (pq : Pktq Pkt) (prec : ℕ) (q : PktqPrec Pkt) : Pktq Pkt :=
  { pq with q := Function.update pq.q prec q }

/-- `pktq_init`, on memory that holds `pq`: only what is requested is cleared. -/
def pktqInit (pq : Pktq Pkt) (numPrec : ℕ) (maxLen : ℤ) : Pktq Pkt :=
  let max : UInt16 := UInt16.ofNat (maxLen % 2 ^ 16).toNat
  { numPrec := UInt16.ofNat numPrec
    hiPrec := 0
    max := max
    len := 0
    q := fun prec => if prec < numPrec then ⟨none, none, 0, max⟩ else pq.q prec }

/-! ### One precedence -/

/-- What both enqueues assert. -/
def PktqSt.CanEnq (st : PktqSt Pkt) (prec : ℕ) (p : Pkt) : Prop :=
  prec < st.pq.numPrec.toNat ∧ st.link p = none ∧ ¬ st.pq.full ∧ ¬ st.pq.pfull prec

instance (st : PktqSt Pkt) (prec : ℕ) (p : Pkt) : Decidable (st.CanEnq prec p) :=
  inferInstanceAs (Decidable (_ ∧ _ ∧ _ ∧ _))

/-- `hi_prec` after an enqueue at `prec`. -/
def raiseHi (hiPrec : UInt16) (prec : ℕ) : UInt16 :=
  if hiPrec.toNat < prec then UInt16.ofNat (prec % 2 ^ 8) else hiPrec

/-- `pktq_penq`. -/
def pktqPenq (st : PktqSt Pkt) (prec : ℕ) (p : Pkt) : Option (PktqSt Pkt) :=
  if st.CanEnq prec p then
    let q := st.pq.q prec
    let pq' (head : Option Pkt) : Pktq Pkt :=
      { st.pq.setq prec { q with head := head, tail := some p, len := q.len + 1 } with
        len := st.pq.len + 1, hiPrec := raiseHi st.pq.hiPrec prec }
    match q.head with
    | some h => q.tail.map fun t => ⟨Function.update st.link t (some p), pq' (some h)⟩
    | none => some ⟨st.link, pq' (some p)⟩
  else none

/-- `pktq_penq_head`. -/
def pktqPenqHead (st : PktqSt Pkt) (prec : ℕ) (p : Pkt) : Option (PktqSt Pkt) :=
  if st.CanEnq prec p then
    let q := st.pq.q prec
    let tail := if q.head = none then some p else q.tail
    some
      { link := Function.update st.link p q.head
        pq := { st.pq.setq prec { q with head := some p, tail := tail, len := q.len + 1 } with
          len := st.pq.len + 1, hiPrec := raiseHi st.pq.hiPrec prec } }
  else none

/-- The first packet of `prec` unlinked, as in `pktq_pdeq`, `pktq_deq` and
`pktq_mdeq`. -/
def unlinkHead (st : PktqSt Pkt) (prec : ℕ) : PktqSt Pkt × Option Pkt :=
  let q := st.pq.q prec
  match q.head with
  | none => (st, none)
  | some p =>
    let head := st.link p
    let tail := if head = none then none else q.tail
    ({ link := Function.update st.link p none
       pq := { st.pq.setq prec { q with head := head, tail := tail, len := q.len - 1 } with
         len := st.pq.len - 1 } }, some p)

/-- `for (prev = NULL; p != q->tail; p = PKTLINK(p)) prev = p;` -/
def walkTail (link : Pkt → Option Pkt) (tail : Option Pkt) :
    ℕ → Option Pkt → Option Pkt → Option (Option Pkt × Option Pkt)
  | 0, _, _ => none
  | fuel + 1, prev, p =>
    if p = tail then some (prev, p)
    else
      match p with
      | none => none
      | some x => walkTail link tail fuel (some x) (link x)

/-- The last packet of `prec` unlinked, as in `pktq_pdeq_tail` and
`pktq_deq_tail`. -/
def unlinkTail (st : PktqSt Pkt) (prec : ℕ) : Option (PktqSt Pkt × Option Pkt) :=
  let q := st.pq.q prec
  if q.head = none then some (st, none)
  else
    (walkTail st.link q.tail pktqFuel none q.head).map fun (prev, p) =>
      let link := match prev with
        | some t => Function.update st.link t none
        | none => st.link
      let head := if prev = none then none else q.head
      ({ link := link
         pq := { st.pq.setq prec { q with head := head, tail := prev, len := q.len - 1 } with
           len := st.pq.len - 1 } }, p)

/-- `pktq_pdeq`. -/
def pktqPdeq (st : PktqSt Pkt) (prec : ℕ) : Option (PktqSt Pkt × Option Pkt) :=
  if prec < st.pq.numPrec.toNat then some (unlinkHead st prec) else none

/-- `pktq_pdeq_tail`. -/
def pktqPdeqTail (st : PktqSt Pkt) (prec : ℕ) : Option (PktqSt Pkt × Option Pkt) :=
  if prec < st.pq.numPrec.toNat then unlinkTail st prec else none

/-- The loop of `pktq_pflush` at `p`, and the packets it frees. -/
def pflushLoop (prec : ℕ) : ℕ → PktqSt Pkt → Option Pkt → Option (PktqSt Pkt × List Pkt)
  | 0, _, _ => none
  | _ + 1, st, none => some (st, [])
  | fuel + 1, st, some p =>
    let q := st.pq.q prec
    let head := st.link p
    let st' : PktqSt Pkt :=
      { link := Function.update st.link p none
        pq := { st.pq.setq prec { q with head := head, len := q.len - 1 } with
          len := st.pq.len - 1 } }
    (pflushLoop prec fuel st' head).map fun (st'', ps) => (st'', p :: ps)

/-- `pktq_pflush`, with the packets freed. -/
def pktqPflush (st : PktqSt Pkt) (prec : ℕ) : Option (PktqSt Pkt × List Pkt) :=
  match pflushLoop prec pktqFuel st (st.pq.q prec).head with
  | none => none
  | some (st', ps) =>
    if (st'.pq.q prec).len = 0 then
      some ({ st' with pq := st'.pq.setq prec { st'.pq.q prec with tail := none } }, ps)
    else none

/-- `for (p = q->head; p && PKTLINK(p) != pktbuf; p = PKTLINK(p));` -/
def findPrev (link : Pkt → Option Pkt) (pktbuf : Pkt) : ℕ → Option Pkt → Option (Option Pkt)
  | 0, _ => none
  | _ + 1, none => some none
  | fuel + 1, some p =>
    if link p = some pktbuf then some (some p) else findPrev link pktbuf fuel (link p)

/-- `pktq_pdel`. -/
def pktqPdel (st : PktqSt Pkt) (pktbuf : Option Pkt) (prec : ℕ) : Option (PktqSt Pkt × Bool) :=
  if prec < st.pq.numPrec.toNat then
    match pktbuf with
    | none => some (st, false)
    | some x =>
      let q := st.pq.q prec
      if q.head = some x then
        let head := st.link x
        let tail := if head = none then none else q.tail
        some ({ link := Function.update st.link x none
                pq := { st.pq.setq prec { q with head := head, tail := tail, len := q.len - 1 } with
                  len := st.pq.len - 1 } }, true)
      else
        match findPrev st.link x pktqFuel q.head with
        | none => none
        | some none => some (st, false)
        | some (some p) =>
          let tail := if q.tail = some x then some p else q.tail
          some ({ link := Function.update (Function.update st.link p (st.link x)) x none
                  pq := { st.pq.setq prec { q with tail := tail, len := q.len - 1 } with
                    len := st.pq.len - 1 } }, true)
  else none

/-! ### All precedences -/

/-- `while ((prec = pq->hi_prec) > 0 && pq->q[prec].head == NULL) pq->hi_prec--;` -/
def lowerHi (q : ℕ → PktqPrec Pkt) : ℕ → ℕ
  | 0 => 0
  | prec + 1 => if (q (prec + 1)).head = none then lowerHi q prec else prec + 1

/-- The state with `hi_prec` lowered, and `prec`. -/
def PktqSt.lower (st : PktqSt Pkt) : PktqSt Pkt × ℕ :=
  let prec := lowerHi st.pq.q st.pq.hiPrec.toNat
  ({ st with pq := { st.pq with hiPrec := UInt16.ofNat prec } }, prec)

/-- `for (prec = 0; prec < pq->hi_prec; prec++) if (pq->q[prec].head) break;`
from `prec` on, with `k` precedences to go. -/
def lowestHead (q : ℕ → PktqPrec Pkt) : ℕ → ℕ → ℕ
  | 0, prec => prec
  | k + 1, prec => if (q prec).head = none then lowestHead q k (prec + 1) else prec

/-- A packet pointer, and `*prec_out` where it was written. -/
abbrev PktAt (Pkt : Type*) := Option Pkt × Option ℕ

/-- `pktq_deq`. -/
def pktqDeq (st : PktqSt Pkt) : PktqSt Pkt × PktAt Pkt :=
  if st.pq.len = 0 then (st, none, none)
  else
    let (st, prec) := st.lower
    let (st, p) := unlinkHead st prec
    (st, p, p.map fun _ => prec)

/-- `pktq_deq_tail`. -/
def pktqDeqTail (st : PktqSt Pkt) : Option (PktqSt Pkt × PktAt Pkt) :=
  if st.pq.len = 0 then some (st, none, none)
  else
    let prec := lowestHead st.pq.q st.pq.hiPrec.toNat 0
    (unlinkTail st prec).map fun (st, p) =>
      match p with
      | none => (st, none, none)
      | some x => ({ st with link := Function.update st.link x none }, some x, some prec)

/-- `pktq_peek`. -/
def pktqPeek (st : PktqSt Pkt) : PktqSt Pkt × PktAt Pkt :=
  if st.pq.len = 0 then (st, none, none)
  else
    let (st, prec) := st.lower
    (st, (st.pq.q prec).head, some prec)

/-- `pktq_peek_tail`. -/
def pktqPeekTail (st : PktqSt Pkt) : PktqSt Pkt × PktAt Pkt :=
  if st.pq.len = 0 then (st, none, none)
  else
    let prec := lowestHead st.pq.q st.pq.hiPrec.toNat 0
    (st, (st.pq.q prec).tail, some prec)

/-- `prec_bmp & (1 << prec)`. -/
def inBmp (precBmp : UInt32) (prec : ℕ) : Bool := (precBmp &&& (1 <<< UInt32.ofNat prec)) != 0

/-- The second loop of `pktq_mdeq`, downwards from `prec`. -/
def mdeqLoop (q : ℕ → PktqPrec Pkt) (precBmp : UInt32) : ℕ → Option ℕ
  | 0 => if inBmp precBmp 0 = false ∨ (q 0).head = none then none else some 0
  | prec + 1 =>
    if inBmp precBmp (prec + 1) = false ∨ (q (prec + 1)).head = none then mdeqLoop q precBmp prec
    else some (prec + 1)

/-- `pktq_mdeq`. -/
def pktqMdeq (st : PktqSt Pkt) (precBmp : UInt32) : PktqSt Pkt × PktAt Pkt :=
  if st.pq.len = 0 then (st, none, none)
  else
    let (st, prec) := st.lower
    match mdeqLoop st.pq.q precBmp prec with
    | none => (st, none, none)
    | some prec =>
      let (st, p) := unlinkHead st prec
      (st, p, p.map fun _ => prec)

/-- `pktq_mlen`. -/
def pktqMlen (st : PktqSt Pkt) (precBmp : UInt32) : ℕ :=
  (List.range (st.pq.hiPrec.toNat + 1)).foldl
    (fun len prec => if inBmp precBmp prec then len + (st.pq.q prec).len.toNat else len) 0

/-- `pktq_flush`, from `prec` on with `k` precedences to go. -/
def flushLoop : ℕ → ℕ → PktqSt Pkt → Option (PktqSt Pkt × List Pkt)
  | 0, _, st => some (st, [])
  | k + 1, prec, st =>
    match pktqPflush st prec with
    | none => none
    | some (st', ps) => (flushLoop k (prec + 1) st').map fun (st'', ps') => (st'', ps ++ ps')

/-- `pktq_flush`. -/
def pktqFlush (st : PktqSt Pkt) : Option (PktqSt Pkt × List Pkt) :=
  match flushLoop st.pq.numPrec.toNat 0 st with
  | none => none
  | some (st', ps) => if st'.pq.len = 0 then some (st', ps) else none

/-- `pktq_setmax`. -/
def pktqSetmax (st : PktqSt Pkt) (maxLen : ℤ) : PktqSt Pkt × UInt16 :=
  if maxLen = 0 then (st, st.pq.max)
  else
    let max : UInt16 := UInt16.ofNat (maxLen % 2 ^ 16).toNat
    let q prec := if prec < st.pq.numPrec.toNat then { st.pq.q prec with max := max }
      else st.pq.q prec
    ({ st with pq := { st.pq with max := max, q := q } }, max)

/-! ### Calls -/

/-- The calls of a packet queue. -/
inductive PktqCall (Pkt : Type*)
  | penq (prec : ℕ) (p : Pkt)
  | penqHead (prec : ℕ) (p : Pkt)
  | pdeq (prec : ℕ)
  | pdeqTail (prec : ℕ)
  | pflush (prec : ℕ)
  | pdel (pktbuf : Option Pkt) (prec : ℕ)
  | deq
  | deqTail
  | peek
  | peekTail
  | mdeq (precBmp : UInt32)
  | mlen (precBmp : UInt32)
  | flush
  | setmax (maxLen : ℤ)

/-- What they answer: a packet and `*prec_out`, the packets freed, a truth
value or a number. -/
inductive PktqRet (Pkt : Type*)
  | pkt (r : PktAt Pkt)
  | freed (ps : List Pkt)
  | flag (b : Bool)
  | int (n : ℕ)

/-- A call, with its answer. -/
def pktqStep (st : PktqSt Pkt) : PktqCall Pkt → Option (PktqSt Pkt × PktqRet Pkt)
  | .penq prec p => (pktqPenq st prec p).map fun st' => (st', .pkt (some p, none))
  | .penqHead prec p => (pktqPenqHead st prec p).map fun st' => (st', .pkt (some p, none))
  | .pdeq prec => (pktqPdeq st prec).map fun (st', p) => (st', .pkt (p, none))
  | .pdeqTail prec => (pktqPdeqTail st prec).map fun (st', p) => (st', .pkt (p, none))
  | .pflush prec => (pktqPflush st prec).map fun (st', ps) => (st', .freed ps)
  | .pdel pktbuf prec => (pktqPdel st pktbuf prec).map fun (st', b) => (st', .flag b)
  | .deq => some ((pktqDeq st).1, .pkt (pktqDeq st).2)
  | .deqTail => (pktqDeqTail st).map fun (st', r) => (st', .pkt r)
  | .peek => some ((pktqPeek st).1, .pkt (pktqPeek st).2)
  | .peekTail => some ((pktqPeekTail st).1, .pkt (pktqPeekTail st).2)
  | .mdeq precBmp => some ((pktqMdeq st precBmp).1, .pkt (pktqMdeq st precBmp).2)
  | .mlen precBmp => some (st, .int (pktqMlen st precBmp))
  | .flush => (pktqFlush st).map fun (st', ps) => (st', .freed ps)
  | .setmax maxLen => some ((pktqSetmax st maxLen).1, .int (pktqSetmax st maxLen).2.toNat)

end Bcm
end Router
