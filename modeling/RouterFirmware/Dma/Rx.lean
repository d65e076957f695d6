/-
# The receive ring

`Posted di l`: the buffers `l` stand in the slots from `rxin` to `rxout`, the
other slots are NULL, and there are at most `nrxpost` of them. Filling
appends the buffers it could allocate, the other calls take buffers off the
front; what the hardware shows only decides how many.
-/
import RouterFirmware.Lib.Ring
import RouterFirmware.Lib.Run
import RouterFirmware.Dma.Ring

namespace Router
namespace Dma

open Ring

variable {Pkt : Type*}

/-- What `dma_attach` fixes. -/
def RxRing.tunables (di : RxRing Pkt) : UInt32 × UInt32 × UInt32 × UInt32 :=
  (di.nrxd, di.nrxpost, di.rxbufsize, di.rxoffset)

/-- The buffers on the ring, in posting order. -/
structure Posted (di : RxRing Pkt) (l : List Pkt) : Prop where
  cells : Cells di.nrxd.toNat di.rxin.toNat di.rxp (l.map some)
  rxout : di.rxout.toNat = (di.rxin.toNat + l.length) % di.nrxd.toNat
  length_le : l.length ≤ di.nrxpost.toNat
  nrxpost_lt : di.nrxpost.toNat < di.nrxd.toNat

theorem toNat_nextrxd (di : RxRing Pkt) (i : UInt32) :
    (di.nextrxd i).toNat = (i.toNat + 1) % di.nrxd.toNat := by
  obtain ⟨k, hk⟩ := di.pow2
  rw [RxRing.nextrxd, xxd, toNat_mask_add hk]
  rfl

namespace Posted

variable {di : RxRing Pkt} {l : List Pkt}

/-- `NRXDACTIVE` is the number of buffers. -/
theorem nrxdactive (h : Posted di l) : (di.nrxdactive di.rxin di.rxout).toNat = l.length := by
  obtain ⟨k, hk⟩ := di.pow2
  have hlen : (l.map some).length = l.length := List.length_map _
  rw [← hlen]
  exact h.cells.toNat_mask_sub hk (by rw [hlen]; exact h.rxout)

/-- The number of buffers `_dma_rxfill` lacks, an unsigned difference. -/
theorem lacking (h : Posted di l) :
    (di.nrxpost - di.nrxdactive di.rxin di.rxout).toNat = di.nrxpost.toNat - l.length := by
  have hle : di.nrxdactive di.rxin di.rxout ≤ di.nrxpost := by
    apply UInt32.le_iff_toNat_le.mpr
    rw [h.nrxdactive]
    exact h.length_le
  rw [UInt32.toNat_sub_of_le _ _ hle, h.nrxdactive]

/-- One more buffer. -/
theorem push (h : Posted di l) (hroom : l.length < di.nrxpost.toNat) (p : Pkt) :
    di.rxp di.rxout.toNat = none ∧
      Posted { di with
        rxp := Function.update di.rxp di.rxout.toNat (some p)
        rxout := di.nextrxd di.rxout } (l ++ [p]) := by
  have hlt := h.nrxpost_lt
  have hmap : (l.map some).length = l.length := List.length_map _
  have hpush := h.cells.push (by rw [hmap]; omega) (some p)
  have hnext := toNat_nextrxd di di.rxout
  rw [hmap, ← h.rxout] at hpush
  rw [h.rxout, Nat.mod_add_mod, Nat.add_assoc] at hnext
  refine ⟨?_, ?_, ?_, ?_, hlt⟩
  · rw [h.rxout, h.cells.get (by omega), List.getD_eq_default _ _ (by rw [hmap])]
  · rw [List.map_append]
    exact hpush
  · rw [List.length_append]
    exact hnext
  · rw [List.length_append]
    exact hroom

/-- The first buffer leaves. -/
theorem pop {p : Pkt} (h : Posted di (p :: l)) :
    di.rxp di.rxin.toNat = some p ∧ di.rxin ≠ di.rxout ∧
      Posted { di with
        rxp := Function.update di.rxp di.rxin.toNat none
        rxin := di.nextrxd di.rxin } l := by
  have ha := h.cells.start_lt
  have hlen : l.length + 1 ≤ di.nrxpost.toNat := h.length_le
  have hlt := h.nrxpost_lt
  have hnext := toNat_nextrxd di di.rxin
  have hpop := Cells.pop (l := l.map some) h.cells
  rw [← hnext] at hpop
  refine ⟨Cells.first (l := l.map some) h.cells, fun he => ?_, hpop, ?_,
    Nat.le_of_succ_le hlen, hlt⟩
  · have hout := h.rxout
    rw [← he, List.length_cons, add_mod_eq ha (by omega)] at hout
    split_ifs at hout <;> omega
  · show di.rxout.toNat = ((di.nextrxd di.rxin).toNat + l.length) % di.nrxd.toNat
    rw [h.rxout, hnext, Nat.mod_add_mod, List.length_cons]
    congr 1
    omega

/-- Without buffers the indices meet. -/
theorem rxin_eq (h : Posted di []) : di.rxin = di.rxout := by
  apply UInt32.toNat_inj.mp
  have hout := h.rxout
  rw [List.length_nil, Nat.add_zero, Nat.mod_eq_of_lt h.cells.start_lt] at hout
  exact hout.symm

end Posted

/-! ### The calls -/

/-- The loop of `_dma_rxfill` posts buffers, at most as many as it is asked to. -/
theorem rxfillLoop_spec (alloc : ℕ → Option Pkt) : ∀ (n i : ℕ) {di : RxRing Pkt} {l : List Pkt},
    Posted di l → l.length + n ≤ di.nrxpost.toNat →
    ∃ di' ps, rxfillLoop alloc n i di = some (di', ps) ∧ di'.tunables = di.tunables ∧
      di'.rxin = di.rxin ∧ Posted di' (l ++ ps)
  | 0, i, di, l, h, _ => ⟨di, [], rfl, rfl, rfl, by rw [List.append_nil]; exact h⟩
  | n + 1, i, di, l, h, hn => by
    unfold rxfillLoop
    cases alloc i with
    | none =>
      refine ⟨_, [], rfl, rfl, rfl, ?_⟩
      rw [List.append_nil]
      exact ⟨h.cells, h.rxout, h.length_le, h.nrxpost_lt⟩
    | some p =>
      obtain ⟨hfree, hpush⟩ := h.push (by omega) p
      have hroom : (l ++ [p]).length + n ≤ di.nrxpost.toNat := by
        rw [List.length_append, List.length_singleton]
        omega
      obtain ⟨di', ps, hloop, ht, hin, hposted⟩ := rxfillLoop_spec alloc n (i + 1) hpush hroom
      refine ⟨di', p :: ps, ?_, ht, hin, ?_⟩
      · simp only [hfree, if_true, hloop, Option.map_some]
      · rw [List.append_cons]
        exact hposted

/-- `_dma_rxfill`: the buffers it got are appended. -/
theorem rxfill_spec {di : RxRing Pkt} {l : List Pkt} (h : Posted di l) (alloc : ℕ → Option Pkt) :
    ∃ di' ps, _dmaRxfill di alloc = some (di', ps) ∧ di'.tunables = di.tunables ∧
      di'.rxin = di.rxin ∧ Posted di' (l ++ ps) := by
  apply rxfillLoop_spec alloc _ 0 h
  have hle := h.length_le
  rw [h.lacking]
  omega

/-- `_dma_getnextrxp`: nothing, or the first buffer. -/
theorem getnextrxp_spec {di : RxRing Pkt} {l : List Pkt} (h : Posted di l) (forceall : Bool)
    (curr : UInt32) :
    (_dmaGetnextrxp di forceall curr = some (di, none) ∧
      (l = [] ∨ forceall = false ∧ di.rxin = curr)) ∨
    ∃ p l' di', l = p :: l' ∧ _dmaGetnextrxp di forceall curr = some (di', some p) ∧
      (forceall = false → di.rxin ≠ curr) ∧ di'.tunables = di.tunables ∧
      di'.rxin = di.nextrxd di.rxin ∧ Posted di' l' := by
  have hne : di.nrxd ≠ 0 := by
    intro h0
    have hpos := h.cells.start_lt
    rw [h0] at hpos
    exact absurd hpos (Nat.not_lt_zero _)
  unfold _dmaGetnextrxp dma32Getnextrxp
  rw [if_neg hne]
  simp only
  cases l with
  | nil => exact Or.inl ⟨by rw [if_pos h.rxin_eq], Or.inl rfl⟩
  | cons p l' =>
    obtain ⟨hfirst, hio, hpop⟩ := h.pop
    rw [if_neg hio]
    by_cases hcurr : forceall = false ∧ di.rxin = curr
    · exact Or.inl ⟨by rw [if_pos hcurr], Or.inr hcurr⟩
    · rw [if_neg hcurr, hfirst]
      exact Or.inr ⟨p, l', _, rfl, rfl, fun hf he => hcurr ⟨hf, he⟩, rfl, rfl, hpop⟩

/-- The loop of `_dma_rxreclaim` frees all buffers. -/
theorem rxreclaimLoop_spec : ∀ {fuel : ℕ} {di : RxRing Pkt} {l : List Pkt}, Posted di l →
    l.length < fuel → ∃ di', rxreclaimLoop fuel di = some (di', l) ∧ di'.tunables = di.tunables ∧
      Posted di' []
  | fuel + 1, di, l, h, hf => by
    unfold rxreclaimLoop
    rcases getnextrxp_spec h true 0 with ⟨hget, hend⟩ | ⟨p, l', di', rfl, hget, -, ht, -, h'⟩
    · have hl : l = [] := hend.resolve_right fun hc => absurd hc.1 (by decide)
      subst hl
      exact ⟨di, by rw [hget], rfl, h⟩
    · obtain ⟨di'', hloop, ht', h''⟩ := rxreclaimLoop_spec h' (Nat.lt_of_succ_lt_succ hf)
      exact ⟨di'', by simp only [hget, hloop, Option.map_some], ht'.trans ht, h''⟩

/-- The loop of `_dma_rx` takes buffers off the front, frees them and returns the last or none. -/
theorem rxLoop_spec (len16 : Pkt → UInt16) (curr : ℕ → UInt32) : ∀ {fuel : ℕ} (k : ℕ) (skiplen : ℤ)
    {di : RxRing Pkt} {l : List Pkt}, Posted di l → l.length < fuel →
    ∃ di' q ps l', rxLoop len16 curr fuel k skiplen di = some (di', q, ps) ∧
      di'.tunables = di.tunables ∧ Posted di' l' ∧ l = ps ++ (q.map Prod.fst).toList ++ l'
  | fuel + 1, k, skiplen, di, l, h, hf => by
    unfold rxLoop
    rcases getnextrxp_spec h false (curr k) with ⟨hget, -⟩ | ⟨p, l', di', rfl, hget, -, ht, -, h'⟩
    · exact ⟨di, none, [], l, by rw [hget], rfl, h, rfl⟩
    · have hf' := Nat.lt_of_succ_lt_succ hf
      simp only [hget]
      split_ifs with hskip hgiant hlen
      · obtain ⟨di'', q, ps, l'', hloop, ht', h'', hl⟩ := rxLoop_spec len16 curr (k + 1)
          (skipRest skiplen di'.rxbufsize) h' hf'
        exact ⟨di'', q, p :: ps, l'', by rw [hloop]; rfl, ht'.trans ht, h'', by rw [hl]; rfl⟩
      · have hg : Posted { di' with rxgiants := di'.rxgiants + 1 } l' :=
          ⟨h'.cells, h'.rxout, h'.length_le, h'.nrxpost_lt⟩
        obtain ⟨di'', q, ps, l'', hloop, ht', h'', hl⟩ := rxLoop_spec len16 curr (k + 1)
          (toCInt ((len16 p).toUInt32 - (di'.rxbufsize - di'.rxoffset))) hg hf'
        exact ⟨di'', q, p :: ps, l'', by rw [hloop]; rfl, ht'.trans ht, h'', by rw [hl]; rfl⟩
      · exact absurd (Nat.lt_of_le_of_lt (Nat.zero_le _) (UInt32.lt_iff_toNat_lt.mp hgiant))
          fun hpos => hlen (UInt32.lt_iff_toNat_lt.mpr hpos)
      · exact ⟨di', _, [], l', rfl, ht, h', rfl⟩

/-! ### Runs -/

/-- The calls on the receive ring, with what the allocator and the hardware
answer them. -/
inductive RxCall (Pkt : Type*)
  | rxfill (alloc : ℕ → Option Pkt)
  | getnextrxp (forceall : Bool) (curr : UInt32)
  | rxreclaim
  | rx (curr : ℕ → UInt32)

/-- What they do: the buffers posted, the packet returned, the buffers freed. -/
inductive RxRet (Pkt : Type*)
  | posted (ps : List Pkt)
  | pkt (p : Option Pkt)
  | freed (ps : List Pkt)
  | rx (q : Option (Pkt × UInt32)) (freed : List Pkt)

def rxStep (len16 : Pkt → UInt16) (di : RxRing Pkt) : RxCall Pkt → Option (RxRing Pkt × RxRet Pkt)
  | .rxfill alloc => (_dmaRxfill di alloc).map fun (di', ps) => (di', .posted ps)
  | .getnextrxp forceall curr =>
    (_dmaGetnextrxp di forceall curr).map fun (di', p) => (di', .pkt p)
  | .rxreclaim => (_dmaRxreclaim di).map fun (di', ps) => (di', .freed ps)
  | .rx curr => (_dmaRx len16 di curr).map fun (di', q, ps) => (di', .rx q ps)

/-- The buffers a call posts. -/
def posted : RxCall Pkt × RxRet Pkt → List Pkt
  | (_, .posted ps) => ps
  | _ => []

/-- The buffers a call takes off the ring, in order. -/
def taken : RxCall Pkt × RxRet Pkt → List Pkt
  | (_, .pkt p) => p.toList
  | (_, .freed ps) => ps
  | (_, .rx q ps) => ps ++ (q.map Prod.fst).toList
  | _ => []

/-- A call and its answer. -/
def RxRun (len16 : Pkt → UInt16) (di : RxRing Pkt) (e : RxCall Pkt × RxRet Pkt)
    (di' : RxRing Pkt) : Prop :=
  rxStep len16 di e.1 = some (di', e.2)

/-- The number of active slots, and the buffers in them. -/
def RxRing.active (di : RxRing Pkt) : ℕ := (di.nrxdactive di.rxin di.rxout).toNat

def RxRing.pending (di : RxRing Pkt) : List Pkt :=
  (List.range di.active).filterMap fun d => di.rxp ((di.rxin.toNat + d) % di.nrxd.toNat)

theorem Posted.pending {di : RxRing Pkt} {l : List Pkt} (h : Posted di l) : di.pending = l := by
  have hactive : di.active = (l.map some).length := by rw [List.length_map]; exact h.nrxdactive
  rw [RxRing.pending, hactive]
  calc ((List.range (l.map some).length).filterMap
        fun d => di.rxp ((di.rxin.toNat + d) % di.nrxd.toNat))
      = (((List.range (l.map some).length).map
          fun d => di.rxp ((di.rxin.toNat + d) % di.nrxd.toNat)).filterMap id) := by
        rw [List.filterMap_map]
        rfl
    _ = (l.map some).filterMap id := by rw [h.cells.map_range]
    _ = l := by rw [List.filterMap_map]; exact List.filterMap_some

/-- **One call on the ring**: it is defined, takes buffers off the front or
appends those it posts. -/
theorem rxStep_spec (len16 : Pkt → UInt16) {di : RxRing Pkt} {l : List Pkt} (h : Posted di l)
    (c : RxCall Pkt) :
    ∃ di' r l', rxStep len16 di c = some (di', r) ∧ di'.tunables = di.tunables ∧ Posted di' l' ∧
      l ++ posted (c, r) = taken (c, r) ++ l' ∧ (c = .rxreclaim → l' = []) := by
  have hfuel : l.length < di.nrxd.toNat := Nat.lt_of_le_of_lt h.length_le h.nrxpost_lt
  cases c with
  | rxfill alloc =>
    obtain ⟨di', ps, hfill, ht, -, h'⟩ := rxfill_spec h alloc
    exact ⟨di', .posted ps, l ++ ps, by rw [rxStep, hfill]; rfl, ht, h', rfl, by simp⟩
  | getnextrxp forceall curr =>
    rcases getnextrxp_spec h forceall curr with ⟨hget, -⟩ | ⟨p, l', di', rfl, hget, -, ht, -, h'⟩
    · exact ⟨di, .pkt none, l, by rw [rxStep, hget]; rfl, rfl, h, List.append_nil l, by simp⟩
    · exact ⟨di', .pkt (some p), l', by rw [rxStep, hget]; rfl, ht, h', List.append_nil _, by simp⟩
  | rxreclaim =>
    obtain ⟨di', hloop, ht, h'⟩ := rxreclaimLoop_spec h hfuel
    exact ⟨di', .freed l, [], by rw [rxStep, _dmaRxreclaim, hloop]; rfl, ht, h', rfl, fun _ => rfl⟩
  | rx curr =>
    obtain ⟨di', q, ps, l', hloop, ht, h', hl⟩ := rxLoop_spec len16 curr 0 0 h hfuel
    refine ⟨di', .rx q ps, l', by rw [rxStep, _dmaRx, hloop]; rfl, ht, h', ?_, by simp⟩
    show l ++ [] = _
    rw [List.append_nil]
    exact hl

/-- After a run: the tunables, and the buffers posted are those taken, then
those on the ring. -/
def RxInv (tunables : UInt32 × UInt32 × UInt32 × UInt32) (es : List (RxCall Pkt × RxRet Pkt))
    (di : RxRing Pkt) : Prop :=
  di.tunables = tunables ∧ ∃ l, Posted di l ∧ es.flatMap posted = es.flatMap taken ++ l

theorem RxInv.step {len16 : Pkt → UInt16} {tunables : UInt32 × UInt32 × UInt32 × UInt32}
    {es : List (RxCall Pkt × RxRet Pkt)} {di di' : RxRing Pkt} {e : RxCall Pkt × RxRet Pkt}
    (hinv : RxInv tunables es di) (hstep : RxRun len16 di e di') :
    RxInv tunables (es ++ [e]) di' := by
  obtain ⟨ht, l, h, hflow⟩ := hinv
  obtain ⟨di₁, r, l', hs, ht', h', hl, -⟩ := rxStep_spec len16 h e.1
  obtain ⟨rfl, hr⟩ := Prod.mk.inj (Option.some.inj (hstep.symm.trans hs))
  have he : e = (e.1, r) := by rw [← hr]
  rw [← he] at hl
  refine ⟨ht'.trans ht, l', h', ?_⟩
  calc (es ++ [e]).flatMap posted
      = es.flatMap taken ++ (l ++ posted e) := by simp [hflow]
    _ = es.flatMap taken ++ (taken e ++ l') := by rw [hl]
    _ = (es ++ [e]).flatMap taken ++ l' := by simp

theorem posted_rxinit {nrxd : UInt32} (pow2 : ∃ k, nrxd.toNat = 2 ^ k) {nrxpost : UInt32}
    (hpost : nrxpost < nrxd) (rxbufsize rxoffset : UInt32) :
    Posted (_dmaRxinit nrxd pow2 nrxpost rxbufsize rxoffset : RxRing Pkt) [] := by
  have hlt := UInt32.lt_iff_toNat_lt.mp hpost
  have hpos : 0 < nrxd.toNat := by omega
  exact ⟨⟨hpos, hpos, fun _ _ => rfl⟩, (Nat.zero_mod _).symm, Nat.zero_le _, hlt⟩

/-- Every run keeps the invariant. -/
theorem rx_run_inv {len16 : Pkt → UInt16} {nrxd nrxpost rxbufsize rxoffset : UInt32}
    {pow2 : ∃ k, nrxd.toNat = 2 ^ k} (hpost : nrxpost < nrxd)
    {es : List (RxCall Pkt × RxRet Pkt)} {di : RxRing Pkt}
    (h : Run.Trace (RxRun len16) (_dmaRxinit nrxd pow2 nrxpost rxbufsize rxoffset) es di) :
    RxInv (nrxd, nrxpost, rxbufsize, rxoffset) es di :=
  h.inv ⟨rfl, [], posted_rxinit pow2 hpost rxbufsize rxoffset, rfl⟩ fun _ _ _ _ hi hs => hi.step hs

/-- **The receive ring in every reachable state**: the slots with a buffer are
those of `[rxin, rxout)`; at most `nrxpost` are active, so the difference in
`_dma_rxfill` does not wrap; the buffers posted are, in this order, those
taken and those on the ring; every call is defined, no assertion fails in it
and no buffer is overwritten; and `_dma_rxreclaim` frees just the buffers left. -/
theorem rx_ring_invariant {len16 : Pkt → UInt16} {nrxd nrxpost rxbufsize rxoffset : UInt32}
    {pow2 : ∃ k, nrxd.toNat = 2 ^ k} (hpost : nrxpost < nrxd)
    {es : List (RxCall Pkt × RxRet Pkt)} {di : RxRing Pkt}
    (h : Run.Trace (RxRun len16) (_dmaRxinit nrxd pow2 nrxpost rxbufsize rxoffset) es di) :
    (∀ j < nrxd.toNat, di.rxp j ≠ none ↔ Ring.dist nrxd.toNat di.rxin.toNat j < di.active) ∧
      di.active ≤ nrxpost.toNat ∧
      (di.nrxpost - di.nrxdactive di.rxin di.rxout).toNat = nrxpost.toNat - di.active ∧
      es.flatMap posted = es.flatMap taken ++ di.pending ∧
      (∀ c, ∃ di' r, rxStep len16 di c = some (di', r)) ∧
      ∃ di', rxStep len16 di .rxreclaim = some (di', .freed di.pending) ∧ di'.pending = [] := by
  obtain ⟨ht, l, hl, hflow⟩ := rx_run_inv hpost h
  obtain ⟨hnrxd, hnrxpost, -⟩ : di.nrxd = nrxd ∧ di.nrxpost = nrxpost ∧ _ := by
    simpa [RxRing.tunables] using ht
  subst hnrxd hnrxpost
  have hactive : di.active = l.length := hl.nrxdactive
  refine ⟨fun j hj => ?_, hactive ▸ hl.length_le, hactive ▸ hl.lacking, by rw [hl.pending, hflow],
    fun c => ?_, ?_⟩
  · rw [hl.cells.cell j hj, hactive]
    by_cases hd : Ring.dist di.nrxd.toNat di.rxin.toNat j < l.length
    · simp [hd]
    · simp [hd]
  · obtain ⟨di', r, -, hs, -⟩ := rxStep_spec len16 hl c
    exact ⟨di', r, hs⟩
  · have hfuel : l.length < di.nrxd.toNat := Nat.lt_of_le_of_lt hl.length_le hl.nrxpost_lt
    obtain ⟨di', hloop, -, h'⟩ := rxreclaimLoop_spec hl hfuel
    exact ⟨di', by rw [rxStep, _dmaRxreclaim, hloop, hl.pending]; rfl, h'.pending⟩

/-- A ring of four, filled until the third allocation fails. -/
theorem rx_ring_invariant_filled :
    ∃ (es : List (RxCall ℕ × RxRet ℕ)) (di : RxRing ℕ),
      Run.Trace (RxRun fun _ => 0) (_dmaRxinit 4 ⟨2, rfl⟩ 3 2048 30) es di ∧
        es.flatMap posted = [10, 11] ∧ es.flatMap posted = es.flatMap taken ++ di.pending := by
  have h : Run.Trace (RxRun fun _ => 0) (_dmaRxinit 4 ⟨2, rfl⟩ 3 2048 30)
      [((.rxfill fun i => if i < 2 then some (10 + i) else none : RxCall ℕ), .posted [10, 11])] _ :=
    .snoc .nil rfl
  exact ⟨_, _, h, by decide, (rx_ring_invariant (by decide) h).2.2.2.1⟩

end Dma
end Router
