/-
# The transmit ring

The packet pointer of a chain stands in the slot of its last descriptor, the
slots before it are NULL. `Holds di l`: from `txin` to `txout` the slots are
`l`, all others are NULL. A chain accepted appends its slots, reclaiming takes
slots off the front up to the first packet.

`dma32_txfast` counts on the chain to fill a descriptor. A chain of empty
buffers fills none, and its packet is stored into the slot before `txout` all
the same: over the packet that was accepted last, or outside the active slots
(`txfast_drops_packet`). Without such calls no packet is lost or returned
twice (`tx_packets_conserved`).
-/
import RouterFirmware.Lib.Ring
import RouterFirmware.Lib.Run
import RouterFirmware.Dma.Ring

namespace Router
namespace Dma

open Ring

variable {Pkt : Type*}

/-- The slots of the ring from `txin` on, up to `txout`, are `l`. -/
structure Holds (di : TxRing Pkt) (l : List (Option Pkt)) : Prop where
  cells : Cells di.ntxd.toNat di.txin.toNat di.txp l
  txout : di.txout.toNat = (di.txin.toNat + l.length) % di.ntxd.toNat

namespace Holds

variable {di : TxRing Pkt} {l : List (Option Pkt)}

theorem ntxd_pos (h : Holds di l) : 0 < di.ntxd.toNat := by
  have := h.cells.start_lt
  omega

/-- `NTXDACTIVE` is the number of active slots. -/
theorem ntxdactive (h : Holds di l) : (di.ntxdactive di.txin di.txout).toNat = l.length := by
  obtain ⟨k, hk⟩ := di.pow2
  exact h.cells.toNat_mask_sub hk h.txout

/-- The flow control value. -/
theorem avail (h : Holds di l) : di.avail.toNat = di.ntxd.toNat - 1 - l.length := by
  have hlen := h.cells.length_lt
  have hact := h.ntxdactive
  have h1 : di.ntxdactive di.txin di.txout ≤ di.ntxd :=
    UInt32.le_iff_toNat_le.mpr (by omega)
  have hsub := UInt32.toNat_sub_of_le _ _ h1
  have h2 : (1 : UInt32) ≤ di.ntxd - di.ntxdactive di.txin di.txout :=
    UInt32.le_iff_toNat_le.mpr (show 1 ≤ (di.ntxd - di.ntxdactive di.txin di.txout).toNat by omega)
  rw [TxRing.avail, UInt32.toNat_sub_of_le _ _ h2, hsub, hact]
  show di.ntxd.toNat - l.length - 1 = _
  omega

end Holds

theorem toNat_nexttxd (di : TxRing Pkt) (i : UInt32) :
    (di.nexttxd i).toNat = (i.toNat + 1) % di.ntxd.toNat := by
  obtain ⟨k, hk⟩ := di.pow2
  rw [TxRing.nexttxd, xxd, toNat_mask_add hk]
  rfl

/-- One step around the ring. -/
theorem toNat_nexttxd_add {di : TxRing Pkt} {i : UInt32} {a m : ℕ}
    (hi : i.toNat = (a + m) % di.ntxd.toNat) :
    (di.nexttxd i).toNat = (a + (m + 1)) % di.ntxd.toNat := by
  rw [toNat_nexttxd, hi, Nat.mod_add_mod, Nat.add_assoc]

theorem toNat_prevtxd_add {di : TxRing Pkt} {i : UInt32} {a m : ℕ} (hm : m + 1 < di.ntxd.toNat)
    (hi : i.toNat = (a + (m + 1)) % di.ntxd.toNat) :
    (di.prevtxd i).toNat = (a + m) % di.ntxd.toNat := by
  obtain ⟨k, hk⟩ := di.pow2
  have h1 : (1 : UInt32).toNat = 1 := rfl
  rw [TxRing.prevtxd, xxd, toNat_mask_sub hk (by rw [h1]; omega), h1, Ring.dist, hi]
  have hpos : 0 < di.ntxd.toNat := by omega
  generalize di.ntxd.toNat = n at *
  have hsplit : (a + (m + 1)) % n + n - 1 = (a + (m + 1)) % n + (n - 1) := by omega
  rw [hsplit, Nat.mod_add_mod, show a + (m + 1) + (n - 1) = a + m + n by omega, Nat.add_mod_right]

/-! ### Accepting a chain -/

/-- The descriptors a chain takes. -/
def descriptors (lens : List ℕ) : ℕ := (lens.filter (· ≠ 0)).length

/-- The next descriptor, while it is not `txin`. -/
theorem TxRing.next_free {di : TxRing Pkt} {t : UInt32} {m : ℕ} (ha : di.txin.toNat < di.ntxd.toNat)
    (ht : t.toNat % di.ntxd.toNat = (di.txin.toNat + m) % di.ntxd.toNat) (hm : m < di.ntxd.toNat)
    (hfull : di.nexttxd t ≠ di.txin) :
    (di.nexttxd t).toNat = (di.txin.toNat + (m + 1)) % di.ntxd.toNat ∧ m + 1 < di.ntxd.toNat := by
  have hnext : (di.nexttxd t).toNat = (di.txin.toNat + (m + 1)) % di.ntxd.toNat := by
    rw [toNat_nexttxd, Nat.add_mod, ht, ← Nat.add_mod, Nat.add_assoc]
  refine ⟨hnext, ?_⟩
  by_contra hge
  apply hfull
  apply UInt32.toNat_inj.mp
  have hm1 : m + 1 = di.ntxd.toNat := by omega
  rw [hnext, hm1, Nat.add_mod_right, Nat.mod_eq_of_lt ha]

/-- The loop over the buffers, when it does not run out of descriptors. -/
theorem txfastLoop_some {di : TxRing Pkt} (ha : di.txin.toNat < di.ntxd.toNat) :
    ∀ {lens : List ℕ} {t t' : UInt32} {m : ℕ}, t.toNat = (di.txin.toNat + m) % di.ntxd.toNat →
    m < di.ntxd.toNat → txfastLoop di lens t = some t' →
    t'.toNat = (di.txin.toNat + (m + descriptors lens)) % di.ntxd.toNat ∧
      m + descriptors lens < di.ntxd.toNat
  | [], t, t', m, ht, hm, h => by
    cases h
    exact ⟨ht, hm⟩
  | len :: lens, t, t', m, ht, hm, h => by
    unfold txfastLoop at h
    split_ifs at h with hfull hlen
    · have hd : descriptors (len :: lens) = descriptors lens := by simp [descriptors, hlen]
      rw [hd]
      exact txfastLoop_some ha ht hm h
    · have hd : descriptors (len :: lens) = descriptors lens + 1 := by simp [descriptors, hlen]
      obtain ⟨hnext, hm'⟩ := TxRing.next_free ha (by rw [ht, Nat.mod_mod]) hm hfull
      have hrec := txfastLoop_some ha hnext hm' h
      rw [hd]
      exact ⟨by rw [hrec.1]; congr 2; omega, by omega⟩

/-- The chain fills a descriptor, or there is none for it, or it is NULL and
the ring is empty. -/
def FillsOne (di : TxRing Pkt) : Option (BufChain Pkt) → Prop
  | none => di.txin = di.txout
  | some c => (∃ len ∈ chainLens (some c), len ≠ 0) ∨ di.nexttxd di.txout = di.txin

/-- What `dma32_txfast` does with a chain that fills a descriptor. -/
theorem txfast_spec {di : TxRing Pkt} {l : List (Option Pkt)} (h : Holds di l)
    {chain : Option (BufChain Pkt)} (hc : FillsOne di chain) :
    ((dma32Txfast di chain).2 = -1 ∧ Holds (dma32Txfast di chain).1 l) ∨
    (dma32Txfast di chain).2 = 0 ∧ (dma32Txfast di chain).1.txavail = (dma32Txfast di chain).1.avail ∧
      ∃ l', Holds (dma32Txfast di chain).1 (l ++ l') ∧
        l'.filterMap id = (chain.map BufChain.p0).toList := by
  unfold dma32Txfast
  cases hloop : txfastLoop di (chainLens chain) di.txout with
  | none => exact Or.inl ⟨rfl, ⟨h.cells, h.txout⟩⟩
  | some t =>
    have ha := h.cells.start_lt
    obtain ⟨ht, hlt⟩ := txfastLoop_some ha h.txout h.cells.length_lt hloop
    refine Or.inr ⟨rfl, rfl, ?_⟩
    cases chain with
    | none =>
      -- NULL into a slot of an empty ring
      have hact := h.ntxdactive
      have hin : di.txin = di.txout := hc
      have hl : l = [] := by
        obtain ⟨k, hk⟩ := di.pow2
        rw [TxRing.ntxdactive, xxd, toNat_mask_sub hk ha, ← hin, dist_eq ha ha] at hact
        exact List.length_eq_zero_iff.mp (by simpa using hact.symm)
      subst hl
      have hprev : (di.prevtxd t).toNat < di.ntxd.toNat := by
        obtain ⟨k, hk⟩ := di.pow2
        rw [TxRing.prevtxd, xxd, toNat_mask hk]
        exact Nat.mod_lt _ h.ntxd_pos
      have hsame : Function.update di.txp (di.prevtxd t).toNat none = di.txp := by
        rw [← h.cells.empty hprev (Nat.zero_le _), Function.update_eq_self]
      refine ⟨[], ⟨?_, ?_⟩, rfl⟩
      · show Cells di.ntxd.toNat di.txin.toNat (Function.update di.txp (di.prevtxd t).toNat none) _
        rw [hsame]
        exact h.cells
      · exact ht
    | some c =>
      obtain ⟨m, hm⟩ : ∃ m, descriptors (chainLens (some c)) = m + 1 := by
        rcases hc with ⟨len, hmem, hne⟩ | hfull
        · have hpos : 0 < descriptors (chainLens (some c)) :=
            List.length_pos_of_mem (List.mem_filter.mpr ⟨hmem, by simpa using hne⟩)
          exact ⟨descriptors (chainLens (some c)) - 1, by omega⟩
        · -- a full ring takes no buffer at all
          rw [chainLens, txfastLoop, if_pos hfull] at hloop
          cases hloop
      rw [hm] at ht hlt
      have hprev := toNat_prevtxd_add (a := di.txin.toNat) (m := l.length + m) (by omega)
        (by rw [ht]; congr 2)
      have hcells := h.cells.extend (k := m) (by omega)
      have hpush := hcells.push (by simp; omega) (some c.p0)
      rw [List.length_append, List.length_replicate] at hpush
      refine ⟨List.replicate m none ++ [some c.p0], ⟨?_, ?_⟩, ?_⟩
      · show Cells di.ntxd.toNat di.txin.toNat
          (Function.update di.txp (di.prevtxd t).toNat (some c.p0)) _
        rw [hprev, ← List.append_assoc]
        exact hpush
      · show t.toNat = (di.txin.toNat + _) % di.ntxd.toNat
        rw [ht]
        simp
      · simp

/-! ### Reclaiming -/

/-- The loop takes slots off the front, `e` of them or up to the first packet. -/
theorem nexttxpLoop_spec {di : TxRing Pkt} {last : UInt32} : ∀ {e fuel a : ℕ} {i : UInt32}
    {txp : ℕ → Option Pkt} {l : List (Option Pkt)}, Cells di.ntxd.toNat a txp l → i.toNat = a →
    last.toNat = (a + e) % di.ntxd.toNat → e ≤ l.length → e < fuel →
    ∃ d i' txp' r, nexttxpLoop di last fuel i txp = some (i', txp', r) ∧ d ≤ e ∧
      i'.toNat = (a + d) % di.ntxd.toNat ∧ Cells di.ntxd.toNat ((a + d) % di.ntxd.toNat) txp' (l.drop d) ∧
      (l.take d).filterMap id = r.toList ∧ (r = none → d = e) ∧ (r ≠ none → 0 < d)
  | 0, fuel + 1, a, i, txp, l, hc, hi, hlast, _, _ => by
    have ha := hc.start_lt
    have hend : i = last := by
      apply UInt32.toNat_inj.mp
      rw [hlast, hi, Nat.add_zero, Nat.mod_eq_of_lt ha]
    refine ⟨0, i, txp, none, by rw [nexttxpLoop, if_pos hend], le_refl _, ?_, ?_, rfl, fun _ => rfl,
      fun hr => absurd rfl hr⟩
    · rw [Nat.add_zero, Nat.mod_eq_of_lt ha, hi]
    · rw [Nat.add_zero, Nat.mod_eq_of_lt ha]
      exact hc
  | e + 1, fuel + 1, a, i, txp, x :: l, hc, hi, hlast, he, hf => by
    have ha := hc.start_lt
    have hlen := hc.length_lt
    rw [List.length_cons] at he hlen
    have hne : i ≠ last := by
      intro hil
      rw [← hil, hi, add_mod_eq ha (by omega)] at hlast
      split_ifs at hlast <;> omega
    have hnext : (di.nexttxd i).toNat = (a + 1) % di.ntxd.toNat := by rw [toNat_nexttxd, hi]
    have hfirst := hc.first
    have hpop := hc.pop
    rw [nexttxpLoop, if_neg hne, hi, hfirst]
    cases x with
    | some p =>
      refine ⟨1, _, _, some p, rfl, by omega, hnext, ?_, ?_, fun hr => absurd hr (by simp),
        fun _ => by omega⟩
      · rw [List.drop_one, List.tail_cons]
        exact hpop
      · simp
    | none =>
      have hlast' : last.toNat = ((a + 1) % di.ntxd.toNat + e) % di.ntxd.toNat := by
        rw [hlast, Nat.mod_add_mod]
        congr 1
        omega
      obtain ⟨d, i', txp', r, hloop, hd, hi', hcells, htake, hnone, hsome⟩ :=
        nexttxpLoop_spec hpop hnext hlast' (by omega) (by omega : e < fuel)
      have hshift : ((a + 1) % di.ntxd.toNat + d) % di.ntxd.toNat = (a + (d + 1)) % di.ntxd.toNat := by
        rw [Nat.mod_add_mod]
        congr 1
        omega
      rw [hshift] at hi' hcells
      refine ⟨d + 1, i', txp', r, hloop, by omega, hi', hcells, ?_, fun hr => by rw [hnone hr],
        fun _ => by omega⟩
      simpa using htake

/-- The current descriptor is one of `[txin, txout]`. -/
def TxRing.InRange (di : TxRing Pkt) (curr : UInt32) : Prop :=
  ∃ d ≤ (di.ntxdactive di.txin di.txout).toNat,
    curr.toNat = (di.txin.toNat + d) % di.ntxd.toNat

/-- What `dma32_getnexttxp` does: it takes slots with at most one packet, all
up to the current descriptor when there is none in them. -/
theorem getnexttxp_spec {di : TxRing Pkt} {l : List (Option Pkt)} (h : Holds di l) (forceall : Bool)
    (curr : UInt32) (hcurr : forceall = false → di.InRange curr) :
    ∃ d di' r, dma32Getnexttxp di forceall curr = some (di', r) ∧ d ≤ l.length ∧
      di'.ntxd = di.ntxd ∧ Holds di' (l.drop d) ∧ di'.txavail = di'.avail ∧
      (l.take d).filterMap id = r.toList ∧ (r ≠ none → 0 < d) ∧
      (forceall = true → r = none → d = l.length) := by
  have ha := h.cells.start_lt
  have hlen := h.cells.length_lt
  have hpos := h.ntxd_pos
  have hne : di.ntxd ≠ 0 := by
    intro h0
    rw [h0] at hpos
    exact absurd hpos (by decide)
  -- how far the reclaim may go
  obtain ⟨e, he, hlast, hall⟩ : ∃ e ≤ l.length,
      (if forceall then di.txout else curr).toNat = (di.txin.toNat + e) % di.ntxd.toNat ∧
        (forceall = true → e = l.length) := by
    cases forceall with
    | true => exact ⟨l.length, le_refl _, h.txout, fun _ => rfl⟩
    | false =>
      obtain ⟨d, hd, hc⟩ := hcurr rfl
      rw [h.ntxdactive] at hd
      exact ⟨d, hd, hc, fun hf => absurd hf (by decide)⟩
  have hbogus : ¬ (di.txin = 0 ∧ (if forceall then di.txout else curr) > di.txout) := by
    intro ⟨h0, hgt⟩
    have hgt' := UInt32.lt_iff_toNat_lt.mp hgt
    have h0' : di.txin.toNat = 0 := by rw [h0]; rfl
    rw [hlast, h.txout, h0', Nat.zero_add, Nat.zero_add, Nat.mod_eq_of_lt hlen,
      Nat.mod_eq_of_lt (by omega)] at hgt'
    omega
  obtain ⟨d, i', txp', r, hloop, hd, hi', hcells, htake, hnone, hsome⟩ :=
    nexttxpLoop_spec h.cells rfl hlast he (by omega : e < di.ntxd.toNat)
  unfold dma32Getnexttxp
  rw [if_neg hne]
  simp only
  rw [if_neg hbogus, hloop]
  refine ⟨d, _, r, rfl, by omega, rfl, ⟨?_, ?_⟩, rfl, htake, hsome, fun hf hr => ?_⟩
  · show Cells di.ntxd.toNat i'.toNat txp' (l.drop d)
    rw [hi']
    exact hcells
  · show di.txout.toNat = (i'.toNat + (l.drop d).length) % di.ntxd.toNat
    rw [h.txout, hi', Nat.mod_add_mod, List.length_drop]
    congr 1
    omega
  · rw [hnone hr, hall hf]

/-- What `dma32_txreclaim` does: it takes slots and frees the packets in them,
all of them when forced. -/
theorem txreclaimLoop_spec {forceall : Bool} {curr : ℕ → TxRing Pkt → UInt32}
    (hcurr : forceall = false → ∀ k (di : TxRing Pkt), di.InRange (curr k di)) :
    ∀ {fuel : ℕ} (k : ℕ) {di : TxRing Pkt} {l : List (Option Pkt)}, Holds di l → l.length < fuel →
    ∃ d di', txreclaimLoop forceall curr fuel k di = some (di', (l.take d).filterMap id) ∧
      di'.ntxd = di.ntxd ∧ Holds di' (l.drop d) ∧ di'.txavail = di'.avail ∧
      (forceall = true → d = l.length)
  | fuel + 1, k, di, l, h, hf => by
    obtain ⟨d, di', r, hget, hd, hn, h', havail, htake, hsome, hnone⟩ :=
      getnexttxp_spec h forceall (curr k di) fun hf => hcurr hf k di
    unfold txreclaimLoop
    rw [hget]
    cases r with
    | none =>
      refine ⟨d, di', ?_, hn, h', havail, fun hf => hnone hf rfl⟩
      rw [htake]
      rfl
    | some p =>
      have hpos := hsome (by simp)
      obtain ⟨d', di'', hloop, hn', h'', havail', hall⟩ :=
        txreclaimLoop_spec hcurr (k + 1) h' (by rw [List.length_drop]; omega : _ < fuel)
      refine ⟨d + d', di'', ?_, hn'.trans hn, ?_, havail', fun hf => ?_⟩
      · simp only [hloop, Option.map_some]
        rw [List.take_add, List.filterMap_append, htake]
        rfl
      · rw [← List.drop_drop]
        exact h''
      · rw [hall hf, List.length_drop]
        omega

/-! ### Runs -/

/-- The calls on the transmit ring, with what the hardware shows them. -/
inductive TxCall (Pkt : Type*)
  | txfast (chain : Option (BufChain Pkt))
  | getnexttxp (forceall : Bool) (curr : UInt32)
  | txreclaim (forceall : Bool) (curr : ℕ → TxRing Pkt → UInt32)
  | txblock
  | txunblock

/-- What they answer: a result, a packet, or the packets freed. -/
inductive TxRet (Pkt : Type*)
  | ret (r : ℤ)
  | pkt (p : Option Pkt)
  | freed (ps : List Pkt)

def txStep (di : TxRing Pkt) : TxCall Pkt → Option (TxRing Pkt × TxRet Pkt)
  | .txfast chain => some ((dma32Txfast di chain).1, .ret (dma32Txfast di chain).2)
  | .getnexttxp forceall curr =>
    (dma32Getnexttxp di forceall curr).map fun (di', p) => (di', .pkt p)
  | .txreclaim forceall curr =>
    (dma32Txreclaim di forceall curr).map fun (di', ps) => (di', .freed ps)
  | .txblock => some (_dmaTxblock di, .ret 0)
  | .txunblock => some (_dmaTxunblock di, .ret 0)

/-- The hardware is somewhere in `[txin, txout]` whenever it is asked. -/
def TxRing.Legal (di : TxRing Pkt) : TxCall Pkt → Prop
  | .getnexttxp forceall curr => forceall = false → di.InRange curr
  | .txreclaim forceall curr => forceall = false → ∀ k (di : TxRing Pkt), di.InRange (curr k di)
  | _ => True

/-- Every chain handed to `dma32_txfast` fills a descriptor. -/
def TxRing.Fills (di : TxRing Pkt) : TxCall Pkt → Prop
  | .txfast chain => FillsOne di chain
  | _ => True

/-- The packet a call accepts, by its answer. -/
def accepted : TxCall Pkt × TxRet Pkt → List Pkt
  | (.txfast chain, .ret r) => if r = 0 then (chain.map BufChain.p0).toList else []
  | _ => []

/-- The packets a call returns or frees. -/
def released : TxCall Pkt × TxRet Pkt → List Pkt
  | (.getnexttxp _ _, .pkt p) => p.toList
  | (.txreclaim _ _, .freed ps) => ps
  | _ => []

/-- The call computes `txavail` anew. -/
def recomputes : TxCall Pkt × TxRet Pkt → Prop
  | (.txfast _, .ret r) => r = 0
  | (.getnexttxp _ _, _) => True
  | (.txreclaim _ _, _) => True
  | (.txunblock, _) => True
  | _ => False

/-- The number of active descriptors, and the packets in them. -/
def TxRing.active (di : TxRing Pkt) : ℕ := (di.ntxdactive di.txin di.txout).toNat

def TxRing.pending (di : TxRing Pkt) : List Pkt :=
  (List.range di.active).filterMap fun d => di.txp ((di.txin.toNat + d) % di.ntxd.toNat)

theorem Holds.pending {di : TxRing Pkt} {l : List (Option Pkt)} (h : Holds di l) :
    di.pending = l.filterMap id := by
  have hactive : di.active = l.length := h.ntxdactive
  rw [TxRing.pending, hactive]
  nth_rewrite 2 [← h.cells.map_range]
  rw [List.filterMap_map]
  rfl

/-- **One call on the ring**: it is defined, takes slots off the front and
appends those of what it accepts. -/
theorem txStep_spec {di : TxRing Pkt} {l : List (Option Pkt)} (h : Holds di l) {c : TxCall Pkt}
    (hlegal : di.Legal c) (hfills : di.Fills c) :
    ∃ di' r d l', txStep di c = some (di', r) ∧ di'.ntxd = di.ntxd ∧ Holds di' (l.drop d ++ l') ∧
      (l.take d).filterMap id = released (c, r) ∧ l'.filterMap id = accepted (c, r) ∧
      (recomputes (c, r) → di'.txavail = di'.avail) ∧
      (∀ curr, c = .txreclaim true curr → l.drop d ++ l' = []) := by
  cases c with
  | txfast chain =>
    have hn : (dma32Txfast di chain).1.ntxd = di.ntxd := by
      unfold dma32Txfast
      split <;> rfl
    rcases txfast_spec h hfills with ⟨hr, h'⟩ | ⟨hr, havail, l', h', hl'⟩
    · refine ⟨_, _, 0, [], rfl, hn, by simpa using h', rfl, ?_, ?_, by simp⟩
      · simp [accepted, hr]
      · intro hrec
        simp [recomputes, hr] at hrec
    · refine ⟨_, _, 0, l', rfl, hn, by simpa using h', rfl, ?_, fun _ => havail, by simp⟩
      rw [hl', accepted, if_pos hr]
  | getnexttxp forceall curr =>
    obtain ⟨d, di', r, hget, -, hn, h', havail, htake, -⟩ := getnexttxp_spec h forceall curr hlegal
    exact ⟨di', .pkt r, d, [], by rw [txStep, hget]; rfl, hn, by simpa using h', htake, rfl,
      fun _ => havail, by simp⟩
  | txreclaim forceall curr =>
    obtain ⟨d, di', hloop, hn, h', havail, hall⟩ :=
      txreclaimLoop_spec hlegal 0 h h.cells.length_lt
    refine ⟨di', .freed _, d, [], by rw [txStep, dma32Txreclaim, hloop]; rfl, hn, by simpa using h',
      rfl, rfl, fun _ => havail, fun curr' hc => ?_⟩
    injection hc with hforce
    rw [hall hforce, List.drop_length, List.append_nil]
  | txblock =>
    exact ⟨_, _, 0, [], rfl, rfl, by simpa using ⟨h.cells, h.txout⟩, rfl, rfl,
      fun hrec => hrec.elim, by simp⟩
  | txunblock =>
    exact ⟨_, _, 0, [], rfl, rfl, by simpa using ⟨h.cells, h.txout⟩, rfl, rfl,
      fun _ => rfl, by simp⟩

/-- A call and its answer, with the hardware in its range. -/
def TxRun (di : TxRing Pkt) (e : TxCall Pkt × TxRet Pkt) (di' : TxRing Pkt) : Prop :=
  di.Legal e.1 ∧ txStep di e.1 = some (di', e.2)

/-- The same, where no chain of empty buffers is handed over. -/
def TxFillsRun (di : TxRing Pkt) (e : TxCall Pkt × TxRet Pkt) (di' : TxRing Pkt) : Prop :=
  di.Fills e.1 ∧ TxRun di e di'

theorem holds_txinit (ntxd : UInt32) (pow2 : ∃ k, ntxd.toNat = 2 ^ k) (txnobuf : UInt32) :
    Holds (dma32Txinit ntxd pow2 txnobuf : TxRing Pkt) [] := by
  have hpos : 0 < ntxd.toNat := by
    obtain ⟨k, hk⟩ := pow2
    rw [hk]
    exact Nat.two_pow_pos k
  exact ⟨⟨hpos, hpos, fun _ _ => rfl⟩, (Nat.zero_mod _).symm⟩

/-- After a run: the size of the ring, and the packets accepted are those
released, then those in the slots; `txavail` is right if the last call
computed it. -/
def TxInv (ntxd : UInt32) (es : List (TxCall Pkt × TxRet Pkt)) (di : TxRing Pkt) : Prop :=
  di.ntxd = ntxd ∧ (∀ pre e, es = pre ++ [e] → recomputes e → di.txavail = di.avail) ∧
    ∃ l, Holds di l ∧ es.flatMap accepted = es.flatMap released ++ l.filterMap id

theorem TxInv.step {ntxd : UInt32} {es : List (TxCall Pkt × TxRet Pkt)} {di di' : TxRing Pkt}
    {e : TxCall Pkt × TxRet Pkt} (hinv : TxInv ntxd es di) (hstep : TxFillsRun di e di') :
    TxInv ntxd (es ++ [e]) di' := by
  obtain ⟨hn, -, l, h, hflow⟩ := hinv
  obtain ⟨hfills, hlegal, hs⟩ := hstep
  obtain ⟨di₁, r, d, l', hs', hn', h', hrel, hacc, havail, -⟩ := txStep_spec h hlegal hfills
  obtain ⟨rfl, hr⟩ := Prod.mk.inj (Option.some.inj (hs.symm.trans hs'))
  have he : e = (e.1, r) := by rw [← hr]
  rw [← he] at hrel hacc havail
  refine ⟨hn'.trans hn, fun pre e' hpre hrec => ?_, l.drop d ++ l', h', ?_⟩
  · obtain ⟨-, hlast⟩ := List.append_inj' hpre rfl
    rw [← List.singleton_inj.mp hlast] at hrec
    exact havail hrec
  · have hsplit : l.filterMap id = released e ++ (l.drop d).filterMap id := by
      rw [← hrel, ← List.filterMap_append, List.take_append_drop]
    calc (es ++ [e]).flatMap accepted
        = es.flatMap accepted ++ accepted e := by simp
      _ = es.flatMap released ++ l.filterMap id ++ accepted e := by rw [hflow]
      _ = es.flatMap released ++ released e ++ ((l.drop d).filterMap id ++ accepted e) := by
        rw [hsplit]
        simp only [List.append_assoc]
      _ = (es ++ [e]).flatMap released ++ (l.drop d ++ l').filterMap id := by
        rw [List.filterMap_append, hacc]
        simp

/-- **No packet is lost or returned twice**, in every run whose chains each
fill a descriptor: those accepted are, in this order, those returned or freed
and those still in the active slots; the other slots are NULL; `txavail` is
right after a call that computes it; every further call is defined, and a
forced reclaim frees just the packets left. -/
theorem tx_packets_conserved {ntxd : UInt32} {pow2 : ∃ k, ntxd.toNat = 2 ^ k} {txnobuf : UInt32}
    {es : List (TxCall Pkt × TxRet Pkt)} {di : TxRing Pkt}
    (h : Run.Trace TxFillsRun (dma32Txinit ntxd pow2 txnobuf) es di) :
    es.flatMap accepted = es.flatMap released ++ di.pending ∧
      (∀ j < ntxd.toNat, di.active ≤ Ring.dist ntxd.toNat di.txin.toNat j → di.txp j = none) ∧
      (∀ pre e, es = pre ++ [e] → recomputes e →
        di.txavail.toNat = ntxd.toNat - 1 - di.active) ∧
      (∀ c, di.Legal c → di.Fills c → ∃ di' r, txStep di c = some (di', r)) ∧
      ∀ curr, ∃ di', txStep di (.txreclaim true curr) = some (di', .freed di.pending) ∧
        di'.pending = [] := by
  have hinv : TxInv ntxd es di :=
    h.inv ⟨rfl, fun pre e he => by simp at he, [], holds_txinit ntxd pow2 txnobuf, rfl⟩
      fun _ _ _ _ hi hs => hi.step hs
  obtain ⟨rfl, havail, l, hl, hflow⟩ := hinv
  have hactive : di.active = l.length := hl.ntxdactive
  refine ⟨by rw [hflow, hl.pending], fun j hj hd => hl.cells.empty hj (hactive ▸ hd), ?_, ?_, ?_⟩
  · intro pre e he hrec
    rw [havail pre e he hrec, hl.avail, hactive]
  · intro c hlegal hfills
    obtain ⟨di', r, -, -, hs, -⟩ := txStep_spec hl hlegal hfills
    exact ⟨di', r, hs⟩
  · intro curr
    have hlegal : di.Legal (.txreclaim true curr) := fun hf => absurd hf (by decide)
    obtain ⟨d, di', hloop, -, h', -, hall⟩ := txreclaimLoop_spec hlegal 0 hl hl.cells.length_lt
    have hd := hall rfl
    refine ⟨di', ?_, ?_⟩
    · rw [txStep, dma32Txreclaim, hloop, hd, List.take_length, hl.pending]
      rfl
    · rw [h'.pending, hd, List.drop_length]
      rfl

/-- A packet of one buffer through a ring of four. -/
theorem tx_packets_conserved_one :
    ∃ (es : List (TxCall ℕ × TxRet ℕ)) (di : TxRing ℕ),
      Run.Trace TxFillsRun (dma32Txinit 4 ⟨2, rfl⟩ 0) es di ∧
        es.flatMap accepted = [1] ∧ es.flatMap accepted = es.flatMap released ++ di.pending := by
  have h : Run.Trace TxFillsRun (dma32Txinit 4 ⟨2, rfl⟩ 0)
      [((.txfast (some ⟨1, 100, []⟩) : TxCall ℕ), .ret 0)] _ :=
    .snoc .nil ⟨Or.inl ⟨100, by decide, by decide⟩, trivial, rfl⟩
  exact ⟨_, _, h, by decide, (tx_packets_conserved h).1⟩

/-- A chain of one empty buffer. Behind a packet it takes that packet's slot:
both were accepted, one is freed. On an empty ring it leaves its packet in a
slot that is not active. -/
theorem txfast_drops_packet :
    (∃ (es : List (TxCall ℕ × TxRet ℕ)) (di : TxRing ℕ),
      Run.Trace TxRun (dma32Txinit 4 ⟨2, rfl⟩ 0) es di ∧ es.flatMap accepted = [1, 2] ∧
        es.flatMap released = [2] ∧ di.active = 0) ∧
    ∃ (es : List (TxCall ℕ × TxRet ℕ)) (di : TxRing ℕ),
      Run.Trace TxRun (dma32Txinit 4 ⟨2, rfl⟩ 0) es di ∧ es.flatMap accepted = [2] ∧
        di.active = 0 ∧ di.txp 3 = some 2 := by
  have hempty : TxRun (dma32Txinit 4 ⟨2, rfl⟩ 0) ((.txfast (some ⟨2, 0, []⟩) : TxCall ℕ), .ret 0) _ :=
    ⟨trivial, rfl⟩
  have hlost : Run.Trace TxRun (dma32Txinit 4 ⟨2, rfl⟩ 0)
      [((.txfast (some ⟨1, 100, []⟩) : TxCall ℕ), .ret 0), (.txfast (some ⟨2, 0, []⟩), .ret 0),
        (.txreclaim true fun _ _ => 0, .freed [2])] _ :=
    .snoc (.snoc (.snoc .nil ⟨trivial, rfl⟩) ⟨trivial, rfl⟩)
      ⟨fun hf => absurd hf (by decide), rfl⟩
  exact ⟨⟨_, _, hlost, by decide, by decide, by decide⟩, ⟨_, _, .snoc .nil hempty, by decide, by decide,
    by decide⟩⟩

end Dma
end Router
