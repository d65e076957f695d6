/-
# Frames over several receive buffers

The hardware puts a frame into consecutive buffers; the first carries the
length, which says how many follow. `_dma_rx` frees the buffers of a frame
that does not fit into one. How much there is to skip it keeps in a local
variable, so a call that catches up with the hardware inside such a frame
forgets it, and the next call takes the rest of the frame for the start of
another (`rx_delivers_continuation`). As long as no call stops inside a frame,
just the frames of one buffer are delivered (`giants_discarded`).
-/
import RouterFirmware.Dma.Rx

namespace Router
namespace Dma

variable {Pkt : Type*}

/-- The buffers behind the first that a frame takes. -/
def continuations (rxbufsize rxoffset : UInt32) (len : UInt16) : ℕ :=
  (len.toNat + rxoffset.toNat - rxbufsize.toNat + (rxbufsize.toNat - 1)) / rxbufsize.toNat

/-- A frame in its buffers. -/
structure Frame (Pkt : Type*) where
  first : Pkt
  rest : List Pkt

namespace Frame

def bufs (f : Frame Pkt) : List Pkt := f.first :: f.rest

/-- The frame has the buffers its length takes. -/
def Placed (len16 : Pkt → UInt16) (rxbufsize rxoffset : UInt32) (f : Frame Pkt) : Prop :=
  f.rest.length = continuations rxbufsize rxoffset (len16 f.first)

instance (len16 : Pkt → UInt16) (rxbufsize rxoffset : UInt32) (f : Frame Pkt) :
    Decidable (f.Placed len16 rxbufsize rxoffset) :=
  inferInstanceAs (Decidable (_ = _))

/-- The frame fits into one buffer. -/
def fits (len16 : Pkt → UInt16) (rxbufsize rxoffset : UInt32) (f : Frame Pkt) : Bool :=
  (len16 f.first).toNat + rxoffset.toNat ≤ rxbufsize.toNat

/-- The packet delivered for it, with its length. -/
def packet (len16 : Pkt → UInt16) (rxoffset : UInt32) (f : Frame Pkt) : Pkt × UInt32 :=
  (f.first, rxoffset + (len16 f.first).toUInt32)

end Frame

/-! ### What is left to skip -/

theorem skipRest_eq {rxbufsize : UInt32} (hbuf : 0 < rxbufsize.toNat)
    (hint : rxbufsize.toNat < 2 ^ 31) {s : ℕ} (hs : s < 2 ^ 31) :
    skipRest s rxbufsize = ((s - rxbufsize.toNat : ℕ) : ℤ) := by
  have hmod : ((s : ℤ) - rxbufsize.toNat).bmod (2 ^ 32) = (s : ℤ) - rxbufsize.toNat :=
    Int.bmod_eq_of_le (by omega) (by omega)
  unfold skipRest
  simp only [hmod]
  split_ifs <;> omega

/-- The number of buffers that hold `s` bytes, one off. -/
theorem ceil_succ {s b : ℕ} (hs : 0 < s) (hb : 0 < b) :
    (s + (b - 1)) / b = (s - b + (b - 1)) / b + 1 := by
  rcases Nat.lt_or_ge s b with hlt | hge
  · have h0 : s - b = 0 := by omega
    rw [h0, Nat.zero_add, Nat.div_eq_of_lt (by omega : b - 1 < b)]
    rw [show s + (b - 1) = s - 1 + b by omega, Nat.add_div_right _ hb, Nat.div_eq_of_lt (by omega)]
  · rw [show s + (b - 1) = s - b + (b - 1) + b by omega, Nat.add_div_right _ hb]

/-- What a giant frame sets `skiplen` to. -/
theorem toCInt_giant {rxbufsize rxoffset : UInt32} (hoff : rxoffset ≤ rxbufsize) {len : UInt16}
    (hgiant : rxbufsize - rxoffset < len.toUInt32) :
    toCInt (len.toUInt32 - (rxbufsize - rxoffset)) =
      ((len.toNat + rxoffset.toNat - rxbufsize.toNat : ℕ) : ℤ) := by
  have hlen : len.toUInt32.toNat = len.toNat := UInt16.toNat_toUInt32 len
  have hlt := len.toNat_lt
  have hle := UInt32.le_iff_toNat_le.mp hoff
  have hsub := UInt32.toNat_sub_of_le _ _ hoff
  have hg := UInt32.lt_iff_toNat_lt.mp hgiant
  unfold toCInt
  rw [UInt32.toNat_sub_of_le _ _ (UInt32.le_iff_toNat_le.mpr (Nat.le_of_lt hg)), hlen, hsub]
  rw [hlen, hsub] at hg
  rw [Int.bmod_eq_of_le (by omega) (by omega)]
  omega

theorem fits_iff {len16 : Pkt → UInt16} {rxbufsize rxoffset : UInt32} (hoff : rxoffset ≤ rxbufsize)
    {f : Frame Pkt} : f.fits len16 rxbufsize rxoffset = true ↔
      ¬ rxbufsize - rxoffset < (len16 f.first).toUInt32 := by
  have hlen : (len16 f.first).toUInt32.toNat = (len16 f.first).toNat := UInt16.toNat_toUInt32 _
  have hle := UInt32.le_iff_toNat_le.mp hoff
  rw [UInt32.lt_iff_toNat_lt, hlen, UInt32.toNat_sub_of_le _ _ hoff, Frame.fits, decide_eq_true_eq]
  omega

/-! ### The driver's position -/

/-- The driver has taken `m` of `p` buffers posted so far, the ring holds the
others. -/
structure At (di : RxRing Pkt) (l : List Pkt) (m p : ℕ) : Prop where
  posted : Posted di l
  rxin : di.rxin.toNat = m % di.nrxd.toNat
  total : m + l.length = p

/-- At its `k`-th read of a call that began behind `n` of `p` buffers the
driver has caught up: no buffer is left, or the hardware is still there. -/
def stops (nrxd : UInt32) (n p : ℕ) (curr : ℕ → UInt32) (k : ℕ) : Bool :=
  p ≤ n + k ∨ (curr k).toNat = (n + k) % nrxd.toNat

theorem At.get_none {di : RxRing Pkt} {l : List Pkt} {n k p : ℕ} {curr : ℕ → UInt32}
    (h : At di l (n + k) p) (hs : stops di.nrxd n p curr k = true) :
    _dmaGetnextrxp di false (curr k) = some (di, none) := by
  have htotal := h.total
  rcases getnextrxp_spec h.posted false (curr k) with ⟨hget, -⟩ | ⟨x, l', di', rfl, -, hne, -⟩
  · exact hget
  · rcases of_decide_eq_true hs with hp | hc
    · rw [List.length_cons] at htotal
      omega
    · exact absurd (UInt32.toNat_inj.mp (by rw [hc, h.rxin])) (hne rfl)

theorem At.get_some {di : RxRing Pkt} {l : List Pkt} {n k p : ℕ} {curr : ℕ → UInt32}
    (h : At di l (n + k) p) (hs : stops di.nrxd n p curr k = false) :
    ∃ x l' di', l = x :: l' ∧ _dmaGetnextrxp di false (curr k) = some (di', some x) ∧
      di'.tunables = di.tunables ∧ At di' l' (n + (k + 1)) p := by
  have htotal := h.total
  have hgo := of_decide_eq_false hs
  push Not at hgo
  rcases getnextrxp_spec h.posted false (curr k) with ⟨-, hend⟩ | ⟨x, l', di', rfl, hget, -, ht, hin, h'⟩
  · rcases hend with rfl | ⟨-, hc⟩
    · rw [List.length_nil] at htotal
      omega
    · exact absurd (by rw [← hc, h.rxin]) hgo.2
  · have hn : di'.nrxd = di.nrxd := congrArg Prod.fst ht
    refine ⟨x, l', di', rfl, hget, ht, h', ?_, ?_⟩
    · rw [hin, toNat_nextrxd, h.rxin, hn, Nat.mod_add_mod, Nat.add_assoc]
    · rw [List.length_cons] at htotal
      omega

/-! ### One call -/

section Call

variable (len16 : Pkt → UInt16) (rxbufsize rxoffset : UInt32) (stop : ℕ → Bool)

/-- The frames a call takes of those in front of it: giants, and the frame it
delivers. -/
def rxFrames : ℕ → List (Frame Pkt) → List (Frame Pkt) × Option (Frame Pkt)
  | _, [] => ([], none)
  | k, f :: fs =>
    if stop k then ([], none)
    else if f.fits len16 rxbufsize rxoffset then ([], some f)
    else (f :: (rxFrames (k + f.bufs.length) fs).1, (rxFrames (k + f.bufs.length) fs).2)

/-- No read of the call finds the driver caught up inside a giant. -/
def Whole : ℕ → List (Frame Pkt) → Prop
  | _, [] => True
  | k, f :: fs => stop k = true ∨ f.fits len16 rxbufsize rxoffset = true ∨
    (∀ j < f.rest.length, stop (k + 1 + j) = false) ∧ Whole (k + f.bufs.length) fs

theorem rxFrames_split : ∀ (k : ℕ) (fs : List (Frame Pkt)), ∃ fs',
    fs = (rxFrames len16 rxbufsize rxoffset stop k fs).1 ++
      (rxFrames len16 rxbufsize rxoffset stop k fs).2.toList ++ fs' ∧
    ((rxFrames len16 rxbufsize rxoffset stop k fs).1 ++
      (rxFrames len16 rxbufsize rxoffset stop k fs).2.toList).filter
        (Frame.fits len16 rxbufsize rxoffset) =
      (rxFrames len16 rxbufsize rxoffset stop k fs).2.toList
  | _, [] => ⟨[], rfl, rfl⟩
  | k, f :: fs => by
    unfold rxFrames
    by_cases hstop : stop k = true
    · rw [if_pos hstop]
      exact ⟨f :: fs, rfl, rfl⟩
    · rw [if_neg hstop]
      by_cases hfit : f.fits len16 rxbufsize rxoffset = true
      · rw [if_pos hfit]
        exact ⟨fs, rfl, by simp [hfit]⟩
      · rw [if_neg hfit]
        obtain ⟨fs', hsplit, hfilter⟩ := rxFrames_split (k + f.bufs.length) fs
        refine ⟨fs', ?_, ?_⟩
        · rw [List.cons_append, List.cons_append, ← hsplit]
        · rw [List.cons_append, List.filter_cons_of_neg hfit]
          exact hfilter

variable {rxbufsize rxoffset}

/-- The continuation buffers of a giant are freed one by one. -/
theorem rxLoop_skip (hbuf : 0 < rxbufsize.toNat) (hint : rxbufsize.toNat < 2 ^ 31)
    {curr : ℕ → UInt32} {n p : ℕ} (fuel : ℕ) : ∀ {r : List Pkt} {k s : ℕ} {di : RxRing Pkt}
    {l more tl : List Pkt}, di.rxbufsize = rxbufsize → At di l (n + k) p → l ++ more = r ++ tl →
    r.length = (s + (rxbufsize.toNat - 1)) / rxbufsize.toNat → s < 2 ^ 31 →
    (∀ j < r.length, stops di.nrxd n p curr (k + j) = false) →
    ∃ di' l', l = r ++ l' ∧ di'.tunables = di.tunables ∧ At di' l' (n + (k + r.length)) p ∧
      rxLoop len16 curr (r.length + fuel) k s di =
        (rxLoop len16 curr fuel (k + r.length) 0 di').map fun (di, q, ps) => (di, q, r ++ ps)
  | [], k, s, di, l, more, tl, _, h, _, hlen, _, _ => by
    have hs : s = 0 := by
      by_contra hne
      rw [ceil_succ (Nat.pos_of_ne_zero hne) hbuf] at hlen
      simp at hlen
    subst hs
    refine ⟨di, l, rfl, rfl, h, ?_⟩
    simp
  | x :: r, k, s, di, l, more, tl, hb, h, hl, hlen, hs, hgo => by
    have hpos : 0 < s := by
      by_contra h0
      have hs0 : s = 0 := by omega
      rw [hs0, Nat.zero_add, Nat.div_eq_of_lt (by omega)] at hlen
      simp at hlen
    obtain ⟨y, l₁, di₁, rfl, hget, ht, h₁⟩ := h.get_some (hgo 0 (by simp))
    rw [List.cons_append, List.cons_append] at hl
    obtain ⟨rfl, hl₁⟩ := List.cons.inj hl
    have hb₁ : di₁.rxbufsize = rxbufsize := (congrArg (fun t => t.2.2.1) ht).trans hb
    have hn₁ : di₁.nrxd = di.nrxd := congrArg Prod.fst ht
    rw [List.length_cons, ceil_succ hpos hbuf, Nat.add_right_cancel_iff] at hlen
    obtain ⟨di', l', rfl, ht', h', hloop⟩ := rxLoop_skip hbuf hint fuel hb₁ h₁ hl₁ hlen (by omega)
      fun j hj => by
        rw [hn₁, show k + 1 + j = k + (j + 1) by omega]
        exact hgo (j + 1) (by simpa using hj)
    rw [show k + 1 + r.length = k + (y :: r).length by simp; omega] at h' hloop
    refine ⟨di', l', rfl, ht'.trans ht, h', ?_⟩
    have hskip := skipRest_eq hbuf hint hs
    calc rxLoop len16 curr ((y :: r).length + fuel) k s di
        = (rxLoop len16 curr (r.length + fuel) (k + 1) (s - rxbufsize.toNat : ℕ) di₁).map
            fun (di, q, ps) => (di, q, y :: ps) := by
          rw [show (y :: r).length + fuel = r.length + fuel + 1 by simp; omega, rxLoop, hget]
          simp only [Int.natCast_pos.mpr hpos, if_true, hb₁, hskip]
      _ = (rxLoop len16 curr fuel (k + (y :: r).length) 0 di').map
            fun (di, q, ps) => (di, q, y :: r ++ ps) := by
          rw [hloop, Option.map_map]
          rfl

variable {len16}

theorem rest_of_fits (hbuf : 0 < rxbufsize.toNat) {f : Frame Pkt}
    (hf : f.Placed len16 rxbufsize rxoffset) (hfit : f.fits len16 rxbufsize rxoffset = true) :
    f.rest = [] := by
  have hle := of_decide_eq_true hfit
  apply List.length_eq_zero_iff.mp
  rw [hf, continuations, Nat.sub_eq_zero_of_le hle, Nat.zero_add, Nat.div_eq_of_lt (by omega)]

/-- A giant: its buffers are freed, and the loop goes on behind them. -/
theorem rxLoop_giant (hbuf : 0 < rxbufsize.toNat) (hint : rxbufsize.toNat < 2 ^ 31)
    (hoff : rxoffset ≤ rxbufsize) {nrxd nrxpost : UInt32} {curr : ℕ → UInt32} {n p k : ℕ} (fuel : ℕ)
    {f : Frame Pkt} {di : RxRing Pkt} {l more tl : List Pkt}
    (ht : di.tunables = (nrxd, nrxpost, rxbufsize, rxoffset)) (h : At di l (n + k) p)
    (hl : l ++ more = f.bufs ++ tl) (hf : f.Placed len16 rxbufsize rxoffset)
    (hfit : ¬ f.fits len16 rxbufsize rxoffset = true) (hgo : stops nrxd n p curr k = false)
    (hinside : ∀ j < f.rest.length, stops nrxd n p curr (k + 1 + j) = false) :
    ∃ di' l', l = f.bufs ++ l' ∧ di'.tunables = di.tunables ∧ At di' l' (n + (k + f.bufs.length)) p ∧
      rxLoop len16 curr (f.bufs.length + fuel) k 0 di =
        (rxLoop len16 curr fuel (k + f.bufs.length) 0 di').map fun (di, q, ps) => (di, q, f.bufs ++ ps) := by
  have hn : di.nrxd = nrxd := congrArg Prod.fst ht
  obtain ⟨x, l₁, di₁, rfl, hget, ht₁, h₁⟩ := h.get_some (hn ▸ hgo)
  obtain ⟨rfl, hl₁⟩ := List.cons.inj (show x :: (l₁ ++ more) = f.first :: (f.rest ++ tl) from hl)
  have hb₁ : di₁.rxbufsize = rxbufsize := congrArg (fun t => t.2.2.1) (ht₁.trans ht)
  have ho₁ : di₁.rxoffset = rxoffset := congrArg (fun t => t.2.2.2) (ht₁.trans ht)
  have hgiant : rxbufsize - rxoffset < (len16 f.first).toUInt32 :=
    Classical.not_not.mp fun hle => hfit ((fits_iff hoff).mpr hle)
  have hpos : (len16 f.first).toUInt32 > 0 :=
    UInt32.lt_iff_toNat_lt.mpr
      (Nat.lt_of_le_of_lt (Nat.zero_le _) (UInt32.lt_iff_toNat_lt.mp hgiant))
  have hcint : toCInt ((len16 f.first).toUInt32 - (di₁.rxbufsize - di₁.rxoffset)) =
      (((len16 f.first).toNat + rxoffset.toNat - rxbufsize.toNat : ℕ) : ℤ) := by
    rw [hb₁, ho₁, toCInt_giant hoff hgiant]
  have hcond : (len16 f.first).toUInt32 > di₁.rxbufsize - di₁.rxoffset := by
    rw [hb₁, ho₁]
    exact hgiant
  have hg : At { di₁ with rxgiants := di₁.rxgiants + 1 } l₁ (n + (k + 1)) p :=
    ⟨⟨h₁.posted.cells, h₁.posted.rxout, h₁.posted.length_le, h₁.posted.nrxpost_lt⟩, h₁.rxin, h₁.total⟩
  have hn₁ : di₁.nrxd = nrxd := congrArg Prod.fst (ht₁.trans ht)
  have hlt := (len16 f.first).toNat_lt
  have hle := UInt32.le_iff_toNat_le.mp hoff
  obtain ⟨di₂, l₂, rfl, ht₂, h₂, hskip⟩ := rxLoop_skip len16 hbuf hint fuel
    (show RxRing.rxbufsize { di₁ with rxgiants := di₁.rxgiants + 1 } = rxbufsize from hb₁) hg hl₁ hf (by omega)
    (hn₁ ▸ hinside)
  have hk : k + 1 + f.rest.length = k + f.bufs.length := by
    simp only [Frame.bufs, List.length_cons]
    omega
  rw [hk] at h₂ hskip
  refine ⟨di₂, l₂, rfl, ht₂.trans ht₁, h₂, ?_⟩
  calc rxLoop len16 curr (f.bufs.length + fuel) k 0 di
      = (rxLoop len16 curr (f.rest.length + fuel) (k + 1)
          ((len16 f.first).toNat + rxoffset.toNat - rxbufsize.toNat : ℕ)
          { di₁ with rxgiants := di₁.rxgiants + 1 }).map fun (di, q, ps) => (di, q, f.first :: ps) := by
        rw [show f.bufs.length + fuel = f.rest.length + fuel + 1 by simp [Frame.bufs]; omega, rxLoop, hget]
        simp only [Int.lt_irrefl, if_false, if_pos hcond, if_pos hpos, hcint]
    _ = (rxLoop len16 curr fuel (k + f.bufs.length) 0 di₂).map
          fun (di, q, ps) => (di, q, f.bufs ++ ps) := by
        rw [hskip, Option.map_map]
        rfl

/-- **One call of `_dma_rx`** at the start of a frame, which no read finds
caught up inside a giant: it takes whole frames. -/
theorem rxLoop_frames (hbuf : 0 < rxbufsize.toNat) (hint : rxbufsize.toNat < 2 ^ 31)
    (hoff : rxoffset ≤ rxbufsize) {nrxd nrxpost : UInt32} {curr : ℕ → UInt32} {n p : ℕ} :
    ∀ {fs : List (Frame Pkt)} {k fuel : ℕ} {di : RxRing Pkt} {l more : List Pkt},
    di.tunables = (nrxd, nrxpost, rxbufsize, rxoffset) → At di l (n + k) p →
    l ++ more = fs.flatMap Frame.bufs → (∀ f ∈ fs, f.Placed len16 rxbufsize rxoffset) →
    Whole len16 rxbufsize rxoffset (stops nrxd n p curr) k fs → l.length < fuel →
    ∃ gs q di' l', rxFrames len16 rxbufsize rxoffset (stops nrxd n p curr) k fs = (gs, q) ∧
      rxLoop len16 curr fuel k 0 di =
        some (di', q.map (Frame.packet len16 rxoffset), gs.flatMap Frame.bufs) ∧
      di'.tunables = di.tunables ∧ l = (gs ++ q.toList).flatMap Frame.bufs ++ l' ∧
      At di' l' (n + (k + ((gs ++ q.toList).flatMap Frame.bufs).length)) p
  | [], k, fuel + 1, di, l, more, ht, h, hl, _, _, _ => by
    obtain ⟨rfl, -⟩ := List.append_eq_nil_iff.mp hl
    have hstop : stops di.nrxd n p curr k = true :=
      decide_eq_true (Or.inl (Nat.le_of_eq h.total.symm))
    refine ⟨[], none, di, [], rfl, ?_, rfl, rfl, h⟩
    rw [rxLoop, h.get_none hstop]
    rfl
  | f :: fs, k, fuel + 1, di, l, more, ht, h, hl, hplaced, hwhole, hfuel => by
    have hn : di.nrxd = nrxd := congrArg Prod.fst ht
    have hf := hplaced f (List.mem_cons_self ..)
    by_cases hstop : stops nrxd n p curr k = true
    · refine ⟨[], none, di, l, by rw [rxFrames, if_pos hstop], ?_, rfl, rfl, h⟩
      rw [rxLoop, h.get_none (hn ▸ hstop)]
      rfl
    · have hgo := eq_false_of_ne_true hstop
      by_cases hfit : f.fits len16 rxbufsize rxoffset = true
      · -- a frame of one buffer is delivered
        obtain ⟨x, l₁, di₁, rfl, hget, ht₁, h₁⟩ := h.get_some (hn ▸ hgo)
        obtain ⟨rfl, -⟩ := List.cons.inj (show x :: (l₁ ++ more) =
          f.first :: (f.rest ++ fs.flatMap Frame.bufs) from hl)
        have hb₁ : di₁.rxbufsize = rxbufsize := congrArg (fun t => t.2.2.1) (ht₁.trans ht)
        have ho₁ : di₁.rxoffset = rxoffset := congrArg (fun t => t.2.2.2) (ht₁.trans ht)
        have hrest := rest_of_fits hbuf hf hfit
        have hbufs : ([] ++ (some f).toList).flatMap Frame.bufs = [f.first] := by
          simp [Frame.bufs, hrest]
        rw [rxFrames, if_neg hstop, if_pos hfit, rxLoop, hget]
        simp only [Int.lt_irrefl, if_false]
        rw [hb₁, ho₁, if_neg ((fits_iff hoff).mp hfit)]
        refine ⟨[], some f, di₁, l₁, rfl, rfl, ht₁, by rw [hbufs]; rfl, ?_⟩
        rw [hbufs]
        exact h₁
      · -- a giant: its buffers are freed, and on it goes behind them
        obtain ⟨hinside, hwhole'⟩ := (hwhole.resolve_left hstop).resolve_left hfit
        obtain ⟨di₂, l₂, rfl, ht₂, h₂, hgiant⟩ := rxLoop_giant hbuf hint hoff (fuel - f.rest.length) ht h
          hl hf hfit hgo hinside
        have hl₂ : l₂ ++ more = fs.flatMap Frame.bufs :=
          List.append_cancel_left (by rw [← List.append_assoc]; exact hl)
        simp only [Frame.bufs, List.length_cons, List.length_append] at hfuel
        have hfuel' : f.bufs.length + (fuel - f.rest.length) = fuel + 1 := by
          simp only [Frame.bufs, List.length_cons]
          omega
        obtain ⟨gs, q, di', l', hframes, hloop, ht', hl', h'⟩ := rxLoop_frames hbuf hint hoff
          (ht₂.trans ht) h₂ hl₂ (fun g hg => hplaced g (List.mem_cons_of_mem _ hg)) hwhole'
          (by omega : l₂.length < fuel - f.rest.length)
        rw [rxFrames, if_neg hstop, if_neg hfit, ← hfuel', hgiant, hloop, hframes]
        refine ⟨f :: gs, q, di', l', rfl, rfl, ht'.trans ht₂, ?_, ?_⟩
        · rw [hl']
          simp [Frame.bufs]
        · have hlen : k + f.bufs.length + ((gs ++ q.toList).flatMap Frame.bufs).length =
              k + ((f :: gs ++ q.toList).flatMap Frame.bufs).length := by
            rw [List.cons_append, List.flatMap_cons, List.length_append]
            omega
          rw [← hlen]
          exact h'

/-- A call that does not stop before a frame of one buffer behind giants gets to it. -/
theorem rxFrames_reach {stop : ℕ → Bool} {f : Frame Pkt} (fs : List (Frame Pkt))
    (hfit : f.fits len16 rxbufsize rxoffset = true) : ∀ {k : ℕ} {gs : List (Frame Pkt)},
    (∀ g ∈ gs, g.fits len16 rxbufsize rxoffset = false) →
    (∀ j ≤ (gs.flatMap Frame.bufs).length, stop (k + j) = false) →
    rxFrames len16 rxbufsize rxoffset stop k (gs ++ f :: fs) = (gs, some f) ∧
      Whole len16 rxbufsize rxoffset stop k (gs ++ f :: fs)
  | k, [], _, hgo => by
    have h0 : stop k = false := hgo 0 (Nat.zero_le _)
    exact ⟨by simp [rxFrames, h0, hfit], Or.inr (Or.inl hfit)⟩
  | k, g :: gs, hgs, hgo => by
    have h0 : stop k = false := hgo 0 (Nat.zero_le _)
    have hg := hgs g (List.mem_cons_self ..)
    rw [List.flatMap_cons, List.length_append] at hgo
    obtain ⟨hframes, hwhole⟩ := rxFrames_reach fs hfit (k := k + g.bufs.length)
      (fun g' hg' => hgs g' (List.mem_cons_of_mem _ hg')) fun j hj => by
        rw [Nat.add_assoc]
        exact hgo _ (by omega)
    refine ⟨?_, Or.inr (Or.inr ⟨fun j hj => ?_, hwhole⟩)⟩
    · rw [List.cons_append, rxFrames, h0, hg, hframes]
      rfl
    · have hlen : g.bufs.length = g.rest.length + 1 := rfl
      rw [Nat.add_assoc]
      exact hgo _ (by omega)

end Call

/-! ### Runs -/

/-- The packet a call delivers, with its length. -/
def delivered : RxCall Pkt × RxRet Pkt → List (Pkt × UInt32)
  | (_, .rx q _) => q.toList
  | _ => []

/-- The calls of a receiving driver. -/
def RxCall.Receives : RxCall Pkt → Prop
  | .rxfill _ => True
  | .rx _ => True
  | _ => False

/-- The driver posts buffers and calls `_dma_rx`; the hardware puts the frames
`fs` into the buffers posted, one behind the other. -/
structure Receiving (fs : List (Frame Pkt)) (es : List (RxCall Pkt × RxRet Pkt)) : Prop where
  calls : ∀ e ∈ es, e.1.Receives
  layout : es.flatMap posted <+: fs.flatMap Frame.bufs

/-- Every call of `_dma_rx` in the run meets `Whole` on the frames in front of
the driver. -/
def WholeFrames (len16 : Pkt → UInt16) (nrxd rxbufsize rxoffset : UInt32) (fs : List (Frame Pkt))
    (es : List (RxCall Pkt × RxRet Pkt)) : Prop :=
  ∀ pre curr r post, es = pre ++ (.rx curr, r) :: post →
    ∀ fs₁ fs₂, fs = fs₁ ++ fs₂ → pre.flatMap taken = fs₁.flatMap Frame.bufs →
      Whole len16 rxbufsize rxoffset
        (stops nrxd (pre.flatMap taken).length (pre.flatMap posted).length curr) 0 fs₂

section Runs

variable {len16 : Pkt → UInt16} {nrxd nrxpost rxbufsize rxoffset : UInt32} {fs : List (Frame Pkt)}
  {es : List (RxCall Pkt × RxRet Pkt)} {di di' : RxRing Pkt} {e : RxCall Pkt × RxRet Pkt}

theorem Receiving.init (h : Receiving fs (es ++ [e])) : Receiving fs es := by
  refine ⟨fun e' he' => h.calls e' (List.mem_append_left _ he'), List.IsPrefix.trans ?_ h.layout⟩
  rw [List.flatMap_append]
  exact List.prefix_append _ _

theorem WholeFrames.init (h : WholeFrames len16 nrxd rxbufsize rxoffset fs (es ++ [e])) :
    WholeFrames len16 nrxd rxbufsize rxoffset fs es := by
  intro pre curr r post hes
  apply h pre curr r (post ++ [e])
  rw [hes, List.append_assoc, List.cons_append]

/-- After a run the driver is between two frames, and has delivered those of
one buffer before it. -/
structure BetweenFrames (len16 : Pkt → UInt16) (nrxd nrxpost rxbufsize rxoffset : UInt32)
    (es : List (RxCall Pkt × RxRet Pkt)) (di : RxRing Pkt) (fs₁ : List (Frame Pkt))
    (l : List Pkt) : Prop where
  tunables : di.tunables = (nrxd, nrxpost, rxbufsize, rxoffset)
  taken : es.flatMap taken = fs₁.flatMap Frame.bufs
  posted : es.flatMap posted = es.flatMap Dma.taken ++ l
  position : At di l (es.flatMap Dma.taken).length (es.flatMap Dma.posted).length
  delivered : es.flatMap delivered =
    (fs₁.filter (Frame.fits len16 rxbufsize rxoffset)).map (Frame.packet len16 rxoffset)

/-- Posting buffers leaves the driver between the same frames. -/
theorem BetweenFrames.rxfill_step {fs₁ fs₂ : List (Frame Pkt)} {l : List Pkt} {alloc : ℕ → Option Pkt}
    {r : RxRet Pkt}
    (h : BetweenFrames len16 nrxd nrxpost rxbufsize rxoffset es di fs₁ l) (hfs : fs = fs₁ ++ fs₂)
    (hstep : RxRun len16 di (.rxfill alloc, r) di') :
    ∃ fs₁' fs₂' l', fs = fs₁' ++ fs₂' ∧
      BetweenFrames len16 nrxd nrxpost rxbufsize rxoffset (es ++ [(.rxfill alloc, r)]) di' fs₁' l' := by
  obtain ⟨di₁, ps, hfill, ht, hin, h'⟩ := rxfill_spec h.position.posted alloc
  have hs : rxStep len16 di (.rxfill alloc) = some (di₁, .posted ps) := by
    rw [rxStep, hfill]
    rfl
  obtain ⟨rfl, rfl⟩ := Prod.mk.inj (Option.some.inj (hstep.symm.trans hs))
  have hn : di'.nrxd = di.nrxd := congrArg Prod.fst ht
  refine ⟨fs₁, fs₂, l ++ ps, hfs, ht.trans h.tunables, ?_, ?_, ⟨h', ?_, ?_⟩, ?_⟩
  · simp [Dma.taken, h.taken]
  · simp [Dma.taken, Dma.posted, h.posted]
  · rw [hin, hn]
    simpa [Dma.taken] using h.position.rxin
  · simp [Dma.taken, Dma.posted, h.posted]
  · simp [Dma.delivered, h.delivered]

variable (hbuf : 0 < rxbufsize.toNat) (hint : rxbufsize.toNat < 2 ^ 31) (hoff : rxoffset ≤ rxbufsize)
  (hplaced : ∀ f ∈ fs, f.Placed len16 rxbufsize rxoffset)

include hbuf hint hoff hplaced

/-- A call of `_dma_rx` from between two frames. -/
theorem BetweenFrames.rx {fs₁ fs₂ : List (Frame Pkt)} {l : List Pkt}
    (h : BetweenFrames len16 nrxd nrxpost rxbufsize rxoffset es di fs₁ l) (hfs : fs = fs₁ ++ fs₂)
    (hlayout : es.flatMap Dma.posted <+: fs.flatMap Frame.bufs) {curr : ℕ → UInt32}
    (hwhole : Whole len16 rxbufsize rxoffset
      (stops nrxd (es.flatMap Dma.taken).length (es.flatMap Dma.posted).length curr) 0 fs₂) :
    ∃ gs q di' l', rxFrames len16 rxbufsize rxoffset
        (stops nrxd (es.flatMap Dma.taken).length (es.flatMap Dma.posted).length curr) 0 fs₂ = (gs, q) ∧
      _dmaRx len16 di curr =
        some (di', q.map (Frame.packet len16 rxoffset), gs.flatMap Frame.bufs) ∧
      di'.tunables = di.tunables ∧ l = (gs ++ q.toList).flatMap Frame.bufs ++ l' ∧
      At di' l' ((es.flatMap Dma.taken).length + (0 + ((gs ++ q.toList).flatMap Frame.bufs).length))
        (es.flatMap Dma.posted).length := by
  obtain ⟨more, hmore⟩ := hlayout
  have hall : fs₁.flatMap Frame.bufs ++ (l ++ more) =
      fs₁.flatMap Frame.bufs ++ fs₂.flatMap Frame.bufs := by
    rw [← List.flatMap_append, ← hfs, ← hmore, h.posted, h.taken, List.append_assoc]
  have hl := List.append_cancel_left hall
  have hfuel := Nat.lt_of_le_of_lt h.position.posted.length_le h.position.posted.nrxpost_lt
  refine rxLoop_frames hbuf hint hoff h.tunables h.position hl (fun f hf => ?_) hwhole hfuel
  exact hplaced f (by rw [hfs]; exact List.mem_append_right _ hf)

/-- A call takes whole frames, and the last of them if it fits is delivered. -/
theorem BetweenFrames.rx_step {fs₁ fs₂ : List (Frame Pkt)} {l : List Pkt} {curr : ℕ → UInt32} {r : RxRet Pkt}
    (h : BetweenFrames len16 nrxd nrxpost rxbufsize rxoffset es di fs₁ l) (hfs : fs = fs₁ ++ fs₂)
    (hrec : Receiving fs (es ++ [(.rx curr, r)]))
    (hwhole : WholeFrames len16 nrxd rxbufsize rxoffset fs (es ++ [(.rx curr, r)]))
    (hstep : RxRun len16 di (.rx curr, r) di') :
    ∃ fs₁' fs₂' l', fs = fs₁' ++ fs₂' ∧
      BetweenFrames len16 nrxd nrxpost rxbufsize rxoffset (es ++ [(.rx curr, r)]) di' fs₁' l' := by
  have hlay := hrec.init.layout
  obtain ⟨gs, q, di₁, l', hframes, hrx, ht, hl, h'⟩ := h.rx hbuf hint hoff hplaced hfs hlay
    (hwhole es curr r [] rfl fs₁ fs₂ hfs h.taken)
  have hs : rxStep len16 di (.rx curr) =
      some (di₁, .rx (q.map (Frame.packet len16 rxoffset)) (gs.flatMap Frame.bufs)) := by
    rw [rxStep, hrx]
    rfl
  obtain ⟨rfl, rfl⟩ := Prod.mk.inj (Option.some.inj (hstep.symm.trans hs))
  obtain ⟨fs', hsplit, hfilter⟩ := rxFrames_split len16 rxbufsize rxoffset
    (stops nrxd (es.flatMap Dma.taken).length (es.flatMap Dma.posted).length curr) 0 fs₂
  rw [hframes] at hsplit hfilter
  -- the frame delivered has but one buffer
  have hone : ((q.map (Frame.packet len16 rxoffset)).map Prod.fst).toList =
      q.toList.flatMap Frame.bufs := by
    cases q with
    | none => rfl
    | some f =>
      have hmem : f ∈ fs := by
        rw [hfs, hsplit]
        simp
      have hfit : f.fits len16 rxbufsize rxoffset = true := by
        have hf : f ∈ (gs ++ (some f).toList).filter (Frame.fits len16 rxbufsize rxoffset) := by
          rw [hfilter]
          exact List.mem_singleton_self f
        exact (List.mem_filter.mp hf).2
      simp [Frame.bufs, Frame.packet, rest_of_fits hbuf (hplaced f hmem) hfit]
  have htaken : (es ++ [(RxCall.rx curr, RxRet.rx (q.map (Frame.packet len16 rxoffset))
      (gs.flatMap Frame.bufs))]).flatMap Dma.taken =
      es.flatMap Dma.taken ++ (gs ++ q.toList).flatMap Frame.bufs := by
    rw [List.flatMap_append, List.flatMap_append, ← hone]
    simp [Dma.taken]
  have hposted : (es ++ [(RxCall.rx curr, RxRet.rx (q.map (Frame.packet len16 rxoffset))
      (gs.flatMap Frame.bufs))]).flatMap Dma.posted = es.flatMap Dma.posted := by
    simp [Dma.posted]
  refine ⟨fs₁ ++ (gs ++ q.toList), fs', l', ?_, ht.trans h.tunables, ?_, ?_, ?_, ?_⟩
  · rw [hfs, List.append_assoc, ← hsplit]
  · rw [htaken, h.taken, ← List.flatMap_append]
  · rw [htaken, hposted, h.posted, hl, List.append_assoc]
  · rw [htaken, hposted, List.length_append]
    rw [Nat.zero_add] at h'
    exact h'
  · rw [List.filter_append, hfilter, List.map_append, ← h.delivered, List.flatMap_append]
    cases q <;> rfl

/-- A step of the run. -/
theorem BetweenFrames.step {fs₁ fs₂ : List (Frame Pkt)} {l : List Pkt}
    (h : BetweenFrames len16 nrxd nrxpost rxbufsize rxoffset es di fs₁ l) (hfs : fs = fs₁ ++ fs₂)
    (hrec : Receiving fs (es ++ [e])) (hwhole : WholeFrames len16 nrxd rxbufsize rxoffset fs (es ++ [e]))
    (hstep : RxRun len16 di e di') :
    ∃ fs₁' fs₂' l', fs = fs₁' ++ fs₂' ∧
      BetweenFrames len16 nrxd nrxpost rxbufsize rxoffset (es ++ [e]) di' fs₁' l' := by
  have hcall := hrec.calls e (List.mem_append_right _ (List.mem_singleton_self e))
  rcases e with ⟨c, r⟩
  cases c with
  | rxfill alloc => exact h.rxfill_step hfs hstep
  | rx curr => exact h.rx_step hbuf hint hoff hplaced hfs hrec hwhole hstep
  | getnextrxp forceall curr => exact hcall.elim
  | rxreclaim => exact hcall.elim

/-- **Just the frames of one buffer are delivered**, in every run none of whose
calls catches up with the hardware inside a giant. The driver is always
between two frames, `fs₁` behind it; the packets delivered are the frames of
`fs₁` that fit, each once and in order. If the next that fits is completed, a
call delivers it. -/
theorem giants_discarded (hpost : nrxpost < nrxd) {pow2 : ∃ k, nrxd.toNat = 2 ^ k}
    (h : Run.Trace (RxRun len16) (_dmaRxinit nrxd pow2 nrxpost rxbufsize rxoffset) es di)
    (hrec : Receiving fs es) (hwhole : WholeFrames len16 nrxd rxbufsize rxoffset fs es) :
    ∃ fs₁ fs₂, fs = fs₁ ++ fs₂ ∧ es.flatMap taken = fs₁.flatMap Frame.bufs ∧
      es.flatMap delivered =
        (fs₁.filter (Frame.fits len16 rxbufsize rxoffset)).map (Frame.packet len16 rxoffset) ∧
      ∀ curr gs f fs₃, fs₂ = gs ++ f :: fs₃ →
        (∀ g ∈ gs, g.fits len16 rxbufsize rxoffset = false) →
        f.fits len16 rxbufsize rxoffset = true →
        (∀ k ≤ (gs.flatMap Frame.bufs).length,
          stops nrxd (es.flatMap taken).length (es.flatMap posted).length curr k = false) →
        ∃ di', rxStep len16 di (.rx curr) =
          some (di', .rx (some (f.packet len16 rxoffset)) (gs.flatMap Frame.bufs)) := by
  have hinv : Receiving fs es → WholeFrames len16 nrxd rxbufsize rxoffset fs es →
      ∃ fs₁ fs₂ l, fs = fs₁ ++ fs₂ ∧
        BetweenFrames len16 nrxd nrxpost rxbufsize rxoffset es di fs₁ l := by
    refine h.inv (I := fun es di => Receiving fs es →
      WholeFrames len16 nrxd rxbufsize rxoffset fs es → ∃ fs₁ fs₂ l, fs = fs₁ ++ fs₂ ∧
        BetweenFrames len16 nrxd nrxpost rxbufsize rxoffset es di fs₁ l) ?_ ?_
    · intro _ _
      exact ⟨[], fs, [], rfl, rfl, rfl, rfl,
        ⟨posted_rxinit pow2 hpost rxbufsize rxoffset, (Nat.zero_mod _).symm, rfl⟩, rfl⟩
    · intro es di₁ e di₂ hI hstep hrec hwhole
      obtain ⟨fs₁, fs₂, l, hfs, hb⟩ := hI hrec.init hwhole.init
      exact hb.step hbuf hint hoff hplaced hfs hrec hwhole hstep
  obtain ⟨fs₁, fs₂, l, hfs, hb⟩ := hinv hrec hwhole
  refine ⟨fs₁, fs₂, hfs, hb.taken, hb.delivered, ?_⟩
  intro curr gs f fs₃ hsplit hgs hfit hgo
  have hgo' : ∀ j ≤ (gs.flatMap Frame.bufs).length,
      stops nrxd (es.flatMap taken).length (es.flatMap posted).length curr (0 + j) = false := by
    simpa using hgo
  obtain ⟨hreach, hw⟩ := rxFrames_reach fs₃ hfit hgs hgo'
  rw [← hsplit] at hreach hw
  obtain ⟨gs', q, di', -, hframes, hrx, -⟩ := hb.rx hbuf hint hoff hplaced hfs hrec.layout hw
  obtain ⟨rfl, rfl⟩ := Prod.mk.inj (hreach.symm.trans hframes)
  refine ⟨di', ?_⟩
  rw [rxStep, hrx]
  rfl

end Runs

/-- A giant of two buffers and a frame of one, in three buffers of 100 bytes. -/
def giantLen16 : ℕ → UInt16
  | 10 => 150
  | 11 => 7
  | _ => 40

def giantFrames : List (Frame ℕ) := [⟨10, [11]⟩, ⟨12, []⟩]

/-- Both are completed before the call, which delivers the second. -/
theorem giants_discarded_behind :
    ∃ (es : List (RxCall ℕ × RxRet ℕ)) (di : RxRing ℕ),
      Run.Trace (RxRun giantLen16) (_dmaRxinit 4 ⟨2, rfl⟩ 3 100 0) es di ∧
        Receiving giantFrames es ∧ WholeFrames giantLen16 4 100 0 giantFrames es ∧
        es.flatMap delivered = [(12, 40)] ∧
        ∃ fs₁ fs₂, giantFrames = fs₁ ++ fs₂ ∧ es.flatMap taken = fs₁.flatMap Frame.bufs ∧
          es.flatMap delivered =
            (fs₁.filter (Frame.fits giantLen16 100 0)).map (Frame.packet giantLen16 0) := by
  have h₁ : Run.Trace (RxRun giantLen16) (_dmaRxinit 4 ⟨2, rfl⟩ 3 100 0)
      [(.rxfill fun i => some (10 + i), .posted [10, 11, 12])] _ := .snoc .nil rfl
  have h₂ : Run.Trace (RxRun giantLen16) (_dmaRxinit 4 ⟨2, rfl⟩ 3 100 0)
      [(.rxfill fun i => some (10 + i), .posted [10, 11, 12]),
        (.rx fun _ => 3, .rx (some (12, 40)) [10, 11])] _ := h₁.snoc rfl
  have hrec : Receiving giantFrames [((.rxfill fun i => some (10 + i) : RxCall ℕ),
      .posted [10, 11, 12]), (.rx fun _ => 3, .rx (some (12, 40)) [10, 11])] := by
    refine ⟨fun e he => ?_, by decide⟩
    rcases List.mem_pair.mp he with rfl | rfl <;> trivial
  have hwhole : WholeFrames giantLen16 4 100 0 giantFrames
      [((.rxfill fun i => some (10 + i) : RxCall ℕ), .posted [10, 11, 12]),
        (.rx fun _ => 3, .rx (some (12, 40)) [10, 11])] := by
    intro pre curr r post he fs₁ fs₂ hfs ht
    rcases pre with _ | ⟨a, _ | ⟨b, pre⟩⟩
    · simp at he
    · simp only [List.cons_append, List.nil_append, List.cons.injEq, Prod.mk.injEq] at he
      obtain ⟨rfl, ⟨hc, -⟩, -⟩ := he
      injection hc with hc
      subst hc
      cases fs₁ with
      | nil =>
        rw [List.nil_append] at hfs
        rw [← hfs]
        exact Or.inr (Or.inr ⟨by decide, Or.inr (Or.inl (by decide))⟩)
      | cons f fs₁ => simp [taken, Frame.bufs] at ht
    · simp at he
  obtain ⟨fs₁, fs₂, hfs, htaken, hdel, -⟩ := giants_discarded (by decide) (by decide) (by decide)
    (by decide) (by decide) h₂ hrec hwhole
  exact ⟨_, _, h₂, hrec, hwhole, by decide, fs₁, fs₂, hfs, htaken, hdel⟩

/-- The first call finds just one buffer completed, and the second delivers
the rest of the giant. -/
theorem rx_delivers_continuation :
    ∃ (es : List (RxCall ℕ × RxRet ℕ)) (di : RxRing ℕ),
      Run.Trace (RxRun giantLen16) (_dmaRxinit 4 ⟨2, rfl⟩ 3 100 0) es di ∧
        Receiving giantFrames es ∧ (∀ f ∈ giantFrames, f.Placed giantLen16 100 0) ∧
        es.flatMap delivered = [(11, 7)] ∧ ∀ f ∈ giantFrames, f.first ≠ 11 := by
  have h₁ : Run.Trace (RxRun giantLen16) (_dmaRxinit 4 ⟨2, rfl⟩ 3 100 0)
      [(.rxfill fun i => some (10 + i), .posted [10, 11, 12])] _ := .snoc .nil rfl
  have h₂ : Run.Trace (RxRun giantLen16) (_dmaRxinit 4 ⟨2, rfl⟩ 3 100 0)
      [(.rxfill fun i => some (10 + i), .posted [10, 11, 12]),
        (.rx fun _ => 1, .rx none [10])] _ := h₁.snoc rfl
  have h₃ : Run.Trace (RxRun giantLen16) (_dmaRxinit 4 ⟨2, rfl⟩ 3 100 0)
      [(.rxfill fun i => some (10 + i), .posted [10, 11, 12]),
        (.rx fun _ => 1, .rx none [10]), (.rx fun _ => 3, .rx (some (11, 7)) [])] _ := h₂.snoc rfl
  refine ⟨_, _, h₃, ⟨fun e he => ?_, by decide⟩, by decide, by decide, by decide⟩
  simp only [List.mem_cons, List.not_mem_nil, or_false] at he
  rcases he with rfl | rfl | rfl <;> trivial

end Dma
end Router
