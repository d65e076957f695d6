/-
# The writer and the reader of the OTP

Block after block is written by `otp_nvwrite`, and then the OTP is read by
`nvram_init`. If no call loses a reader (`Meets`), this copies the blocks of the calls that
returned 0, and nothing else (`otp_agree`).

The reader is lost by data that has a magic word in it (`magic_data_unread`): the next call
takes that for the header of the last chunk.
-/
import RouterFirmware.Otp.Read
import RouterFirmware.Lib.Run

namespace Router
namespace Otp

open Bits Bcm Run

variable {c : Chip} {f : Faults}

/-! ### The boundary and the signature -/

theorem left_le (t : ℕ) (data : UInt16) : (left f t data).toNat ≤ data.toNat := by
  rcases left_eq (f := f) t data with h | ⟨n, h⟩
  · rw [h]
  · rw [h, UInt16.toNat_ofNat']
    exact (Nat.mod_le _ _).trans (Nat.mod_le _ _)

theorem left_signature_ne (t : ℕ) : left f t otpSignature ≠ otpMagic := by
  have hlow : ∀ n < 16, UInt16.ofNat (otpSignature.toNat % 2 ^ n) ≠ otpMagic := by decide
  rcases left_eq (f := f) t otpSignature with h | ⟨n, h⟩
  · rw [h]
    decide
  · rw [h]
    by_cases hn : n < 16
    · exact hlow n hn
    · have hlt : otpSignature.toNat < 2 ^ n :=
        lt_of_lt_of_le (by decide : otpSignature.toNat < 2 ^ 16) (Nat.pow_le_pow_right (by omega) (by omega))
      rw [Nat.mod_eq_of_lt hlt]
      decide

theorem left_boundary_ne {wn : ℕ} (t : ℕ) (h : wn ≤ 2048) : left f t (.ofNat (wn * 2)) ≠ otpMagic := by
  intro heq
  have hle := left_le (f := f) t (.ofNat (wn * 2))
  rw [heq, UInt16.toNat_ofNat'] at hle
  have hmagic : otpMagic.toNat = 20054 := rfl
  omega

/-- A region that is signed, or protected, is looked at. -/
theorem hasBit_hwRegion {words : ℕ → UInt16}
    (h : hasBit c.hwprot otpHwRegion = true ∨ c.rev17 = false ∧ words (c.half - 3) = otpSignature) :
    hasBit (c.hwprot ||| otpInit c words) otpHwRegion = true := by
  rw [hasBit_or, Bool.or_eq_true]
  apply h.imp_right
  rintro ⟨hrev, hsign⟩
  have hself : hasBit otpHwRegion otpHwRegion = true := by decide
  unfold otpInit
  rw [hrev, if_neg Bool.false_ne_true, hasBit_or, hasBit_bitIf, hsign, hself, beq_self_eq_true]
  rfl

/-- What the two words are left as. -/
theorem signRegion_words {o : Cells} (wn : ℕ) (hblank : ∀ k, c.swlim ≤ k → o.words k = 0) :
    (signRegion f c.half wn o).progs = o.progs + signProgs f 0 o.progs ∧
    (∀ k, k ≠ c.half - 4 → k ≠ c.half - 3 → (signRegion f c.half wn o).words k = o.words k) ∧
    (signRegion f c.half wn o).words (c.half - 4) = left f o.progs (.ofNat (wn * 2)) ∧
    (signRegion f c.half wn o).words (c.half - 3) = if f o.progs = none then left f (o.progs + 1) otpSignature else 0 := by
  have hchip := c.swlim_add
  have hne : c.half - 4 ≠ c.half - 3 := by omega
  have hsecond : Function.update o.words (c.half - 4) (left f o.progs (.ofNat (wn * 2))) (c.half - 3) = 0 := by
    rw [Function.update_of_ne hne.symm]
    exact hblank _ (by omega)
  unfold signRegion signProgs
  rw [otpWriteWord_blank (hblank (c.half - 4) (by omega))]
  dsimp only
  rw [if_congr fails_eq_zero rfl rfl, otpWriteWord_blank hsecond, if_pos rfl]
  by_cases hfail : f o.progs = none
  · rw [if_pos hfail, if_pos hfail, if_pos hfail]
    refine ⟨rfl, fun k h4 h3 => ?_, ?_, ?_⟩
    · show Function.update (Function.update o.words _ _) _ _ k = _
      rw [Function.update_of_ne h3, Function.update_of_ne h4]
    · show Function.update (Function.update o.words _ _) _ _ (c.half - 4) = _
      rw [Function.update_of_ne hne, Function.update_self]
    · exact Function.update_self ..
  · rw [if_neg hfail, if_neg hfail, if_neg hfail]
    exact ⟨rfl, fun k h4 _ => Function.update_of_ne h4 .., Function.update_self .., hsecond⟩

theorem signRegion_spec {o : Cells} {wn : ℕ} (hblank : ∀ k, c.swlim ≤ k → o.words k = 0) (hwn : wn ≤ 2048) :
    (signRegion f c.half wn o).progs = o.progs + signProgs f 0 o.progs ∧
    (∀ k < c.swlim, (signRegion f c.half wn o).words k = o.words k) ∧
    Quiet (signRegion f c.half wn o).words c.swlim c.half ∧
    (bounds c f o.progs wn = true → Bounded c (signRegion f c.half wn o).words wn) := by
  have hchip := c.swlim_add
  have hzero : (0 : UInt16) ≠ otpMagic := by decide
  obtain ⟨hprogs, hsame, hbound, hsign⟩ := signRegion_words (f := f) wn hblank
  refine ⟨hprogs, fun k hk => hsame k (by omega) (by omega), fun k hk _ => ?_, fun hb => ?_⟩
  · by_cases h4 : k = c.half - 4
    · rw [h4, hbound]
      exact left_boundary_ne _ hwn
    · by_cases h3 : k = c.half - 3
      · rw [h3, hsign]
        split_ifs
        · exact left_signature_ne _
        · exact hzero
      · rw [hsame k h4 h3, hblank k hk]
        exact hzero
  · unfold bounds at hb
    simp only [Bool.and_eq_true, Bool.or_eq_true, beq_iff_eq, Bool.not_eq_true'] at hb
    obtain ⟨hfull, hregion⟩ := hb
    refine ⟨hasBit_hwRegion (hregion.imp_right fun h => ⟨h.1.1, ?_⟩), ?_⟩
    · rw [hsign, if_pos h.1.2, h.2]
    · rw [hbound, hfull, UInt16.toNat_ofNat', Nat.mod_eq_of_lt (by omega), Nat.mul_comm]

/-! ### A call -/

/-- The OTP with its chunks up to `top`, for a reader that has come to `p` with the blocks `bs`. -/
structure Laid (c : Chip) (o : Cells) (top : ℕ) (p : Place) (bs : List (List UInt8)) : Prop where
  room : top ≤ c.swlim
  first : top = 0 ↔ p = .fresh
  blank : ∀ k, top ≤ k → k < c.swlim → o.words k = 0
  unsigned : top = 0 → ∀ k, c.swlim ≤ k → o.words k = 0
  quiet : Quiet o.words c.swlim c.half
  arrives : Arrives c o.words top bs p

theorem length_leftChunk_le (t : ℕ) (data : List UInt16) : (leftChunk f t data).length ≤ data.length + 3 :=
  Nat.succ_le_succ (Nat.succ_le_succ (length_leftBody_le ..))

/-- Behind a chunk nobody is at the beginning. -/
theorem after_ne_fresh {p p' : Place} {ch : Chunk} (h : after p ch = some p') : p' ≠ .fresh := by
  rcases after_cases h with ⟨_, _, ⟨_, _, rfl⟩ | ⟨_, _, rfl⟩⟩ | ⟨_, ⟨_, rfl⟩ | ⟨_, rfl⟩ | ⟨_, rfl⟩ | ⟨_, rfl⟩⟩
  · exact Place.noConfusion
  · split_ifs
    · exact Place.noConfusion
    · exact Place.noConfusion
  · split_ifs
    · exact Place.noConfusion
    · exact Place.noConfusion
  · exact Place.noConfusion
  · exact Place.noConfusion
  · exact Place.noConfusion

variable {o : Cells} {top : ℕ} {p p' : Place} {bs : List (List UInt8)}

/-- A chunk is laid; the words behind the region stay, but for the signature of a first one. -/
theorem Laid.grow {ch : Chunk} {o' : Cells} (h : Laid c o top p bs) (hroom : top + ch.words.length ≤ c.swlim)
    (hput : ∀ k < c.swlim, o'.words k = put o.words top ch.words k)
    (hsame : top ≠ 0 → ∀ k, c.swlim ≤ k → o'.words k = o.words k) (hquiet : Quiet o'.words c.swlim c.half)
    (hbounded : top = 0 → ch.bounded = true → Bounded c o'.words ch.words.length) (hafter : after p ch = some p') :
    Laid c o' (top + ch.words.length) p' (bs ++ (ch.block.map bytesOf).toList) := by
  have hlong := ch.long
  have hstand : Stands o'.words top ch.words :=
    (stands_put ch.words o.words top).congr fun k _ hk => hput k (by omega)
  have harrives : Arrives c o'.words top bs p := by
    by_cases h0 : top = 0
    · rw [h.first.mp h0]
      have := h.arrives
      rwa [h.first.mp h0] at this
    · refine h.arrives.congr fun k hk => ?_
      rcases hk with hlt | hge
      · have hroom' := h.room
        rw [hput k (by omega), put_of_lt hlt]
      · exact hsame h0 k hge
  exact
    { room := hroom
      first := ⟨fun h0 => absurd h0 (by omega), fun hp => absurd hp (after_ne_fresh hafter)⟩
      blank := fun k hk hk' => by
        rw [hput k hk', put_of_ge hk]
        exact h.blank k (by omega) hk'
      unsigned := fun h0 => absurd h0 (by omega)
      quiet := hquiet
      arrives := harrives.step hstand hroom hquiet (fun hp => hbounded (h.first.mpr hp)) hafter }

/-- **An attempt** adds its chunk. -/
theorem Laid.writeChunk {data : List UInt16} {ch : Chunk} (h : Laid c o top p bs)
    (hroom : top + (data.length + 3) ≤ c.swlim) (hwords : ch.words = leftChunk f o.progs data)
    (hbounded : ch.bounded = true → bounds c f (o.progs + ch.words.length) ch.words.length = true)
    (hafter : after p ch = some p') : ∃ err o',
      writeChunk f c.half data top o = (err, top + ch.words.length, o') ∧
      (err = 0 ↔ Clean f o.progs ch.words.length) ∧
      o'.progs = o.progs + ch.words.length + signProgs f top (o.progs + ch.words.length) ∧
      Laid c o' (top + ch.words.length) p' (bs ++ (ch.block.map bytesOf).toList) := by
  have hchip := c.swlim_add
  have hhalf := c.half_le
  have hlen : ch.words.length ≤ data.length + 3 := by
    rw [hwords]
    exact length_leftChunk_le _ _
  have hblank : ∀ k, top ≤ k → k < top + data.length + 3 → o.words k = 0 :=
    fun k hk hk' => h.blank k hk (by omega)
  obtain ⟨err, herr, hrun⟩ := writeChunk_spec (f := f) c.half hblank
  rw [← hwords] at herr hrun
  by_cases h0 : top = 0
  · rw [if_pos h0] at hrun
    have hsigned : ∀ k, c.swlim ≤ k → put o.words top ch.words k = 0 := by
      intro k hk
      rw [put_of_ge (by omega)]
      exact h.unsigned h0 k hk
    obtain ⟨hprogs, hkeep, hquiet, hsign⟩ :=
      signRegion_spec (f := f) (o := ⟨put o.words top ch.words, o.progs + ch.words.length⟩) hsigned
        (show ch.words.length ≤ 2048 by omega)
    refine ⟨err, _, hrun, herr, ?_, ?_⟩
    · rw [hprogs, h0]
    · exact h.grow (by omega) hkeep (fun hne => absurd h0 hne) hquiet (fun _ hb => hsign (hbounded hb)) hafter
  · rw [if_neg h0] at hrun
    refine ⟨err, _, hrun, herr, ?_, ?_⟩
    · unfold signProgs
      rw [if_neg h0]
      rfl
    · have hsame : ∀ k, c.swlim ≤ k → put o.words top ch.words k = o.words k := fun k hk => put_of_ge (by omega)
      refine h.grow (by omega) (fun k _ => rfl) (fun _ => hsame) (fun k hk hk' => ?_) (fun h0' => absurd h0' h0) hafter
      show put o.words top ch.words k ≠ otpMagic
      rw [hsame k hk]
      exact h.quiet k hk hk'

/-- The words of all chunks. -/
def ends (log : List Chunk) : ℕ := (log.map fun ch => ch.words.length).sum

/-- The blocks that were written without an error. -/
def written (log : List Chunk) : List (List UInt16) := log.filterMap Chunk.block

theorem ends_cons (ch : Chunk) (log : List Chunk) : ends (ch :: log) = ch.words.length + ends log := List.sum_cons

theorem ends_append (log log' : List Chunk) : ends (log ++ log') = ends log + ends log' := by
  unfold ends
  rw [List.map_append, List.sum_append]

theorem written_cons_none {ch : Chunk} {log : List Chunk} (h : ch.block = none) :
    written (ch :: log) = written log := List.filterMap_cons_none h

theorem uintSub_of_le {a b : ℕ} (h : b ≤ a) (ha : a < 2 ^ 32) : uintSub a b = a - b := by
  unfold uintSub
  omega

/-- **The loop** ends, and has added the chunks of `attempts`; the last one is good if there are no
errors. -/
theorem Laid.writeChunks {data : List UInt16} : ∀ {fuel top : ℕ} {o : Cells} {p : Place} {bs : List (List UInt8)},
    Laid c o top p bs → top + (data.length + 3) ≤ c.swlim → c.swlim < top + fuel →
    (attempts c f data fuel top o.progs).foldlM after p = some p' → ∃ err o',
      writeChunks f c.half data fuel top o = some (err, top + ends (attempts c f data fuel top o.progs), o') ∧
      Laid c o' (top + ends (attempts c f data fuel top o.progs)) p'
        (bs ++ (written (attempts c f data fuel top o.progs)).map bytesOf) ∧
      written (attempts c f data fuel top o.progs) = if err = 0 then [data] else [] := by
  intro fuel
  induction fuel with
  | zero =>
    intro top o p bs h hroom hfuel
    omega
  | succ fuel ih =>
    intro top o p bs h hroom hfuel hfold
    have hchip := c.swlim_add
    have hhalf := c.half_le
    rw [attempts] at hfold ⊢
    rw [Otp.writeChunks]
    dsimp only
    by_cases hclean : Clean f o.progs (leftChunk f o.progs data).length
    · rw [dif_pos hclean] at hfold ⊢
      simp only [List.foldlM_cons, List.foldlM_nil, bind_pure] at hfold
      obtain ⟨err, o', hrun, herr, _, hlaid⟩ := h.writeChunk hroom rfl (fun hb => absurd hb Bool.false_ne_true) hfold
      have hzero : err = 0 := herr.mpr hclean
      subst hzero
      refine ⟨0, o', ?_, ?_, ?_⟩
      · rw [hrun, if_neg (fun hgo => hgo.1 rfl)]
        rfl
      · exact hlaid
      · rfl
    · rw [dif_neg hclean] at hfold ⊢
      rw [List.foldlM_cons] at hfold
      obtain ⟨q, hq, hrest⟩ := Option.bind_eq_some_iff.mp hfold
      obtain ⟨err, o', hrun, herr, hprogs, hlaid⟩ := h.writeChunk hroom rfl
        (fun hb => ((Bool.and_eq_true _ _).mp hb).2) hq
      have hbad : err ≠ 0 := fun h0 => hclean (herr.mp h0)
      have hlong := leftChunk_long (f := f) o.progs data
      have hend := hlaid.room
      dsimp only at hrun hprogs hlaid hrest hend
      have hsub : uintSub (c.half - 8) (top + (leftChunk f o.progs data).length) =
          c.swlim - (top + (leftChunk f o.progs data).length) := uintSub_of_le hend (by omega)
      rw [hrun]
      dsimp only
      rw [hsub]
      by_cases hmore : data.length + 3 ≤ c.swlim - (top + (leftChunk f o.progs data).length)
      · rw [if_pos hmore] at hrest ⊢
        rw [if_pos ⟨hbad, hmore⟩]
        rw [← hprogs] at hrest ⊢
        obtain ⟨err', o'', hrun', hlaid', hwritten⟩ := ih hlaid (by omega) (by omega) hrest
        refine ⟨err', o'', ?_, ?_, ?_⟩
        · rw [hrun', Nat.add_assoc]
          rfl
        · rw [ends_cons, ← Nat.add_assoc, written_cons_none rfl]
          simpa using hlaid'
        · exact hwritten
      · rw [if_neg hmore] at hrest ⊢
        rw [if_neg fun hgo => hmore hgo.2]
        cases Option.some.inj hrest
        refine ⟨err, o', rfl, ?_, ?_⟩
        · exact hlaid
        · rw [if_neg hbad]
          rfl

/-! ### Runs of calls -/

/-- The OTP, `oi->signvalid`, and the chunks so far. -/
structure Session where
  cells : Cells
  signvalid : BitVec 32
  log : List Chunk

/-- Nothing is written. -/
def Session.blank : Session := ⟨Cells.blank, 0, []⟩

/-- A call, and what it returned. -/
structure Call where
  data : List UInt16
  ret : ℤ

/-- The call comes to write. -/
def Writes (c : Chip) (s : Session) (data : List UInt16) : Prop :=
  ¬(hasBit (c.hwprot ||| s.signvalid) otpHwRegion && hasBit (c.hwprot ||| s.signvalid) otpSwRegion) = true ∧
    data.length + 3 ≤ uintSub c.swlim (chunksEnd s.cells.words c.swlim)

instance (c : Chip) (s : Session) (data : List UInt16) : Decidable (Writes c s data) :=
  inferInstanceAs (Decidable (_ ∧ _))

/-- The chunks of a call. -/
def chunksOf (c : Chip) (f : Faults) (s : Session) (data : List UInt16) : List Chunk :=
  if Writes c s data then attempts c f data c.half (chunksEnd s.cells.words c.swlim) s.cells.progs else []

/-- A call of `otp_nvwrite`. -/
def Step (c : Chip) (f : Faults) (s : Session) (call : Call) (s' : Session) : Prop :=
  (∃ fuel r, otpNvwrite f c fuel s.signvalid s.cells call.data = some r ∧
    r.ret = call.ret ∧ r.signvalid = s'.signvalid ∧ r.cells = s'.cells) ∧
  s'.log = s.log ++ chunksOf c f s call.data

/-- **The condition** on a call that comes to write: the search for the last chunk finds it, and its
own chunks leave the reader a way. -/
def Meets (c : Chip) (f : Faults) (s : Session) (data : List UInt16) : Prop :=
  Writes c s data → chunksEnd s.cells.words c.swlim = ends s.log ∧ Readable (s.log ++ chunksOf c f s data)

/-- The data of the calls that returned 0. -/
def returned (es : List Call) : List (List UInt16) := (es.filter fun call => call.ret = 0).map Call.data

/-- What is so after every run. -/
def Inv (c : Chip) (es : List Call) (s : Session) : Prop :=
  ∃ p ≠ Place.jump, s.log.foldlM after Place.fresh = some p ∧
    Laid c s.cells (ends s.log) p ((returned es).map bytesOf)

theorem inv_blank (c : Chip) : Inv c [] Session.blank := by
  have hzero : (0 : UInt16) ≠ otpMagic := by decide
  refine ⟨.fresh, Place.noConfusion, rfl, ?_⟩
  exact
    { room := Nat.zero_le _
      first := ⟨fun _ => rfl, fun _ => rfl⟩
      blank := fun _ _ _ => rfl
      unsigned := fun _ _ _ => rfl
      quiet := fun _ _ _ => hzero
      arrives := ⟨rfl, rfl⟩ }

/-- More turns do not change what the loop comes to. -/
theorem writeChunks_mono {half : ℕ} {data : List UInt16} {r : ℕ × ℕ × Cells} : ∀ {fuel fuel' base : ℕ} {o : Cells},
    fuel ≤ fuel' → writeChunks f half data fuel base o = some r → writeChunks f half data fuel' base o = some r := by
  intro fuel
  induction fuel with
  | zero =>
    intro fuel' base o _ h
    cases h
  | succ fuel ih =>
    intro fuel' base o hle h
    obtain ⟨fuel', rfl⟩ := Nat.exists_eq_add_of_le' (Nat.lt_of_lt_of_le (Nat.succ_pos _) hle)
    rw [writeChunks] at h ⊢
    dsimp only at h ⊢
    split_ifs at h ⊢ with hgo
    · exact ih (by omega) h
    · exact h

/-- A call that does not come to write changes nothing. -/
theorem otpNvwrite_of_not_writes {s : Session} {data : List UInt16} (h : ¬Writes c s data) : ∃ ret ≠ 0, ∀ fuel,
    otpNvwrite f c fuel s.signvalid s.cells data = some ⟨ret, none, s.signvalid, s.cells⟩ := by
  unfold Writes at h
  by_cases hprot : (hasBit (c.hwprot ||| s.signvalid) otpHwRegion && hasBit (c.hwprot ||| s.signvalid) otpSwRegion) = true
  · exact ⟨bcmeEperm, by decide, fun fuel => if_pos hprot⟩
  · have hfull : data.length + 3 > uintSub c.swlim (chunksEnd s.cells.words c.swlim) := by
      by_contra hroom
      exact h ⟨hprot, by omega⟩
    exact ⟨bcmeError, by decide, fun fuel => (if_neg hprot).trans (if_pos hfull)⟩

theorem otpNvwrite_of_writes {s : Session} {data : List UInt16} (h : Writes c s data) (fuel : ℕ) :
    otpNvwrite f c fuel s.signvalid s.cells data =
      (writeChunks f c.half data fuel (chunksEnd s.cells.words c.swlim) s.cells).map fun r =>
        ⟨if r.1 ≠ 0 then bcmeError else 0, some r.2.1,
          if chunksEnd s.cells.words c.swlim = 0 then s.signvalid ||| otpHwRegion else s.signvalid, r.2.2⟩ :=
  (if_neg h.1).trans (if_neg (by have := h.2; omega))

theorem returned_snoc (es : List Call) (call : Call) :
    returned (es ++ [call]) = returned es ++ if call.ret = 0 then [call.data] else [] := by
  unfold returned
  rw [List.filter_append, List.map_append]
  by_cases h : call.ret = 0
  · simp [h]
  · simp [h]

theorem Readable.rest {log log' : List Chunk} {p : Place} (h : Readable (log ++ log'))
    (hp : log.foldlM after Place.fresh = some p) : ∃ p' ≠ Place.jump, log'.foldlM after p = some p' := by
  obtain ⟨p', hne, hall⟩ := h
  rw [List.foldlM_append, hp] at hall
  exact ⟨p', hne, hall⟩

theorem foldlM_append_of {log log' : List Chunk} {p p' : Place} (h : log.foldlM after Place.fresh = some p)
    (h' : log'.foldlM after p = some p') : (log ++ log').foldlM after Place.fresh = some p' := by
  rw [List.foldlM_append, h]
  exact h'

/-- What a call does, whatever the fuel. -/
theorem Inv.call {es : List Call} {s : Session} (h : Inv c es s) {data : List UInt16} (hmeets : Meets c f s data) :
    ∃ r, (∃ fuel, otpNvwrite f c fuel s.signvalid s.cells data = some r) ∧
      (∀ fuel r', otpNvwrite f c fuel s.signvalid s.cells data = some r' → r' = r) ∧
      Inv c (es ++ [⟨data, r.ret⟩]) ⟨r.cells, r.signvalid, s.log ++ chunksOf c f s data⟩ := by
  obtain ⟨p, hp, hlog, hlaid⟩ := h
  by_cases hwrites : Writes c s data
  · obtain ⟨hend, hreadable⟩ := hmeets hwrites
    obtain ⟨p', hp', hcall⟩ := hreadable.rest hlog
    have hchip := c.swlim_add
    have hhalf := c.half_le
    have hroom : ends s.log + (data.length + 3) ≤ c.swlim := by
      have hfree := hwrites.2
      rw [hend, uintSub_of_le hlaid.room (by omega)] at hfree
      omega
    have hchunks : chunksOf c f s data = attempts c f data c.half (ends s.log) s.cells.progs := by
      unfold chunksOf
      rw [if_pos hwrites, hend]
    rw [hchunks] at hcall ⊢
    obtain ⟨err, o', hrun, hlaid', hwritten⟩ := hlaid.writeChunks hroom (by omega) hcall
    have hgo : otpNvwrite f c c.half s.signvalid s.cells data = some _ :=
      (otpNvwrite_of_writes hwrites c.half).trans (by rw [hend, hrun, Option.map_some])
    refine ⟨_, ⟨c.half, hgo⟩, ?_, p', hp', foldlM_append_of hlog hcall, ?_⟩
    · intro fuel r' hr'
      rw [otpNvwrite_of_writes hwrites, hend] at hr'
      obtain ⟨r, hr, rfl⟩ := Option.map_eq_some_iff.mp hr'
      have hmax := writeChunks_mono (le_max_left fuel c.half) hr
      rw [writeChunks_mono (le_max_right fuel c.half) hrun] at hmax
      cases Option.some.inj hmax
      rfl
    · rw [ends_append, returned_snoc, List.map_append]
      rw [hwritten] at hlaid'
      by_cases herr : err = 0
      · simpa [herr] using hlaid'
      · have hret : bcmeError ≠ 0 := by decide
        simpa [herr, hret] using hlaid'
  · obtain ⟨ret, hret, hgo⟩ := otpNvwrite_of_not_writes (f := f) hwrites
    have hchunks : chunksOf c f s data = [] := if_neg hwrites
    refine ⟨_, ⟨0, hgo 0⟩, fun fuel r' hr' => ?_, p, hp, ?_⟩
    · rw [hgo] at hr'
      exact (Option.some.inj hr').symm
    · rw [hchunks, List.append_nil, returned_snoc]
      dsimp only
      rw [if_neg hret, List.append_nil]
      exact ⟨hlog, hlaid⟩

/-- **The writer and the reader agree**: after every run of calls that meet the condition, whatever fails in
it, the scan ends with the blocks of the calls that returned 0, the last one first, and no others; and every
further call that meets it ends. -/
theorem otp_agree (c : Chip) (f : Faults) {es : List Call} {s : Session}
    (h : Trace (fun s call s' => Step c f s call s' ∧ Meets c f s call.data) Session.blank es s) :
    (∃ n, ∀ fuel ≥ n, otpVars c fuel s.cells.words = some ((returned es).reverse.map bytesOf)) ∧
    ∀ data, Meets c f s data → ∃ ret s', Step c f s ⟨data, ret⟩ s' := by
  have hinv : Inv c es s := by
    apply Trace.inv (I := Inv c) (inv_blank c) _ h
    rintro es s ⟨data, ret⟩ ⟨cells', signvalid', log'⟩ hinv ⟨⟨⟨fuel, r, hr, hret, hsign, hcells⟩, hlog⟩, hmeets⟩
    obtain ⟨r', _, huniq, hnext⟩ := hinv.call hmeets
    cases huniq fuel r hr
    dsimp only at hret hsign hcells hlog
    subst hret hsign hcells hlog
    exact hnext
  refine ⟨?_, fun data hmeets => ?_⟩
  · obtain ⟨p, hp, _, hlaid⟩ := hinv
    have hquiet : Quiet s.cells.words (ends s.log) c.half := by
      have hzero : (0 : UInt16) ≠ otpMagic := by decide
      apply Quiet.append _ hlaid.quiet
      intro k hk hk'
      rw [hlaid.blank k hk hk']
      exact hzero
    obtain ⟨m, hm⟩ := hlaid.arrives.ends hp hlaid.room hquiet
    refine ⟨m, fun fuel hfuel => ?_⟩
    obtain ⟨n, rfl⟩ := Nat.exists_eq_add_of_le hfuel
    rw [hm, List.map_reverse]
  · obtain ⟨r, ⟨fuel, hr⟩, _, _⟩ := hinv.call hmeets
    exact ⟨r.ret, ⟨r.cells, r.signvalid, _⟩, ⟨fuel, r, hr, rfl, rfl, rfl⟩, rfl⟩

/-! ### Two runs -/

/-- The session after a call. -/
def Session.call (c : Chip) (f : Faults) (s : Session) (data : List UInt16) : Session :=
  match otpNvwrite f c c.half s.signvalid s.cells data with
  | some r => ⟨r.cells, r.signvalid, s.log ++ chunksOf c f s data⟩
  | none => s

theorem step_call {s : Session} {data : List UInt16} {ret : ℤ}
    (h : (otpNvwrite f c c.half s.signvalid s.cells data).map Nvwrite.ret = some ret) :
    Step c f s ⟨data, ret⟩ (s.call c f data) := by
  obtain ⟨r, hr, hret⟩ := Option.map_eq_some_iff.mp h
  unfold Session.call
  rw [hr]
  exact ⟨⟨c.half, r, hr, hret, rfl, rfl⟩, rfl⟩

theorem scanChunks_mono {half : ℕ} {words : ℕ → UInt16} {v : List (List UInt8)} : ∀ {fuel fuel' i : ℕ}
    {vars : List (List UInt8)}, fuel ≤ fuel' → scanChunks half words fuel i vars = some v →
    scanChunks half words fuel' i vars = some v := by
  intro fuel
  induction fuel with
  | zero =>
    intro fuel' i vars _ h
    cases h
  | succ fuel ih =>
    intro fuel' i vars hle h
    obtain ⟨fuel', rfl⟩ := Nat.exists_eq_add_of_le' (Nat.lt_of_lt_of_le (Nat.succ_pos _) hle)
    rw [scanChunks] at h ⊢
    dsimp only at h ⊢
    by_cases hgo : i < half ∧ words i = otpMagic
    · rw [if_pos hgo] at h ⊢
      generalize (if i * 2 + (words (i + 1)).toNat ≥ half * 2 then 6 else (words (i + 1)).toNat) = rsz at h ⊢
      split_ifs at h ⊢
      · exact ih (by omega) h
      · exact ih (by omega) h
      · exact ih (by omega) h
    · rw [if_neg hgo] at h ⊢
      exact h

theorem otpVars_mono {words : ℕ → UInt16} {v : List (List UInt8)} {fuel fuel' : ℕ} (hle : fuel ≤ fuel')
    (h : otpVars c fuel words = some v) : otpVars c fuel' words = some v := by
  unfold otpVars at h ⊢
  cases hstart : scanStart c words with
  | none =>
    rw [hstart] at h
    exact h
  | some i =>
    rw [hstart] at h
    exact scanChunks_mono hle h

/-- A chip with 32 words. -/
def smallChip : Chip := ⟨1, by decide, by decide, false, 0⟩

/-- The second word that is programmed fails. -/
theorem otp_agree_retry : ∃ s,
    Trace (fun s call s' => Step smallChip (fun t => if t = 1 then some 3 else none) s call s' ∧
        Meets smallChip (fun t => if t = 1 then some 3 else none) s call.data)
      Session.blank [⟨[0x1111, 0x2222], 0⟩, ⟨[0x3333], 0⟩] s ∧
    ((∃ n, ∀ fuel ≥ n, otpVars smallChip fuel s.cells.words =
        some [bytesOf [0x3333], bytesOf [0x1111, 0x2222]]) ∧
      ∀ data, Meets smallChip (fun t => if t = 1 then some 3 else none) s data →
        ∃ ret s', Step smallChip (fun t => if t = 1 then some 3 else none) s ⟨data, ret⟩ s') := by
  have hrun : Trace (fun s call s' => Step smallChip (fun t => if t = 1 then some 3 else none) s call s' ∧
        Meets smallChip (fun t => if t = 1 then some 3 else none) s call.data)
      Session.blank [⟨[0x1111, 0x2222], 0⟩, ⟨[0x3333], 0⟩] _ :=
    (Trace.nil.snoc ⟨step_call (by decide +kernel),
        fun _ => ⟨by decide +kernel, .behind, by decide, by decide +kernel⟩⟩).snoc
      ⟨step_call (by decide +kernel), fun _ => ⟨by decide +kernel, .behind, by decide, by decide +kernel⟩⟩
  exact ⟨_, hrun, otp_agree smallChip (fun t => if t = 1 then some 3 else none) hrun⟩

/-- Nothing fails, and both calls return 0, but the second one takes a word of the first one's data for a
header, and its chunk is never found. -/
theorem magic_data_unread : ∃ s, Trace (Step smallChip fun _ => none) Session.blank
      [⟨[0x4e56, 20], 0⟩, ⟨[0x1234], 0⟩] s ∧
    ∀ fuel v, otpVars smallChip fuel s.cells.words = some v → bytesOf [0x1234] ∉ v := by
  have hrun : Trace (Step smallChip fun _ => none) Session.blank [⟨[0x4e56, 20], 0⟩, ⟨[0x1234], 0⟩]
      ((Session.blank.call smallChip (fun _ => none) [0x4e56, 20]).call smallChip (fun _ => none) [0x1234]) :=
    (Trace.nil.snoc (step_call (by decide +kernel))).snoc (step_call (by decide +kernel))
  refine ⟨_, hrun, fun fuel v hv => ?_⟩
  have hthree : otpVars smallChip 3 ((Session.blank.call smallChip (fun _ => none) [0x4e56, 20]).call
      smallChip (fun _ => none) [0x1234]).cells.words = some [bytesOf [0x4e56, 20]] := by decide +kernel
  have hmax := otpVars_mono (le_max_left fuel 3) hv
  rw [otpVars_mono (le_max_right fuel 3) hthree] at hmax
  rw [← Option.some.inj hmax]
  decide

end Otp
end Router
