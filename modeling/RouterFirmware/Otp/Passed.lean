/-
# Where the scan of the OTP ends

The scan of `nvram_init` goes on behind a chunk by the length that stands in it. A
length that reaches the end of the area is taken for that of an empty chunk; a length of
0 or 1 is taken as it is, and brings the scan back to the same magic word, for ever. An
empty chunk in the last two words of the area reaches behind it.

These are the only ways: the scan ends and stays in the area exactly if it comes to
neither (`scan_inside_iff`). `malloc` is the allocator's; each block asks for its next
answer, and the first refusal ends the scan.
-/
import RouterFirmware.Otp.Read
import RouterFirmware.Lib.Fuel

namespace Router
namespace Otp

open Bits Bcm Fuel

variable (half : ℕ) (words : ℕ → UInt16) (malloc : ℕ → Bool)

/-- The size of the chunk at the word `i`. -/
def chunkSize (i : ℕ) : ℕ :=
  let len := (words (i + 1)).toNat
  -- bad length, try to find another chunk anyway
  if i * 2 + len ≥ half * 2 then 6 else len

/-- The chunk at `i` has a good CRC. -/
def GoodCrc (i : ℕ) : Prop := hndcrc16 (bytesFrom words i (chunkSize half words i)) crc16InitValue = crc16GoodValue

instance (i : ℕ) : Decidable (GoodCrc half words i) := inferInstanceAs (Decidable (_ = _))

/-- Where the scan goes on behind a chunk that is not good. -/
def nextBase (i : ℕ) : ℕ :=
  if words (i + chunkSize half words i / 2) = otpMagic then i + chunkSize half words i / 2
  else nextMagic words (half - (i + 1)) (i + 1)

/-- A chunk that is passed to the variables: where it is and its size, in bytes. -/
structure Passed where
  base : ℕ
  size : ℕ

/-- The loop over the chunks, with `k` blocks allocated. -/
def passedChunks : ℕ → ℕ → ℕ → Option (List Passed)
  | 0, _, _ => none
  | fuel + 1, k, i =>
    if i < half ∧ words i = otpMagic then
      if GoodCrc half words i then
        if malloc k then
          (passedChunks fuel (k + 1) (i + chunkSize half words i / 2)).map (⟨i * 2, chunkSize half words i⟩ :: ·)
        else some []
      else passedChunks fuel k (nextBase half words i)
    else some []

/-- The part of `nvram_init` about the OTP: the chunks whose data it copies. -/
def otpPassed (c : Chip) (fuel : ℕ) : Option (List Passed) :=
  match scanStart c words with
  | none => some []
  | some i => passedChunks c.half words malloc fuel 0 i

/-- What is copied of a chunk: the bytes between its header and its CRC. -/
def Passed.data (p : Passed) : List UInt8 := bytesFrom words (p.base / 2 + 2) (p.size - 6)

/-! ### The chunks it comes to -/

/-- From `i`, with `k` blocks allocated, the scan comes to a chunk at `j`, with `k'` of them. -/
inductive Visits : ℕ → ℕ → ℕ → ℕ → Prop
  | here {k i : ℕ} : i < half → words i = otpMagic → Visits k i k i
  | pass {k i k' j : ℕ} : i < half → words i = otpMagic → GoodCrc half words i → malloc k →
      Visits (k + 1) (i + chunkSize half words i / 2) k' j → Visits k i k' j
  | skip {k i k' j : ℕ} : i < half → words i = otpMagic → ¬GoodCrc half words i →
      Visits k (nextBase half words i) k' j → Visits k i k' j

/-- The chunk at `i` is an empty one for want of a good length, and reaches behind the area. -/
def Protrudes (i : ℕ) : Prop := i * 2 + (words (i + 1)).toNat ≥ half * 2 ∧ half < i + 3

/-- The scan gets past the chunk at `i`, in the area. -/
structure Sound (k i : ℕ) : Prop where
  long : 2 ≤ (words (i + 1)).toNat
  within : GoodCrc half words i → malloc k → ¬Protrudes half words i

variable {half words malloc}

/-! ### What a good CRC says of a size -/

/-- The bytes of a chunk of less than six. -/
theorem bytesFrom_short {i n : ℕ} (hn : n < 6) : bytesFrom words i n =
    (bytes16 (words i) ++ bytes16 (words (i + 1)) ++ bytes16 (words (i + 2))).take n := by
  interval_cases n <;> rfl

theorem crc_short : ∀ n < 5,
    hndcrc16 ((bytes16 otpMagic ++ bytes16 (.ofNat n)).take n) crc16InitValue ≠ crc16GoodValue := by
  decide +kernel

theorem crc_five : ∀ n < 256, hndcrc16 [0x56, 0x4e, 5, 0, UInt8.ofNat n] crc16InitValue ≠ crc16GoodValue := by
  have hfour : hndcrc16 [0x56, 0x4e, 5, 0] crc16InitValue = 0xf578 := by decide +kernel
  -- whatever the last look-up gives
  have htable : (0 :: crc16Table).all (fun t => decide ((0xf578 : UInt16) >>> 8 ^^^ t ≠ crc16GoodValue)) = true := by
    decide +kernel
  intro n _ hgood
  have hsplit := hndcrc16_append [0x56, 0x4e, 5, 0] [UInt8.ofNat n] crc16InitValue
  rw [hfour] at hsplit
  have hlast : crc16Step 0xf578 (UInt8.ofNat n) = crc16GoodValue := hsplit.symm.trans hgood
  rw [crc16Step] at hlast
  refine of_decide_eq_true (List.all_eq_true.mp htable _ ?_) hlast
  rw [List.getD_eq_getElem?_getD]
  cases hget : crc16Table[((0xf578 ^^^ (UInt8.ofNat n).toUInt16) &&& 0xff).toNat]? with
  | none => exact List.mem_cons_self
  | some t => exact List.mem_cons_of_mem _ (List.mem_of_getElem? hget)

/-- With a good CRC there is room for a header and a CRC. -/
theorem GoodCrc.six_le {i : ℕ} (h : GoodCrc half words i) (hmagic : words i = otpMagic) :
    6 ≤ chunkSize half words i := by
  by_contra hlt
  have hsize : chunkSize half words i = (words (i + 1)).toNat := by
    unfold chunkSize at hlt ⊢
    dsimp only at hlt ⊢
    split_ifs at hlt ⊢
    · omega
    · rfl
  unfold GoodCrc at h
  rw [bytesFrom_short (by omega), hmagic, hsize] at h
  generalize hw : words (i + 1) = w at h hsize
  generalize words (i + 2) = v at h
  have hlen : w.toNat < 6 := by omega
  have hword : w = UInt16.ofNat w.toNat := UInt16.ofNat_toNat.symm
  generalize w.toNat = n at hlen h hword
  subst hword
  rcases Nat.lt_succ_iff_lt_or_eq.mp hlen with hlt | rfl
  · rw [List.take_append_of_le_length (Nat.le_of_lt_succ hlt)] at h
    exact crc_short n hlt h
  · have hb := crc_five v.toUInt8.toNat v.toUInt8.toNat_lt
    rw [UInt8.ofNat_toNat] at hb
    exact hb h

/-! ### One turn -/

/-- The chunks lie in the area. -/
def Inside (half : ℕ) (ps : List Passed) : Prop := ∀ p ∈ ps, p.base + p.size ≤ half * 2

theorem inside_cons {p : Passed} {ps : List Passed} :
    Inside half (p :: ps) ↔ p.base + p.size ≤ half * 2 ∧ Inside half ps := List.forall_mem_cons

theorem le_nextMagic (words : ℕ → UInt16) : ∀ n i, i ≤ nextMagic words n i
  | 0, i => le_refl i
  | n + 1, i => by
    unfold nextMagic
    split_ifs
    · exact le_refl i
    · exact Nat.le_of_succ_le (le_nextMagic words n (i + 1))

section Turn

variable {k i : ℕ}

/-- A chunk is in the area, unless it is an empty one at its end. -/
theorem inside_iff (half : ℕ) (words : ℕ → UInt16) (i : ℕ) :
    i * 2 + chunkSize half words i ≤ half * 2 ↔ ¬Protrudes half words i := by
  unfold Protrudes chunkSize
  dsimp only
  split_ifs with hlong
  · omega
  · omega

/-- A length that is not 0 or 1 brings the scan on. -/
theorem lt_step (half : ℕ) (hlong : 2 ≤ (words (i + 1)).toNat) : i < i + chunkSize half words i / 2 := by
  unfold chunkSize
  dsimp only
  split_ifs
  · omega
  · omega

theorem lt_nextBase (half : ℕ) (hlong : 2 ≤ (words (i + 1)).toNat) : i < nextBase half words i := by
  unfold nextBase
  split_ifs
  · exact lt_step half hlong
  · exact le_nextMagic words _ (i + 1)

/-- And 0 or 1 do not. -/
theorem nextBase_self (hi : i < half) (hmagic : words i = otpMagic) (hshort : (words (i + 1)).toNat < 2) :
    nextBase half words i = i := by
  have hsize : chunkSize half words i / 2 = 0 := by
    unfold chunkSize
    dsimp only
    split_ifs
    · omega
    · omega
  unfold nextBase
  rw [hsize, Nat.add_zero, if_pos hmagic]

theorem GoodCrc.long (h : GoodCrc half words i) (hi : i < half) (hmagic : words i = otpMagic) :
    2 ≤ (words (i + 1)).toNat := by
  have hsix := h.six_le hmagic
  unfold chunkSize at hsix
  dsimp only at hsix
  split_ifs at hsix
  · omega
  · omega

/-- The chunks it comes to from a chunk. -/
theorem forall_visits {Q : ℕ → ℕ → Prop} (hi : i < half) (hmagic : words i = otpMagic) :
    (∀ k' j, Visits half words malloc k i k' j → Q k' j) ↔ Q k i ∧
      (GoodCrc half words i → malloc k →
        ∀ k' j, Visits half words malloc (k + 1) (i + chunkSize half words i / 2) k' j → Q k' j) ∧
      (¬GoodCrc half words i → ∀ k' j, Visits half words malloc k (nextBase half words i) k' j → Q k' j) := by
  constructor
  · intro h
    exact ⟨h k i (.here hi hmagic), fun hgood hm k' j hv => h k' j (.pass hi hmagic hgood hm hv),
      fun hbad k' j hv => h k' j (.skip hi hmagic hbad hv)⟩
  · rintro ⟨hhere, hpass, hskip⟩ k' j hv
    cases hv with
    | here => exact hhere
    | pass _ _ hgood hm hv => exact hpass hgood hm k' j hv
    | skip _ _ hbad hv => exact hskip hbad k' j hv

theorem not_visits (h : ¬(i < half ∧ words i = otpMagic)) {k' j : ℕ} : ¬Visits half words malloc k i k' j := by
  intro hv
  cases hv with
  | here hi hmagic => exact h ⟨hi, hmagic⟩
  | pass hi hmagic => exact h ⟨hi, hmagic⟩
  | skip hi hmagic => exact h ⟨hi, hmagic⟩

/-- A chunk with a length of 0 or 1 is never left. -/
theorem passedChunks_stuck (hi : i < half) (hmagic : words i = otpMagic) (hshort : (words (i + 1)).toNat < 2) :
    ∀ fuel, passedChunks half words malloc fuel k i = none
  | 0 => rfl
  | fuel + 1 => by
    have hbad : ¬GoodCrc half words i := fun h => absurd (h.long hi hmagic) (Nat.not_le.mpr hshort)
    rw [passedChunks, if_pos ⟨hi, hmagic⟩, if_neg hbad, nextBase_self hi hmagic hshort]
    exact passedChunks_stuck hi hmagic hshort fuel

end Turn

/-! ### The whole scan -/

/-- A scan that ends before it passes a chunk. -/
theorem returns_nil {k i : ℕ} (h : ∀ fuel, passedChunks half words malloc (fuel + 1) k i = some []) :
    Returns (fun fuel => passedChunks half words malloc fuel k i) (Inside half) :=
  (returns_some (List.forall_mem_nil _)).turn h

/-- The scan from `i` on. -/
theorem passedChunks_inside_iff (n : ℕ) : ∀ k i, half - i ≤ n →
    (Returns (fun fuel => passedChunks half words malloc fuel k i) (Inside half) ↔
      ∀ k' j, Visits half words malloc k i k' j → Sound half words malloc k' j) := by
  induction n with
  | zero =>
    intro k i hn
    have hend : ¬(i < half ∧ words i = otpMagic) := fun h => by omega
    refine iff_of_true (returns_nil fun fuel => ?_) fun k' j hv => absurd hv (not_visits hend)
    rw [passedChunks, if_neg hend]
  | succ n ih =>
    intro k i hn
    by_cases hat : i < half ∧ words i = otpMagic
    · obtain ⟨hi, hmagic⟩ := hat
      rw [forall_visits hi hmagic]
      by_cases hgood : GoodCrc half words i
      · have hlong := hgood.long hi hmagic
        have hstep := lt_step half hlong
        by_cases hm : malloc k = true
        · -- the chunk is passed
          have hturn : ∀ fuel, passedChunks half words malloc (fuel + 1) k i =
              (passedChunks half words malloc fuel (k + 1) (i + chunkSize half words i / 2)).map
                (⟨i * 2, chunkSize half words i⟩ :: ·) := fun fuel => by
            rw [passedChunks, if_pos ⟨hi, hmagic⟩, if_pos hgood, if_pos hm]
          rw [returns_turn_iff hturn, returns_map_iff List.cons_injective]
          simp only [inside_cons]
          rw [returns_and_iff, ih (k + 1) _ (by omega), inside_iff]
          constructor
          · rintro ⟨hin, hrest⟩
            exact ⟨⟨hlong, fun _ _ => hin⟩, fun _ _ => hrest, fun hbad => absurd hgood hbad⟩
          · rintro ⟨hsound, hrest, -⟩
            exact ⟨hsound.within hgood hm, hrest hgood hm⟩
        · -- there is no memory for it
          refine iff_of_true (returns_nil fun fuel => ?_)
            ⟨⟨hlong, fun _ h => absurd h hm⟩, fun _ h => absurd h hm, fun hbad => absurd hgood hbad⟩
          rw [passedChunks, if_pos ⟨hi, hmagic⟩, if_pos hgood, if_neg hm]
      · rcases Nat.lt_or_ge (words (i + 1)).toNat 2 with hshort | hlong
        · exact iff_of_false (not_returns (passedChunks_stuck hi hmagic hshort)) fun h =>
            absurd h.1.long (Nat.not_le.mpr hshort)
        · have hstep := lt_nextBase half hlong
          have hturn : ∀ fuel, passedChunks half words malloc (fuel + 1) k i =
              passedChunks half words malloc fuel k (nextBase half words i) := fun fuel => by
            rw [passedChunks, if_pos ⟨hi, hmagic⟩, if_neg hgood]
          rw [returns_turn_iff hturn, ih k _ (by omega)]
          constructor
          · intro h
            exact ⟨⟨hlong, fun hg => absurd hg hgood⟩, fun hg => absurd hg hgood, fun _ => h⟩
          · exact fun h => h.2.2 hgood
    · refine iff_of_true (returns_nil fun fuel => ?_) fun k' j hv => absurd hv (not_visits hat)
      rw [passedChunks, if_neg hat]

/-- The chunks that the scan of a chip comes to. -/
def Comes (c : Chip) (words : ℕ → UInt16) (malloc : ℕ → Bool) (k i : ℕ) : Prop :=
  ∃ start, scanStart c words = some start ∧ Visits c.half words malloc 0 start k i

/-- **The scan ends, and every chunk that it passes lies in the area**, exactly if each magic word that it comes to
has a length other than 0 and 1 behind it, and it passes no empty chunk from the last two words of the area. -/
theorem scan_inside_iff (c : Chip) (words : ℕ → UInt16) (malloc : ℕ → Bool) :
    Returns (otpPassed words malloc c) (Inside c.half) ↔
      ∀ k i, Comes c words malloc k i → Sound c.half words malloc k i := by
  unfold Comes
  cases hstart : scanStart c words with
  | none =>
    refine iff_of_true ?_ fun k i h => ?_
    · have hnone : otpPassed words malloc c = fun _ => some [] := by
        funext fuel
        rw [otpPassed, hstart]
      rw [hnone]
      exact returns_some (List.forall_mem_nil _)
    · obtain ⟨start, h, -⟩ := h
      cases h
  | some start =>
    have hsome : otpPassed words malloc c = fun fuel => passedChunks c.half words malloc fuel 0 start := by
      funext fuel
      rw [otpPassed, hstart]
    rw [hsome, passedChunks_inside_iff _ 0 start (le_refl _)]
    constructor
    · rintro h k i ⟨start', heq, hv⟩
      cases heq
      exact h k i hv
    · exact fun h k i hv => h k i ⟨start, rfl, hv⟩

/-- A chunk of which only the magic word was programmed. -/
def torn (i : ℕ) : UInt16 := if i = 0 then otpMagic else 0

/-- The scan of it does not end. -/
theorem torn_not_returns : ¬Returns (otpPassed torn (fun _ => true) ⟨1, by decide, by decide, true, 0⟩)
    (Inside (Chip.half ⟨1, by decide, by decide, true, 0⟩)) := by
  refine not_returns fun fuel => ?_
  show passedChunks 32 torn (fun _ => true) fuel 0 0 = none
  exact passedChunks_stuck (by decide) rfl (by decide) fuel

/-! ### The data -/

/-- The blocks that the scan copies are the data of the chunks, if there is memory for them. -/
theorem scanChunks_eq (words : ℕ → UInt16) : ∀ (fuel k i : ℕ) (vars : List (List UInt8)),
    scanChunks half words fuel i vars = (passedChunks half words (fun _ => true) fuel k i).map fun ps =>
      (ps.map (Passed.data words)).reverse ++ vars
  | 0, _, _, _ => rfl
  | fuel + 1, k, i, vars => by
    rw [scanChunks, passedChunks]
    by_cases hat : i < half ∧ words i = otpMagic
    · rw [if_pos hat, if_pos hat]
      by_cases hgood : GoodCrc half words i
      · have hsix : ¬chunkSize half words i < 6 := Nat.not_lt.mpr (hgood.six_le hat.2)
        have hcopy : bytesFrom words (i + 2) (chunkSize half words i - 6) =
            Passed.data words ⟨i * 2, chunkSize half words i⟩ := by
          unfold Passed.data
          rw [Nat.mul_div_cancel i Nat.two_pos]
        rw [if_pos hgood, if_pos rfl]
        refine (if_pos hgood).trans ((if_neg hsix).trans ?_)
        refine (scanChunks_eq words fuel (k + 1) (i + chunkSize half words i / 2) _).trans ?_
        rw [Option.map_map]
        congr 1
        funext ps
        rw [Function.comp_apply, List.map_cons, List.reverse_cons, List.append_assoc]
        exact congrArg (fun d => _ ++ d :: vars) hcopy
      · rw [if_neg hgood]
        refine (if_neg hgood).trans ?_
        rw [← scanChunks_eq words fuel k (nextBase half words i) vars]
        unfold nextBase
        by_cases hjump : words (i + chunkSize half words i / 2) = otpMagic
        · rw [if_pos hjump]
          exact if_pos hjump
        · rw [if_neg hjump]
          exact if_neg hjump
    · rw [if_neg hat, if_neg hat]
      rfl

end Otp
end Router
