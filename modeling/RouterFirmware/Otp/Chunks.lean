/-
# What an attempt leaves behind

An attempt to write a block leaves a chunk (`leftChunk`): the header, the words up to
the one that failed, or all of them and the CRC, each as its programming
left it, and the length of what there is. `writeChunk_spec` says so for blank
words, whatever fails; if nothing does it is the whole chunk (`leftChunk_of_clean`).
-/
import RouterFirmware.Otp.Scan

namespace Router
namespace Otp

open Bits Bcm

variable {f : Faults}

/-! ### Words in a row -/

/-- The words with those of the list from `i` on. -/
def put (words : ℕ → UInt16) : ℕ → List UInt16 → ℕ → UInt16
  | _, [] => words
  | i, x :: l => put (Function.update words i x) (i + 1) l

theorem put_of_lt : ∀ {l : List UInt16} {words : ℕ → UInt16} {i k : ℕ}, k < i → put words i l k = words k
  | [], _, _, _, _ => rfl
  | x :: l, words, i, k, h => by
    rw [put, put_of_lt (by omega), Function.update_of_ne (by omega)]

theorem put_of_ge : ∀ {l : List UInt16} {words : ℕ → UInt16} {i k : ℕ}, i + l.length ≤ k → put words i l k = words k
  | [], _, _, _, _ => rfl
  | x :: l, words, i, k, h => by
    rw [List.length_cons] at h
    rw [put, put_of_ge (by omega), Function.update_of_ne (by omega)]

theorem update_put : ∀ {l : List UInt16} {words : ℕ → UInt16} {i j : ℕ} {x : UInt16}, j < i →
    Function.update (put words i l) j x = put (Function.update words j x) i l
  | [], _, _, _, _, _ => rfl
  | y :: l, words, i, j, x, h => by
    rw [put, put, update_put (by omega), Function.update_comm (by omega)]

theorem wordsFrom_succ (words : ℕ → UInt16) (i n : ℕ) :
    wordsFrom words i (n + 1) = words i :: wordsFrom words (i + 1) n := by
  unfold wordsFrom
  rw [List.range_succ_eq_map, List.map_cons, List.map_map, Nat.add_zero]
  congr 1
  apply List.map_congr_left
  intro k _
  show words (i + (k + 1)) = words (i + 1 + k)
  congr 1
  omega

theorem wordsFrom_congr {words words' : ℕ → UInt16} {i n : ℕ} (h : ∀ k, i ≤ k → k < i + n → words' k = words k) :
    wordsFrom words' i n = wordsFrom words i n := by
  apply List.map_congr_left
  intro k hk
  exact h _ (by omega) (by have := List.mem_range.mp hk; omega)

/-- The list stands at `i`. -/
def Stands (words : ℕ → UInt16) (i : ℕ) (l : List UInt16) : Prop := wordsFrom words i l.length = l

theorem Stands.congr {words words' : ℕ → UInt16} {i : ℕ} {l : List UInt16} (h : Stands words i l)
    (hsame : ∀ k, i ≤ k → k < i + l.length → words' k = words k) : Stands words' i l :=
  (wordsFrom_congr hsame).trans h

theorem stands_cons {words : ℕ → UInt16} {i : ℕ} {x : UInt16} {l : List UInt16} :
    Stands words i (x :: l) ↔ words i = x ∧ Stands words (i + 1) l := by
  unfold Stands
  rw [List.length_cons, wordsFrom_succ, List.cons.injEq]

theorem stands_put : ∀ (l : List UInt16) (words : ℕ → UInt16) (i : ℕ), Stands (put words i l) i l
  | [], _, _ => rfl
  | x :: l, words, i => by
    rw [stands_cons, put]
    refine ⟨?_, stands_put l _ (i + 1)⟩
    rw [put_of_lt (by omega), Function.update_self]

/-! ### What is left -/

/-- The words behind the header that an attempt programs, from the programming `t` on, as they
are left; `bad` says whether something has failed. The chunk is closed behind the word
that fails, but a CRC follows the last word all the same. -/
def leftBody (f : Faults) : ℕ → Bool → List UInt16 → UInt16 → List UInt16
  | t, _, [], crc => [left f t crc]
  | t, bad, d :: data, crc =>
    left f t d ::
      if (bad || (f t).isSome) && !data.isEmpty then []
      else leftBody f (t + 1) (bad || (f t).isSome) data crc

/-- A chunk as it is left by an attempt that begins with the programming `t`. -/
def leftChunk (f : Faults) (t : ℕ) (data : List UInt16) : List UInt16 :=
  let body := leftBody f (t + 1) (f t).isSome data (chunkCrc data)
  left f t otpMagic :: left f (t + 1 + body.length) (.ofNat ((body.length + 2) * 2)) :: body

/-- So many programmings succeed. -/
def Clean (f : Faults) (t n : ℕ) : Prop := ∀ k < n, f (t + k) = none

theorem clean_succ {t n : ℕ} : Clean f t (n + 1) ↔ f t = none ∧ Clean f (t + 1) n := by
  constructor
  · intro h
    refine ⟨h 0 (by omega), fun k hk => ?_⟩
    rw [show t + 1 + k = t + (k + 1) by omega]
    exact h _ (by omega)
  · rintro ⟨h0, h⟩ k hk
    cases k with
    | zero => exact h0
    | succ k =>
      rw [show t + (k + 1) = t + 1 + k by omega]
      exact h k (by omega)

theorem clean_add {t m n : ℕ} : Clean f t (m + n) ↔ Clean f t m ∧ Clean f (t + m) n := by
  constructor
  · intro h
    refine ⟨fun k hk => h k (by omega), fun k hk => ?_⟩
    rw [Nat.add_assoc]
    exact h _ (by omega)
  · rintro ⟨h1, h2⟩ k hk
    by_cases hkm : k < m
    · exact h1 k hkm
    · have := h2 (k - m) (by omega)
      rwa [show t + m + (k - m) = t + k by omega] at this

theorem clean_one {t : ℕ} : Clean f t 1 ↔ f t = none := by
  rw [clean_succ]
  exact and_iff_left fun k hk => absurd hk (by omega)

theorem left_of_none {t : ℕ} (h : f t = none) (data : UInt16) : left f t data = data := by
  unfold left
  rw [h]

/-- The low bits of the word. -/
theorem left_eq (t : ℕ) (data : UInt16) :
    left f t data = data ∨ ∃ n, left f t data = .ofNat (data.toNat % 2 ^ n) := by
  unfold left
  cases f t with
  | none => exact Or.inl rfl
  | some n => exact Or.inr ⟨n, rfl⟩

theorem length_leftBody_pos (t : ℕ) (bad : Bool) (data : List UInt16) (crc : UInt16) :
    0 < (leftBody f t bad data crc).length := by
  cases data with
  | nil => exact Nat.succ_pos _
  | cons d data => exact Nat.succ_pos _

theorem length_leftBody_le : ∀ (data : List UInt16) (t : ℕ) (bad : Bool) (crc : UInt16),
    (leftBody f t bad data crc).length ≤ data.length + 1
  | [], _, _, _ => le_refl _
  | d :: data, t, bad, crc => by
    have ih := length_leftBody_le data (t + 1) (bad || (f t).isSome) crc
    rw [leftBody, List.length_cons, List.length_cons]
    split_ifs with h
    · exact Nat.le_add_left _ _
    · omega

/-- If nothing fails the data and its CRC are left. -/
theorem leftBody_of_clean : ∀ {data : List UInt16} {t : ℕ} {crc : UInt16},
    Clean f t (leftBody f t false data crc).length → leftBody f t false data crc = data ++ [crc]
  | [], t, crc, h => by
    have hnone : f t = none := h 0 (length_leftBody_pos ..)
    rw [leftBody, left_of_none hnone]
    rfl
  | d :: data, t, crc, h => by
    have hnone : f t = none := h 0 (length_leftBody_pos ..)
    have hgo : leftBody f t false (d :: data) crc = d :: leftBody f (t + 1) false data crc := by
      rw [leftBody, hnone, left_of_none hnone]
      rfl
    rw [hgo, List.length_cons, clean_succ] at h
    rw [hgo, leftBody_of_clean h.2]
    rfl

/-- **Without a failure** the whole chunk is left. -/
theorem leftChunk_of_clean {t : ℕ} {data : List UInt16} (h : Clean f t (leftChunk f t data).length) :
    leftChunk f t data = otpMagic :: chunkLen data :: (data ++ [chunkCrc data]) := by
  unfold leftChunk at h ⊢
  dsimp only at h ⊢
  rw [List.length_cons, List.length_cons, clean_succ, clean_add, clean_one] at h
  obtain ⟨hhead, hbody, hlen⟩ := h
  rw [hhead, Option.isSome_none] at hbody hlen ⊢
  rw [left_of_none hhead, left_of_none hlen, leftBody_of_clean hbody, List.length_append]
  rfl

/-! ### An attempt -/

theorem otpWriteWord_blank {o : Cells} {wn : ℕ} (h : o.words wn = 0) (data : UInt16) :
    otpWriteWord f o wn data = (if (f o.progs).isSome then 1 else 0,
      ⟨Function.update o.words wn (left f o.progs data), o.progs + 1⟩) := by
  unfold otpWriteWord
  rw [h, UInt16.zero_or]

theorem fails_eq_zero {t : ℕ} : (if (f t).isSome then 1 else 0) = 0 ↔ f t = none := by
  cases f t with
  | none => simp
  | some n => simp

/-- The data and, if all words of it are written, the CRC. -/
def writeBody (f : Faults) (data : List UInt16) (crc : UInt16) (wn err : ℕ) (o : Cells) : ℕ × ℕ × Cells :=
  let r := writeData f data wn err o
  if r.1 = wn + data.length then
    let e := otpWriteWord f r.2.2 r.1 crc
    (r.1 + 1, r.2.1 + e.1, e.2)
  else r

theorem writeBody_nil (crc : UInt16) (wn err : ℕ) (o : Cells) :
    writeBody f [] crc wn err o =
      (wn + 1, err + (otpWriteWord f o wn crc).1, (otpWriteWord f o wn crc).2) := if_pos rfl

/-- One word, and the rest unless the chunk is closed. -/
theorem writeBody_cons (d : UInt16) (data : List UInt16) (crc : UInt16) (wn err : ℕ) (o : Cells) :
    writeBody f (d :: data) crc wn err o =
      let e := otpWriteWord f o wn d
      if err + e.1 ≠ 0 ∧ data ≠ [] then (wn + 1, err + e.1, e.2)
      else writeBody f data crc (wn + 1) (err + e.1) e.2 := by
  unfold writeBody
  rw [writeData, List.length_cons]
  generalize otpWriteWord f o wn d = e
  dsimp only
  by_cases hbad : err + e.1 ≠ 0
  · simp only [if_pos hbad]
    cases data with
    | nil => simp [writeData]
    | cons d' data =>
      have hclosed : err + e.1 ≠ 0 ∧ d' :: data ≠ [] := ⟨hbad, List.cons_ne_nil _ _⟩
      simp only [if_pos hclosed]
      simp
  · have hopen : ¬(err + e.1 ≠ 0 ∧ data ≠ []) := fun h => hbad h.1
    simp only [if_neg hbad, if_neg hopen]
    rw [show wn + (data.length + 1) = wn + 1 + data.length by omega]

theorem writeBody_spec : ∀ (data : List UInt16) (crc : UInt16) (wn err : ℕ) (o : Cells),
    (∀ k, wn ≤ k → k ≤ wn + data.length → o.words k = 0) → ∃ err',
      writeBody f data crc wn err o =
        (wn + (leftBody f o.progs (err != 0) data crc).length, err',
          ⟨put o.words wn (leftBody f o.progs (err != 0) data crc),
            o.progs + (leftBody f o.progs (err != 0) data crc).length⟩) ∧
      (err' = 0 ↔ err = 0 ∧ Clean f o.progs (leftBody f o.progs (err != 0) data crc).length)
  | [], crc, wn, err, o, hblank => by
    refine ⟨err + if (f o.progs).isSome then 1 else 0, ?_, ?_⟩
    · rw [writeBody_nil, otpWriteWord_blank (hblank wn (le_refl _) (Nat.le_add_right _ _))]
      rfl
    · rw [show (leftBody f o.progs (err != 0) [] crc).length = 1 from rfl, clean_one, Nat.add_eq_zero_iff,
        fails_eq_zero]
  | d :: data, crc, wn, err, o, hblank => by
    have hword := otpWriteWord_blank (f := f) (hblank wn (le_refl _) (Nat.le_add_right _ _)) d
    rw [List.length_cons] at hblank
    have hbad : (err + (if (f o.progs).isSome then 1 else 0) != 0) = (err != 0 || (f o.progs).isSome) := by
      cases f o.progs with
      | none => simp
      | some v => simp
    have hif : (err + (if (f o.progs).isSome then 1 else 0) ≠ 0 ∧ data ≠ []) ↔
        ((err != 0 || (f o.progs).isSome) && !data.isEmpty) = true := by
      rw [Bool.and_eq_true, ← hbad, bne_iff_ne, Bool.not_eq_true', List.isEmpty_eq_false_iff]
    rw [writeBody_cons, hword, leftBody]
    dsimp only
    rw [if_congr hif rfl rfl]
    by_cases hclose : ((err != 0 || (f o.progs).isSome) && !data.isEmpty) = true
    · rw [if_pos hclose, if_pos hclose]
      refine ⟨_, rfl, ?_⟩
      rw [List.length_singleton, clean_one, Nat.add_eq_zero_iff, fails_eq_zero]
    · rw [if_neg hclose, if_neg hclose]
      obtain ⟨err', hrun, herr⟩ := writeBody_spec data crc (wn + 1) (err + if (f o.progs).isSome then 1 else 0)
        ⟨Function.update o.words wn (left f o.progs d), o.progs + 1⟩ (by
          intro k hk hk'
          show Function.update o.words wn (left f o.progs d) k = 0
          rw [Function.update_of_ne (by omega)]
          exact hblank k (by omega) (by omega))
      rw [hbad] at hrun herr
      refine ⟨err', ?_, ?_⟩
      · rw [hrun, List.length_cons, put]
        simp only [Prod.mk.injEq, Cells.mk.injEq, true_and]
        omega
      · rw [herr, List.length_cons, clean_succ, Nat.add_eq_zero_iff, fails_eq_zero, and_assoc]

theorem writeChunk_eq (half : ℕ) (data : List UInt16) (base : ℕ) (o : Cells) :
    writeChunk f half data base o =
      let e := otpWriteWord f o base otpMagic
      let r := writeBody f data (chunkCrc data) (base + 2) e.1 e.2
      let e' := otpWriteWord f r.2.2 (base + 1) (.ofNat ((r.1 - base) * 2))
      (r.2.1 + e'.1, r.1, if base = 0 then signRegion f half r.1 e'.2 else e'.2) := by
  unfold writeChunk writeBody
  generalize otpWriteWord f o base otpMagic = e
  dsimp only
  generalize writeData f data (base + 2) e.1 e.2 = r
  have hend : base + data.length + 2 = base + 2 + data.length := by omega
  rw [hend]
  by_cases hwhole : r.1 = base + 2 + data.length
  · have hlen : chunkLen data = .ofNat ((r.1 + 1 - base) * 2) := by
      unfold chunkLen
      rw [hwhole]
      congr 2
      omega
    simp only [if_pos hwhole, hlen]
  · simp only [if_neg hwhole]

/-- **An attempt** on blank words leaves its chunk, and has no errors if every programming of it succeeds. -/
theorem writeChunk_spec {data : List UInt16} {base : ℕ} {o : Cells} (half : ℕ)
    (hblank : ∀ k, base ≤ k → k < base + data.length + 3 → o.words k = 0) : ∃ err,
      (err = 0 ↔ Clean f o.progs (leftChunk f o.progs data).length) ∧
      writeChunk f half data base o = (err, base + (leftChunk f o.progs data).length,
        let o' := ⟨put o.words base (leftChunk f o.progs data), o.progs + (leftChunk f o.progs data).length⟩
        if base = 0 then signRegion f half (leftChunk f o.progs data).length o' else o') := by
  have hhead := otpWriteWord_blank (f := f) (hblank base (le_refl _) (by omega)) otpMagic
  have hbad : ((if (f o.progs).isSome then 1 else 0) != 0) = (f o.progs).isSome := by
    cases f o.progs with
    | none => rfl
    | some v => rfl
  obtain ⟨err, hrun, herr⟩ := writeBody_spec (f := f) data (chunkCrc data) (base + 2) (if (f o.progs).isSome then 1 else 0)
    ⟨Function.update o.words base (left f o.progs otpMagic), o.progs + 1⟩ (by
      intro k hk hk'
      show Function.update o.words base (left f o.progs otpMagic) k = 0
      rw [Function.update_of_ne (by omega)]
      exact hblank k (by omega) (by omega))
  rw [hbad] at hrun herr
  have hchunk : leftChunk f o.progs data = left f o.progs otpMagic ::
      left f (o.progs + 1 + (leftBody f (o.progs + 1) (f o.progs).isSome data (chunkCrc data)).length)
        (.ofNat (((leftBody f (o.progs + 1) (f o.progs).isSome data (chunkCrc data)).length + 2) * 2)) ::
      leftBody f (o.progs + 1) (f o.progs).isSome data (chunkCrc data) := rfl
  generalize leftBody f (o.progs + 1) (f o.progs).isSome data (chunkCrc data) = body at hrun herr hchunk
  have hcount : base + 2 + body.length - base = body.length + 2 := by omega
  rw [writeChunk_eq, hhead]
  dsimp only
  rw [hrun]
  dsimp only
  rw [otpWriteWord_blank, update_put (by omega), hcount]
  · refine ⟨err + if (f (o.progs + 1 + body.length)).isSome then 1 else 0, ?_, ?_⟩
    · rw [hchunk, List.length_cons, List.length_cons, clean_succ, clean_add, clean_one]
      rw [Nat.add_eq_zero_iff, herr, fails_eq_zero, fails_eq_zero, and_assoc]
    · have hlen : (leftChunk f o.progs data).length = body.length + 2 := by rw [hchunk]; rfl
      have hprogs : o.progs + 1 + body.length + 1 = o.progs + (body.length + 2) := by omega
      rw [hlen, hchunk, put, put, hprogs]
      by_cases h0 : base = 0
      · subst h0
        rw [if_pos rfl, if_pos rfl]
        simp only [Nat.zero_add, Nat.add_comm 2]
      · rw [if_neg h0, if_neg h0, show base + 2 + body.length = base + (body.length + 2) by omega]
  · show put (Function.update o.words base (left f o.progs otpMagic)) (base + 2) body (base + 1) = 0
    rw [put_of_lt (by omega), Function.update_of_ne (by omega)]
    exact hblank _ (by omega) (by omega)

end Otp
end Router
