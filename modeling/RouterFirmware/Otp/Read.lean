/-
# A reader along the chunks

`Arrives` says where the scan of `nvram_init` is when it has come to the end of the
chunks so far, and with which copies; of the words behind these it says nothing. One
more chunk takes it to where `after` says (`Arrives.step`), and where there is no more
the scan ends (`Arrives.ends`).
-/
import RouterFirmware.Otp.Log

namespace Router
namespace Otp

open Bits Bcm

variable {c : Chip} {words words' : ℕ → UInt16}

/-! ### The chip -/

theorem Chip.swlim_add (c : Chip) : c.swlim + 8 = c.half := by
  have h : 2 ^ 4 ≤ 2 ^ (c.cap + 4) := Nat.pow_le_pow_right (by omega) (by omega)
  unfold swlim half
  omega

theorem Chip.half_le (c : Chip) : c.half ≤ 2048 := by
  have hcap := c.cap_lt
  exact Nat.pow_le_pow_right (n := 2) (by omega) (show c.cap + 4 ≤ 11 by omega)

/-! ### Magic words -/

/-- No magic word stands from `i` up to `j`. -/
def Quiet (words : ℕ → UInt16) (i j : ℕ) : Prop := ∀ k, i ≤ k → k < j → words k ≠ otpMagic

theorem nextMagic_add {m i : ℕ} (n : ℕ) (h : Quiet words i (i + m)) :
    nextMagic words (m + n) i = nextMagic words n (i + m) := by
  induction m generalizing i with
  | zero => rw [Nat.zero_add, Nat.add_zero]
  | succ m ih =>
    calc nextMagic words (m + 1 + n) i = nextMagic words (m + n + 1) i := by rw [Nat.add_right_comm]
      _ = nextMagic words (m + n) (i + 1) := if_neg (h i (le_refl _) (by omega))
      _ = nextMagic words n (i + 1 + m) := by
        apply ih
        exact fun k hk hk' => h k (by omega) (by omega)
      _ = nextMagic words n (i + (m + 1)) := by rw [Nat.add_assoc, Nat.add_comm 1]

/-- A quiet stretch is skipped. -/
theorem nextMagic_skip {half i j : ℕ} (hij : i ≤ j) (hj : j ≤ half) (h : Quiet words i j) :
    nextMagic words (half - i) i = nextMagic words (half - j) j := by
  obtain ⟨m, rfl⟩ := Nat.exists_eq_add_of_le hij
  rw [show half - i = m + (half - (i + m)) by omega]
  exact nextMagic_add _ h

theorem nextMagic_none {half i : ℕ} (hi : i ≤ half) (h : Quiet words i half) :
    nextMagic words (half - i) i = half := by
  rw [nextMagic_skip hi (le_refl _) h, Nat.sub_self]
  rfl

theorem nextMagic_self {half i : ℕ} (hi : i < half) (h : words i = otpMagic) :
    nextMagic words (half - i) i = i := by
  rw [show half - i = half - i - 1 + 1 by omega]
  exact if_pos h

/-! ### Words and their bytes -/

theorem bytesOf_append (l l' : List UInt16) : bytesOf (l ++ l') = bytesOf l ++ bytesOf l' := List.flatMap_append

theorem length_bytesOf (l : List UInt16) : (bytesOf l).length = 2 * l.length := by
  induction l with
  | nil => rfl
  | cons w l ih =>
    calc (bytesOf (w :: l)).length = 2 + (bytesOf l).length := by
          rw [Nat.add_comm]
          rfl
      _ = 2 * (w :: l).length := by
          rw [ih, List.length_cons]
          omega

theorem take_wordsFrom (words : ℕ → UInt16) (i m n : ℕ) :
    (wordsFrom words i n).take m = wordsFrom words i (min m n) := by
  unfold wordsFrom
  rw [← List.map_take, List.take_range]

/-- So many whole words. -/
theorem bytesFrom_two_mul (words : ℕ → UInt16) (i n : ℕ) :
    bytesFrom words i (2 * n) = bytesOf (wordsFrom words i n) := by
  have hcut : wordsFrom words i n ++ (wordsFrom words i (n + 1)).drop n = wordsFrom words i (n + 1) := by
    have htake : wordsFrom words i n = (wordsFrom words i (n + 1)).take n := by
      rw [take_wordsFrom, Nat.min_eq_left (Nat.le_succ n)]
    rw [htake, List.take_append_drop]
  have hlen : (bytesOf (wordsFrom words i n)).length = 2 * n := by
    rw [length_bytesOf, wordsFrom, List.length_map, List.length_range]
  unfold bytesFrom
  rw [show 2 * n / 2 + 1 = n + 1 by omega, ← hcut, bytesOf_append, ← hlen, List.take_left']
  rfl

theorem Stands.take {i m : ℕ} {l : List UInt16} (h : Stands words i l) (hm : m ≤ l.length) :
    wordsFrom words i m = l.take m := by
  conv_rhs => rw [← h]
  rw [take_wordsFrom, Nat.min_eq_left hm]

theorem Stands.get {i k : ℕ} {l : List UInt16} (h : Stands words i l) (hk : k < l.length) :
    words (i + k) = l.getD k 0 := by
  have hget : (wordsFrom words i l.length)[k]? = some (words (i + k)) := by
    unfold wordsFrom
    rw [List.getElem?_map, List.getElem?_range hk]
    rfl
  rw [h] at hget
  rw [List.getD_eq_getElem?_getD, hget]
  rfl

theorem Stands.quiet {i : ℕ} {l : List UInt16} (h : Stands words i l) (hmem : otpMagic ∉ l) :
    Quiet words i (i + l.length) := by
  intro k hk hk' heq
  obtain ⟨m, rfl⟩ := Nat.exists_eq_add_of_le hk
  have hm : m < l.length := by omega
  rw [h.get hm, List.getD_eq_getElem?_getD, List.getElem?_eq_getElem hm, Option.getD_some] at heq
  exact hmem (heq ▸ List.getElem_mem hm)

/-! ### One turn of the scan -/

variable {e fuel : ℕ} {vars : List (List UInt8)}

/-- A turn at a magic word with a good length. -/
theorem scanChunks_turn {half m : ℕ} (hhead : words e = otpMagic) (hlen : (words (e + 1)).toNat = 2 * m)
    (hroom : e + m < half) :
    scanChunks half words (fuel + 1) e vars =
      if hndcrc16 (bytesOf (wordsFrom words e m)) crc16InitValue = crc16GoodValue then
        if m < 3 then none
        else scanChunks half words fuel (e + m) (bytesOf (wordsFrom words (e + 2) (m - 3)) :: vars)
      else if words (e + m) = otpMagic then scanChunks half words fuel (e + m) vars
      else scanChunks half words fuel (nextMagic words (half - (e + 1)) (e + 1)) vars := by
  have hsize : ¬e * 2 + 2 * m ≥ half * 2 := by omega
  have hthree : 2 * m < 6 ↔ m < 3 := by omega
  rw [scanChunks, if_pos ⟨by omega, hhead⟩]
  dsimp only
  rw [hlen, if_neg hsize, bytesFrom_two_mul, show 2 * m - 6 = 2 * (m - 3) by omega, bytesFrom_two_mul,
    Nat.mul_div_cancel_left _ (by omega), if_congr hthree rfl rfl]

/-- The scan ends where there is no magic word. -/
theorem scanChunks_end {half : ℕ} (h : e < half → words e ≠ otpMagic) :
    scanChunks half words (fuel + 1) e vars = some vars := by
  rw [scanChunks, if_neg fun hgo => h hgo.1 hgo.2]

/-- A whole chunk is copied. -/
theorem scanChunks_whole {data : List UInt16} (h : Stands words e (wholeChunk data))
    (hroom : e + (wholeChunk data).length ≤ c.swlim) :
    scanChunks c.half words (fuel + 1) e vars =
      scanChunks c.half words fuel (e + (wholeChunk data).length) (bytesOf data :: vars) := by
  have hchip := c.swlim_add
  have hhalf := c.half_le
  have hlength : (wholeChunk data).length = data.length + 3 := by
    unfold wholeChunk
    rw [List.length_cons, List.length_cons, List.length_append, List.length_singleton]
  have hhead : words e = otpMagic := (stands_cons.mp h).1
  have hlen : (words (e + 1)).toNat = 2 * (wholeChunk data).length := by
    rw [(stands_cons.mp (stands_cons.mp h).2).1, hlength]
    unfold chunkLen
    rw [UInt16.toNat_ofNat', Nat.mod_eq_of_lt (by omega), Nat.mul_comm]
  have hdata : wordsFrom words (e + 2) data.length = data := by
    have htail : Stands words (e + 2) (data ++ [chunkCrc data]) := (stands_cons.mp (stands_cons.mp h).2).2
    rw [htail.take (by rw [List.length_append]; omega), List.take_left' rfl]
  have hcrc : hndcrc16 (bytesOf (wholeChunk data)) crc16InitValue = crc16GoodValue := by
    have hsplit : wholeChunk data = [otpMagic, chunkLen data] ++ data ++ [chunkCrc data] := rfl
    rw [hsplit, bytesOf_append, bytesOf_append, hndcrc16_append, hndcrc16_append]
    unfold chunkCrc
    generalize hndcrc16 (bytesOf data) (hndcrc16 (bytesOf [otpMagic, chunkLen data]) crc16InitValue) = crc
    exact hndcrc16_complement crc
  have hall : wordsFrom words e (wholeChunk data).length = wholeChunk data := h
  rw [scanChunks_turn hhead hlen (by omega), hall, if_pos hcrc, if_neg (by omega),
    show (wholeChunk data).length - 3 = data.length by omega, hdata]

/-- A chunk that is passed: on to the word behind it if that is magic, and if no other word of
it is, on to the next magic word in any case. -/
theorem scanChunks_passed {l : List UInt16} (h : Stands words e l) (hlong : 1 < l.length)
    (hroom : e + l.length ≤ c.swlim) (hhead : l.head? = some otpMagic) (hpass : Passable l)
    (hsize : ∃ m ≤ l.length, (l.getD 1 0).toNat = 2 * m)
    (hnext : otpMagic ∈ l.tail → words (e + l.length) = otpMagic) :
    scanChunks c.half words (fuel + 1) e vars =
      scanChunks c.half words fuel (nextMagic words (c.half - (e + l.length)) (e + l.length)) vars := by
  have hchip := c.swlim_add
  obtain ⟨m, hm, hlen⟩ := hsize
  obtain ⟨hcrc, hlead⟩ := hpass
  cases l with
  | nil => exact absurd hlong (Nat.not_lt_zero _)
  | cons x l =>
    obtain ⟨hx, hrest⟩ := stands_cons.mp h
    have hmagic : words e = otpMagic := hx.trans (Option.some.inj hhead)
    have hsecond : (words (e + 1)).toNat = 2 * m := by rw [h.get hlong, hlen]
    rw [hlen, Nat.mul_div_cancel_left _ (by omega), ← h.take hm] at hcrc
    rw [hlen, List.length_cons] at hlead
    rw [List.length_cons] at hm hroom hnext ⊢
    rw [scanChunks_turn hmagic hsecond (by omega), if_neg hcrc]
    by_cases hmem : otpMagic ∈ l
    · have hfull : m = l.length + 1 := by
        rcases hlead with heq | ⟨_, hout⟩
        · omega
        · exact absurd hmem hout
      rw [hfull, if_pos (hnext hmem), nextMagic_self (by omega) (hnext hmem)]
    · have hquiet : Quiet words (e + 1) (e + (l.length + 1)) := by
        have := hrest.quiet hmem
        rwa [show e + 1 + l.length = e + (l.length + 1) by omega] at this
      by_cases hgo : words (e + m) = otpMagic
      · have hfull : m = l.length + 1 := by
          by_contra hne
          exact hquiet (e + m) (by omega) (by omega) hgo
        rw [if_pos hgo, hfull, nextMagic_self (by omega) (hfull ▸ hgo)]
      · rw [if_neg hgo, nextMagic_skip (by omega) (by omega) hquiet]

/-! ### The whole scan -/

/-- The same words up to `e`, and behind the software region. -/
def SameBelow (c : Chip) (words words' : ℕ → UInt16) (e : ℕ) : Prop :=
  ∀ k, k < e ∨ c.swlim ≤ k → words' k = words k

theorem SameBelow.trans {words'' : ℕ → UInt16} (h : SameBelow c words words' e) (h' : SameBelow c words' words'' e) :
    SameBelow c words words'' e := fun k hk => (h' k hk).trans (h k hk)

/-- Where the scan is, whatever stands from `e` on, with the blocks `bs` copied. -/
def Arrives (c : Chip) (words : ℕ → UInt16) (e : ℕ) (bs : List (List UInt8)) : Place → Prop
  | .fresh => e = 0 ∧ bs = []
  | .behind => ∀ words', SameBelow c words words' e → ∃ m, ∀ fuel,
      otpVars c (m + fuel) words' = scanChunks c.half words' fuel e bs.reverse
  | .search => ∀ words', SameBelow c words words' e → ∃ m, ∀ fuel,
      otpVars c (m + fuel) words' = scanChunks c.half words' fuel (nextMagic words' (c.half - e) e) bs.reverse
  | .jump => ∀ words', SameBelow c words words' e → words' e = otpMagic → ∃ m, ∀ fuel,
      otpVars c (m + fuel) words' = scanChunks c.half words' fuel e bs.reverse
  | .stuck => ∀ words', SameBelow c words words' e → Quiet words' e c.swlim → ∃ m, ∀ fuel,
      otpVars c (m + fuel) words' = some bs.reverse

theorem Arrives.congr {bs : List (List UInt8)} {p : Place} (h : Arrives c words e bs p)
    (hsame : SameBelow c words words' e) : Arrives c words' e bs p := by
  cases p with
  | fresh => exact h
  | behind => exact fun w hw => h w (hsame.trans hw)
  | search => exact fun w hw => h w (hsame.trans hw)
  | jump => exact fun w hw => h w (hsame.trans hw)
  | stuck => exact fun w hw => h w (hsame.trans hw)

theorem otpVars_zero (h : words 0 = otpMagic) : otpVars c fuel words = scanChunks c.half words fuel 0 [] := by
  have hstart : scanStart c words = some 0 := by
    have hpos : 0 < c.half := by
      have := c.swlim_add
      omega
    have hfirst : nextMagic words c.half 0 = 0 := nextMagic_self hpos h
    unfold scanStart
    dsimp only
    rw [hfirst, if_pos hpos, if_pos h]
    split_ifs
    · rfl
    · rfl
  unfold otpVars
  rw [hstart]

/-- At a header the reader is, if it is not stuck. -/
theorem Arrives.header {bs : List (List UInt8)} {p : Place} (h : Arrives c words e bs p) (hp : p ≠ .stuck)
    (he : e < c.half) (hsame : SameBelow c words words' e) (hhead : words' e = otpMagic) :
    ∃ m, ∀ fuel, otpVars c (m + fuel) words' = scanChunks c.half words' fuel e bs.reverse := by
  cases p with
  | fresh =>
    obtain ⟨rfl, rfl⟩ := h
    refine ⟨0, fun fuel => ?_⟩
    rw [Nat.zero_add, otpVars_zero hhead, List.reverse_nil]
  | behind => exact h words' hsame
  | search =>
    obtain ⟨m, hm⟩ := h words' hsame
    refine ⟨m, fun fuel => ?_⟩
    rw [hm, nextMagic_self he hhead]
  | jump => exact h words' hsame hhead
  | stuck => exact absurd rfl hp

/-- Where nothing is magic, nothing is found. -/
theorem otpVars_quiet (h : Quiet words 0 c.half) : otpVars c (fuel + 1) words = some [] := by
  have hpos : 0 < c.half := by
    have := c.swlim_add
    omega
  have hfirst : nextMagic words c.half 0 = c.half := nextMagic_none (Nat.zero_le _) h
  unfold otpVars scanStart
  dsimp only
  rw [hfirst, if_neg (lt_irrefl _), if_neg (h 0 (le_refl _) hpos)]
  split_ifs with hregion
  · rfl
  · exact scanChunks_end fun hlt => h _ (Nat.zero_le _) hlt

/-- The boundary says that the first chunk has `n` words, and the reader looks there. -/
def Bounded (c : Chip) (words : ℕ → UInt16) (n : ℕ) : Prop :=
  hasBit (c.hwprot ||| otpInit c words) otpHwRegion = true ∧ (words (c.half - 4)).toNat = 2 * n

theorem otpVars_bounded {n : ℕ} (h : words 0 ≠ otpMagic) (hb : Bounded c words n) :
    otpVars c fuel words = scanChunks c.half words fuel n [] := by
  have hstart : scanStart c words = some n := by
    unfold scanStart
    dsimp only
    rw [hb.1, hb.2, if_neg (by simp), if_neg h, Nat.mul_div_cancel_left _ (by omega)]
  unfold otpVars
  rw [hstart]

/-! ### One more chunk -/

/-- What `after` can say. -/
theorem after_cases {p p' : Place} {ch : Chunk} (h : after p ch = some p') :
    (ch.words.head? = some otpMagic ∧ p ≠ .stuck ∧
      ((∃ data, ch.block = some data ∧ p' = .behind) ∨
        ch.block = none ∧ Passable ch.words ∧ p' = if otpMagic ∈ ch.words.tail then .jump else .search)) ∨
    otpMagic ∉ ch.words ∧
      (p = .fresh ∧ p' = (if ch.bounded then .behind else .stuck) ∨ p = .behind ∧ p' = .stuck ∨
        p = .search ∧ p' = .search ∨ p = .stuck ∧ p' = .stuck) := by
  unfold after at h
  by_cases hhead : ch.words.head? = some otpMagic
  · rw [if_pos hhead] at h
    by_cases hp : p = .stuck
    · rw [if_pos hp] at h
      cases h
    · rw [if_neg hp] at h
      refine Or.inl ⟨hhead, hp, ?_⟩
      cases hblock : ch.block with
      | some data =>
        rw [hblock, Option.isSome_some, if_pos rfl] at h
        exact Or.inl ⟨data, rfl, (Option.some.inj h).symm⟩
      | none =>
        rw [hblock, Option.isSome_none, if_neg Bool.false_ne_true] at h
        by_cases hpass : Passable ch.words
        · rw [if_pos hpass] at h
          exact Or.inr ⟨rfl, hpass, (Option.some.inj h).symm⟩
        · rw [if_neg hpass] at h
          cases h
  · rw [if_neg hhead] at h
    by_cases hmem : otpMagic ∈ ch.words
    · rw [if_pos hmem] at h
      cases h
    · rw [if_neg hmem] at h
      refine Or.inr ⟨hmem, ?_⟩
      cases p with
      | fresh => exact Or.inl ⟨rfl, (Option.some.inj h).symm⟩
      | behind => exact Or.inr (Or.inl ⟨rfl, (Option.some.inj h).symm⟩)
      | search => exact Or.inr (Or.inr (Or.inl ⟨rfl, (Option.some.inj h).symm⟩))
      | jump => cases h
      | stuck => exact Or.inr (Or.inr (Or.inr ⟨rfl, (Option.some.inj h).symm⟩))

theorem SameBelow.mono {i : ℕ} (h : SameBelow c words words' e) (hi : i ≤ e) : SameBelow c words words' i :=
  fun k hk => h k (hk.imp_left fun hlt => lt_of_lt_of_le hlt hi)

theorem SameBelow.stands {l : List UInt16} (h : SameBelow c words words' (e + l.length)) (hl : Stands words e l) :
    Stands words' e l := hl.congr fun k _ hk => h k (Or.inl hk)

variable {bs : List (List UInt8)} {ch : Chunk} {p : Place}

theorem head?_eq {words : ℕ → UInt16} {l : List UInt16} {x : UInt16} (h : Stands words e l) (hx : l.head? = some x) :
    words e = x := by
  cases l with
  | nil => cases hx
  | cons y l => exact (stands_cons.mp h).1.trans (Option.some.inj hx)

/-- A good chunk is copied. -/
theorem Arrives.whole {data : List UInt16} (h : Arrives c words e bs p) (hp : p ≠ .stuck)
    (hl : Stands words e (wholeChunk data)) (hroom : e + (wholeChunk data).length ≤ c.swlim) :
    Arrives c words (e + (wholeChunk data).length) (bs ++ [bytesOf data]) .behind := by
  intro w hw
  have hlw := hw.stands hl
  have hlt : e < c.half := by
    have := c.swlim_add
    omega
  obtain ⟨m, hm⟩ := h.header hp hlt (hw.mono (Nat.le_add_right _ _)) (head?_eq hlw rfl)
  refine ⟨m + 1, fun fuel => ?_⟩
  calc otpVars c (m + 1 + fuel) w = otpVars c (m + (fuel + 1)) w := by rw [Nat.add_right_comm, Nat.add_assoc]
    _ = scanChunks c.half w (fuel + 1) e bs.reverse := hm _
    _ = scanChunks c.half w fuel (e + (wholeChunk data).length) (bytesOf data :: bs.reverse) :=
      scanChunks_whole hlw hroom
    _ = _ := by rw [List.reverse_append]; rfl

/-- A chunk with a bad CRC is passed. -/
theorem Arrives.passed (h : Arrives c words e bs p) (hp : p ≠ .stuck) (hl : Stands words e ch.words)
    (hroom : e + ch.words.length ≤ c.swlim) (hhead : ch.words.head? = some otpMagic) (hpass : Passable ch.words) :
    Arrives c words (e + ch.words.length) bs (if otpMagic ∈ ch.words.tail then .jump else .search) := by
  have hlt : e < c.half := by
    have := c.swlim_add
    omega
  have hgo : ∀ w, SameBelow c words w (e + ch.words.length) →
      (otpMagic ∈ ch.words.tail → w (e + ch.words.length) = otpMagic) → ∃ m, ∀ fuel,
        otpVars c (m + fuel) w = scanChunks c.half w fuel
          (nextMagic w (c.half - (e + ch.words.length)) (e + ch.words.length)) bs.reverse := by
    intro w hw hnext
    have hlw := hw.stands hl
    obtain ⟨m, hm⟩ := h.header hp hlt (hw.mono (Nat.le_add_right _ _)) (head?_eq hlw hhead)
    refine ⟨m + 1, fun fuel => ?_⟩
    calc otpVars c (m + 1 + fuel) w = otpVars c (m + (fuel + 1)) w := by rw [Nat.add_right_comm, Nat.add_assoc]
      _ = scanChunks c.half w (fuel + 1) e bs.reverse := hm _
      _ = _ := scanChunks_passed hlw ch.long hroom hhead hpass ch.size hnext
  by_cases hmem : otpMagic ∈ ch.words.tail
  · rw [if_pos hmem]
    intro w hw hnext
    have hlt' : e + ch.words.length < c.half := by
      have := c.swlim_add
      omega
    obtain ⟨m, hm⟩ := hgo w hw fun _ => hnext
    rw [nextMagic_self hlt' hnext] at hm
    exact ⟨m, hm⟩
  · rw [if_neg hmem]
    exact fun w hw => hgo w hw fun hin => absurd hin hmem

theorem Quiet.append {i j k : ℕ} (h : Quiet words i j) (h' : Quiet words j k) : Quiet words i k := by
  intro n hi hk
  by_cases hj : n < j
  · exact h n hi hj
  · exact h' n (by omega) hk

theorem SameBelow.quiet (h : SameBelow c words words' e) (hq : Quiet words c.swlim c.half) :
    Quiet words' c.swlim c.half := fun k hk hk' heq => hq k hk hk' ((h k (Or.inr hk)).symm.trans heq)

theorem SameBelow.bounded {n : ℕ} (h : SameBelow c words words' e) (hb : Bounded c words n) : Bounded c words' n := by
  have hchip := c.swlim_add
  have hinit : otpInit c words' = otpInit c words := by
    unfold otpInit
    rw [h (c.half - 3) (Or.inr (by omega)), h (c.half - 2) (Or.inr (by omega))]
  unfold Bounded
  rw [hinit, h (c.half - 4) (Or.inr (by omega))]
  exact hb

/-- The first header is lost. -/
theorem Arrives.lost_fresh (hl : Stands words 0 ch.words) (hmem : otpMagic ∉ ch.words)
    (hquiet : Quiet words c.swlim c.half) (hbounded : ch.bounded = true → Bounded c words ch.words.length) :
    Arrives c words ch.words.length [] (if ch.bounded then .behind else .stuck) := by
  have hlong := ch.long
  have hchip := c.swlim_add
  have hskip : ∀ w, SameBelow c words w ch.words.length → Quiet w 0 ch.words.length := by
    intro w hw
    have hlw : Stands w 0 ch.words := hl.congr fun k _ hk => hw k (Or.inl (by omega))
    have := hlw.quiet hmem
    rwa [Nat.zero_add] at this
  cases hb : ch.bounded with
  | true =>
    rw [if_pos rfl]
    intro w hw
    refine ⟨0, fun fuel => ?_⟩
    rw [Nat.zero_add]
    exact otpVars_bounded (hskip w hw 0 (le_refl _) (by omega)) (hw.bounded (hbounded hb))
  | false =>
    rw [if_neg Bool.false_ne_true]
    intro w hw hrest
    refine ⟨1, fun fuel => ?_⟩
    rw [Nat.add_comm]
    exact otpVars_quiet (((hskip w hw).append hrest).append (hw.quiet hquiet))

/-- **One more chunk** takes the scan to where `after` says. -/
theorem Arrives.step {p' : Place} (h : Arrives c words e bs p) (hl : Stands words e ch.words)
    (hroom : e + ch.words.length ≤ c.swlim) (hquiet : Quiet words c.swlim c.half)
    (hbounded : p = .fresh → ch.bounded = true → Bounded c words ch.words.length) (hafter : after p ch = some p') :
    Arrives c words (e + ch.words.length) (bs ++ (ch.block.map bytesOf).toList) p' := by
  rcases after_cases hafter with ⟨hhead, hp, ⟨data, hblock, rfl⟩ | ⟨hblock, hpass, rfl⟩⟩ | ⟨hmem, hplace⟩
  · rw [hblock]
    rw [ch.whole data hblock] at hl hroom ⊢
    exact h.whole hp hl hroom
  · rw [hblock, Option.map_none, Option.toList_none, List.append_nil]
    exact h.passed hp hl hroom hhead hpass
  · have hblock : ch.block = none := by
      rw [Option.eq_none_iff_forall_ne_some]
      intro data heq
      rw [ch.whole data heq] at hmem
      exact hmem List.mem_cons_self
    have hpos : 0 < ch.words.length := by
      have := ch.long
      omega
    rw [hblock, Option.map_none, Option.toList_none, List.append_nil]
    have hskip : ∀ w, SameBelow c words w (e + ch.words.length) → Quiet w e (e + ch.words.length) :=
      fun w hw => (hw.stands hl).quiet hmem
    rcases hplace with ⟨rfl, rfl⟩ | ⟨rfl, rfl⟩ | ⟨rfl, rfl⟩ | ⟨rfl, rfl⟩
    · obtain ⟨rfl, rfl⟩ := h
      rw [Nat.zero_add]
      exact Arrives.lost_fresh hl hmem hquiet (hbounded rfl)
    · intro w hw _
      obtain ⟨m, hm⟩ := h w (hw.mono (Nat.le_add_right _ _))
      refine ⟨m + 1, fun fuel => ?_⟩
      rw [Nat.add_assoc, Nat.add_comm 1, hm]
      exact scanChunks_end fun _ => hskip w hw e (le_refl _) (by omega)
    · intro w hw
      have hchip := c.swlim_add
      obtain ⟨m, hm⟩ := h w (hw.mono (Nat.le_add_right _ _))
      refine ⟨m, fun fuel => ?_⟩
      rw [hm, nextMagic_skip (Nat.le_add_right _ _) (by omega) (hskip w hw)]
    · intro w hw hrest
      exact h w (hw.mono (Nat.le_add_right _ _)) ((hskip w hw).append hrest)

/-- **The scan ends** with the blocks so far where nothing follows. -/
theorem Arrives.ends (h : Arrives c words e bs p) (hp : p ≠ .jump) (he : e ≤ c.swlim) (hquiet : Quiet words e c.half) :
    ∃ m, ∀ fuel, otpVars c (m + fuel) words = some bs.reverse := by
  have hchip := c.swlim_add
  have hself : SameBelow c words words e := fun k _ => rfl
  cases p with
  | fresh =>
    obtain ⟨rfl, rfl⟩ := h
    refine ⟨1, fun fuel => ?_⟩
    rw [Nat.add_comm, otpVars_quiet hquiet, List.reverse_nil]
  | behind =>
    obtain ⟨m, hm⟩ := h words hself
    refine ⟨m + 1, fun fuel => ?_⟩
    rw [Nat.add_assoc, Nat.add_comm 1, hm]
    exact scanChunks_end fun hlt => hquiet e (le_refl _) hlt
  | search =>
    obtain ⟨m, hm⟩ := h words hself
    refine ⟨m + 1, fun fuel => ?_⟩
    rw [Nat.add_assoc, Nat.add_comm 1, hm, nextMagic_none (by omega) hquiet]
    exact scanChunks_end fun hlt => absurd hlt (lt_irrefl _)
  | jump => exact absurd rfl hp
  | stuck => exact h words hself fun k hk hk' => hquiet k hk (by omega)

end Otp
end Router
