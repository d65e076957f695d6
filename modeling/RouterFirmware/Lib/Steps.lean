/-
# Flash in steps

A driver programs some bytes or erases some, step after step, and power fails
between two of them: `Throughout P steps f` says that `P` holds of the flash
wherever that happens. A buffer goes out `inPieces`, each as long as the driver
cuts it there, and a block is rewritten by erasing it and programming it anew;
what such a sequence passes through is the buffer up to a cut, on what was
there or on ones (`throughout_inPieces`, `throughout_rewrite`), and where the
driver cuts at every multiple of `g` it passes through each of them
(`rewrite_reach`).
-/
import RouterFirmware.Lib.Flash

namespace Flash

open CMem

inductive Step
  | program (p : ℕ) (l : List UInt8)
  | erase (p n : ℕ)

def Step.run (f : Mem) : Step → Mem
  | .program p l => Flash.program f p l
  | .erase p n => eraseBlock n f p

def runSteps (steps : List Step) (f : Mem) : Mem := steps.foldl Step.run f

@[simp] theorem runSteps_nil (f : Mem) : runSteps [] f = f := rfl

@[simp] theorem runSteps_cons (s : Step) (steps : List Step) (f : Mem) :
    runSteps (s :: steps) f = runSteps steps (s.run f) := rfl

theorem runSteps_append (s t : List Step) (f : Mem) :
    runSteps (s ++ t) f = runSteps t (runSteps s f) := List.foldl_append

/-! ### Between two steps -/

/-- `P` holds of the flash wherever power fails. -/
def Throughout (P : Mem → Prop) (steps : List Step) (f : Mem) : Prop :=
  ∀ k, P (runSteps (steps.take k) f)

section Throughout

variable {P Q : Mem → Prop} {s t : List Step} {f : Mem}

theorem Throughout.start (h : Throughout P s f) : P f := h 0

theorem Throughout.mono (h : Throughout P s f) (hPQ : ∀ g, P g → Q g) : Throughout Q s f :=
  fun k => hPQ _ (h k)

theorem throughout_nil : Throughout P [] f ↔ P f := by
  simp [Throughout]

theorem throughout_cons {a : Step} : Throughout P (a :: s) f ↔ P f ∧ Throughout P s (a.run f) := by
  constructor
  · intro h
    exact ⟨h 0, fun k => h (k + 1)⟩
  · rintro ⟨h0, h⟩ k
    cases k with
    | zero => exact h0
    | succ k => exact h k

/-- Power fails in the first steps, or in the others behind all of them. -/
theorem throughout_append :
    Throughout P (s ++ t) f ↔ Throughout P s f ∧ Throughout P t (runSteps s f) := by
  induction s generalizing f with
  | nil =>
    rw [List.nil_append, throughout_nil]
    exact ⟨fun h => ⟨h.start, h⟩, fun h => h.2⟩
  | cons a s ih => rw [List.cons_append, throughout_cons, ih, throughout_cons, and_assoc, runSteps_cons]

/-- What every step keeps. -/
theorem Throughout.of_inv (h0 : P f) (hs : ∀ a ∈ s, ∀ g, P g → P (a.run g)) : Throughout P s f := by
  induction s generalizing f with
  | nil => exact throughout_nil.mpr h0
  | cons a s ih =>
    refine throughout_cons.mpr ⟨h0, ih (hs a List.mem_cons_self f h0) fun b hb => ?_⟩
    exact hs b (List.mem_cons_of_mem _ hb)

end Throughout

/-! ### A buffer in pieces -/

/-- A prefix is programmed, and then more of the buffer. -/
theorem program_take_drop (f : Mem) (p : ℕ) {l : List UInt8} {n : ℕ} (hn : n ≤ l.length) (j : ℕ) :
    program (program f p (l.take n)) (p + n) ((l.drop n).take j) = program f p (l.take (n + j)) := by
  funext i
  simp only [program, List.length_take, List.length_drop, List.getD_eq_getElem?_getD]
  by_cases h1 : p ≤ i ∧ i < p + n
  · rw [if_neg (by omega), if_pos (by omega), if_pos (by omega), List.getElem?_take_of_lt (by omega),
      List.getElem?_take_of_lt (by omega)]
  · by_cases h2 : p + n ≤ i ∧ i < p + n + min j (l.length - n)
    · rw [if_pos h2, if_neg (by omega), if_pos (by omega), List.getElem?_take_of_lt (by omega),
        List.getElem?_take_of_lt (by omega), List.getElem?_drop,
        show n + (i - (p + n)) = i - p by omega]
    · rw [if_neg h2, if_neg (by omega), if_neg (by omega)]

theorem program_append (f : Mem) (p : ℕ) (l l' : List UInt8) :
    program (program f p l) (p + l.length) l' = program f p (l ++ l') := by
  have hparts := @program_take_drop f p (l ++ l') l.length (by simp) l'.length
  rw [List.take_left, List.drop_left, List.take_length, ← List.length_append, List.take_length] at hparts
  exact hparts

/-- `l` programmed at `p`, the next piece of `cut p n` bytes when `n` are left. -/
def inPieces (cut : ℕ → ℕ → ℕ) : ℕ → ℕ → List UInt8 → List Step
  | 0, _, _ => []
  | fuel + 1, p, l =>
    if l.length = 0 then []
    else .program p (l.take (cut p l.length)) ::
      inPieces cut fuel (p + cut p l.length) (l.drop (cut p l.length))

section Pieces

variable {cut : ℕ → ℕ → ℕ} {P : Mem → Prop}

/-- Between the pieces the flash holds the buffer up to a cut. -/
theorem throughout_inPieces (Cut : ℕ → Prop) {stop : ℕ} (hle : ∀ p n, cut p n ≤ n)
    (hcut : ∀ p n, 0 < n → p + n = stop → Cut p → Cut (p + cut p n)) :
    ∀ (fuel p : ℕ) (l : List UInt8) (f : Mem), p + l.length = stop → Cut p →
      (∀ j ≤ l.length, Cut (p + j) → P (program f p (l.take j))) → Throughout P (inPieces cut fuel p l) f
  | 0, p, l, f, _, hp, hP => by
    have h0 := hP 0 (Nat.zero_le _) hp
    rw [List.take_zero, program_nil] at h0
    exact throughout_nil.mpr h0
  | fuel + 1, p, l, f, hstop, hp, hP => by
    have h0 := hP 0 (Nat.zero_le _) hp
    rw [List.take_zero, program_nil] at h0
    unfold inPieces
    split_ifs with hl
    · exact throughout_nil.mpr h0
    · have hn := hle p l.length
      refine throughout_cons.mpr ⟨h0, ?_⟩
      refine throughout_inPieces Cut hle hcut fuel _ _ _ (by rw [List.length_drop]; omega)
        (hcut p _ (Nat.pos_of_ne_zero hl) hstop hp) fun j hj hc => ?_
      rw [List.length_drop] at hj
      show P (program (program f p (l.take (cut p l.length))) (p + cut p l.length) _)
      rw [program_take_drop f p hn]
      exact hP _ (by omega) (by rw [← Nat.add_assoc]; exact hc)

/-- All pieces are the buffer. -/
theorem runSteps_inPieces (hle : ∀ p n, cut p n ≤ n) (hpos : ∀ p n, 0 < n → 0 < cut p n) :
    ∀ (fuel p : ℕ) (l : List UInt8) (f : Mem), l.length ≤ fuel →
      runSteps (inPieces cut fuel p l) f = program f p l
  | 0, p, l, f, hf => by
    rw [List.length_eq_zero_iff.mp (Nat.le_zero.mp hf), program_nil]
    rfl
  | fuel + 1, p, l, f, hf => by
    unfold inPieces
    split_ifs with hl
    · rw [List.length_eq_zero_iff.mp hl, program_nil]
      rfl
    · have hn := hle p l.length
      have h0 := hpos p l.length (Nat.pos_of_ne_zero hl)
      have hlen : (l.drop (cut p l.length)).length = l.length - cut p l.length := List.length_drop
      rw [runSteps_cons, runSteps_inPieces hle hpos fuel _ _ _ (by omega)]
      have hall := program_take_drop f p hn (l.drop (cut p l.length)).length
      rw [List.take_length, hlen, Nat.add_sub_cancel' hn, List.take_length] at hall
      exact hall

/-- A driver that cuts at the multiples of `g` stops at each of them. -/
theorem inPieces_reach {g : ℕ} (hg : 0 < g) (hcut : ∀ p n, cut p n = min n (g - p % g)) :
    ∀ (fuel p q : ℕ) (l : List UInt8) (f : Mem), l.length ≤ fuel → p ≤ q → q ≤ p + l.length → g ∣ q →
      ∃ k, runSteps ((inPieces cut fuel p l).take k) f = program f p (l.take (q - p))
  | fuel, p, q, l, f, hf, hpq, hq, hgq => by
    rcases Nat.eq_or_lt_of_le hpq with rfl | hlt
    · refine ⟨0, ?_⟩
      rw [Nat.sub_self, List.take_zero, List.take_zero, program_nil]
      rfl
    · obtain ⟨fuel, rfl⟩ : ∃ k, fuel = k + 1 := ⟨fuel - 1, by omega⟩
      have hmod := Nat.mod_lt p hg
      -- the next multiple of `g` behind `p` is at most `q`
      have hnext : p + (g - p % g) ≤ q := by
        obtain ⟨m, rfl⟩ := hgq
        have hdiv : p / g < m := Nat.div_lt_of_lt_mul hlt
        have h1 := Nat.div_add_mod p g
        have h2 : g * (p / g + 1) ≤ g * m := Nat.mul_le_mul_left _ hdiv
        rw [Nat.mul_succ] at h2
        omega
      have hc : cut p l.length = g - p % g := by
        rw [hcut]
        omega
      obtain ⟨k, hk⟩ := inPieces_reach hg hcut fuel (p + (g - p % g)) q (l.drop (g - p % g))
        (program f p (l.take (g - p % g))) (by rw [List.length_drop]; omega) hnext
        (by rw [List.length_drop]; omega) hgq
      refine ⟨k + 1, ?_⟩
      rw [inPieces, if_neg (by omega), hc, List.take_succ_cons, runSteps_cons]
      show runSteps _ (program f p (l.take (g - p % g))) = _
      rw [hk, program_take_drop f p (by omega), show g - p % g + (q - (p + (g - p % g))) = q - p by omega]

end Pieces

/-! ### A block rewritten -/

/-- The `n` bytes at `p` of `f` replaced by those of `g`, of which `j` are there. -/
def rewritten (f g : Mem) (p n j : ℕ) : Mem :=
  fun i => if p ≤ i ∧ i < p + n then if i < p + j then g i else 0xFF else f i

/-- The `n` bytes at `p` erased, and those of `g` programmed. -/
def rewrite (cut : ℕ → ℕ → ℕ) (p n : ℕ) (g : Mem) : List Step :=
  .erase p n :: inPieces cut n p ((List.range n).map fun i => g (p + i))

theorem program_erased (f g : Mem) (p n j : ℕ) :
    program (eraseBlock n f p) p (((List.range n).map fun i => g (p + i)).take j) =
      rewritten f g p n j := by
  funext i
  simp only [program, rewritten, eraseBlock, List.length_take, List.length_map, List.length_range,
    List.getD_eq_getElem?_getD]
  by_cases hin : p ≤ i ∧ i < p + n
  · by_cases hj : i < p + j
    · rw [if_pos (by omega), if_pos hin, if_pos hin, if_pos hj, List.getElem?_take_of_lt (by omega),
        List.getElem?_map, List.getElem?_range (by omega), Option.map_some, Option.getD_some,
        Nat.add_sub_cancel' hin.1]
      exact UInt8.neg_one_and
    · rw [if_neg (by omega), if_pos hin, if_pos hin, if_neg hj]
  · rw [if_neg (by omega), if_neg hin, if_neg hin]

section Rewrite

variable {cut : ℕ → ℕ → ℕ} {P : Mem → Prop}

theorem throughout_rewrite (Cut : ℕ → Prop) {p n : ℕ} {f g : Mem} (hle : ∀ p n, cut p n ≤ n)
    (hcut : ∀ q m, 0 < m → q + m = p + n → Cut q → Cut (q + cut q m)) (hp : Cut p) (h0 : P f)
    (hP : ∀ j ≤ n, Cut (p + j) → P (rewritten f g p n j)) : Throughout P (rewrite cut p n g) f := by
  have hlen : ((List.range n).map fun i => g (p + i)).length = n := by simp
  refine throughout_cons.mpr ⟨h0, throughout_inPieces Cut hle hcut n p _ _ (by rw [hlen]) hp ?_⟩
  intro j hj hc
  show P (program (eraseBlock n f p) p _)
  rw [program_erased]
  exact hP j (by omega) hc

theorem runSteps_rewrite (hle : ∀ p n, cut p n ≤ n) (hpos : ∀ p n, 0 < n → 0 < cut p n) (p n : ℕ)
    (f g : Mem) : runSteps (rewrite cut p n g) f = rewritten f g p n n := by
  have hlen : ((List.range n).map fun i => g (p + i)).length = n := by simp
  rw [rewrite, runSteps_cons, runSteps_inPieces hle hpos n p _ _ (le_of_eq hlen), ← program_erased,
    List.take_of_length_le (le_of_eq hlen)]
  rfl

theorem rewrite_reach {b : ℕ} (hb : 0 < b) (hcut : ∀ p n, cut p n = min n (b - p % b)) {p n j : ℕ}
    (f g : Mem) (hj : j ≤ n) (hdvd : b ∣ p + j) :
    ∃ k, runSteps ((rewrite cut p n g).take k) f = rewritten f g p n j := by
  have hlen : ((List.range n).map fun i => g (p + i)).length = n := by simp
  obtain ⟨k, hk⟩ := inPieces_reach hb hcut n p (p + j) ((List.range n).map fun i => g (p + i))
    (eraseBlock n f p) (le_of_eq hlen) (Nat.le_add_right _ _) (by rw [hlen]; omega) hdvd
  refine ⟨k + 1, ?_⟩
  rw [rewrite, List.take_succ_cons, runSteps_cons]
  show runSteps _ (eraseBlock n f p) = _
  rw [hk, Nat.add_sub_cancel_left, program_erased]

end Rewrite

end Flash
