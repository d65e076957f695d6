/-
# Flash under power failure

NOR flash as bytes: programming can only clear bits, erasing sets a whole
block to ones. A driver issues a list of operations. Power can fail between
two of them, or inside a write, of which then some leading bytes are done:
`Crash es f ops f'` are the contents `f'` so reached. `Crash.append` cuts a
crash at a point of the list, `Crash.inv` carries through it what every
operation, whole or torn, keeps.
-/
import RouterFirmware.Lib.CMem

namespace Flash

open CMem

/-- The bytes `l` programmed at `p`: bits go from one to zero only. -/
def program (f : Mem) (p : ℕ) (l : List UInt8) : Mem :=
  fun i => if p ≤ i ∧ i < p + l.length then f i &&& l.getD (i - p) 0 else f i

/-- The block of `es` bytes at `p` erased. -/
def eraseBlock (es : ℕ) (f : Mem) (p : ℕ) : Mem :=
  fun i => if p ≤ i ∧ i < p + es then 0xFF else f i

inductive Op
  | write (addr : ℕ) (data : List UInt8)
  | erase (addr : ℕ)

/-- The operation done, with erase blocks of `es` bytes. -/
def Op.run (es : ℕ) (f : Mem) : Op → Mem
  | .write p l => program f p l
  | .erase p => eraseBlock es f p

/-- The operation when power fails in it: `k` bytes of a write are done, an
erase has not begun. -/
def Op.torn (f : Mem) (k : ℕ) : Op → Mem
  | .write p l => program f p (l.take k)
  | .erase _ => f

def runAll (es : ℕ) (ops : List Op) (f : Mem) : Mem := ops.foldl (Op.run es) f

/-- What the flash can hold when power fails during the operations. -/
inductive Crash (es : ℕ) : Mem → List Op → Mem → Prop
  | stop (f : Mem) (ops : List Op) : Crash es f ops f
  | torn (f : Mem) (op : Op) (ops : List Op) (k : ℕ) : Crash es f (op :: ops) (op.torn f k)
  | step {f : Mem} {op : Op} {ops : List Op} {f' : Mem} :
      Crash es (op.run es f) ops f' → Crash es f (op :: ops) f'

variable {es : ℕ} {f f' : Mem}

theorem Crash.of_nil (h : Crash es f [] f') : f' = f := by
  cases h with
  | stop => rfl

/-- A crash of the operations from `op` on: before it, in it or behind it. -/
theorem Crash.of_cons {op : Op} {ops : List Op} (h : Crash es f (op :: ops) f') :
    f' = f ∨ (∃ k, f' = op.torn f k) ∨ Crash es (op.run es f) ops f' := by
  cases h with
  | stop => exact Or.inl rfl
  | torn _ _ _ k => exact Or.inr (Or.inl ⟨k, rfl⟩)
  | step h => exact Or.inr (Or.inr h)

/-- All operations done is one of the crash contents. -/
theorem Crash.all (es : ℕ) : ∀ (ops : List Op) (f : Mem), Crash es f ops (runAll es ops f)
  | [], f => .stop f []
  | op :: ops, f => .step (Crash.all es ops (op.run es f))

/-- More operations behind the crash do not matter. -/
theorem Crash.append_right {ops : List Op} (h : Crash es f ops f') (ops' : List Op) :
    Crash es f (ops ++ ops') f' := by
  induction h with
  | stop f ops => exact .stop f _
  | torn f op ops k => exact .torn f op _ k
  | step _ ih => exact .step ih

/-- A crash comes in the first operations, or when they are all done. -/
theorem Crash.append : ∀ {ops : List Op} {f : Mem} {ops' : List Op}, Crash es f (ops ++ ops') f' →
    Crash es f ops f' ∨ Crash es (runAll es ops f) ops' f'
  | [], f, ops', h => Or.inr h
  | op :: ops, f, ops', h => by
    rcases h.of_cons with rfl | ⟨k, rfl⟩ | h
    · exact Or.inl (.stop _ _)
    · exact Or.inl (.torn _ _ _ k)
    · exact (Crash.append h).imp .step id

/-- What every operation keeps, whole or torn, holds after a crash. -/
theorem Crash.inv {P : Mem → Prop} {ops : List Op} (h : Crash es f ops f') (hf : P f)
    (hrun : ∀ op ∈ ops, ∀ g, P g → P (op.run es g))
    (htorn : ∀ op ∈ ops, ∀ g k, P g → P (op.torn g k)) : P f' := by
  induction h with
  | stop f ops => exact hf
  | torn f op ops k => exact htorn op List.mem_cons_self f k hf
  | step _ ih =>
    refine ih (hrun _ List.mem_cons_self _ hf) (fun op hop => ?_) (fun op hop => ?_)
    · exact hrun op (List.mem_cons_of_mem _ hop)
    · exact htorn op (List.mem_cons_of_mem _ hop)

/-! ### What one operation leaves at a byte -/

theorem program_nil (f : Mem) (p : ℕ) : program f p [] = f := by
  funext i
  simp only [program, List.length_nil, Nat.add_zero]
  rw [if_neg (by omega)]

theorem program_of_out {p i : ℕ} {l : List UInt8} (h : i < p ∨ p + l.length ≤ i) :
    program f p l i = f i := by
  unfold program
  rw [if_neg (by omega)]

/-- A byte that is programmed from the erased state is what was written. -/
theorem program_of_erased {p i : ℕ} {l : List UInt8} (hi : p ≤ i) (hi' : i < p + l.length)
    (h : f i = 0xFF) : program f p l i = l.getD (i - p) 0 := by
  unfold program
  rw [if_pos ⟨hi, hi'⟩, h]
  exact UInt8.neg_one_and

/-- What is programmed where there are ones is what is written. -/
theorem program_of_ones {p : ℕ} {l : List UInt8} (h : ∀ i, p ≤ i → i < p + l.length → f i = 0xFF) :
    program f p l = write f p l := by
  funext i
  by_cases hi : p ≤ i ∧ i < p + l.length
  · rw [program_of_erased hi.1 hi.2 (h i hi.1 hi.2), write, if_pos hi]
  · rw [program, write, if_neg hi, if_neg hi]

/-- Programming zero clears the byte. -/
theorem program_zero {p i : ℕ} {l : List UInt8} (hi : p ≤ i) (hi' : i < p + l.length)
    (h : l.getD (i - p) 0 = 0) : program f p l i = 0 := by
  unfold program
  rw [if_pos ⟨hi, hi'⟩, h, UInt8.and_zero]

/-- Programming ones, or not reaching the byte, leaves it. -/
theorem program_take_ones {p i : ℕ} {l : List UInt8} (k : ℕ) (h : l.getD (i - p) 0 = 0xFF) :
    program f p (l.take k) i = f i := by
  unfold program
  split_ifs with hi
  · rw [List.length_take] at hi
    have hk : (l.take k).getD (i - p) 0 = l.getD (i - p) 0 := by
      simp only [List.getD_eq_getElem?_getD]
      rw [List.getElem?_take_of_lt (by omega)]
    rw [hk, h]
    exact UInt8.and_neg_one
  · rfl

end Flash
