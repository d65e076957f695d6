/-
# Text that is edited in place

`Stands m p l`: the text `l` and its NUL are at `p`. What a reader of it sees is a function of `l` (`Stands.scan`), and
a NUL written into it leaves two texts (`Stands.cut`). `strsepAt` is `strsep` on such a text, and `strchr`, `strstrAt`
and `strpbrkAt` search it.
-/
import RouterFirmware.Lib.Search

namespace CText

open CMem

/-- `strsep(&p, delim)`, which writes a NUL over the separator. -/
def strsepAt (size : ℕ) (delim : Bytes) (m : Mem) (p : ℕ) : Mem × Option ℕ :=
  match strpbrk delim (scan m p (size - p)) with
  | some k => (write m (p + k) [0], some (p + k + 1))
  | none => (m, none)

/-- `strlen(m + p)`. -/
def strlen (size : ℕ) (m : Mem) (p : ℕ) : ℕ := (scan m p (size - p)).length

/-- Positions that hold a text and its NUL. -/
def Stands (m : Mem) (p : ℕ) (l : Bytes) : Prop := Holds m p (l ++ [0]) ∧ (0 : UInt8) ∉ l

theorem Stands.scan {m : Mem} {p n : ℕ} {l : Bytes} (h : Stands m p l) (hn : l.length < n) : scan m p n = l :=
  scan_of_holds h.2 h.1 hn

theorem Stands.tail {m : Mem} {p : ℕ} {x : UInt8} {l : Bytes} (h : Stands m p (x :: l)) : Stands m (p + 1) l := by
  obtain ⟨hl, hz⟩ := h
  rw [List.mem_cons, not_or] at hz
  exact ⟨hl.2, hz.2⟩

theorem Stands.congr {m m' : Mem} {p : ℕ} {l : Bytes} (h : Stands m p l)
    (he : ∀ i, p ≤ i → i ≤ p + l.length → m' i = m i) : Stands m' p l :=
  ⟨h.1.congr fun i h1 h2 => he i h1 (by simp at h2; omega), h.2⟩

theorem Stands.drop {m : Mem} {p : ℕ} {l rest : Bytes} (h : Stands m p (l ++ rest)) :
    Stands m (p + l.length) rest := by
  obtain ⟨hl, hz⟩ := h
  rw [List.append_assoc, holds_append] at hl
  rw [List.mem_append, not_or] at hz
  exact ⟨hl.2, hz.2⟩

/-- A NUL in a text makes two of it. -/
theorem Stands.cut {m : Mem} {p : ℕ} {x : UInt8} {l rest : Bytes} (h : Stands m p (l ++ x :: rest)) :
    Stands (write m (p + l.length) [0]) p l ∧ Stands (write m (p + l.length) [0]) (p + l.length + 1) rest := by
  have hrest := h.drop.tail
  obtain ⟨hl, hz⟩ := h
  rw [List.append_assoc, holds_append] at hl
  rw [List.mem_append, not_or] at hz
  refine ⟨⟨holds_append.mpr ⟨holds_write_of_le hl.1 (le_refl _), holds_write_same _ _ _⟩, hz.1⟩, ?_⟩
  exact hrest.congr fun i h1 _ => write_of_ge (by simp; omega)

theorem strpbrk_cons {set s : Bytes} {x : UInt8} (h : x ∉ set) :
    strpbrk set (x :: s) = (strpbrk set s).map (· + 1) := by
  simp [strpbrk, List.findIdx?_cons, h]

variable {size p : ℕ} {m : Mem}

theorem strsepAt_of_holds {delim l : Bytes} {x : UInt8} {rest : Bytes} (h : Stands m p (l ++ x :: rest))
    (hsize : p + (l ++ x :: rest).length < size) (hx : x ∈ delim) (hl : ∀ y ∈ l, y ∉ delim) :
    strsepAt size delim m p = (write m (p + l.length) [0], some (p + l.length + 1)) := by
  unfold strsepAt
  rw [h.scan (by omega), strpbrk_append hx rest hl]

theorem strsepAt_eq_none {delim l : Bytes} (h : Stands m p l) (hsize : p + l.length < size)
    (hl : ∀ y ∈ l, y ∉ delim) : strsepAt size delim m p = (m, none) := by
  unfold strsepAt
  rw [h.scan (by omega), strpbrk_eq_none hl]

/-! ### Searches -/

/-- `strstr(m + p, pat)`. -/
def strstrAt (size : ℕ) (pat : Bytes) (m : Mem) (p : ℕ) : Option ℕ :=
  (strstr pat (scan m p (size - p))).map (p + ·)

/-- `strpbrk(m + p, set)`. -/
def strpbrkAt (size : ℕ) (set : Bytes) (m : Mem) (p : ℕ) : Option ℕ :=
  (strpbrk set (scan m p (size - p))).map (p + ·)

theorem Stands.strchr {c : UInt8} {l rest : Bytes} (h : Stands m p (l ++ c :: rest)) (hc : c ∉ l)
    (hsize : p + l.length < size) : strchr m c p (size - p) = some (p + l.length) := by
  obtain ⟨hl, hz⟩ := h
  rw [List.append_assoc, List.cons_append, List.append_cons, holds_append] at hl
  exact strchr_of_holds (fun hmem => hz (List.mem_append_left _ hmem)) hc hl.1 (by omega)

theorem Stands.strchr_none {c : UInt8} (hc0 : c ≠ 0) : ∀ {l : Bytes} {p n : ℕ}, Stands m p l → c ∉ l →
    CMem.strchr m c p n = none
  | _, _, 0, _, _ => rfl
  | [], p, n + 1, h, _ => by
    have h0 : m p = 0 := h.1.1
    rw [CMem.strchr, h0, if_neg (Ne.symm hc0), if_pos rfl]
  | x :: l, p, n + 1, h, hc => by
    obtain ⟨hne, hl⟩ := not_or.mp (mt List.mem_cons.mpr hc)
    have hx : m p = x := h.1.1
    rw [CMem.strchr, hx, if_neg (Ne.symm hne), h.tail.strchr_none hc0 hl]
    exact ite_self _

/-- A buffer that is full of a text. -/
theorem scan_of_full : ∀ {l : Bytes} {p : ℕ}, (0 : UInt8) ∉ l → Holds m p l → scan m p l.length = l
  | [], _, _, _ => rfl
  | x :: l, p, hz, h => by
    rw [List.mem_cons, not_or] at hz
    rw [List.length_cons, scan, h.1, if_neg (Ne.symm hz.1), scan_of_full hz.2 h.2]

theorem strchr_of_full {c : UInt8} : ∀ {l : Bytes} {p : ℕ}, c ∉ l → Holds m p l → CMem.strchr m c p l.length = none
  | [], _, _, _ => rfl
  | x :: l, p, hc, h => by
    rw [List.mem_cons, not_or] at hc
    rw [List.length_cons, CMem.strchr, h.1, if_neg (Ne.symm hc.1), strchr_of_full hc.2 h.2]
    exact ite_self _

theorem Stands.strstrAt {pat l : Bytes} (h : Stands m p l) (hsize : p + l.length < size) :
    strstrAt size pat m p = (strstr pat l).map (p + ·) := by
  rw [CText.strstrAt, h.scan (by omega)]

theorem Stands.strpbrkAt {set l : Bytes} (h : Stands m p l) (hsize : p + l.length < size) :
    strpbrkAt size set m p = (strpbrk set l).map (p + ·) := by
  rw [CText.strpbrkAt, h.scan (by omega)]

end CText
