/-
# Byte memory and C strings

A buffer is a function from offsets to bytes, a C string value `CStr` a byte
list without NUL. `write` stores a block of bytes, `strcpy` a string with its
terminator; `readStr` and `strchr` scan from an offset, looking at no more
than the `n` bytes they are allowed. `Holds m p l` says that the bytes `l` stand
at `p`: what a reader finds is stated from it (`readStr_of_holds`,
`strchr_of_holds`), and what a write leaves of it by `holds_write_same`,
`holds_write_of_le` and `holds_write_of_ge`.
-/
import Mathlib.Data.List.GetD
import Mathlib.Tactic

namespace CMem

/-- A buffer of bytes, addressed from its start. -/
abbrev Mem := ℕ → UInt8

/-- A string as C passes it: bytes without a NUL. -/
structure CStr where
  bytes : List UInt8
  nul_notMem : (0 : UInt8) ∉ bytes
deriving DecidableEq

/-- A character is encoded as itself, or with a first byte over 127. -/
theorem utf8EncodeChar_of_ascii {c : Char} (h : ∀ b ∈ String.utf8EncodeChar c, b < 128) :
    String.utf8EncodeChar c = [UInt8.ofNat c.toNat] := by
  have hfirst : ∀ n, 128 ≤ n → n < 256 → ¬UInt8.ofNat n < 128 := fun n hlo hhi => by
    rw [UInt8.lt_iff_toNat_lt, UInt8.toNat_ofNat_of_lt' hhi]
    exact Nat.not_lt.mpr hlo
  unfold String.utf8EncodeChar at h ⊢
  dsimp only at h ⊢
  split_ifs at h ⊢ with h1 h2 h3
  · rfl
  · exact absurd (h _ List.mem_cons_self) (hfirst _ (by omega) (by omega))
  · exact absurd (h _ List.mem_cons_self) (hfirst _ (by omega) (by omega))
  · exact absurd (h _ List.mem_cons_self) (hfirst _ (by omega) (by omega))

/-- The characters of a string, as bytes, are the bytes it is kept as, if these are ASCII. -/
theorem map_toList_of_ascii {s : String} (h : ∀ b ∈ s.toByteArray.data.toList, b < 128) :
    (s.toList.map fun c => UInt8.ofNat c.toNat) = s.toByteArray.data.toList := by
  have hs : s.toByteArray.data.toList = s.toList.flatMap String.utf8EncodeChar := by
    conv_lhs => rw [← @String.ofList_toList s]
    rw [String.toByteArray_ofList, List.utf8Encode, List.toList_data_toByteArray]
  rw [hs] at h ⊢
  generalize s.toList = l at h ⊢
  induction l with
  | nil => rfl
  | cons c l ih =>
    rw [List.flatMap_cons] at h ⊢
    have hc := utf8EncodeChar_of_ascii fun b hb => h b (List.mem_append_left _ hb)
    rw [List.map_cons, ih fun b hb => h b (List.mem_append_right _ hb), hc, List.singleton_append]

theorem nul_notMem_of_ascii {s : String} (h : (s.toByteArray.data.toList.all fun b => 0 < b && b < 128) = true) :
    (0 : UInt8) ∉ s.toList.map fun c => UInt8.ofNat c.toNat := by
  have hascii : ∀ b ∈ s.toByteArray.data.toList, 0 < b ∧ b < 128 := fun b hb => by
    have hcheck := List.all_eq_true.mp h b hb
    rwa [Bool.and_eq_true, decide_eq_true_iff, decide_eq_true_iff] at hcheck
  rw [map_toList_of_ascii fun b hb => (hascii b hb).2]
  exact fun h0 => absurd (hascii 0 h0).1 (by decide)

/-- The literal `s`, of ASCII. The check looks at the bytes it is kept as, and its proof is the same term at every
literal. -/
def CStr.lit (s : String)
    (h : (s.toByteArray.data.toList.all fun b => 0 < b && b < 128) = true := by exact Eq.refl true) : CStr :=
  ⟨s.toList.map fun c => UInt8.ofNat c.toNat, nul_notMem_of_ascii h⟩

theorem nul_notMem_nil : (0 : UInt8) ∉ ([] : List UInt8) := List.not_mem_nil

/-- `strlen`. -/
def CStr.length (s : CStr) : ℕ := s.bytes.length

/-- The string with its terminator, as it lies in memory. -/
def CStr.withNul (s : CStr) : List UInt8 := s.bytes ++ [0]

@[simp] theorem CStr.length_withNul (s : CStr) : s.withNul.length = s.length + 1 := by
  simp [CStr.withNul, CStr.length]

theorem CStr.ext_bytes {s t : CStr} (h : s.bytes = t.bytes) : s = t := by
  cases s; cases t; cases h; rfl

/-- The bytes `l` stored from `p` on. -/
def write (m : Mem) (p : ℕ) (l : List UInt8) : Mem :=
  fun i => if p ≤ i ∧ i < p + l.length then l.getD (i - p) 0 else m i

/-- `strcpy(m + p, s)`. -/
def strcpy (m : Mem) (p : ℕ) (s : CStr) : Mem := write m p s.withNul

/-- The bytes from `p` to the first NUL, at most `n`. -/
def scan (m : Mem) : ℕ → ℕ → List UInt8
  | _, 0 => []
  | p, n + 1 => if m p = 0 then [] else m p :: scan m (p + 1) n

theorem nul_notMem_scan (m : Mem) : ∀ p n, (0 : UInt8) ∉ scan m p n
  | _, 0 => by simp [scan]
  | p, n + 1 => by
    unfold scan
    split_ifs with h
    · simp
    · simp [Ne.symm h, nul_notMem_scan m (p + 1) n]

/-- The string at `p`, in a buffer with `n` bytes from there. -/
def readStr (m : Mem) (p n : ℕ) : CStr := ⟨scan m p n, nul_notMem_scan m p n⟩

/-- `strchr(m + p, c)`, in a buffer with `n` bytes from there. -/
def strchr (m : Mem) (c : UInt8) : ℕ → ℕ → Option ℕ
  | _, 0 => none
  | p, n + 1 => if m p = c then some p else if m p = 0 then none else strchr m c (p + 1) n

/-- The bytes `l` stand at `p`. -/
def Holds (m : Mem) : ℕ → List UInt8 → Prop
  | _, [] => True
  | p, b :: l => m p = b ∧ Holds m (p + 1) l

theorem holds_append {m : Mem} : ∀ {p : ℕ} {l l' : List UInt8},
    Holds m p (l ++ l') ↔ Holds m p l ∧ Holds m (p + l.length) l'
  | p, [], l' => by simp [Holds]
  | p, b :: l, l' => by
    simp only [List.cons_append, Holds, holds_append (l := l), List.length_cons, and_assoc]
    rw [Nat.add_right_comm, Nat.add_assoc]

theorem holds_iff {m : Mem} : ∀ {p : ℕ} {l : List UInt8},
    Holds m p l ↔ ∀ i (h : i < l.length), m (p + i) = l[i]
  | p, [] => by simp [Holds]
  | p, b :: l => by
    rw [Holds, holds_iff]
    constructor
    · rintro ⟨h0, h1⟩ i hi
      cases i with
      | zero => exact h0
      | succ i => simpa [Nat.add_right_comm, Nat.add_assoc] using h1 i (by simpa using hi)
    · intro h
      refine ⟨h 0 (by simp), fun i hi => ?_⟩
      rw [Nat.add_right_comm, Nat.add_assoc, h (i + 1) (by simpa using hi), List.getElem_cons_succ]

theorem Holds.congr {m m' : Mem} {p : ℕ} {l : List UInt8} (h : Holds m p l)
    (he : ∀ i, p ≤ i → i < p + l.length → m' i = m i) : Holds m' p l := by
  rw [holds_iff] at h ⊢
  intro i hi
  rw [he (p + i) (by omega) (by omega), h i hi]

/-! ### What a write leaves -/

theorem write_of_lt {m : Mem} {p i : ℕ} {l : List UInt8} (h : i < p) : write m p l i = m i := by
  simp [write, Nat.not_le.mpr h]

theorem write_of_ge {m : Mem} {p i : ℕ} {l : List UInt8} (h : p + l.length ≤ i) :
    write m p l i = m i := by
  simp [write, Nat.not_lt.mpr h]

theorem holds_write_same (m : Mem) (p : ℕ) (l : List UInt8) : Holds (write m p l) p l := by
  rw [holds_iff]
  intro i hi
  simp [write, hi]

theorem holds_write_of_le {m : Mem} {p q : ℕ} {l l' : List UInt8} (h : Holds m p l)
    (hle : p + l.length ≤ q) : Holds (write m q l') p l :=
  h.congr fun _ _ hi => write_of_lt (by omega)

theorem holds_write_of_ge {m : Mem} {p q : ℕ} {l l' : List UInt8} (h : Holds m p l)
    (hle : q + l'.length ≤ p) : Holds (write m q l') p l :=
  h.congr fun _ hi _ => write_of_ge (by omega)

/-- A byte overwritten and put back. -/
theorem write_restore {m : Mem} {p : ℕ} {b : UInt8} (h : m p = b) (c : UInt8) :
    write (write m p [c]) p [b] = m := by
  funext i
  by_cases hi : i = p
  · subst hi
    simp [write, h]
  · simp only [write, List.length_singleton]
    rw [if_neg (by omega), if_neg (by omega)]

/-- Writing what stands there changes nothing. -/
theorem write_of_holds {m : Mem} {p : ℕ} {l : List UInt8} (h : Holds m p l) : write m p l = m := by
  funext i
  unfold write
  split_ifs with hi
  · have h1 := holds_iff.mp h (i - p) (by omega)
    rw [Nat.add_sub_cancel' hi.1] at h1
    rw [h1, List.getD_eq_getElem]
  · rfl

theorem write_nil (m : Mem) (p : ℕ) : write m p [] = m := by
  funext i
  exact if_neg (by rw [List.length_nil]; omega)

/-- Two blocks written one after the other are their concatenation. -/
theorem write_write (m : Mem) (p : ℕ) (l l' : List UInt8) :
    write (write m p l) (p + l.length) l' = write m p (l ++ l') := by
  funext i
  simp only [write, List.length_append]
  by_cases h1 : p + l.length ≤ i
  · rw [List.getD_append_right _ _ _ _ (by omega), Nat.sub_add_eq]
    by_cases h2 : i < p + l.length + l'.length
    · rw [if_pos ⟨h1, h2⟩, if_pos ⟨by omega, by omega⟩]
    · rw [if_neg (by omega), if_neg (by omega), if_neg (by omega)]
  · rw [if_neg (by omega)]
    by_cases h2 : p ≤ i
    · rw [if_pos ⟨h2, by omega⟩, if_pos ⟨h2, by omega⟩, List.getD_append _ _ _ _ (by omega)]
    · rw [if_neg (by omega), if_neg (by omega)]

/-! ### What a reader finds -/

theorem scan_of_holds {m : Mem} : ∀ {l : List UInt8} {p n : ℕ}, (0 : UInt8) ∉ l →
    Holds m p (l ++ [0]) → l.length < n → scan m p n = l
  | [], p, n + 1, _, h, _ => by
    have h0 : m p = 0 := by simpa [Holds] using h
    simp [scan, h0]
  | b :: l, p, n + 1, hz, h, hn => by
    simp only [List.mem_cons, not_or] at hz
    obtain ⟨h0, h1⟩ := h
    rw [scan, if_neg (by rw [h0]; exact Ne.symm hz.1), h0,
      scan_of_holds hz.2 h1 (by simpa using hn)]

/-- A reader that may look far enough finds the string that stands there. -/
theorem readStr_of_holds {m : Mem} {s : CStr} {p n : ℕ} (h : Holds m p s.withNul)
    (hn : s.length < n) : readStr m p n = s :=
  CStr.ext_bytes (scan_of_holds s.nul_notMem h hn)

theorem strchr_of_holds {m : Mem} {c : UInt8} : ∀ {l : List UInt8} {p n : ℕ}, (0 : UInt8) ∉ l →
    c ∉ l → Holds m p (l ++ [c]) → l.length < n → strchr m c p n = some (p + l.length)
  | [], p, n + 1, _, _, h, _ => by
    have h0 : m p = c := by simpa [Holds] using h
    simp [strchr, h0]
  | b :: l, p, n + 1, hz, hc, h, hn => by
    simp only [List.mem_cons, not_or] at hz hc
    obtain ⟨h0, h1⟩ := h
    rw [strchr, if_neg (by rw [h0]; exact Ne.symm hc.1), if_neg (by rw [h0]; exact Ne.symm hz.1),
      strchr_of_holds hz.2 hc.2 h1 (by simpa using hn), List.length_cons]
    congr 1
    omega

/-- What `strchr` returns is a `c`, inside the bytes it may look at. -/
theorem strchr_some {m : Mem} {c : UInt8} : ∀ {p n q : ℕ}, strchr m c p n = some q →
    m q = c ∧ p ≤ q ∧ q < p + n
  | p, n + 1, q, h => by
    unfold strchr at h
    split_ifs at h with h0 h1
    · cases h
      exact ⟨h0, le_refl _, by omega⟩
    · obtain ⟨h2, h3, h4⟩ := strchr_some h
      exact ⟨h2, by omega, by omega⟩

/-- A scan does not pass a NUL. -/
theorem length_scan_le {m : Mem} {z : ℕ} (hz : m z = 0) : ∀ {p n : ℕ}, p ≤ z →
    (scan m p n).length ≤ z - p
  | _, 0, _ => Nat.zero_le _
  | p, n + 1, hp => by
    unfold scan
    split_ifs with h
    · exact Nat.zero_le _
    · have hne : p ≠ z := fun he => h (he ▸ hz)
      have ih := length_scan_le hz (p := p + 1) (n := n) (by omega)
      rw [List.length_cons]
      omega

theorem holds_scan (m : Mem) : ∀ p n, Holds m p (scan m p n)
  | _, 0 => trivial
  | p, n + 1 => by
    rw [scan]
    split_ifs with h
    · trivial
    · exact ⟨rfl, holds_scan m (p + 1) n⟩

/-- The end of a scan. -/
theorem scan_drop {m : Mem} : ∀ {k p n : ℕ}, k ≤ (scan m p n).length → scan m (p + k) (n - k) = (scan m p n).drop k
  | 0, _, _, _ => rfl
  | k + 1, _, 0, h => absurd h (Nat.not_succ_le_zero k)
  | k + 1, p, n + 1, h => by
    rw [scan] at h ⊢
    split_ifs at h ⊢ with h0
    · exact absurd h (Nat.not_succ_le_zero k)
    · rw [List.drop_succ_cons, ← scan_drop (Nat.le_of_succ_le_succ h), Nat.add_right_comm, Nat.add_assoc,
        Nat.succ_sub_succ]

theorem strchr_lt_of_nul {m : Mem} {c : UInt8} (hc : c ≠ 0) {z : ℕ} (hz : m z = 0) :
    ∀ {p n q : ℕ}, p ≤ z → strchr m c p n = some q → q < z
  | p, n + 1, q, hp, h => by
    unfold strchr at h
    split_ifs at h with h0 h1
    · cases h
      have hne : p ≠ z := fun he => hc (by rw [← h0, he, hz])
      omega
    · have hne : p ≠ z := fun he => h1 (he ▸ hz)
      exact strchr_lt_of_nul hc hz (by omega) h

/-! ### Little-endian words -/

/-- The four bytes of a word, low byte first. -/
def bytes32 (v : UInt32) : List UInt8 :=
  [UInt8.ofNat v.toNat, UInt8.ofNat (v.toNat / 2 ^ 8), UInt8.ofNat (v.toNat / 2 ^ 16),
    UInt8.ofNat (v.toNat / 2 ^ 24)]

/-- The word at `p`. -/
def le32 (m : Mem) (p : ℕ) : UInt32 :=
  UInt32.ofNat ((m p).toNat + 2 ^ 8 * (m (p + 1)).toNat + 2 ^ 16 * (m (p + 2)).toNat +
    2 ^ 24 * (m (p + 3)).toNat)

/-- The word `v` stored at `p`. -/
def put32 (m : Mem) (p : ℕ) (v : UInt32) : Mem := write m p (bytes32 v)

@[simp] theorem length_bytes32 (v : UInt32) : (bytes32 v).length = 4 := rfl

theorem le32_of_holds {m : Mem} {p : ℕ} {v : UInt32} (h : Holds m p (bytes32 v)) :
    le32 m p = v := by
  obtain ⟨h0, h1, h2, h3, -⟩ := h
  have hv : v.toNat < 2 ^ 32 := v.toNat_lt
  apply UInt32.toNat_inj.mp
  rw [le32, h0, h1, h2, h3]
  simp only [UInt32.toNat_ofNat', UInt8.toNat_ofNat']
  omega

theorem holds_bytes32 (m : Mem) (p : ℕ) : Holds m p (bytes32 (le32 m p)) := by
  have h0 := (m p).toNat_lt
  have h1 := (m (p + 1)).toNat_lt
  have h2 := (m (p + 2)).toNat_lt
  have h3 := (m (p + 3)).toNat_lt
  simp only [Holds, bytes32, le32, UInt32.toNat_ofNat', and_true, Nat.add_assoc p, Nat.reduceAdd]
  refine ⟨?_, ?_, ?_, ?_⟩ <;>
  · apply UInt8.toNat_inj.mp
    rw [UInt8.toNat_ofNat']
    omega

/-- The bytes of the word that stands at `p`. -/
theorem byte_of_le32 {m : Mem} {p j : ℕ} {v : UInt32} (h : le32 m p = v) (hj : j < 4) :
    m (p + j) = (bytes32 v).getD j 0 := by
  subst h
  rw [holds_iff.mp (holds_bytes32 m p) j hj, List.getD_eq_getElem _ _ hj]

theorem le32_put32 (m : Mem) (p : ℕ) (v : UInt32) : le32 (put32 m p v) p = v :=
  le32_of_holds (holds_write_same m p _)

theorem le32_congr {m m' : Mem} {p : ℕ} (h : ∀ i, p ≤ i → i < p + 4 → m' i = m i) :
    le32 m' p = le32 m p :=
  le32_of_holds ((holds_bytes32 m p).congr h)

/-- A word the write does not reach. -/
theorem le32_write_of_disjoint {m : Mem} {p q : ℕ} {l : List UInt8}
    (h : p + 4 ≤ q ∨ q + l.length ≤ p) : le32 (write m q l) p = le32 m p :=
  le32_congr fun i h1 h2 => by
    rcases h with h | h
    · exact write_of_lt (by omega)
    · exact write_of_ge (by omega)

theorem le32_put32_of_disjoint {m : Mem} {p q : ℕ} {v : UInt32} (h : p + 4 ≤ q ∨ q + 4 ≤ p) :
    le32 (put32 m q v) p = le32 m p :=
  le32_write_of_disjoint h

/-- The two bytes of a half word, low byte first. -/
def bytes16 (v : UInt16) : List UInt8 := [UInt8.ofNat v.toNat, UInt8.ofNat (v.toNat / 2 ^ 8)]

/-- The half word at `p`. -/
def le16 (m : Mem) (p : ℕ) : UInt16 := UInt16.ofNat ((m p).toNat + 2 ^ 8 * (m (p + 1)).toNat)

/-- The half word `v` stored at `p`. -/
def put16 (m : Mem) (p : ℕ) (v : UInt16) : Mem := write m p (bytes16 v)

@[simp] theorem length_bytes16 (v : UInt16) : (bytes16 v).length = 2 := rfl

theorem le16_of_holds {m : Mem} {p : ℕ} {v : UInt16} (h : Holds m p (bytes16 v)) : le16 m p = v := by
  obtain ⟨h0, h1, -⟩ := h
  have hv : v.toNat < 2 ^ 16 := v.toNat_lt
  apply UInt16.toNat_inj.mp
  rw [le16, h0, h1]
  simp only [UInt16.toNat_ofNat', UInt8.toNat_ofNat']
  omega

theorem le16_put16 (m : Mem) (p : ℕ) (v : UInt16) : le16 (put16 m p v) p = v :=
  le16_of_holds (holds_write_same m p _)

theorem le16_congr {m m' : Mem} {p : ℕ} (h : ∀ i, p ≤ i → i < p + 2 → m' i = m i) : le16 m' p = le16 m p := by
  simp only [le16]
  rw [h p (by omega) (by omega), h (p + 1) (by omega) (by omega)]

/-! ### Blocks -/

/-- The `n` bytes from `p` on. -/
def load (m : Mem) (p n : ℕ) : List UInt8 := (List.range n).map fun i => m (p + i)

@[simp] theorem length_load (m : Mem) (p n : ℕ) : (load m p n).length = n := by simp [load]

theorem holds_load (m : Mem) (p n : ℕ) : Holds m p (load m p n) := by
  rw [holds_iff]
  intro i hi
  simp [load]

theorem load_of_holds {m : Mem} {p : ℕ} {l : List UInt8} (h : Holds m p l) : load m p l.length = l := by
  apply List.ext_getElem (length_load _ _ _)
  intro i _ hi
  rw [holds_iff] at h
  simp [load, h i hi]

/-- A copy of a block reads as the block does. -/
theorem write_load (m m' : Mem) {p n i : ℕ} (hi : i < n) : write m' 0 (load m p n) i = m (p + i) := by
  have h := holds_iff.mp (holds_write_same m' 0 (load m p n)) i (by simpa using hi)
  rw [Nat.zero_add] at h
  rw [h]
  simp [load]

/-- Two memories that differ only inside a block agree once the block is written. -/
theorem write_congr {m m' : Mem} {p : ℕ} {l : List UInt8} {s : Set ℕ} (h : ∀ i ∈ s, m i = m' i) :
    ∀ i, i ∈ s ∨ p ≤ i ∧ i < p + l.length → write m p l i = write m' p l i := by
  intro i hi
  unfold write
  split_ifs with hc
  · rfl
  · exact h i (hi.resolve_right hc)

theorem load_succ (m : Mem) (p k : ℕ) : load m p (k + 1) = m p :: load m (p + 1) k := by
  unfold load
  rw [List.range_succ_eq_map, List.map_cons, List.map_map, Nat.add_zero]
  congr 1
  exact List.map_congr_left fun i _ => congrArg m (by simp only [Nat.succ_eq_add_one]; omega)

/-- A text that is cut by a NUL. -/
theorem scan_cut {m : Mem} : ∀ {k p n : ℕ} (_ : k < n), scan (write m (p + k) [0]) p n = (load m p k).takeWhile (· ≠ 0)
  | 0, p, n + 1, _ => by
    have h0 : write m (p + 0) [0] p = 0 := (holds_write_same m p [0]).1
    rw [scan, if_pos h0]
    rfl
  | k + 1, p, n + 1, hlt => by
    have hp : write m (p + (k + 1)) [0] p = m p := write_of_lt (by omega)
    have hat : p + (k + 1) = p + 1 + k := by omega
    rw [scan, hp, load_succ]
    by_cases h0 : m p = 0
    · rw [if_pos h0, List.takeWhile_cons_of_neg (by simpa using h0)]
    · rw [if_neg h0, List.takeWhile_cons_of_pos (by simpa using h0), hat, scan_cut (Nat.lt_of_succ_lt_succ hlt)]

/-! ### Behind what is written -/

theorem byte_of_ge {m : Mem} {p i : ℕ} {b : UInt8} (hi : p < i) : write m p [b] i = m i :=
  write_of_ge (by rw [List.length_singleton]; omega)

theorem put32_of_ge {m : Mem} {p i : ℕ} {v : UInt32} (hi : p + 4 ≤ i) : put32 m p v i = m i :=
  write_of_ge (by rw [length_bytes32]; omega)

theorem strcpy_of_ge {m : Mem} {p i : ℕ} {v : CStr} (hi : p + v.length < i) : strcpy m p v i = m i :=
  write_of_ge (by rw [CStr.length_withNul]; omega)

end CMem
