/-
# The NVRAM variable store

`shared/nvram/nvram.c` keeps the variables in a hash table of 257 chains and
leaves the storage of a tuple to the port; on Linux
(`bcm947xx/nvram_linux.c`) `_nvram_realloc` takes the tuple and its name from
`kmalloc` and bump-allocates the value in `nvram_buf`. Here the two halves
together: the table, the dead list, the buffer and the allocation offset, and
the three operations `_nvramGet`, `_nvramSet`, `_nvramUnset`.

A chain is a list of tuples, a tuple's value an offset into `nvram_buf`. The
lengths are unbounded: a C string of the target fits its 32-bit address
space, so `nvram_offset + strlen(value) + 1` does not wrap there. `kmalloc` is
the kernel's; each call is given its answer, and every statement holds for
all answers.

`Inv` is what the operations keep: a tuple is in the chain its name hashes
to, no name occurs twice, and each value is a terminated string below
`nvram_offset`, in bytes of its own. `_nvramSet_spec` and `_nvramUnset_spec`
say what an operation does to the values `getStr` reads.
-/
import Mathlib.Tactic
import RouterFirmware.Lib.CMem

namespace Router
namespace Nvram

open CMem

/-- `NVRAM_SPACE`, the size of `nvram_buf` and of an image. -/
def nvramSpace : ℕ := 0x8000

/-- The number of chains, `ARRAYSIZE(nvram_hash)`. -/
def hashSize : ℕ := 257

/-- `struct nvram_tuple`: the name, and where in `nvram_buf` the value starts. -/
structure Tuple where
  name : CStr
  value : ℕ
deriving DecidableEq

/-- The state both halves share. -/
structure Store where
  nvramHash : Fin hashSize → List Tuple
  nvramDead : List Tuple
  nvramBuf : Mem
  nvramOffset : ℕ

/-- Before the first call: no tuple, and the buffer whatever it was. -/
def Store.empty (buf : Mem) : Store := ⟨fun _ => [], [], buf, 0⟩

/-- The string hash; `char` is signed, `uint` has 32 bits. -/
def hash (s : CStr) : UInt32 :=
  s.bytes.foldl (fun h c => 31 * h + c.toInt8.toInt32.toUInt32) 0

/-- The chain of a name. -/
def bucket (name : CStr) : Fin hashSize := ⟨(hash name).toNat % hashSize, Nat.mod_lt _ (by decide)⟩

/-- The C string that starts at `p` in `nvram_buf`. -/
def Store.str (st : Store) (p : ℕ) : CStr := readStr st.nvramBuf p (nvramSpace - p)

/-- The tuple of a name, as the loops over a chain find it. -/
def Store.find (st : Store) (name : CStr) : Option Tuple :=
  (st.nvramHash (bucket name)).find? (·.name = name)

/-- The value pointer of a name, NULL for a NULL name or no tuple. -/
def _nvramGet (st : Store) : Option CStr → Option ℕ
  | none => none
  | some name => (st.find name).map (·.value)

/-- What `_nvram_realloc` hands back: the buffer and offset it leaves, the
tuple, and whether the tuple is the one it was given. -/
structure Realloc where
  nvramBuf : Mem
  nvramOffset : ℕ
  tuple : Tuple
  same : Bool

/-- Give the tuple `t` (NULL for a new one, taken from `kmalloc`) the value. -/
def _nvramRealloc (kmalloc : Bool) (st : Store) (t : Option Tuple) (name value : CStr) :
    Option Realloc :=
  if st.nvramOffset + value.length + 1 > nvramSpace then none
  else
    match t with
    | none =>
      if kmalloc then
        some ⟨strcpy st.nvramBuf st.nvramOffset value, st.nvramOffset + value.length + 1,
          ⟨name, st.nvramOffset⟩, false⟩
      else none
    | some t =>
      if st.str t.value ≠ value then
        some ⟨strcpy st.nvramBuf st.nvramOffset value, st.nvramOffset + value.length + 1,
          { t with value := st.nvramOffset }, true⟩
      else some ⟨st.nvramBuf, st.nvramOffset, t, true⟩

/-- A tuple changed in its place in the chain. -/
def relink (u : Tuple) : List Tuple → List Tuple
  | [] => []
  | t :: ts => if t.name = u.name then u :: ts else t :: relink u ts

/-- Set a variable: 0, or -12 (`-ENOMEM`) when the tuple could not be had. -/
def _nvramSet (kmalloc : Bool) (st : Store) (name value : CStr) : Store × ℤ :=
  let i := bucket name
  let t := st.find name
  match _nvramRealloc kmalloc st t name value with
  | none => (st, -12)
  | some u =>
    let st' := { st with nvramBuf := u.nvramBuf, nvramOffset := u.nvramOffset }
    if u.same then
      ({ st' with nvramHash := Function.update st.nvramHash i (relink u.tuple (st.nvramHash i)) }, 0)
    else
      -- a port that returned another tuple has its old one moved to the dead list
      let chain := (st.nvramHash i).eraseP (·.name = name)
      ({ st' with
        nvramHash := Function.update st.nvramHash i (u.tuple :: chain)
        nvramDead := t.toList ++ st.nvramDead }, 0)

/-- Unset a variable: its tuple goes to the dead list. -/
def _nvramUnset (st : Store) : Option CStr → Store × ℤ
  | none => (st, 0)
  | some name =>
    let i := bucket name
    ({ st with
      nvramHash := Function.update st.nvramHash i ((st.nvramHash i).eraseP (·.name = name))
      nvramDead := (st.find name).toList ++ st.nvramDead }, 0)

/-! ### The values of a store -/

/-- The value of a name, as the caller of `_nvram_get` reads it. -/
def Store.getStr (st : Store) (name : CStr) : Option CStr := (_nvramGet st (some name)).map st.str

theorem getStr_eq (st : Store) (name : CStr) :
    st.getStr name = (st.find name).map fun t => st.str t.value := by
  simp [Store.getStr, _nvramGet, Function.comp_def]

/-- The tuple `t` is chained in the table. -/
def Store.Live (st : Store) (t : Tuple) : Prop := ∃ i, t ∈ st.nvramHash i

/-- The bytes of `nvram_buf` the value of `t` takes, its NUL included. -/
def Store.region (st : Store) (t : Tuple) : Finset ℕ :=
  Finset.Ico t.value (t.value + (st.str t.value).length + 1)

/-- What the three operations keep. -/
structure Inv (st : Store) : Prop where
  /-- a tuple is in the chain of its name -/
  hashed : ∀ i, ∀ t ∈ st.nvramHash i, bucket t.name = i
  /-- no name occurs twice in a chain -/
  nodup : ∀ i, ((st.nvramHash i).map (·.name)).Nodup
  /-- a value is a terminated string below the offset -/
  held : ∀ i, ∀ t ∈ st.nvramHash i, Holds st.nvramBuf t.value (st.str t.value).withNul ∧
    t.value + (st.str t.value).length + 1 ≤ st.nvramOffset
  /-- no byte is in two values -/
  disjoint : ∀ t u, st.Live t → st.Live u → t ≠ u → Disjoint (st.region t) (st.region u)
  offset_le : st.nvramOffset ≤ nvramSpace

theorem empty_inv (buf : Mem) : Inv (Store.empty buf) where
  hashed i t h := by simp [Store.empty] at h
  nodup i := by simp [Store.empty]
  held i t h := by simp [Store.empty] at h
  disjoint t u h := by obtain ⟨i, h⟩ := h; simp [Store.empty] at h
  offset_le := by simp [Store.empty]

/-! ### Chains -/

theorem find?_relink_same (u : Tuple) : ∀ {ts : List Tuple} {t : Tuple},
    ts.find? (·.name = u.name) = some t → (relink u ts).find? (·.name = u.name) = some u
  | [], _, h => by simp at h
  | x :: ts, t, h => by
    unfold relink
    by_cases hx : x.name = u.name
    · simp [hx]
    · rw [if_neg hx]
      simp only [List.find?_cons, hx, decide_false] at h ⊢
      exact find?_relink_same u h

theorem find?_relink_ne (u : Tuple) {n : CStr} (hn : n ≠ u.name) : ∀ ts : List Tuple,
    (relink u ts).find? (·.name = n) = ts.find? (·.name = n)
  | [] => rfl
  | x :: ts => by
    unfold relink
    by_cases hx : x.name = u.name
    · simp [hx, Ne.symm hn]
    · rw [if_neg hx]
      simp only [List.find?_cons, find?_relink_ne u hn ts]

theorem map_name_relink (u : Tuple) : ∀ ts : List Tuple,
    (relink u ts).map (·.name) = ts.map (·.name)
  | [] => rfl
  | x :: ts => by
    unfold relink
    by_cases hx : x.name = u.name
    · simp [hx]
    · simp [hx, map_name_relink u ts]

theorem mem_relink (u : Tuple) : ∀ {ts : List Tuple}, (ts.map (·.name)).Nodup → ∀ x ∈ relink u ts,
    x = u ∨ x ∈ ts ∧ x.name ≠ u.name
  | [], _, x, hx => by simp [relink] at hx
  | t :: ts, hn, x, hx => by
    simp only [List.map_cons, List.nodup_cons] at hn
    unfold relink at hx
    by_cases ht : t.name = u.name
    · rw [if_pos ht] at hx
      rcases List.mem_cons.mp hx with rfl | hx
      · exact Or.inl rfl
      · refine Or.inr ⟨List.mem_cons_of_mem _ hx, fun he => hn.1 ?_⟩
        rw [ht, ← he]
        exact List.mem_map.mpr ⟨x, hx, rfl⟩
    · rw [if_neg ht] at hx
      rcases List.mem_cons.mp hx with rfl | hx
      · exact Or.inr ⟨List.mem_cons_self, ht⟩
      · rcases mem_relink u hn.2 x hx with h | ⟨h, h'⟩
        · exact Or.inl h
        · exact Or.inr ⟨List.mem_cons_of_mem _ h, h'⟩

theorem mem_unlink (name : CStr) : ∀ {ts : List Tuple}, (ts.map (·.name)).Nodup →
    ∀ x ∈ ts.eraseP (·.name = name), x ∈ ts ∧ x.name ≠ name
  | [], _, x, hx => by simp at hx
  | t :: ts, hn, x, hx => by
    simp only [List.map_cons, List.nodup_cons] at hn
    by_cases ht : t.name = name
    · rw [List.eraseP_cons_of_pos (by simpa using ht)] at hx
      refine ⟨List.mem_cons_of_mem _ hx, fun he => hn.1 ?_⟩
      rw [ht, ← he]
      exact List.mem_map.mpr ⟨x, hx, rfl⟩
    · rw [List.eraseP_cons_of_neg (by simpa using ht)] at hx
      rcases List.mem_cons.mp hx with rfl | hx
      · exact ⟨List.mem_cons_self, ht⟩
      · obtain ⟨h, h'⟩ := mem_unlink name hn.2 x hx
        exact ⟨List.mem_cons_of_mem _ h, h'⟩

theorem find?_unlink_same {name : CStr} {ts : List Tuple} (hn : (ts.map (·.name)).Nodup) :
    (ts.eraseP (·.name = name)).find? (·.name = name) = none := by
  rw [List.find?_eq_none]
  intro x hx
  simpa using (mem_unlink name hn x hx).2

theorem find?_unlink_ne {name n : CStr} (hne : n ≠ name) : ∀ ts : List Tuple,
    (ts.eraseP (·.name = name)).find? (·.name = n) = ts.find? (·.name = n)
  | [] => rfl
  | t :: ts => by
    by_cases ht : t.name = name
    · rw [List.eraseP_cons_of_pos (by simpa using ht)]
      simp [ht, Ne.symm hne]
    · rw [List.eraseP_cons_of_neg (by simpa using ht)]
      simp only [List.find?_cons, find?_unlink_ne hne ts]

theorem nodup_unlink {name : CStr} {ts : List Tuple} (hn : (ts.map (·.name)).Nodup) :
    ((ts.eraseP (·.name = name)).map (·.name)).Nodup :=
  hn.sublist (List.eraseP_sublist.map _)

/-! ### What the invariant gives -/

theorem find_some {st : Store} {n : CStr} {t : Tuple} (h : st.find n = some t) :
    t ∈ st.nvramHash (bucket n) ∧ t.name = n :=
  ⟨List.mem_of_find?_eq_some h, by simpa using List.find?_some h⟩

theorem find?_of_mem : ∀ {ts : List Tuple} {t : Tuple}, (ts.map (·.name)).Nodup → t ∈ ts →
    ts.find? (·.name = t.name) = some t
  | x :: ts, t, hn, ht => by
    simp only [List.map_cons, List.nodup_cons] at hn
    rcases List.mem_cons.mp ht with rfl | ht
    · simp
    · have hne : x.name ≠ t.name := fun he => hn.1 (he ▸ List.mem_map.mpr ⟨t, ht, rfl⟩)
      simp [hne, find?_of_mem hn.2 ht]

theorem Inv.find_eq {st : Store} (h : Inv st) {t : Tuple} (ht : st.Live t) :
    st.find t.name = some t := by
  obtain ⟨i, ht⟩ := ht
  unfold Store.find
  rw [h.hashed i t ht]
  exact find?_of_mem (h.nodup i) ht

/-- A live tuple's value is its name's value. -/
theorem Inv.getStr_name {st : Store} (h : Inv st) {t : Tuple} (ht : st.Live t) :
    st.getStr t.name = some (st.str t.value) := by
  rw [getStr_eq, h.find_eq ht, Option.map_some]

theorem Inv.name_inj {st : Store} (h : Inv st) {t u : Tuple} (ht : st.Live t) (hu : st.Live u)
    (he : t.name = u.name) : t = u := by
  have h1 := h.find_eq ht
  rw [he, h.find_eq hu] at h1
  exact (Option.some.inj h1).symm

/-- The string at `p` is what stands there, if it ends inside the buffer. -/
theorem str_of_holds {st : Store} {p : ℕ} {s : CStr} (h : Holds st.nvramBuf p s.withNul)
    (hp : p + s.length + 1 ≤ nvramSpace) : st.str p = s :=
  readStr_of_holds h (by omega)

/-- A value below the offset survives what leaves the bytes below it alone. -/
theorem Inv.str_eq {st st' : Store} (h : Inv st)
    (hb : ∀ i, i < st.nvramOffset → st'.nvramBuf i = st.nvramBuf i) {t : Tuple} (ht : st.Live t) :
    st'.str t.value = st.str t.value ∧ Holds st'.nvramBuf t.value (st.str t.value).withNul := by
  obtain ⟨i, ht⟩ := ht
  obtain ⟨h1, h2⟩ := h.held i t ht
  have h3 : Holds st'.nvramBuf t.value (st.str t.value).withNul :=
    h1.congr fun j _ hj => hb j (by rw [CStr.length_withNul] at hj; omega)
  exact ⟨str_of_holds h3 (h2.trans h.offset_le), h3⟩

/-! ### An update of one chain

Setting a variable to a new value and unsetting one both replace one chain:
every tuple in the new chain is an old one, or the one tuple whose value was
just copied to the old offset. -/

/-- The tuples of `st'` are tuples of `st`, their bytes untouched, except for
those in `new`, which hold their value at the old offset. -/
structure Update (st st' : Store) (new : Option (Tuple × CStr)) : Prop where
  hashed : ∀ i, ∀ t ∈ st'.nvramHash i, bucket t.name = i
  nodup : ∀ i, ((st'.nvramHash i).map (·.name)).Nodup
  old : ∀ t, st'.Live t → st.Live t ∨ ∃ s, new = some (t, s)
  low : ∀ i, i < st.nvramOffset → st'.nvramBuf i = st.nvramBuf i
  new_value : ∀ t s, new = some (t, s) → t.value = st.nvramOffset ∧
    Holds st'.nvramBuf t.value s.withNul ∧ st.nvramOffset + s.length + 1 ≤ st'.nvramOffset
  mono : st.nvramOffset ≤ st'.nvramOffset
  offset_le : st'.nvramOffset ≤ nvramSpace

theorem Update.new_str {st st' : Store} {t : Tuple} {s : CStr} (hu : Update st st' (some (t, s))) :
    st'.str t.value = s := by
  obtain ⟨h1, h2, h3⟩ := hu.new_value t s rfl
  have := hu.offset_le
  exact str_of_holds h2 (by omega)

theorem Update.inv {st st' : Store} {new : Option (Tuple × CStr)} (h : Inv st)
    (hu : Update st st' new) : Inv st' := by
  -- an old tuple's region is below the old offset, the new one's starts there
  have hold : ∀ t, st.Live t → st'.region t = st.region t ∧
      ∀ x ∈ st.region t, x < st.nvramOffset := by
    intro t ht
    refine ⟨by rw [Store.region, Store.region, (h.str_eq hu.low ht).1], fun x hx => ?_⟩
    obtain ⟨i, ht⟩ := ht
    have h1 := (h.held i t ht).2
    rw [Store.region, Finset.mem_Ico] at hx
    omega
  have hnew : ∀ t s, new = some (t, s) → ∀ x ∈ st'.region t, st.nvramOffset ≤ x := by
    intro t s he x hx
    rw [Store.region, Finset.mem_Ico] at hx
    have := (hu.new_value t s he).1
    omega
  refine ⟨hu.hashed, hu.nodup, fun i t ht => ?_, fun t u ht hu' hne => ?_, hu.offset_le⟩
  · rcases hu.old t ⟨i, ht⟩ with hl | ⟨s, hs⟩
    · obtain ⟨h1, h2⟩ := h.str_eq hu.low hl
      obtain ⟨j, hj⟩ := hl
      rw [h1]
      exact ⟨h2, (h.held j t hj).2.trans hu.mono⟩
    · subst hs
      obtain ⟨h1, h2, h3⟩ := hu.new_value t s rfl
      rw [hu.new_str]
      exact ⟨h2, by omega⟩
  · rw [Finset.disjoint_left]
    rcases hu.old t ht with hl | ⟨s, hs⟩
    · obtain ⟨e1, b1⟩ := hold t hl
      rcases hu.old u hu' with hl' | ⟨s', hs'⟩
      · obtain ⟨e2, -⟩ := hold u hl'
        rw [e1, e2]
        exact Finset.disjoint_left.mp (h.disjoint t u hl hl' hne)
      · intro x hx hx'
        rw [e1] at hx
        exact absurd (b1 x hx) (Nat.not_lt.mpr (hnew u s' hs' x hx'))
    · rcases hu.old u hu' with hl' | ⟨s', hs'⟩
      · obtain ⟨e2, b2⟩ := hold u hl'
        intro x hx hx'
        rw [e2] at hx'
        exact absurd (b2 x hx') (Nat.not_lt.mpr (hnew t s hs x hx))
      · rw [hs] at hs'
        exact absurd (congrArg Prod.fst (Option.some.inj hs')) hne

/-- The store with one chain replaced. -/
def Store.withChain (st : Store) (i : Fin hashSize) (chain dead : List Tuple) (buf : Mem)
    (offset : ℕ) : Store :=
  { nvramHash := Function.update st.nvramHash i chain, nvramDead := dead, nvramBuf := buf,
    nvramOffset := offset }

theorem Inv.withChain {st : Store} (h : Inv st) {i : Fin hashSize} {chain dead : List Tuple}
    {buf : Mem} {offset : ℕ} {new : Option (Tuple × CStr)}
    (hmem : ∀ x ∈ chain, x ∈ st.nvramHash i ∨ ∃ s, new = some (x, s))
    (hb : ∀ x s, new = some (x, s) → bucket x.name = i) (hn : (chain.map (·.name)).Nodup)
    (hlow : ∀ j, j < st.nvramOffset → buf j = st.nvramBuf j)
    (hnew : ∀ t s, new = some (t, s) → t.value = st.nvramOffset ∧
      Holds buf t.value s.withNul ∧ st.nvramOffset + s.length + 1 ≤ offset)
    (hmono : st.nvramOffset ≤ offset) (hle : offset ≤ nvramSpace) :
    Update st (st.withChain i chain dead buf offset) new := by
  have hcase : ∀ j t, t ∈ (st.withChain i chain dead buf offset).nvramHash j →
      t ∈ st.nvramHash j ∨ j = i ∧ ∃ s, new = some (t, s) := by
    intro j t ht
    simp only [Store.withChain, Function.update_apply] at ht
    split_ifs at ht with hj
    · subst hj
      exact (hmem t ht).imp id fun h => ⟨rfl, h⟩
    · exact Or.inl ht
  refine ⟨fun j t ht => ?_, fun j => ?_, fun t ht => ?_, hlow, hnew, hmono, hle⟩
  · rcases hcase j t ht with hl | ⟨rfl, s, hs⟩
    · exact h.hashed j t hl
    · exact hb t s hs
  · simp only [Store.withChain, Function.update_apply]
    split_ifs with hj
    · exact hn
    · exact h.nodup j
  · obtain ⟨j, ht⟩ := ht
    rcases hcase j t ht with hl | ⟨-, hs⟩
    · exact Or.inl ⟨j, hl⟩
    · exact Or.inr hs

theorem find_withChain_ne {st : Store} {i : Fin hashSize} {chain dead : List Tuple} {buf : Mem}
    {offset : ℕ} {n : CStr}
    (hc : bucket n = i → chain.find? (·.name = n) = (st.nvramHash i).find? (·.name = n)) :
    (st.withChain i chain dead buf offset).find n = st.find n := by
  simp only [Store.find, Store.withChain, Function.update_apply]
  split_ifs with hj
  · rw [hc hj, hj]
  · rfl

theorem find_withChain_same {st : Store} {chain dead : List Tuple} {buf : Mem} {offset : ℕ}
    {n : CStr} : (st.withChain (bucket n) chain dead buf offset).find n =
      chain.find? (·.name = n) := by
  simp [Store.find, Store.withChain]

/-- A name whose tuple the update left alone has the value it had. -/
theorem Update.getStr_of_find {st st' : Store} {new : Option (Tuple × CStr)} (h : Inv st)
    (hu : Update st st' new) {n : CStr} (hf : st'.find n = st.find n) :
    st'.getStr n = st.getStr n := by
  rw [getStr_eq, getStr_eq, hf]
  cases hn : st.find n with
  | none => rfl
  | some t =>
    rw [Option.map_some, Option.map_some, (h.str_eq hu.low ⟨_, (find_some hn).1⟩).1]

/-! ### The operations -/

theorem relink_self {t : Tuple} : ∀ {ts : List Tuple}, ts.find? (·.name = t.name) = some t →
    relink t ts = ts
  | [], _ => rfl
  | x :: ts, h => by
    unfold relink
    by_cases hx : x.name = t.name
    · simp only [List.find?_cons, hx, decide_true, Option.some.injEq] at h
      rw [if_pos hx, h]
    · simp only [List.find?_cons, hx, decide_false] at h
      rw [if_neg hx, relink_self h]

/-- A set fails exactly when the value does not fit, or a new tuple is not to be had. -/
theorem _nvramSet_fail {kmalloc : Bool} {st : Store} {name value : CStr}
    (hf : nvramSpace < st.nvramOffset + value.length + 1 ∨
      st.find name = none ∧ kmalloc = false) :
    _nvramSet kmalloc st name value = (st, -12) := by
  have : _nvramRealloc kmalloc st (st.find name) name value = none := by
    unfold _nvramRealloc
    rcases hf with hf | ⟨h1, h2⟩
    · rw [if_pos hf]
    · rw [h1, h2]
      simp
  simp only [_nvramSet, this]

/-- A value copied to the offset, in a chain that holds its tuple. -/
theorem set_fresh {st : Store} (h : Inv st) {name value : CStr} {u : Tuple}
    (chain dead : List Tuple) (hroom : st.nvramOffset + value.length + 1 ≤ nvramSpace)
    (hu : u = ⟨name, st.nvramOffset⟩) (hn : (chain.map (·.name)).Nodup)
    (hmem : ∀ x ∈ chain, x = u ∨ x ∈ st.nvramHash (bucket name) ∧ x.name ≠ name)
    (hself : chain.find? (·.name = name) = some u)
    (hother : ∀ n, n ≠ name → chain.find? (·.name = n) =
      (st.nvramHash (bucket name)).find? (·.name = n)) :
    ∃ st', st' = st.withChain (bucket name) chain dead (strcpy st.nvramBuf st.nvramOffset value)
        (st.nvramOffset + value.length + 1) ∧ Inv st' ∧
      ∀ n, st'.getStr n = if n = name then some value else st.getStr n := by
  subst hu
  have hup : Update st (st.withChain (bucket name) chain dead
      (strcpy st.nvramBuf st.nvramOffset value) (st.nvramOffset + value.length + 1))
      (some (⟨name, st.nvramOffset⟩, value)) := by
    refine h.withChain (fun x hx => ?_) (fun x s hs => ?_) hn (fun j hj => write_of_lt hj)
      (fun t s hs => ?_) (by omega) hroom
    · rcases hmem x hx with rfl | ⟨hx, -⟩
      · exact Or.inr ⟨value, rfl⟩
      · exact Or.inl hx
    · cases hs; rfl
    · cases hs
      exact ⟨rfl, holds_write_same _ _ _, le_refl _⟩
  refine ⟨_, rfl, hup.inv h, fun n => ?_⟩
  split_ifs with hne
  · subst hne
    rw [getStr_eq, find_withChain_same, hself, Option.map_some, hup.new_str]
  · exact hup.getStr_of_find h (find_withChain_ne fun _ => hother n hne)

/-- What a set that finds room does. -/
theorem _nvramSet_ok (kmalloc : Bool) {st : Store} (h : Inv st) {name value : CStr}
    (hroom : st.nvramOffset + value.length + 1 ≤ nvramSpace)
    (hk : st.find name = none → kmalloc = true) :
    ∃ st', _nvramSet kmalloc st name value = (st', 0) ∧ Inv st' ∧
      st'.nvramOffset ≤ st.nvramOffset + value.length + 1 ∧
      ∀ n, st'.getStr n = if n = name then some value else st.getStr n := by
  have hno : ¬ (st.nvramOffset + value.length + 1 > nvramSpace) := by omega
  cases hf : st.find name with
  | none =>
    have hchain : ∀ x ∈ st.nvramHash (bucket name), x.name ≠ name := by
      intro x hx he
      have := List.find?_eq_none.mp hf x hx
      simp [he] at this
    have her : (st.nvramHash (bucket name)).eraseP (·.name = name) =
        st.nvramHash (bucket name) :=
      List.eraseP_of_forall_not fun x hx => by simpa using hchain x hx
    obtain ⟨st', he, hi, hg⟩ := set_fresh h
      (⟨name, st.nvramOffset⟩ :: st.nvramHash (bucket name)) st.nvramDead hroom rfl
      (by
        rw [List.map_cons, List.nodup_cons]
        refine ⟨fun hm => ?_, h.nodup _⟩
        obtain ⟨x, hx, he⟩ := List.mem_map.mp hm
        exact hchain x hx he)
      (by
        intro x hx
        rcases List.mem_cons.mp hx with rfl | hx
        · exact Or.inl rfl
        · exact Or.inr ⟨hx, hchain x hx⟩)
      (by simp) (fun n hn => by simp [Ne.symm hn])
    refine ⟨st', ?_, hi, ?_, hg⟩
    · rw [he]
      simp only [_nvramSet, _nvramRealloc, hf, hk hf, if_neg hno, if_true, her, Option.toList_none,
        List.nil_append, Bool.false_eq_true, if_false, Store.withChain]
    · rw [he]; exact le_refl _
  | some t =>
    obtain ⟨ht, hname⟩ := find_some hf
    by_cases hv : st.str t.value = value
    · -- the value is there already: nothing is copied
      have hre : relink t (st.nvramHash (bucket name)) = st.nvramHash (bucket name) := by
        refine relink_self ?_
        rw [hname]
        exact hf
      have hr : _nvramRealloc kmalloc st (some t) name value =
          some ⟨st.nvramBuf, st.nvramOffset, t, true⟩ := by
        rw [_nvramRealloc, if_neg hno]
        simp [hv]
      refine ⟨st, ?_, h, by omega, fun n => ?_⟩
      · simp [_nvramSet, hf, hr, hre]
      · split_ifs with hn
        · rw [hn, getStr_eq, hf, Option.map_some, hv]
        · rfl
    · obtain ⟨st', he, hi, hg⟩ := set_fresh h
        (relink ⟨name, st.nvramOffset⟩ (st.nvramHash (bucket name))) st.nvramDead hroom rfl
        (by rw [map_name_relink]; exact h.nodup _) (mem_relink _ (h.nodup _))
        (find?_relink_same ⟨name, st.nvramOffset⟩ hf) (fun n hn => find?_relink_ne _ hn _)
      have hr : _nvramRealloc kmalloc st (some t) name value =
          some ⟨strcpy st.nvramBuf st.nvramOffset value, st.nvramOffset + value.length + 1,
            ⟨name, st.nvramOffset⟩, true⟩ := by
        rw [_nvramRealloc, if_neg hno]
        simp [hv, hname]
      refine ⟨st', ?_, hi, ?_, hg⟩
      · rw [he]
        simp [_nvramSet, hf, hr, Store.withChain]
      · rw [he]; exact le_refl _

/-- **A set.** It returns 0 and gives the name its value, all others keeping
theirs, or returns -12 and changes nothing. -/
theorem _nvramSet_spec (kmalloc : Bool) {st : Store} (h : Inv st) (name value : CStr) :
    Inv (_nvramSet kmalloc st name value).1 ∧
      ((_nvramSet kmalloc st name value).2 = 0 ∧
          (∀ n, (_nvramSet kmalloc st name value).1.getStr n =
            if n = name then some value else st.getStr n) ∨
        _nvramSet kmalloc st name value = (st, -12)) := by
  by_cases hf : nvramSpace < st.nvramOffset + value.length + 1 ∨
      st.find name = none ∧ kmalloc = false
  · rw [_nvramSet_fail hf]
    exact ⟨h, Or.inr rfl⟩
  · push Not at hf
    obtain ⟨st', he, hi, -, hg⟩ := _nvramSet_ok kmalloc h hf.1
      (fun hn => by simpa using hf.2 hn)
    rw [he]
    exact ⟨hi, Or.inl ⟨rfl, hg⟩⟩

/-- **An unset.** The name has no value, all others keep theirs. -/
theorem _nvramUnset_spec {st : Store} (h : Inv st) (name : CStr) :
    Inv (_nvramUnset st (some name)).1 ∧
      ∀ n, (_nvramUnset st (some name)).1.getStr n = if n = name then none else st.getStr n := by
  have heq : (_nvramUnset st (some name)).1 = st.withChain (bucket name)
      ((st.nvramHash (bucket name)).eraseP (·.name = name))
      ((st.find name).toList ++ st.nvramDead) st.nvramBuf st.nvramOffset := rfl
  have hup : Update st (_nvramUnset st (some name)).1 none := by
    rw [heq]
    exact h.withChain (fun x hx => Or.inl (mem_unlink name (h.nodup _) x hx).1)
      (fun x s hs => by cases hs) (nodup_unlink (h.nodup _)) (fun _ _ => rfl)
      (fun t s hs => by cases hs) (le_refl _) h.offset_le
  refine ⟨hup.inv h, fun n => ?_⟩
  split_ifs with hne
  · subst hne
    rw [getStr_eq, heq, find_withChain_same, find?_unlink_same (h.nodup _), Option.map_none]
  · refine hup.getStr_of_find h ?_
    rw [heq]
    exact find_withChain_ne fun _ => find?_unlink_ne hne _

end Nvram
end Router
