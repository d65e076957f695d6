/-
# Values handed out through the mapping

`dev_nvram_read` reports where in `nvram_buf` the value of a name starts, and
`nvram_get` in user space hands that out as a pointer into its mapping of the
buffer. The value stays there while other names are set and unset
(`Stands.set`, `Stands.unset`), the allocator only going forward, until a set
that finds no room consolidates: then the buffer is filled anew from its start,
in the order of a commit, and a value stays only if it comes to lie where it
was (`LaidAt`). What a run keeps of a pointer is `pointer_stays`.
-/
import RouterFirmware.Lib.Run
import RouterFirmware.Nvram.Survive

namespace Router
namespace Nvram

open CMem Run

/-! ### Reading from user space -/

/-- The answers of the copies and allocations of one read of `/dev/nvram`, and
of `nvram_getall`. -/
structure ReadEnv where
  kmalloc : Bool
  copyFromUser : Bool
  copyToUser : Bool
  putUser : Bool
  getall : ℤ

/-- `sizeof(tmp)`. -/
def tmpSize : ℕ := 100

/-- `dev_nvram_read` of a name with its NUL: what it returns, and the offset it
has put into the buffer. -/
def devNvramRead (e : ReadEnv) (st : Store) (name : CStr) : ℤ × Option ℕ :=
  let count := name.length + 1
  if tmpSize < count ∧ e.kmalloc = false then (-12, none)
  else if e.copyFromUser = false then (-14, none)
  else if name.bytes = [] then
    -- get all variables
    if e.getall = 0 then (if e.copyToUser then (count, none) else (-14, none)) else (e.getall, none)
  else
    match _nvramGet st (some name) with
    | none => (0, none)
    | some off => if e.putUser then (4, some off) else (-14, none)

/-- `nvram_get` in user space, `opened` telling whether `/dev/nvram` is there:
the pointer, as an offset into the mapping. -/
def userNvramGet (opened malloc : Bool) (e : ReadEnv) (st : Store) (name : CStr) : Option ℕ :=
  if opened = false then none
  else if tmpSize < name.length + 1 ∧ malloc = false then none
  else if (devNvramRead e st name).1 = 4 then (devNvramRead e st name).2
  else none

/-- The offset reported is where the value starts. -/
theorem devNvramRead_some {e : ReadEnv} {st : Store} {name : CStr} {off : ℕ}
    (h : (devNvramRead e st name).2 = some off) : _nvramGet st (some name) = some off := by
  cases hg : _nvramGet st (some name) with
  | none =>
    simp only [devNvramRead, hg] at h
    split_ifs at h
  | some p =>
    simp only [devNvramRead, hg] at h
    split_ifs at h
    exact h

theorem userNvramGet_some {opened malloc : Bool} {e : ReadEnv} {st : Store} {name : CStr} {off : ℕ}
    (h : userNvramGet opened malloc e st name = some off) : (devNvramRead e st name).2 = some off := by
  unfold userNvramGet at h
  split_ifs at h
  exact h

/-! ### A value in its place -/

/-- The value `v` of `name` is at `off`. -/
def Stands (st : Store) (name : CStr) (off : ℕ) (v : CStr) : Prop :=
  Inv st ∧ st.find name = some ⟨name, off⟩ ∧ st.str off = v

theorem Stands.getStr {st : Store} {name v : CStr} {off : ℕ} (h : Stands st name off v) :
    st.getStr name = some v := by
  rw [getStr_eq, h.2.1, Option.map_some, h.2.2]

/-- Where a lookup points, the value stands. -/
theorem Inv.stands {st : Store} (h : Inv st) {name : CStr} {off : ℕ}
    (hg : _nvramGet st (some name) = some off) : Stands st name off (st.str off) := by
  obtain ⟨t, ht, rfl⟩ := Option.map_eq_some_iff.mp hg
  obtain ⟨-, rfl⟩ := find_some ht
  exact ⟨h, ht, rfl⟩

/-- Bytes below the offset and the tuple of the name left alone, the value
stands where it stood. -/
theorem Stands.frame {st st' : Store} {name v : CStr} {off : ℕ} (h : Stands st name off v)
    (hi : Inv st') (hf : st'.find name = st.find name)
    (hb : ∀ i < st.nvramOffset, st'.nvramBuf i = st.nvramBuf i) : Stands st' name off v := by
  obtain ⟨hinv, hfind, hv⟩ := h
  refine ⟨hi, hf.trans hfind, ?_⟩
  rw [← hv]
  exact (hinv.str_eq hb ⟨_, (find_some hfind).1⟩).1

/-- What `_nvram_realloc` gives is a tuple of the name, and nothing below the
offset is written. -/
theorem _nvramRealloc_frame {kmalloc : Bool} {st : Store} {n value : CStr} {u : Realloc}
    (h : _nvramRealloc kmalloc st (st.find n) n value = some u) :
    u.tuple.name = n ∧ ∀ i < st.nvramOffset, u.nvramBuf i = st.nvramBuf i := by
  cases hf : st.find n with
  | none =>
    simp only [_nvramRealloc, hf] at h
    split_ifs at h
    cases h
    exact ⟨rfl, fun i hi => write_of_lt hi⟩
  | some t =>
    have hname : t.name = n := (find_some hf).2
    simp only [_nvramRealloc, hf] at h
    split_ifs at h <;> cases h
    · exact ⟨hname, fun i hi => write_of_lt hi⟩
    · exact ⟨hname, fun _ _ => rfl⟩

/-- What a set leaves alone: the tuples of the other names, and the bytes
below the offset. -/
theorem _nvramSet_frame (kmalloc : Bool) (st : Store) (n value : CStr) :
    (∀ m, m ≠ n → (_nvramSet kmalloc st n value).1.find m = st.find m) ∧
    ∀ i < st.nvramOffset, (_nvramSet kmalloc st n value).1.nvramBuf i = st.nvramBuf i := by
  cases hr : _nvramRealloc kmalloc st (st.find n) n value with
  | none =>
    have he : (_nvramSet kmalloc st n value).1 = st := by simp only [_nvramSet, hr]
    rw [he]
    exact ⟨fun _ _ => rfl, fun _ _ => rfl⟩
  | some u =>
    obtain ⟨hname, hbuf⟩ := _nvramRealloc_frame hr
    -- either way one chain is replaced, its other names found as before
    obtain ⟨chain, dead, he, hc⟩ : ∃ chain dead, (_nvramSet kmalloc st n value).1 =
        st.withChain (bucket n) chain dead u.nvramBuf u.nvramOffset ∧
        ∀ m, m ≠ n → chain.find? (·.name = m) = (st.nvramHash (bucket n)).find? (·.name = m) := by
      simp only [_nvramSet, hr]
      split_ifs with hsame
      · exact ⟨_, _, rfl, fun m hm => find?_relink_ne _ (hname ▸ hm) _⟩
      · refine ⟨_, _, rfl, fun m hm => ?_⟩
        rw [List.find?_cons_of_neg (by simpa [hname] using Ne.symm hm)]
        exact find?_unlink_ne hm _
    rw [he]
    exact ⟨fun m hm => find_withChain_ne fun _ => hc m hm, hbuf⟩

/-- A set of another name leaves the value where it is. -/
theorem Stands.set {st : Store} {name v n : CStr} {off : ℕ} (h : Stands st name off v)
    (kmalloc : Bool) (hn : n ≠ name) (value : CStr) :
    Stands (_nvramSet kmalloc st n value).1 name off v := by
  obtain ⟨hfind, hbuf⟩ := _nvramSet_frame kmalloc st n value
  exact h.frame (_nvramSet_spec kmalloc h.1 n value).1 (hfind name (Ne.symm hn)) hbuf

/-- So does an unset. -/
theorem Stands.unset {st : Store} {name v n : CStr} {off : ℕ} (h : Stands st name off v)
    (hn : n ≠ name) : Stands (_nvramUnset st (some n)).1 name off v := by
  refine h.frame (_nvramUnset_spec h.1 n).1 ?_ fun _ _ => rfl
  exact find_withChain_ne fun _ => find?_unlink_ne (Ne.symm hn) _

/-- A set of the name itself to the value it has. -/
theorem Stands.set_same {st : Store} {name v : CStr} {off : ℕ} (h : Stands st name off v)
    (kmalloc : Bool) : (_nvramSet kmalloc st name v).1 = st := by
  obtain ⟨-, hfind, hv⟩ := h
  have hre : relink ⟨name, off⟩ (st.nvramHash (bucket name)) = st.nvramHash (bucket name) :=
    relink_self hfind
  have hr : _nvramRealloc kmalloc st (some ⟨name, off⟩) name v = none ∨
      _nvramRealloc kmalloc st (some ⟨name, off⟩) name v =
        some ⟨st.nvramBuf, st.nvramOffset, ⟨name, off⟩, true⟩ := by
    by_cases hroom : st.nvramOffset + v.length + 1 > nvramSpace
    · exact Or.inl (if_pos hroom)
    · exact Or.inr (by simp [_nvramRealloc, hroom, hv])
  rcases hr with hr | hr <;> simp [_nvramSet, hfind, hr, hre]

/-! ### The buffer filled anew -/

/-- The bytes the values of the variables `es` take, of those whose tuple,
the `k`-th allocation on, can be had. -/
def laid (kmalloc : ℕ → Bool) : ℕ → List (CStr × CStr) → ℕ
  | _, [] => 0
  | k, e :: es => (if kmalloc k then e.2.length + 1 else 0) + laid kmalloc (k + 1) es

/-- A commit lays the value `v` of `name` at `off`: no two entries are read
back under one name, and the `i`-th of them is that of the name, gets its
tuple, and has `off` bytes of values in front of it. -/
def Store.LaidAt (st : Store) (kmalloc : ℕ → Bool) (name : CStr) (off : ℕ) (v : CStr) : Prop :=
  (st.entries.map (·.1)).Nodup ∧
    ∃ i, st.entries[i]? = some (name, v) ∧ kmalloc i = true ∧ laid kmalloc 0 (st.entries.take i) = off

/-- Names without '=' are read back as they are, so no two as one. -/
theorem Store.NoEq.nodup_entries {st : Store} (hne : st.NoEq) (h : Inv st) :
    (st.entries.map (·.1)).Nodup := by
  have he : st.entries.map (·.1) = st.layout.map (·.name) := by
    rw [Store.entries, List.map_map]
    refine List.map_congr_left fun t ht => ?_
    have h61 := hne t (mem_tuples.mp ((layout_sublist st).subset ht))
    exact congrArg Prod.fst (if_neg h61 : splitEntry (st.pair t) = st.pair t)
  rw [he]
  exact h.nodup_layout

/-- A new variable that has room is put at the offset. -/
theorem set_new {st : Store} (h : Inv st) {n v : CStr} (hf : st.find n = none)
    (hroom : st.nvramOffset + v.length + 1 ≤ nvramSpace) :
    Stands (_nvramSet true st n v).1 n st.nvramOffset v ∧
      (_nvramSet true st n v).1.nvramOffset = st.nvramOffset + v.length + 1 := by
  have hno : ¬ (st.nvramOffset + v.length + 1 > nvramSpace) := by omega
  have he : (_nvramSet true st n v).1 = st.withChain (bucket n)
      (⟨n, st.nvramOffset⟩ :: (st.nvramHash (bucket n)).eraseP (·.name = n)) st.nvramDead
      (strcpy st.nvramBuf st.nvramOffset v) (st.nvramOffset + v.length + 1) := by
    simp [_nvramSet, _nvramRealloc, hf, hno, Store.withChain]
  refine ⟨⟨(_nvramSet_spec true h n v).1, ?_, ?_⟩, by rw [he]; rfl⟩
  · rw [he, find_withChain_same, List.find?_cons_of_pos (by simp)]
  · rw [he]
    exact str_of_holds (holds_write_same _ _ _) hroom

/-- Setting other names leaves the value where it is. -/
theorem Stands.setAll {name v : CStr} {off : ℕ} (kmalloc : ℕ → Bool) :
    ∀ (es : List (CStr × CStr)) (k : ℕ) (st : Store), Stands st name off v →
    name ∉ es.map (·.1) → Stands (setAll kmalloc k st es) name off v
  | [], _, _, h, _ => h
  | (n, x) :: es, k, st, h, hn => by
    rw [List.map_cons, List.mem_cons, not_or] at hn
    exact Stands.setAll kmalloc es (k + 1) _ (h.set (kmalloc k) (Ne.symm hn.1) x) hn.2

/-- Distinct new variables that all have room are laid one behind the other. -/
theorem setAll_stands (kmalloc : ℕ → Bool) : ∀ (es : List (CStr × CStr)) (k : ℕ) (st : Store),
    Inv st → (es.map (·.1)).Nodup → (∀ e ∈ es, st.find e.1 = none) →
    st.nvramOffset + (es.map fun e => e.2.length + 1).sum ≤ nvramSpace →
    ∀ i name v, es[i]? = some (name, v) → kmalloc (k + i) = true →
      Stands (setAll kmalloc k st es) name (st.nvramOffset + laid kmalloc k (es.take i)) v
  | [], _, _, _, _, _, _, i, _, _, hi, _ => by simp at hi
  | (n, x) :: es, k, st, h, hnd, hnone, hroom, i, name, v, hi, hk => by
    simp only [List.map_cons, List.nodup_cons, List.sum_cons] at hnd hroom
    have hf : st.find n = none := hnone (n, x) List.mem_cons_self
    cases i with
    | zero =>
      obtain ⟨rfl, rfl⟩ := Prod.mk.inj (Option.some.inj hi)
      have hnew : Stands (_nvramSet (kmalloc k) st n x).1 n st.nvramOffset x := by
        rw [show kmalloc k = true from hk]
        exact (set_new h hf (by omega)).1
      exact hnew.setAll kmalloc es (k + 1) _ hnd.1
    | succ i =>
      -- the first set goes on by its value, or by nothing when there is no tuple
      have hoff : (_nvramSet (kmalloc k) st n x).1.nvramOffset =
          st.nvramOffset + if kmalloc k then x.length + 1 else 0 := by
        cases hkk : kmalloc k with
        | false =>
          rw [_nvramSet_fail (Or.inr ⟨hf, rfl⟩)]
          rfl
        | true => exact (set_new h hf (by omega)).2
      have hnone' : ∀ e ∈ es, (_nvramSet (kmalloc k) st n x).1.find e.1 = none := by
        intro e he
        have hne : e.1 ≠ n := fun h' => hnd.1 (h' ▸ List.mem_map.mpr ⟨e, he, rfl⟩)
        rw [(_nvramSet_frame (kmalloc k) st n x).1 e.1 hne]
        exact hnone e (List.mem_cons_of_mem _ he)
      have hroom' : (_nvramSet (kmalloc k) st n x).1.nvramOffset +
          (es.map fun e => e.2.length + 1).sum ≤ nvramSpace := by
        rw [hoff]
        split_ifs <;> omega
      have hstep := setAll_stands kmalloc es (k + 1) _ (_nvramSet_spec (kmalloc k) h n x).1 hnd.2
        hnone' hroom' i name v hi (by rw [← hk]; congr 1; omega)
      rw [hoff, Nat.add_assoc] at hstep
      exact hstep

theorem Stands.setDefault {st : Store} {name v : CStr} {off : ℕ} (h : Stands st name off v)
    (kmalloc : Bool) (n value : CStr) : Stands (setDefault kmalloc st n value) name off v := by
  unfold Nvram.setDefault
  split_ifs with hg
  · refine h.set kmalloc ?_ value
    rintro rfl
    simp [_nvramGet, h.2.1] at hg
  · exact h

theorem Stands.setSdram {st : Store} {name v : CStr} {off : ℕ} (h : Stands st name off v)
    (kmalloc : ℕ → Bool) (k : ℕ) (m : Mem) : Stands (setSdram kmalloc k m st) name off v :=
  (((h.setDefault _ _ _).setDefault _ _ _).setDefault _ _ _).setDefault _ _ _

/-- A commit puts the value where its layout says. -/
theorem Store.LaidAt.stands {st : Store} {kmalloc : ℕ → Bool} {name v : CStr} {off : ℕ}
    (h : st.LaidAt kmalloc name off v) (header : Mem) :
    Stands (_nvramCommit kmalloc st header).1 name off v := by
  obtain ⟨hnd, i, hi, hk, rfl⟩ := h
  have hlen : headerSize + (area st.entries).length ≤ imageEnd := by
    rw [area_entries]
    exact strings_le st
  have hsum := sum_values_le st.entries
  have hspace : imageEnd ≤ nvramSpace := by decide
  have hroom : (nvramFree st).nvramOffset + (st.entries.map fun e => e.2.length + 1).sum ≤
      nvramSpace := by
    simp only [nvramFree]
    omega
  have hnone : ∀ e ∈ st.entries, (nvramFree st).find e.1 = none :=
    fun e _ => getStr_eq_none.mp (nvramFree_getStr st e.1)
  have hst := setAll_stands kmalloc st.entries 0 (nvramFree st) (nvramFree_inv st) hnd hnone hroom
    i name v hi (by rwa [Nat.zero_add])
  rw [show (nvramFree st).nvramOffset = 0 from rfl, Nat.zero_add] at hst
  rw [_nvramCommit, nvramRehash_entries]
  exact hst.setSdram _ _ _

/-! ### Later calls -/

/-- A call on the store after the read: `nvram_set` with the kernel's answers
to its allocations, or `nvram_unset`. -/
inductive Later
  | set (a : Allocs) (name value : CStr)
  | unset (name : CStr)

/-- The name a call is given. -/
def Later.name : Later → CStr
  | set _ name _ => name
  | unset name => name

/-- The store a call leaves. -/
def Later.run (st : Store) : Later → Store
  | set a name value => (nvramSet a st name value).1
  | unset name => (_nvramUnset st (some name)).1

/-- A set consolidates: its first try finds no room, or no tuple for a new
name, and there is a scratch header. -/
def Consolidates (a : Allocs) (st : Store) (name value : CStr) : Prop :=
  (nvramSpace < st.nvramOffset + value.length + 1 ∨ st.find name = none ∧ a.first = false) ∧
    a.header.isSome = true

/-- A set of `n` leaves the value `v` of `name` at `off`: a boot-loader name is
not that of the variable with another value that has room, and a set that
consolidates lays the value where it was. -/
def SetKeeps (st : Store) (name : CStr) (off : ℕ) (v : CStr) (a : Allocs) (n value : CStr) : Prop :=
  if isCfeName n then
    n ≠ cfeNvramCommit → n ≠ cfeNvramWatchdog → CStr.skip n cfeNvramPrefix.length = name →
      value = v ∨ nvramSpace < st.nvramOffset + value.length + 1
  else Consolidates a st n value → st.LaidAt a.commit name off v

/-- An unset always keeps the value of another name. -/
def Later.Keeps (st : Store) (name : CStr) (off : ℕ) (v : CStr) : Later → Prop
  | set a n value => SetKeeps st name off v a n value
  | unset _ => True

theorem Stands.nvramSet {st : Store} {name v : CStr} {off : ℕ} (h : Stands st name off v)
    {a : Allocs} {n value : CStr} (hn : n ≠ name) (hk : SetKeeps st name off v a n value) :
    Stands (nvramSet a st n value).1 name off v := by
  unfold SetKeeps at hk
  by_cases hcfe : isCfeName n = true
  · -- a boot-loader name is set under what follows the prefix
    rw [if_pos hcfe] at hk
    unfold Nvram.nvramSet
    rw [if_pos hcfe]
    split_ifs with h1 h2
    · exact h
    · exact h
    · by_cases he : CStr.skip n cfeNvramPrefix.length = name
      · rcases hk h1 h2 he with rfl | hfull
        · rw [he, h.set_same]
          exact h
        · rw [_nvramSet_fail (Or.inl hfull)]
          exact h
      · exact h.set a.first he value
  · rw [if_neg hcfe] at hk
    rw [Bool.not_eq_true] at hcfe
    by_cases hf : nvramSpace < st.nvramOffset + value.length + 1 ∨ st.find n = none ∧ a.first = false
    · cases hh : a.header with
      | none =>
        have he : (Nvram.nvramSet a st n value).1 = st := by
          simp [Nvram.nvramSet, hcfe, _nvramSet_fail hf, hh]
        rw [he]
        exact h
      | some header =>
        have hlaid := (hk ⟨hf, by rw [hh]; rfl⟩).stands header
        rw [nvramSet_of_fail hcfe (_nvramSet_fail hf) hh]
        exact hlaid.set a.second hn value
    · push Not at hf
      obtain ⟨st', he, -, -, -⟩ := _nvramSet_ok a.first h.1 hf.1 (fun hnone => by simpa using hf.2 hnone)
      have hset := h.set a.first hn value
      have hret : (Nvram.nvramSet a st n value).1 = st' := by simp [Nvram.nvramSet, hcfe, he]
      rw [he] at hset
      rw [hret]
      exact hset

/-- One call on another name. -/
theorem Stands.run {st : Store} {name v : CStr} {off : ℕ} (h : Stands st name off v) {c : Later}
    (hn : c.name ≠ name) (hk : c.Keeps st name off v) : Stands (c.run st) name off v := by
  cases c with
  | unset n => exact h.unset hn
  | set a n value => exact h.nvramSet hn hk

/-- The calls of a run, each on another name and keeping the value. -/
def Keeping (name : CStr) (off : ℕ) (v : CStr) (st : Store) (c : Later) (st' : Store) : Prop :=
  c.name ≠ name ∧ c.Keeps st name off v ∧ st' = c.run st

theorem Stands.trace {st st' : Store} {name v : CStr} {off : ℕ} {cs : List Later}
    (h : Stands st name off v) (hrun : Trace (Keeping name off v) st cs st') :
    Stands st' name off v := by
  refine hrun.inv (I := fun _ s => Stands s name off v) h ?_
  rintro - s c - hs ⟨hn, hk, rfl⟩
  exact hs.run hn hk

/-- The string one byte further is the rest of the value. -/
theorem Stands.str_tail {st : Store} {name v : CStr} {off : ℕ} {b : UInt8} {hb : (0 : UInt8) ∉ b :: v.bytes}
    (h : Stands st name off ⟨b :: v.bytes, hb⟩) : st.str (off + 1) = v := by
  obtain ⟨hholds, hle⟩ := h.1.held _ _ (find_some h.2.1).1
  simp only [h.2.2, CStr.length, List.length_cons] at hholds hle
  have htail : Holds st.nvramBuf (off + 1) v.withNul := hholds.2
  have hend := hle.trans h.1.offset_le
  exact str_of_holds htail (by rw [CStr.length]; omega)

/-- Where `sdram_init` is missing, it is put at the offset, as "0x" and digits. -/
theorem setSdram_stands {kmalloc : ℕ → Bool} {k : ℕ} {st : Store} (h : Inv st) (m : Mem)
    (hk : kmalloc k = true) (hf : st.find sdramInit = none) (hroom : st.nvramOffset + 7 ≤ nvramSpace) :
    ∃ (v : CStr) (hv : (0 : UInt8) ∉ 48 :: v.bytes), v.bytes.head? = some 120 ∧
      Stands (setSdram kmalloc k m st) sdramInit st.nvramOffset ⟨48 :: v.bytes, hv⟩ := by
  set x := sprintfHex 4 ((le32 m crcVerInitAt >>> 16).toUInt16).toNat with hx
  have hlen : x.length = 6 := by simp [hx, sprintfHex, CStr.length]
  have hdef : Nvram.setDefault (kmalloc k) st sdramInit x = (_nvramSet true st sdramInit x).1 := by
    rw [Nvram.setDefault, hk, _nvramGet, hf]
    rfl
  have hnew := (set_new h hf (by omega : st.nvramOffset + x.length + 1 ≤ nvramSpace)).1
  rw [← hdef] at hnew
  refine ⟨CStr.skip x 1, x.nul_notMem, rfl, ?_⟩
  exact ((hnew.setDefault _ _ _).setDefault _ _ _).setDefault _ _ _

/-- The longest value `nvram_buf` can hold. -/
def fullValue : CStr :=
  ⟨List.replicate 32767 120, fun h => absurd (List.eq_of_mem_replicate h) (by decide)⟩

theorem length_fullValue : fullValue.length = 32767 := List.length_replicate

/-- Every allocation succeeds, the scratch header being zero. -/
def allAllocs : Allocs := ⟨true, some fun _ => 0, fun _ => true, true⟩

end Nvram
end Router
