/-
# Which variables survive a commit

`_nvram_commit` returns 0 whatever it could write: a chain is cut silently at
its first tuple that does not fit, and `nvram_rehash` ignores a failed
`_nvram_set`. So a variable is lost exactly when it does not fit behind those
laid out before it or its new tuple cannot be allocated (`commit_keeps_iff`,
for any set of names one does not ask about). `nvram_set` commits into a
scratch buffer when it runs out of space and tries again, so a set of one
variable can lose another.
-/
import RouterFirmware.Nvram.Commit

namespace Router
namespace Nvram

open CMem

/-- The stores the program can reach: `_nvram_init` and `_nvram_commit` rebuild
the table from an image, the rest are sets and unsets. -/
inductive Reachable : Store → Prop
  | empty (buf : Mem) : Reachable (Store.empty buf)
  | set {st : Store} (kmalloc : Bool) (name value : CStr) :
      Reachable st → Reachable (_nvramSet kmalloc st name value).1
  | unset {st : Store} (name : Option CStr) : Reachable st → Reachable (_nvramUnset st name).1
  | rehash {st : Store} (kmalloc : ℕ → Bool) (header : Mem) :
      Reachable st → Reachable (nvramRehash kmalloc st header).1

theorem Reachable.inv {st : Store} (h : Reachable st) : Inv st := by
  induction h with
  | empty buf => exact empty_inv buf
  | set kmalloc name value _ ih => exact (_nvramSet_spec kmalloc ih name value).1
  | unset name _ ih =>
    cases name with
    | none => exact ih
    | some name => exact (_nvramUnset_spec ih name).1
  | rehash kmalloc header _ _ => exact nvramRehash_inv kmalloc _ header

/-! ### `nvram_set` -/

/-- `CFE_NVRAM_PREFIX`, `CFE_NVRAM_COMMIT` and `CFE_NVRAM_WATCHDOG`. -/
def cfeNvramPrefix : CStr := .lit "asuscfe"
def cfeNvramCommit : CStr := .lit "asuscfecommit"
def cfeNvramWatchdog : CStr := .lit "asuscfewatchdog"

/-- `strncmp(name, CFE_NVRAM_PREFIX, strlen(CFE_NVRAM_PREFIX)) == 0`. -/
def isCfeName (name : CStr) : Bool := name.bytes.take cfeNvramPrefix.length == cfeNvramPrefix.bytes

/-- `name + n`. -/
def CStr.skip (name : CStr) (n : ℕ) : CStr :=
  ⟨name.bytes.drop n, fun h => name.nul_notMem (List.mem_of_mem_drop h)⟩

/-- The kernel's answers to the allocations of one `nvram_set`: for the tuple
of the first try, for the scratch header (a buffer with anything in it), for
the tuples of the commit, and for the tuple of the second try. -/
structure Allocs where
  first : Bool
  header : Option Mem
  commit : ℕ → Bool
  second : Bool

/-- `nvram_set(name, value)`: the store it leaves and its result, which a
boot-loader name leaves undetermined. The boot loader's own image is not part
of the store. -/
def nvramSet (a : Allocs) (st : Store) (name value : CStr) : Store × Option ℤ :=
  if isCfeName name then
    if name = cfeNvramCommit then (st, none)
    else if name = cfeNvramWatchdog then (st, none)
    else ((_nvramSet a.first st (CStr.skip name cfeNvramPrefix.length) value).1, none)
  else
    let r := _nvramSet a.first st name value
    if r.2 ≠ 0 then
      -- consolidate space and try again
      match a.header with
      | none => (r.1, some r.2)
      | some header =>
        let c := _nvramCommit a.commit r.1 header
        if c.2.2 = 0 then
          let r' := _nvramSet a.second c.1 name value
          (r'.1, some r'.2)
        else (c.1, some r.2)
    else (r.1, some r.2)

/-- The retry path: the name is set in the store its commit leaves. -/
theorem nvramSet_of_fail {st : Store} {a : Allocs} {name value : CStr} {header : Mem}
    (hcfe : isCfeName name = false) (hfail : _nvramSet a.first st name value = (st, -12))
    (hbuf : a.header = some header) : (nvramSet a st name value).1 =
      (_nvramSet a.second (_nvramCommit a.commit st header).1 name value).1 := by
  have hret : (_nvramCommit a.commit st header).2.2 = 0 := by rw [_nvramCommit_mem]
  unfold nvramSet
  simp only [hcfe, Bool.false_eq_true, if_false, hfail, hbuf, hret, if_true]
  exact congrArg Prod.fst (if_pos (by decide))

/-- The first try changed nothing, and the second changes only the name itself. -/
theorem nvramSet_retry {st : Store} (h : Inv st) {a : Allocs} {name value : CStr} {header : Mem}
    (hcfe : isCfeName name = false) (hfail : (_nvramSet a.first st name value).2 ≠ 0)
    (hbuf : a.header = some header) {n : CStr} (hn : n ≠ name) :
    (nvramSet a st name value).1.getStr n = (_nvramCommit a.commit st header).1.getStr n := by
  have hst : _nvramSet a.first st name value = (st, -12) := by
    rcases (_nvramSet_spec a.first h name value).2 with hs | hs
    · exact absurd hs.1 hfail
    · exact hs
  have hI : Inv (_nvramCommit a.commit st header).1 := nvramRehash_inv _ _ _
  rw [nvramSet_of_fail hcfe hst hbuf]
  rcases (_nvramSet_spec a.second hI name value).2 with hs | hs
  · rw [hs.2, if_neg hn]
  · rw [hs]

/-! ### The exact condition -/

/-- The variable keeps its place in the image and gets its tuple back:
`kmalloc` answers for it after those laid out before it. -/
def Store.Survives (st : Store) (kmalloc : ℕ → Bool) (t : Tuple) : Prop :=
  st.Fits t ∧ kmalloc (st.layout.idxOf t) = true

/-- The names outside `X`, the SDRAM parameters among `X`, keep their values
exactly when each of their variables survives. -/
theorem commit_keeps_iff {st : Store} (h : Inv st) (hne : st.NoEq) (kmalloc : ℕ → Bool)
    (header : Mem) {X : CStr → Prop} (hX : ∀ n ∈ sdramNames, X n) :
    (∀ n, ¬ X n → (_nvramCommit kmalloc st header).1.getStr n = st.getStr n) ↔
      ∀ t, st.Live t → ¬ X t.name → st.Survives kmalloc t := by
  obtain ⟨hkept, hlost⟩ := rehash_getStr kmalloc h hne header st
  constructor
  · intro hall t ht htX
    by_contra hs
    -- a variable that does not survive has no value any more
    have hnone : (_nvramCommit kmalloc st header).1.getStr t.name = none := by
      refine hlost t.name (fun hm => htX (hX _ hm)) fun u hu hun => ?_
      have hut : u = t := h.name_inj (mem_tuples.mp ((layout_sublist st).subset hu)) ht hun
      subst hut
      by_contra hk
      exact hs ⟨(mem_layout_iff h u).mp hu, by simpa using hk⟩
    have hsome := h.getStr_name ht
    rw [← hall t.name htX, hnone] at hsome
    cases hsome
  · intro hall n hn
    cases hf : st.find n with
    | none =>
      rw [getStr_eq_none.mpr hf]
      refine hlost n (fun hm => hn (hX n hm)) fun t ht htn => ?_
      have := h.find_eq (mem_tuples.mp ((layout_sublist st).subset ht))
      rw [htn, hf] at this
      cases this
    | some t =>
      obtain ⟨hmem, hname⟩ := find_some hf
      have ht : st.Live t := ⟨_, hmem⟩
      subst hname
      obtain ⟨hfits, hk⟩ := hall t ht hn
      rw [h.getStr_name ht]
      exact hkept t ((mem_layout_iff h t).mpr hfits) hk

theorem NoEq.set {st : Store} (h : Inv st) (hne : st.NoEq) (kmalloc : Bool) {name : CStr}
    (value : CStr) (hn : (61 : UInt8) ∉ name.bytes) : (_nvramSet kmalloc st name value).1.NoEq := by
  intro t ht
  obtain ⟨hi, hs⟩ := _nvramSet_spec kmalloc h name value
  rcases hs with ⟨-, hg⟩ | hs
  · have hsome := hi.getStr_name ht
    rw [hg] at hsome
    split_ifs at hsome with he
    · rw [he]; exact hn
    · rw [getStr_eq] at hsome
      obtain ⟨u, hu, -⟩ := Option.map_eq_some_iff.mp hsome
      obtain ⟨hmem, hname⟩ := find_some hu
      rw [← hname]
      exact hne u ⟨_, hmem⟩
  · rw [hs] at ht
    exact hne t ht

theorem empty_noEq (buf : Mem) : (Store.empty buf).NoEq := by
  rintro t ⟨i, ht⟩
  simp [Store.empty] at ht

/-- What is laid out is no longer than the string area. -/
theorem size_le_of_mem_layout {st : Store} {t : Tuple} (ht : t ∈ st.layout) :
    headerSize + st.size t ≤ imageEnd := by
  have h1 := layout_le st
  have h2 : st.size t ≤ (st.layout.map st.size).sum :=
    List.single_le_sum (fun _ _ => Nat.zero_le _) _ (List.mem_map.mpr ⟨t, ht, rfl⟩)
  omega

/-- **A commit keeps the variables that survive, and only those.** It returns
0 in any case. The names other than the SDRAM parameters keep their values
exactly when each of their variables fits behind those laid out before it and
gets its tuple back; and a set that consolidates and tries again leaves the
other names alone exactly under the same condition on them. -/
theorem commit_loses_exactly {st : Store} (h : Reachable st) (hne : st.NoEq) (kmalloc : ℕ → Bool)
    (header : Mem) :
    (_nvramCommit kmalloc st header).2.2 = 0 ∧
    ((∀ n, n ∉ sdramNames → (_nvramCommit kmalloc st header).1.getStr n = st.getStr n) ↔
      ∀ t, st.Live t → t.name ∉ sdramNames → st.Survives kmalloc t) ∧
    ∀ a name value, isCfeName name = false → (_nvramSet a.first st name value).2 ≠ 0 →
      a.header = some header → a.commit = kmalloc →
      ((∀ n, n ∉ sdramNames → n ≠ name → (nvramSet a st name value).1.getStr n = st.getStr n) ↔
        ∀ t, st.Live t → t.name ∉ sdramNames → t.name ≠ name → st.Survives kmalloc t) := by
  refine ⟨by rw [_nvramCommit_mem], ?_, ?_⟩
  · have hiff := commit_keeps_iff h.inv hne kmalloc header (fun n hn => hn)
    exact hiff
  · intro a name value hcfe hfail hbuf hk
    subst hk
    have hiff := commit_keeps_iff h.inv hne a.commit header
      (X := fun n => n ∈ sdramNames ∨ n = name) (fun n hn => Or.inl hn)
    simp only [not_or, and_imp] at hiff
    rw [← hiff]
    refine forall_congr' fun n => forall_congr' fun _ => forall_congr' fun hn => ?_
    rw [nvramSet_retry h.inv hcfe hfail hbuf hn]

/-- A store of one small variable, which a commit keeps. -/
theorem commit_loses_exactly_lan : Reachable (_nvramSet true (Store.empty fun _ => 0) (.lit "lan")
      (.lit "1")).1 ∧
    (_nvramCommit (fun _ => true) (_nvramSet true (Store.empty fun _ => 0) (.lit "lan")
      (.lit "1")).1 fun _ => 7).2.2 = 0 := by
  have h := (Reachable.empty fun _ => 0).set true (.lit "lan") (.lit "1")
  exact ⟨h, (commit_loses_exactly h (NoEq.set (empty_inv _) (empty_noEq _) true _ (by decide))
    (fun _ => true) fun _ => 7).1⟩

/-- 32746 times 'x': in `nvram_buf` it fits, in an image not even alone. -/
def longValue : CStr := ⟨List.replicate 32746 120, fun h => absurd (List.eq_of_mem_replicate h) (by decide)⟩

theorem length_longValue : longValue.length = 32746 := List.length_replicate

/-- **A variable lost in a commit that returns 0.** The store holds one
variable, `a`, whose value takes 32747 of the 32768 bytes of `nvram_buf`. No
allocation fails. A commit loses it; so does `nvram_set` of another variable
for which there is no room, consolidating. -/
theorem commit_loses_variable :
    let st := (_nvramSet true (Store.empty fun _ => 0) (.lit "a") longValue).1
    Reachable st ∧ st.NoEq ∧ (.lit "a") ∉ sdramNames ∧ st.getStr (.lit "a") = some longValue ∧
    ∀ header, (_nvramCommit (fun _ => true) st header).2.2 = 0 ∧
      (_nvramCommit (fun _ => true) st header).1.getStr (.lit "a") = none ∧
      (nvramSet ⟨true, some header, fun _ => true, true⟩ st (.lit "b")
        ⟨List.replicate 30 121, by decide⟩).1.getStr (.lit "a") = none := by
  intro st
  have hr : Reachable st := (Reachable.empty _).set true _ _
  have hI : Inv st := hr.inv
  have hne : st.NoEq := NoEq.set (empty_inv _) (empty_noEq _) true _ (by decide)
  have hget : st.getStr (.lit "a") = some longValue := by
    have hroom : (Store.empty fun _ => 0).nvramOffset + longValue.length + 1 ≤ nvramSpace := by
      rw [length_longValue]; decide
    obtain ⟨st', he, -, -, hg⟩ :=
      @_nvramSet_ok true _ (empty_inv fun _ => 0) (.lit "a") longValue hroom fun _ => rfl
    have : st.getStr (.lit "a") = st'.getStr (.lit "a") := by
      change (_nvramSet _ _ _ _).1.getStr _ = _
      rw [he]
    rw [this, hg, if_pos rfl]
  -- the one tuple of that name does not fit
  have hlong : ∀ t, st.Live t → t.name = .lit "a" → (st.str t.value).length = 32746 := by
    intro t ht hn
    have := hI.getStr_name ht
    rw [hn, hget] at this
    rw [← Option.some.inj this, length_longValue]
  have hout : ∀ t ∈ st.layout, t.name ≠ .lit "a" := by
    intro t ht hn
    have h1 := size_le_of_mem_layout ht
    have h2 := hlong t (mem_tuples.mp ((layout_sublist st).subset ht)) hn
    unfold Store.size at h1
    simp only [h2, headerSize, imageEnd, nvramSpace] at h1
    omega
  have hlost : ∀ header, (_nvramCommit (fun _ => true) st header).1.getStr (.lit "a") = none :=
    fun header => (rehash_getStr _ hI hne header st).2 _ (by decide)
      fun t ht hn => absurd hn (hout t ht)
  refine ⟨hr, hne, by decide, hget, fun header => ⟨by rw [_nvramCommit_mem], hlost header, ?_⟩⟩
  -- the first try finds the buffer full
  have hfull : nvramSpace < st.nvramOffset + 30 + 1 := by
    obtain ⟨t, ht, -⟩ := Option.map_eq_some_iff.mp ((getStr_eq st _).symm.trans hget)
    obtain ⟨hmem, hname⟩ := find_some ht
    have h1 := (hI.held _ t hmem).2
    have h2 := hlong t ⟨_, hmem⟩ hname
    simp only [nvramSpace]
    omega
  have hfail : _nvramSet true st (.lit "b") ⟨List.replicate 30 121, by decide⟩ = (st, -12) :=
    _nvramSet_fail (Or.inl hfull)
  rw [nvramSet_retry hI (by decide) (by rw [hfail]; decide) rfl (by decide)]
  exact hlost header

end Nvram
end Router
