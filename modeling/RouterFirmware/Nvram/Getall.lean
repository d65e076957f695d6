/-
# The dump and its cache

`_nvram_getall` returns 0 whatever it could copy: a variable that does not fit
ends its chain, and the chains behind it are copied as far as they fit. So the
dump is complete exactly if the variables take less than the buffer together
(`nvramGetall_complete_iff`).

`bcm_nvram_refresh` then looks for the end of the dump, and its loop bounds
`i` but not the `i + 1` it reads. What stops it is the room for one NUL that
`_nvram_getall` keeps (`bcmNvramRefresh_copied`). The length it leaves counts
the NUL behind the last string.

Not covered: the lock around `_nvram_getall`, and what `nvram_getall` does
before the store exists.
-/
import RouterFirmware.Nvram.Backup
import RouterFirmware.Nvram.ReadOnly

namespace Router
namespace Nvram

open CMem
open ReadOnly (Cache strings findvar lookup strings_cons length_strings_cons findvar_strings at_string double_nul
  last_nul)

/-! ### A list of strings in a buffer -/

/-- `_nvram_getall(buf, count)`: the buffer it leaves, and its result. -/
def nvramGetall (st : Store) (count : ℕ) (buf : Mem) : Mem × ℤ := (_nvramGetall st count buf, 0)

/-- `name=value`. -/
def line (e : CStr × CStr) : CStr where
  bytes := e.1.bytes ++ 61 :: e.2.bytes
  nul_notMem := by
    simp only [List.mem_append, List.mem_cons, not_or]
    exact ⟨e.1.nul_notMem, by decide, e.2.nul_notMem⟩

/-- The strings `ss`, each with its NUL, and an empty one behind them, in a buffer of `count` bytes. -/
structure Lists (buf : Mem) (count : ℕ) (ss : List CStr) : Prop where
  holds : Holds buf 0 (strings ss ++ [0])
  fits : (strings ss).length < count
  pos : ∀ s ∈ ss, 0 < s.length

/-- What `nvram_getall` promises with the result 0: every variable once, and nothing else. -/
def Complete (st : Store) (count : ℕ) (r : Mem × ℤ) : Prop :=
  r.2 = 0 → ∃ ss, Lists r.1 count ss ∧ ss.Perm (st.dumped.map line)

theorem line_pos (e : CStr × CStr) : 0 < (line e).length := by
  show 0 < (e.1.bytes ++ 61 :: e.2.bytes).length
  rw [List.length_append, List.length_cons]
  omega

theorem withNul_line (e : CStr × CStr) : (line e).withNul = entry e.1 e.2 := by
  show (e.1.bytes ++ 61 :: e.2.bytes) ++ [0] = _
  rw [List.append_assoc]
  rfl

theorem strings_line : ∀ es : List (CStr × CStr), strings (es.map line) = area es
  | [] => rfl
  | e :: es => by
    rw [List.map_cons, area_cons, ← withNul_line, ← strings_line es]
    rfl

theorem length_strings_perm {ss ss' : List CStr} (h : ss.Perm ss') : (strings ss).length = (strings ss').length :=
  (h.flatMap_right CStr.withNul).length_eq

/-! ### Which dumps are complete -/

/-- What the dump holds. -/
theorem lists_copied (st : Store) {count : ℕ} (hpos : 0 < count) (buf : Mem) :
    Lists (_nvramGetall st count buf) count (((st.copied count).map st.pair).map line) where
  holds := by
    rw [strings_line]
    exact nvramGetall_copied st hpos buf
  fits := by
    have h := copyFrom_lt st (List.finRange hashSize) 0 hpos
    rw [strings_line, length_area_pair]
    rwa [Nat.zero_add] at h
  pos := by
    intro s hs
    obtain ⟨e, -, rfl⟩ := List.mem_map.mp hs
    exact line_pos e

/-- A complete dump has room for every variable and for a NUL. -/
theorem Complete.fits {st : Store} {count : ℕ} {buf : Mem} (h : Complete st count (buf, 0)) :
    (st.tuples.map st.size).sum < count := by
  obtain ⟨ss, hss, hperm⟩ := h rfl
  have hlen := length_strings_perm hperm
  rw [strings_line, length_dumped] at hlen
  rw [← hlen]
  exact hss.fits

/-- **The dump is complete** exactly if the variables take less than `count` bytes together. -/
theorem nvramGetall_complete_iff (st : Store) (count : ℕ) (buf : Mem) :
    Complete st count (nvramGetall st count buf) ↔ (st.tuples.map st.size).sum < count := by
  constructor
  · intro h
    exact h.fits
  · intro hfit _
    refine ⟨st.dumped.map line, ?_, List.Perm.refl _⟩
    have hall := lists_copied st (Nat.zero_lt_of_lt hfit) buf
    rwa [copied_eq_tuples hfit] at hall

/-- A store of one variable. -/
def oneVariable : Store := (_nvramSet true (Store.empty fun _ => 0) (.lit "a") (.lit "b")).1

/-- Its four bytes have no NUL behind them in a buffer of four. -/
theorem not_complete_four : ¬Complete oneVariable 4 (nvramGetall oneVariable 4 fun _ => 0) := by
  intro h
  have hsize : (oneVariable.tuples.map oneVariable.size).sum = 4 := by decide +kernel
  have hfit := h.fits
  omega

/-! ### `bcm_nvram_refresh` -/

/-- The loop of `bcm_nvram_refresh` from `i` on: where it stops, and the indices it reads. -/
def refreshScan (flash : Mem) : ℕ → ℕ → ℕ × List ℕ
  | 0, i => (i, [])
  | n + 1, i =>
    if flash i = 0 then
      if flash (i + 1) = 0 then (i, [i, i + 1])
      else ((refreshScan flash n (i + 1)).1, i :: (i + 1) :: (refreshScan flash n (i + 1)).2)
    else ((refreshScan flash n (i + 1)).1, i :: (refreshScan flash n (i + 1)).2)

/-- `bcm_nvram_refresh(flash)`, for variables that can be written. -/
def bcmNvramRefresh (st : Store) (c : Cache) : Cache :=
  let (flash, ret) := nvramGetall st nvramSpace (write c.nvramVars 0 [0, 0])
  if ret ≠ 0 then { c with nvramVars := flash }
  else
    let i := (refreshScan flash nvramSpace 0).1
    ⟨flash, if i > 1 then i + 2 else 0⟩

/-- The strings that a loop like those of `getvar` and `findvar` looks at from `s` on, with `lim` bytes to look at. -/
def scanned (vars : Mem) (lim : ℕ) : ℕ → ℕ → List CStr
  | 0, _ => []
  | fuel + 1, s =>
    if s < lim ∧ vars s ≠ 0 then
      readStr vars s (lim - s) :: scanned vars lim fuel (s + (readStr vars s (lim - s)).length + 1)
    else []

/-- The loop stops at the first double NUL. -/
theorem refreshScan_of_double {flash : Mem} {e : ℕ} (h0 : flash e = 0) (h1 : flash (e + 1) = 0) : ∀ (n i : ℕ),
    i ≤ e → e < i + n → (∀ j, i ≤ j → j < e → ¬(flash j = 0 ∧ flash (j + 1) = 0)) →
    (refreshScan flash n i).1 = e ∧ ∀ k ∈ (refreshScan flash n i).2, k ≤ e + 1
  | 0, i, hi, hn, _ => by omega
  | n + 1, i, hi, hn, hfirst => by
    unfold refreshScan
    by_cases he : i = e
    · subst he
      rw [if_pos h0, if_pos h1]
      simp
    · have ih := refreshScan_of_double h0 h1 n (i + 1) (by omega) (by omega)
        fun j hj hje => hfirst j (by omega) hje
      have hnot := hfirst i le_rfl (by omega)
      by_cases hi0 : flash i = 0
      · rw [if_pos hi0, if_neg fun h => hnot ⟨hi0, h⟩]
        refine ⟨ih.1, fun k hk => ?_⟩
        rcases List.mem_cons.mp hk with rfl | hk
        · omega
        · rcases List.mem_cons.mp hk with rfl | hk
          · omega
          · exact ih.2 k hk
      · rw [if_neg hi0]
        refine ⟨ih.1, fun k hk => ?_⟩
        rcases List.mem_cons.mp hk with rfl | hk
        · omega
        · exact ih.2 k hk

/-- It never reads behind the NUL that ends the strings. -/
theorem refreshScan_lists {flash : Mem} {ss : List CStr} (h : Lists flash nvramSpace ss) (hne : ss ≠ []) :
    (refreshScan flash nvramSpace 0).1 + 1 = (strings ss).length ∧
      ∀ k ∈ (refreshScan flash nvramSpace 0).2, k < nvramSpace := by
  obtain ⟨hstrings, hend⟩ := holds_append.mp h.holds
  obtain ⟨e, he, h0⟩ := last_nul hstrings hne
  have hfits := h.fits
  have h1 : flash (e + 1) = 0 := by
    rw [he]
    exact hend.1
  obtain ⟨hstop, hreads⟩ := refreshScan_of_double h0 h1 nvramSpace 0 (Nat.zero_le e) (by omega)
    fun j _ hj => double_nul h.holds h.pos j (Nat.zero_le j) (by omega)
  exact ⟨by omega, fun k hk => Nat.lt_of_le_of_lt (hreads k hk) (by omega)⟩

/-- And for a dump of nothing it reads the two bytes of the empty cache. -/
theorem refreshScan_empty {flash : Mem} (h0 : flash 0 = 0) (h1 : flash 1 = 0) :
    refreshScan flash nvramSpace 0 = (0, [0, 1]) := by
  rw [nvramSpace, refreshScan, if_pos h0, if_pos h1]

/-- What a scan looks at. -/
theorem scanned_strings {m : Mem} {lim : ℕ} : ∀ {ss : List CStr} {fuel s : ℕ}, Holds m s (strings ss ++ [0]) →
    s + (strings ss).length < lim → (strings ss).length < fuel → (∀ x ∈ ss, 0 < x.length) →
    scanned m lim fuel s = ss
  | [], fuel + 1, s, h, _, _, _ => by
    have hnul : m s = 0 := h.1
    rw [scanned, if_neg fun hgo => hgo.2 hnul]
  | x :: ss, fuel + 1, s, h, hlim, hfuel, hpos => by
    obtain ⟨hgo, hread, -, hrest⟩ := at_string h hlim (hpos x List.mem_cons_self)
    rw [length_strings_cons] at hlim hfuel
    rw [scanned, if_pos hgo, hread, Nat.add_assoc,
      scanned_strings hrest (by omega) (by omega) fun y hy => hpos y (List.mem_cons_of_mem x hy)]

/-- The strings in the cache. -/
def cached (st : Store) : List CStr := ((st.copied nvramSpace).map st.pair).map line

/-- The loop of the refresh stays in the buffer, and finds the end of the strings if there are any. -/
theorem bcmNvramRefresh_scan (st : Store) (c : Cache) :
    Lists (bcmNvramRefresh st c).nvramVars nvramSpace (cached st) ∧
      (∀ k ∈ (refreshScan (bcmNvramRefresh st c).nvramVars nvramSpace 0).2, k < nvramSpace) ∧
      (bcmNvramRefresh st c).varsLen =
        if (strings (cached st)).length ≤ 2 then 0 else (strings (cached st)).length + 1 := by
  set flash := _nvramGetall st nvramSpace (write c.nvramVars 0 [0, 0]) with hflash
  have hlists : Lists flash nvramSpace (cached st) := lists_copied st (by decide) _
  have hrefresh : bcmNvramRefresh st c = ⟨flash, if (refreshScan flash nvramSpace 0).1 > 1 then
      (refreshScan flash nvramSpace 0).1 + 2 else 0⟩ := rfl
  rw [hrefresh]
  refine ⟨hlists, ?_⟩
  by_cases hnil : cached st = []
  · have h0 : flash 0 = 0 := by
      have hz := hlists.holds
      rw [hnil] at hz
      exact hz.1
    have h1 : flash 1 = 0 := by
      refine nvramGetall_behind st _ ?_ (by decide)
      rw [← strings_line]
      show (strings (cached st)).length ≤ 1
      rw [hnil]
      exact Nat.zero_le 1
    rw [refreshScan_empty h0 h1, hnil]
    refine ⟨fun k hk => ?_, rfl⟩
    have hk2 : k = 0 ∨ k = 1 := by simpa using hk
    unfold nvramSpace
    omega
  · obtain ⟨hstop, hk⟩ := refreshScan_lists hlists hnil
    refine ⟨hk, ?_⟩
    dsimp only
    split_ifs <;> omega

/-- **The cache** holds the strings that were copied, a sublist of the variables. The loop that looks for their end
stays in the buffer, and `vars_len` is their length with one more NUL, or 0 if they are no more than the string
`"="`. A scan up to a NUL looks at all of them, and so does one up to `vars_len` unless that is 0. -/
theorem bcmNvramRefresh_copied (st : Store) (c : Cache) :
    let r := bcmNvramRefresh st c
    (cached st).Sublist (st.dumped.map line) ∧ Lists r.nvramVars nvramSpace (cached st) ∧
      (∀ k ∈ (refreshScan r.nvramVars nvramSpace 0).2, k < nvramSpace) ∧
      r.varsLen = (if (strings (cached st)).length ≤ 2 then 0 else (strings (cached st)).length + 1) ∧
      scanned r.nvramVars nvramSpace nvramSpace 0 = cached st ∧
      (0 < r.varsLen → scanned r.nvramVars r.varsLen nvramSpace 0 = cached st ∧
        ∀ name, findvar r.nvramVars r.varsLen name = lookup name (cached st)) := by
  intro r
  obtain ⟨hlists, hreads, hlen⟩ := bcmNvramRefresh_scan st c
  have hfits := hlists.fits
  refine ⟨((copyFrom_sublist st _ _).map _).map _, hlists, hreads, hlen, ?_, fun hpos => ?_⟩
  · exact scanned_strings hlists.holds (by omega) hfits hlists.pos
  · have hlim : (strings (cached st)).length < r.varsLen := by
      change r.varsLen = _ at hlen
      rw [hlen] at hpos ⊢
      split_ifs at hpos ⊢
      · omega
      · omega
    exact ⟨scanned_strings hlists.holds (by omega) hfits hlists.pos,
      findvar_strings hlists.holds hlim hlists.pos⟩

/-- For one variable the length is not that of its string. -/
theorem varsLen_oneVariable : (bcmNvramRefresh oneVariable ⟨fun _ => 0, 0⟩).varsLen ≠
    (strings (cached oneVariable)).length := by
  have hfour : (strings (cached oneVariable)).length = 4 := by decide +kernel
  have hlen := (bcmNvramRefresh_scan oneVariable ⟨fun _ => 0, 0⟩).2.2
  rw [hlen, hfour]
  decide

end Nvram
end Router
