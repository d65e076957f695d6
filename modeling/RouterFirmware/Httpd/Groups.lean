/-
# Tables of groups

`router/httpd/web_ex.c` and `nvram_f.c`: the rows of a group are numbered variables, one for each column, and a variable
with their count. An addition (`nvram_add_group_item`) writes behind the last row. A deletion
(`nvram_remove_group_item`) closes the gaps of each column on its own, up to the first variable that is missing.

`rows_of_run`: the rows are those that were added and not deleted, in order, as long as every `nvram_set` succeeds and
the text of the count fits its five bytes. What `nvram_set` returns is not looked at (`row_lost`).

The groups are those of `variables.c` that have columns with a name, of the build without USB. A form has its values
under the names of the page. A text that does not fit its array is `none`, as in `Httpd.Profile`.
-/
import RouterFirmware.Httpd.Profile

namespace Router
namespace Httpd

open CMem CText
open Nvram (VarMap)

/-! ### The group -/

/-- The last byte is no digit. -/
def Digitless (name : CStr) : Prop := ∀ c ∈ name.bytes.getLast?, isDigit c = false

instance (name : CStr) : Decidable (Digitless name) :=
  inferInstanceAs (Decidable (∀ c ∈ name.bytes.getLast?, isDigit c = false))

/-- A group: no name ends in a digit, so that a numbered variable is of one column only. -/
structure Group where
  columns : List CStr
  count : CStr
  nodup : (columns.filter (· ≠ noText)).Nodup
  short : ∀ col ∈ columns, col.length ≤ 21
  digitless : ∀ name ∈ count :: columns, Digitless name

/-- `sprintf(name2, "%s%d", name1, count)`, without looking at the size. -/
def indexed (name : CStr) (i : ℕ) : CStr := cstr (name.bytes ++ decimal i)

/-- `"%d"`. -/
def printInt (n : ℤ) : Bytes := if n < 0 then 45 :: decimal n.natAbs else decimal n.natAbs

/-- `sprintf(buf, text)` into an array of `size` bytes. -/
def fits (size : ℕ) (text : Bytes) : Option CStr := if text.length < size then some (cstr text) else none

/-! ### Adding a row -/

/-- `nvram_add_lists_x(sid, name, value, count)`. -/
def addListsX (room : Room) (nv : VarMap) (name value : CStr) (count : ℤ) : Option VarMap := do
  let name1 ← fits 32 name.bytes
  if name ≠ noText then
    let name2 ← fits 32 (name1.bytes ++ printInt count)
    some (nvramSet room nv name2 (some value))
  else some nv

/-- What the form has for a column. -/
def formValue (form : CStr → Option CStr) (col : CStr) : CStr := (form (cstr (col.bytes ++ bytes "_0"))).getD noText

/-- `nvram_add_group_item`. -/
def addGroupItem (g : Group) (room : Room) (form : CStr → Option CStr) (nv : VarMap) : Option VarMap := do
  let count := atoi (nvramGetX nv g.count).bytes
  let nv ← g.columns.foldlM (fun nv col => addListsX room nv col (formValue form col) count) nv
  let cstr ← fits 5 (printInt (count + 1))
  some (nvramSet room nv g.count (some cstr))

/-! ### Deleting rows -/

/-- The loop of `nvram_del_lists_x`, at `oi`, `ni`, and what is left of the map. -/
def delLoop (room : Room) (names : CStr) : ℕ → ℕ → ℕ → List ℕ → VarMap → Option VarMap
  | 0, _, _, _, _ => none
  | fuel + 1, oi, ni, delMap, nv => do
    let oname ← fits 32 (names.bytes ++ decimal oi)
    let nname ← fits 32 (names.bytes ++ decimal ni)
    match nv.lookup oname with
    | none => some nv
    | some oval =>
      if delMap.head? = some oi then delLoop room names fuel (oi + 1) ni delMap.tail nv
      else delLoop room names fuel (oi + 1) (ni + 1) delMap (nvramSet room nv nname (some oval))

/-- `nvram_del_lists_x(sid, name, delMap)`. There are no more turns than variables, and one. -/
def delListsX (room : Room) (delMap : List ℕ) (nv : VarMap) (name : CStr) : Option VarMap := do
  let names ← fits 32 name.bytes
  if names ≠ noText then delLoop room names (nv.keys.card + 1) 0 0 delMap nv else some nv

/-- `nvram_remove_group_item`. -/
def removeGroupItem (g : Group) (room : Room) (delMap : List ℕ) (nv : VarMap) : Option VarMap := do
  let count := atoi (nvramGetX nv g.count).bytes
  let nv ← g.columns.foldlM (delListsX room delMap) nv
  let cstr ← fits 5 (printInt (count - delMap.length) ++ [10])
  some (nvramSet room nv g.count (some cstr))

/-! ### Rows -/

/-- A row: what it has in each column. -/
abbrev Row := CStr → CStr

/-- The rows but those at the places of `del`. -/
def without (del : List ℕ) (rows : List Row) : List Row :=
  ((List.range rows.length).filter (· ∉ del)).filterMap (rows[·]?)

/-- The variables hold the rows. -/
structure HoldsRows (g : Group) (nv : VarMap) (rows : List Row) : Prop where
  count : atoi (nvramGetX nv g.count).bytes = rows.length
  row : ∀ col ∈ g.columns, col ≠ noText → ∀ i (hi : i < rows.length), nv.lookup (indexed col i) = some (rows[i] col)

/-- No variable of a column is there yet, and the count is 0. -/
structure EmptyTable (g : Group) (nv : VarMap) : Prop where
  count : atoi (nvramGetX nv g.count).bytes = 0
  row : ∀ col ∈ g.columns, col ≠ noText → ∀ i, nv.lookup (indexed col i) = none

/-! ### Names -/

theorem indexed_bytes (name : CStr) (i : ℕ) : (indexed name i).bytes = name.bytes ++ decimal i := by
  apply cstr_bytes
  rw [List.mem_append, not_or]
  exact ⟨name.nul_notMem, notMem_decimal (by decide) i⟩

/-- A digitless name is what is left when the digits at its end are gone. -/
theorem Digitless.dropWhile {name : CStr} (h : Digitless name) :
    name.bytes.reverse.dropWhile isDigit = name.bytes.reverse := by
  cases hr : name.bytes.reverse with
  | nil => rfl
  | cons c l =>
    have hlast : name.bytes.getLast? = some c := by rw [List.getLast?_eq_head?_reverse, hr, List.head?_cons]
    exact List.dropWhile_cons_of_neg (by simp [h c hlast])

theorem indexed_dropWhile {name : CStr} (h : Digitless name) (i : ℕ) :
    (indexed name i).bytes.reverse.dropWhile isDigit = name.bytes.reverse := by
  rw [indexed_bytes, List.reverse_append, List.dropWhile_append_of_pos, h.dropWhile]
  exact fun c hc => isDigit_of_mem_decimal i c (List.mem_reverse.mp hc)

theorem CStr.ext_bytes {s t : CStr} (h : s.bytes = t.bytes) : s = t := by
  cases s
  cases t
  cases h
  rfl

/-- A numbered variable is of one column only. -/
theorem indexed_inj {name name' : CStr} (h : Digitless name) (h' : Digitless name') {i j : ℕ}
    (he : indexed name i = indexed name' j) : name = name' ∧ i = j := by
  have hname : name = name' := by
    refine CStr.ext_bytes (List.reverse_injective ?_)
    rw [← indexed_dropWhile h i, he, indexed_dropWhile h' j]
  refine ⟨hname, ?_⟩
  have hbytes := congrArg CStr.bytes he
  rw [indexed_bytes, indexed_bytes, hname] at hbytes
  exact decimal_inj (List.append_cancel_left hbytes)

theorem indexed_ne {name count : CStr} (h : Digitless name) (h' : Digitless count) (i : ℕ) :
    indexed name i ≠ count := by
  intro he
  have hname : name = count := by
    refine CStr.ext_bytes (List.reverse_injective ?_)
    rw [← indexed_dropWhile h i, he, h'.dropWhile]
  have hbytes := congrArg CStr.bytes he
  rw [indexed_bytes, hname] at hbytes
  exact decimal_ne_nil i (List.append_right_eq_self.mp hbytes)

theorem fits_indexed {name : CStr} (h : name.length ≤ 21) {i : ℕ} (hi : i < 10 ^ 10) :
    fits 32 (name.bytes ++ decimal i) = some (indexed name i) := by
  unfold fits
  have hlen := length_decimal_le (k := 9) hi
  rw [if_pos]
  · rfl
  · rw [List.length_append]
    unfold CStr.length at h
    omega

theorem fits_name {name : CStr} (h : name.length ≤ 21) : fits 32 name.bytes = some name := by
  unfold fits
  unfold CStr.length at h
  rw [if_pos (by omega)]
  exact congrArg some (CStr.ext_bytes (cstr_bytes name.nul_notMem))

theorem printInt_natCast (n : ℕ) : printInt n = decimal n := by
  unfold printInt
  rw [if_neg (by omega), Int.natAbs_natCast]

/-! ### What an addition writes -/

section Sets

variable {room : Room} (hroom : ∀ nv name value, room nv name value = true)

include hroom

theorem nvramSet_eq (nv : VarMap) (name value : CStr) : nvramSet room nv name (some value) = nv.insert name value := by
  simp only [nvramSet, hroom, if_true]

theorem addListsX_eq {name : CStr} (h : name.length ≤ 21) (nv : VarMap) (value : CStr) {n : ℕ} (hn : n < 10 ^ 10) :
    addListsX room nv name value n = some (if name ≠ noText then nv.insert (indexed name n) value else nv) := by
  unfold addListsX
  rw [fits_name h]
  split_ifs
  · simp only [Option.bind_eq_bind, Option.bind_some, printInt_natCast, fits_indexed h hn, nvramSet_eq hroom]
  · rfl

/-- Each column of the new row, and nothing else. -/
theorem addColumns_spec {value : CStr → CStr} {n : ℕ} (hn : n < 10 ^ 10) : ∀ (cols : List CStr) (nv : VarMap),
    (∀ col ∈ cols, col.length ≤ 21 ∧ Digitless col) →
    ∃ nv', cols.foldlM (fun nv col => addListsX room nv col (value col) n) nv = some nv' ∧
      (∀ col ∈ cols, col ≠ noText → nv'.lookup (indexed col n) = some (value col)) ∧
      ∀ name, (∀ col ∈ cols, name ≠ indexed col n) → nv'.lookup name = nv.lookup name
  | [], nv, _ => ⟨nv, rfl, by simp, fun _ _ => rfl⟩
  | col :: cols, nv, h => by
    obtain ⟨hshort, hdigit⟩ := h col (List.mem_cons_self ..)
    rw [List.foldlM_cons, addListsX_eq hroom hshort nv _ hn]
    obtain ⟨nv', hrun, hset, hother⟩ := addColumns_spec hn cols
      (if col ≠ noText then nv.insert (indexed col n) (value col) else nv) fun c hc => h c (List.mem_cons_of_mem _ hc)
    refine ⟨nv', hrun, fun c hc hne => ?_, fun name hname => ?_⟩
    · by_cases hmem : c ∈ cols
      · exact hset c hmem hne
      · obtain rfl := (List.mem_cons.mp hc).resolve_right hmem
        have hapart : ∀ c' ∈ cols, indexed c n ≠ indexed c' n := fun c' hc' he =>
          hmem ((indexed_inj hdigit (h c' (List.mem_cons_of_mem _ hc')).2 he).1 ▸ hc')
        rw [hother _ hapart, if_pos hne, Finmap.lookup_insert]
    · rw [hother name fun c hc => hname c (List.mem_cons_of_mem _ hc)]
      split_ifs
      · exact Finmap.lookup_insert_of_ne _ (hname col (List.mem_cons_self ..))
      · rfl

end Sets

/-! ### What a deletion leaves -/

/-- The places before `n` that are kept. -/
def kept (del : List ℕ) (n : ℕ) : List ℕ := (List.range n).filter (· ∉ del)

theorem kept_succ (del : List ℕ) (n : ℕ) : kept del (n + 1) = kept del n ++ if n ∈ del then [] else [n] := by
  unfold kept
  rw [List.range_succ, List.filter_append]
  split_ifs with h
  · simp [h]
  · simp [h]

theorem length_kept_le (del : List ℕ) (n : ℕ) : (kept del n).length ≤ n :=
  (List.length_filter_le _ _).trans (List.length_range ..).le

theorem kept_prefix (del : List ℕ) {n m : ℕ} (h : n ≤ m) : kept del n <+: kept del m := by
  obtain ⟨k, rfl⟩ := Nat.exists_eq_add_of_le h
  unfold kept
  rw [List.range_add, List.filter_append]
  exact List.prefix_append _ _

theorem mem_kept {del : List ℕ} {n i : ℕ} : i ∈ kept del n ↔ i < n ∧ i ∉ del := by
  simp [kept]

theorem length_kept {del : List ℕ} (hdel : del.Pairwise (· < ·)) {n : ℕ} (h : ∀ d ∈ del, d < n) :
    (kept del n).length + del.length = n := by
  have hperm : (List.range n).filter (· ∈ del) |>.Perm del := by
    refine (List.perm_ext_iff_of_nodup (List.nodup_range.filter _) (hdel.imp ne_of_lt)).mpr fun d => ?_
    simp only [List.mem_filter, List.mem_range, decide_eq_true_eq]
    exact ⟨And.right, fun hd => ⟨h d hd, hd⟩⟩
  have hsplit := (List.range n).length_eq_length_filter_add (· ∈ del)
  rw [List.length_range, hperm.length_eq] at hsplit
  unfold kept
  simp only [decide_not]
  omega

/-- What is left of the map, at a place. -/
def rest (del : List ℕ) (oi : ℕ) : List ℕ := del.filter (oi ≤ ·)

theorem rest_succ (del : List ℕ) (oi : ℕ) (h : oi ∉ del) : rest del oi = rest del (oi + 1) :=
  List.filter_congr fun d hd => by
    have hne : oi ≠ d := fun e => h (e ▸ hd)
    simp only [decide_eq_decide]
    omega

theorem head_rest {del : List ℕ} {oi : ℕ} (h : oi ∉ del) : (rest del oi).head? ≠ some oi := by
  intro hhead
  exact h (List.mem_of_mem_filter (List.mem_of_mem_head? hhead))

theorem rest_of_mem {oi : ℕ} : ∀ {del : List ℕ}, del.Pairwise (· < ·) → oi ∈ del →
    rest del oi = oi :: rest del (oi + 1)
  | d :: del, hdel, hmem => by
    rw [List.pairwise_cons] at hdel
    rcases List.mem_cons.mp hmem with rfl | hmem
    · have hnot : oi ∉ del := fun h => lt_irrefl _ (hdel.1 oi h)
      have hsucc := rest_succ del oi hnot
      unfold rest at hsucc ⊢
      rw [List.filter_cons_of_pos (by simp), List.filter_cons_of_neg (by simp), hsucc]
    · have hlt := hdel.1 oi hmem
      have ih := rest_of_mem hdel.2 hmem
      unfold rest at ih ⊢
      rw [List.filter_cons_of_neg (by simpa using hlt), List.filter_cons_of_neg (by simp; omega), ih]

/-- The loop at `oi`: what is kept of the places before it has moved down. -/
structure Compacting (col : CStr) (del : List ℕ) (nv₀ : VarMap) (oi : ℕ) (nv : VarMap) : Prop where
  ahead : ∀ i, oi ≤ i → nv.lookup (indexed col i) = nv₀.lookup (indexed col i)
  behind : ∀ j i, (kept del oi)[j]? = some i → nv.lookup (indexed col j) = nv₀.lookup (indexed col i)
  other : ∀ name, (∀ i, name ≠ indexed col i) → nv.lookup name = nv₀.lookup name

section Deletes

variable {room : Room} (hroom : ∀ nv name value, room nv name value = true)
  {col : CStr} (hshort : col.length ≤ 21) (hdigit : Digitless col) {del : List ℕ} (hdel : del.Pairwise (· < ·))
  {nv₀ : VarMap}

theorem Compacting.skip {oi : ℕ} {nv : VarMap} (h : Compacting col del nv₀ oi nv) (hmem : oi ∈ del) :
    Compacting col del nv₀ (oi + 1) nv := by
  refine ⟨fun i hi => h.ahead i (by omega), fun j i hj => h.behind j i ?_, h.other⟩
  rwa [kept_succ, if_pos hmem, List.append_nil] at hj

include hdigit in
theorem Compacting.copy {oi : ℕ} {nv : VarMap} (h : Compacting col del nv₀ oi nv) (hmem : oi ∉ del) {oval : CStr}
    (hval : nv₀.lookup (indexed col oi) = some oval) :
    Compacting col del nv₀ (oi + 1) (nv.insert (indexed col (kept del oi).length) oval) := by
  have hle := length_kept_le del oi
  have hne : ∀ i, i ≠ (kept del oi).length → indexed col i ≠ indexed col (kept del oi).length :=
    fun i hi he => hi (indexed_inj hdigit hdigit he).2
  refine ⟨fun i hi => ?_, fun j i hj => ?_, fun name hname => ?_⟩
  · rw [Finmap.lookup_insert_of_ne _ (hne i (by omega)), h.ahead i (by omega)]
  · rw [kept_succ, if_neg hmem] at hj
    by_cases hlt : j < (kept del oi).length
    · rw [List.getElem?_append_left hlt] at hj
      rw [Finmap.lookup_insert_of_ne _ (hne j hlt.ne), h.behind j i hj]
    · have hjeq : j = (kept del oi).length := by
        obtain ⟨hbound, -⟩ := List.getElem?_eq_some_iff.mp hj
        rw [List.length_append, List.length_singleton] at hbound
        omega
      rw [hjeq, List.getElem?_append_right le_rfl, Nat.sub_self, List.getElem?_cons_zero] at hj
      rw [hjeq, Finmap.lookup_insert, ← Option.some.inj hj, hval]
  · rw [Finmap.lookup_insert_of_ne _ (hname _), h.other name hname]

include hroom hshort hdigit hdel in
/-- The loop comes to the first variable that is missing. -/
theorem delLoop_spec {M : ℕ} (hM : nv₀.lookup (indexed col M) = none)
    (hpre : ∀ i < M, nv₀.lookup (indexed col i) ≠ none) (hbound : M < 10 ^ 10) : ∀ fuel oi nv, oi ≤ M → M - oi < fuel →
      Compacting col del nv₀ oi nv →
      ∃ nv', delLoop room col fuel oi (kept del oi).length (rest del oi) nv = some nv' ∧
        Compacting col del nv₀ M nv' := by
  intro fuel
  induction fuel with
  | zero => exact fun oi nv _ h => absurd h (Nat.not_lt_zero _)
  | succ fuel ih =>
    intro oi nv hoi hfuel h
    have hle := length_kept_le del oi
    rw [delLoop, fits_indexed hshort (by omega), fits_indexed hshort (by omega)]
    simp only [Option.bind_eq_bind, Option.bind_some, h.ahead oi le_rfl]
    cases hval : nv₀.lookup (indexed col oi) with
    | none =>
      have hend : oi = M := by
        by_contra hne
        exact hpre oi (by omega) hval
      exact ⟨nv, rfl, hend ▸ h⟩
    | some oval =>
      have hlt : oi < M := by
        refine lt_of_le_of_ne hoi fun e => ?_
        rw [e, hM] at hval
        cases hval
      by_cases hmem : oi ∈ del
      · have hnext := ih (oi + 1) nv (by omega) (by omega) (h.skip hmem)
        rw [kept_succ, if_pos hmem, List.append_nil] at hnext
        simp only [rest_of_mem hdel hmem, List.head?_cons, if_true, List.tail_cons]
        exact hnext
      · have hnext := ih (oi + 1) _ (by omega) (by omega) (h.copy hdigit hmem hval)
        rw [kept_succ, if_neg hmem, List.length_append, List.length_singleton, ← rest_succ del oi hmem] at hnext
        simp only [if_neg (head_rest hmem), nvramSet_eq hroom]
        exact hnext

include hdigit in
theorem exists_missing (nv : VarMap) : ∃ M, M ≤ nv.keys.card ∧ nv.lookup (indexed col M) = none := by
  by_contra hall
  push Not at hall
  have hsub : (Finset.range (nv.keys.card + 1)).image (indexed col) ⊆ nv.keys := by
    intro name hname
    obtain ⟨i, hi, rfl⟩ := Finset.mem_image.mp hname
    rw [Finset.mem_range] at hi
    exact Finmap.mem_keys.mpr (Finmap.mem_iff.mpr (Option.ne_none_iff_exists'.mp (hall i (by omega))))
  have hcard := Finset.card_le_card hsub
  rw [Finset.card_image_of_injective _ fun i j he => (indexed_inj hdigit hdigit he).2, Finset.card_range] at hcard
  omega

/-- A column whose first `n` variables are there has those that are kept, and no variable more than before. -/
structure Deleted (col : CStr) (del : List ℕ) (nv nv' : VarMap) : Prop where
  moved : ∀ n, (∀ i < n, nv.lookup (indexed col i) ≠ none) →
    ∀ j i, (kept del n)[j]? = some i → nv'.lookup (indexed col j) = nv.lookup (indexed col i)
  missing : ∀ i, nv.lookup (indexed col i) = none → nv'.lookup (indexed col i) = none

include hroom hshort hdigit hdel in
theorem delListsX_spec {bound : ℕ} (hb : bound < 10 ^ 10) (nv : VarMap)
    (hmissing : nv.lookup (indexed col bound) = none) (hne : col ≠ noText) :
    ∃ nv', delListsX room del nv col = some nv' ∧ Deleted col del nv nv' ∧
      ∀ name, (∀ i, name ≠ indexed col i) → nv'.lookup name = nv.lookup name := by
  classical
  have hex : ∃ M, nv.lookup (indexed col M) = none := ⟨bound, hmissing⟩
  obtain ⟨M, hM, hpre⟩ : ∃ M, nv.lookup (indexed col M) = none ∧ ∀ i < M, nv.lookup (indexed col i) ≠ none :=
    ⟨Nat.find hex, Nat.find_spec hex, fun i hi => Nat.find_min hex hi⟩
  have hMb : M ≤ bound := by
    by_contra hlt
    exact hpre bound (by omega) hmissing
  have hcard : M ≤ nv.keys.card := by
    obtain ⟨k, hk, hmiss⟩ := exists_missing hdigit nv
    by_contra hlt
    exact hpre k (by omega) hmiss
  have hstart : Compacting col del nv 0 nv := ⟨fun _ _ => rfl, fun j i hj => by simp [kept] at hj, fun _ _ => rfl⟩
  obtain ⟨nv', hrun, hend⟩ := delLoop_spec hroom hshort hdigit hdel hM hpre (by omega) (nv.keys.card + 1) 0 nv
    (Nat.zero_le _) (by omega) hstart
  refine ⟨nv', ?_, ⟨fun n hn j i hj => hend.behind j i ?_, fun i hi => ?_⟩, hend.other⟩
  · unfold delListsX
    rw [fits_name hshort]
    have hzero : rest del 0 = del := List.filter_eq_self.mpr fun d _ => by simp
    rw [hzero] at hrun
    simpa [hne, kept] using hrun
  · have hnM : n ≤ M := by
      by_contra hlt
      exact hn M (by omega) hM
    obtain ⟨t, ht⟩ := kept_prefix del hnM
    rw [← ht, List.getElem?_append_left (List.getElem?_eq_some_iff.mp hj).1, hj]
  · rw [hend.ahead i (by_contra fun hlt => hpre i (by omega) hi), hi]

end Deletes

theorem Deleted.congr {col : CStr} {del : List ℕ} {nv nv₁ nv₂ nv' : VarMap}
    (h : ∀ i, nv₁.lookup (indexed col i) = nv.lookup (indexed col i)) (hd : Deleted col del nv₁ nv₂)
    (h' : ∀ i, nv'.lookup (indexed col i) = nv₂.lookup (indexed col i)) : Deleted col del nv nv' := by
  refine ⟨fun n hn j i hj => ?_, fun i hi => ?_⟩
  · rw [h', hd.moved n (fun i hi => h i ▸ hn i hi) j i hj, h]
  · rw [h', hd.missing i (by rw [h, hi])]

theorem deleteColumns_spec {room : Room} (hroom : ∀ nv name value, room nv name value = true) {del : List ℕ}
    (hdel : del.Pairwise (· < ·)) {bound : ℕ} (hb : bound < 10 ^ 10) : ∀ (cols : List CStr) (nv : VarMap),
    (∀ col ∈ cols, col.length ≤ 21 ∧ Digitless col) → (cols.filter (· ≠ noText)).Nodup →
    (∀ col ∈ cols, col ≠ noText → nv.lookup (indexed col bound) = none) →
    ∃ nv', cols.foldlM (delListsX room del) nv = some nv' ∧ (∀ col ∈ cols, col ≠ noText → Deleted col del nv nv') ∧
      ∀ name, (∀ col ∈ cols, ∀ i, name ≠ indexed col i) → nv'.lookup name = nv.lookup name
  | [], nv, _, _, _ => ⟨nv, rfl, by simp, fun _ _ => rfl⟩
  | col :: cols, nv, h, hnodup, hmissing => by
    obtain ⟨hshort, hdigit⟩ := h col (List.mem_cons_self ..)
    have htail : ∀ c ∈ cols, c.length ≤ 21 ∧ Digitless c := fun c hc => h c (List.mem_cons_of_mem _ hc)
    by_cases hne : col = noText
    · have hskip : delListsX room del nv col = some nv := by
        unfold delListsX
        rw [fits_name hshort]
        simp [hne]
      have hnodup' : (cols.filter (· ≠ noText)).Nodup := by
        rwa [List.filter_cons_of_neg (by simpa using hne)] at hnodup
      obtain ⟨nv', hrun, hset, hother⟩ := deleteColumns_spec hroom hdel hb cols nv htail hnodup'
        fun c hc => hmissing c (List.mem_cons_of_mem _ hc)
      refine ⟨nv', ?_, fun c hc hcne => ?_, fun name hname => hother name fun c hc => hname c
        (List.mem_cons_of_mem _ hc)⟩
      · rw [List.foldlM_cons, hskip]
        exact hrun
      · exact hset c ((List.mem_cons.mp hc).resolve_left fun e => hcne (e.trans hne)) hcne
    · rw [List.filter_cons_of_pos (by simpa using hne), List.nodup_cons] at hnodup
      have hfresh : col ∉ cols := fun hc => hnodup.1 (List.mem_filter.mpr ⟨hc, by simpa using hne⟩)
      obtain ⟨nv₁, hrun₁, hdel₁, hother₁⟩ := delListsX_spec hroom hshort hdigit hdel hb nv
        (hmissing col (List.mem_cons_self ..) hne) hne
      have hapart : ∀ c ∈ cols, ∀ i j, indexed c i ≠ indexed col j :=
        fun c hc i j he => hfresh ((indexed_inj (htail c hc).2 hdigit he).1 ▸ hc)
      obtain ⟨nv', hrun, hset, hother⟩ := deleteColumns_spec hroom hdel hb cols nv₁ htail hnodup.2 fun c hc hcne => by
        rw [hother₁ _ (hapart c hc bound), hmissing c (List.mem_cons_of_mem _ hc) hcne]
      refine ⟨nv', ?_, fun c hc hcne => ?_, fun name hname => ?_⟩
      · rw [List.foldlM_cons, hrun₁]
        exact hrun
      · rcases List.mem_cons.mp hc with rfl | hc
        · exact hdel₁.congr (fun _ => rfl) fun i => hother _ fun c' hc' j he => hapart c' hc' j i he.symm
        · exact (hset c hc hcne).congr (fun i => hother₁ _ (hapart c hc i)) fun _ => rfl
      · rw [hother name fun c hc => hname c (List.mem_cons_of_mem _ hc),
          hother₁ name (hname col (List.mem_cons_self ..))]

/-! ### The actions -/

inductive GroupAction where
  | add (form : CStr → Option CStr)
  | del (delMap : List ℕ)

/-- An action on the group, and which variables there is room for. -/
structure GroupTurn where
  action : GroupAction
  room : Room

def GroupTurn.run (g : Group) (t : GroupTurn) (nv : VarMap) : Option VarMap :=
  match t.action with
  | .add form => addGroupItem g t.room form nv
  | .del delMap => removeGroupItem g t.room delMap nv

/-- Behind a text that does not fit, anything may be. -/
def GroupTurn.Step (g : Group) (nv : VarMap) (t : GroupTurn) (nv' : VarMap) : Prop := ∀ r, t.run g nv = some r → nv' = r

/-- The rows that are deleted are there, in ascending order. -/
def GroupTurn.Given (g : Group) (t : GroupTurn) (nv : VarMap) : Prop :=
  match t.action with
  | .add _ => True
  | .del delMap => delMap.Pairwise (· < ·) ∧ ∀ d ∈ delMap, (d : ℤ) < atoi (nvramGetX nv g.count).bytes

/-- Every set succeeds, and the text of the new count fits its array. -/
def GroupTurn.Meets (g : Group) (t : GroupTurn) (nv : VarMap) : Prop :=
  (∀ nv' name value, t.room nv' name value = true) ∧
    match t.action with
    | .add _ => atoi (nvramGetX nv g.count).bytes + 1 < 10000
    | .del delMap => atoi (nvramGetX nv g.count).bytes - delMap.length < 1000

/-- What the action makes of the rows. -/
def GroupTurn.rows (rows : List Row) (t : GroupTurn) : List Row :=
  match t.action with
  | .add form => rows ++ [formValue form]
  | .del delMap => without delMap rows

/-- The rows are held, and no variable is numbered higher than the count can be. -/
structure TableInv (g : Group) (nv : VarMap) (rows : List Row) : Prop where
  holds : HoldsRows g nv rows
  beyond : ∀ col ∈ g.columns, col ≠ noText → ∀ i, 9999 ≤ i → nv.lookup (indexed col i) = none

theorem EmptyTable.inv {g : Group} {nv : VarMap} (h : EmptyTable g nv) : TableInv g nv [] :=
  ⟨⟨h.count, fun _ _ _ _ hi => absurd hi (Nat.not_lt_zero _)⟩, fun col hcol hne i _ => h.row col hcol hne i⟩

theorem nvramGetX_insert (nv : VarMap) (name value : CStr) : nvramGetX (nv.insert name value) name = value := by
  rw [nvramGetX, Finmap.lookup_insert]
  rfl

/-- The count, as it is printed and read. -/
theorem atoi_count {n : ℕ} (h : n < 2 ^ 31) {tail : Bytes} (htail : tail = [] ∨ tail = [10]) :
    atoi (cstr (decimal n ++ tail)).bytes = n := by
  have hbytes : (cstr (decimal n ++ tail)).bytes = decimal n ++ tail := by
    apply cstr_bytes
    rw [List.mem_append, not_or]
    exact ⟨notMem_decimal (by decide) n, by rcases htail with rfl | rfl <;> decide⟩
  rw [hbytes, @atoi_digits (decimal n) (decimal_ne_nil n) (isDigit_of_mem_decimal n) (by rwa [digitsVal_decimal]) tail
    (by rcases htail with rfl | rfl <;> simp [isDigit]), digitsVal_decimal]

theorem without_eq (del : List ℕ) (rows : List Row) :
    without del rows = (kept del rows.length).map fun i => rows.getD i fun _ => noText := by
  rw [← List.filterMap_eq_map]
  refine List.filterMap_congr fun i hi => ?_
  have hlt := (mem_kept.mp hi).1
  simp [hlt]

theorem length_without {del : List ℕ} (hdel : del.Pairwise (· < ·)) {rows : List Row}
    (h : ∀ d ∈ del, d < rows.length) : (without del rows).length + del.length = rows.length := by
  rw [without_eq, List.length_map, length_kept hdel h]

section Steps

variable {g : Group} {room : Room} (hroom : ∀ nv name value, room nv name value = true) {nv : VarMap}
  {rows : List Row} (h : TableInv g nv rows)

theorem Group.column (g : Group) : ∀ col ∈ g.columns, col.length ≤ 21 ∧ Digitless col := fun col hcol =>
  ⟨g.short col hcol, g.digitless col (List.mem_cons_of_mem _ hcol)⟩

theorem Group.indexed_ne_count (g : Group) {col : CStr} (hcol : col ∈ g.columns) (i : ℕ) : indexed col i ≠ g.count :=
  indexed_ne (g.column col hcol).2 (g.digitless _ (List.mem_cons_self ..)) i

include hroom h

theorem addGroupItem_inv (form : CStr → Option CStr) (hcount : rows.length + 1 < 10000) :
    ∃ nv', addGroupItem g room form nv = some nv' ∧ TableInv g nv' (rows ++ [formValue form]) := by
  obtain ⟨nv₁, hrun, hset, hother⟩ :=
    @addColumns_spec room hroom (formValue form) rows.length (by omega) g.columns nv g.column
  have hfits : fits 5 (decimal (rows.length + 1)) = some (cstr (decimal (rows.length + 1) ++ [])) := by
    rw [List.append_nil]
    exact if_pos (by have := length_decimal_le (k := 3) hcount; omega)
  refine ⟨nv₁.insert g.count (cstr (decimal (rows.length + 1) ++ [])), ?_, ⟨?_, fun col hcol hne i hi => ?_⟩,
    fun col hcol hne i hi => ?_⟩
  · have hprint : printInt ((rows.length : ℤ) + 1) = decimal (rows.length + 1) := printInt_natCast (rows.length + 1)
    unfold addGroupItem
    simp only [h.holds.count, hrun, hprint, hfits, nvramSet_eq hroom, Option.bind_eq_bind, Option.bind_some]
  · rw [nvramGetX_insert, atoi_count (by omega) (Or.inl rfl), List.length_append, List.length_singleton]
  · rw [Finmap.lookup_insert_of_ne _ (g.indexed_ne_count hcol i)]
    rw [List.length_append, List.length_singleton] at hi
    by_cases hlt : i < rows.length
    · have hapart : ∀ c ∈ g.columns, indexed col i ≠ indexed c rows.length := fun c hc he =>
        hlt.ne (indexed_inj (g.column col hcol).2 (g.column c hc).2 he).2
      rw [hother _ hapart, List.getElem_append_left hlt, h.holds.row col hcol hne i hlt]
    · obtain rfl : i = rows.length := by omega
      rw [hset col hcol hne, List.getElem_concat_length rfl]
  · have hapart : ∀ c ∈ g.columns, indexed col i ≠ indexed c rows.length := fun c hc he =>
      absurd (indexed_inj (g.column col hcol).2 (g.column c hc).2 he).2 (by omega)
    rw [Finmap.lookup_insert_of_ne _ (g.indexed_ne_count hcol i), hother _ hapart, h.beyond col hcol hne i hi]

theorem removeGroupItem_inv {del : List ℕ} (hdel : del.Pairwise (· < ·)) (hbound : ∀ d ∈ del, d < rows.length)
    (hcount : rows.length - del.length < 1000) :
    ∃ nv', removeGroupItem g room del nv = some nv' ∧ TableInv g nv' (without del rows) := by
  have hlen := length_without hdel hbound
  obtain ⟨nv₁, hrun, hset, hother⟩ := @deleteColumns_spec room hroom del hdel 9999 (by decide) g.columns nv g.column
    g.nodup fun col hcol hne => h.beyond col hcol hne 9999 le_rfl
  have hfits : fits 5 (decimal (without del rows).length ++ [10]) =
      some (cstr (decimal (without del rows).length ++ [10])) := by
    have hdigits := length_decimal_le (k := 2) (n := (without del rows).length) (by omega)
    exact if_pos (by rw [List.length_append, List.length_singleton]; omega)
  refine ⟨nv₁.insert g.count (cstr (decimal (without del rows).length ++ [10])), ?_, ⟨?_, fun col hcol hne i hi => ?_⟩,
    fun col hcol hne i hi => ?_⟩
  · have hprint : printInt ((rows.length : ℤ) - del.length) = decimal (without del rows).length := by
      rw [← printInt_natCast]
      congr 1
      omega
    unfold removeGroupItem
    simp only [h.holds.count, hrun, hprint, hfits, nvramSet_eq hroom, Option.bind_eq_bind, Option.bind_some]
  · rw [nvramGetX_insert, atoi_count (by omega) (Or.inr rfl)]
  · have hlt : i < (kept del rows.length).length := by rwa [without_eq, List.length_map] at hi
    have hkn : (kept del rows.length)[i] < rows.length := (mem_kept.mp (List.getElem_mem hlt)).1
    have hthere : ∀ k < rows.length, nv.lookup (indexed col k) ≠ none := fun k hk => by
      rw [h.holds.row col hcol hne k hk]
      exact Option.some_ne_none _
    rw [Finmap.lookup_insert_of_ne _ (g.indexed_ne_count hcol i),
      (hset col hcol hne).moved rows.length hthere i _ (List.getElem?_eq_getElem hlt),
      h.holds.row col hcol hne _ hkn, List.getElem_of_eq (without_eq del rows) hi, List.getElem_map,
      List.getD_eq_getElem _ _ hkn]
  · rw [Finmap.lookup_insert_of_ne _ (g.indexed_ne_count hcol i), (hset col hcol hne).missing i
      (h.beyond col hcol hne i hi)]

end Steps

theorem GroupTurn.run_inv {g : Group} {t : GroupTurn} {nv : VarMap} {rows : List Row} (h : TableInv g nv rows)
    (hgiven : t.Given g nv) (hmeets : t.Meets g nv) :
    ∃ nv', t.run g nv = some nv' ∧ TableInv g nv' (GroupTurn.rows rows t) := by
  obtain ⟨hroom, hmeets⟩ := hmeets
  obtain ⟨action, room⟩ := t
  cases action with
  | add form =>
    have hmeets : atoi (nvramGetX nv g.count).bytes + 1 < 10000 := hmeets
    rw [h.holds.count] at hmeets
    exact addGroupItem_inv hroom h form (by omega)
  | del delMap =>
    have hmeets : atoi (nvramGetX nv g.count).bytes - delMap.length < 1000 := hmeets
    obtain ⟨hdel, hbound⟩ := hgiven
    rw [h.holds.count] at hmeets hbound
    have hbound' : ∀ d ∈ delMap, d < rows.length := fun d hd => by exact_mod_cast hbound d hd
    have hlen := length_without hdel hbound'
    exact removeGroupItem_inv hroom h hdel hbound' (by omega)

/-- **Rows of a group.** After any run of additions and deletions from the empty table that meet `Meets`, the variables
hold the rows that the actions leave, and the count is theirs. -/
theorem rows_of_run {g : Group} {nv nv' : VarMap} {ts : List GroupTurn} (h : EmptyTable g nv)
    (hrun : Run.Trace (fun nv (t : GroupTurn) nv' => t.Given g nv ∧ t.Meets g nv ∧ t.Step g nv nv') nv ts nv') :
    HoldsRows g nv' (ts.foldl GroupTurn.rows []) := by
  have hinv : TableInv g nv' (ts.foldl GroupTurn.rows []) := by
    refine hrun.inv (I := fun ts nv => TableInv g nv (ts.foldl GroupTurn.rows [])) h.inv fun ts nv₁ t nv₂ hinv hstep => ?_
    obtain ⟨hgiven, hmeets, hstep⟩ := hstep
    obtain ⟨r, hr, hinv'⟩ := t.run_inv hinv hgiven hmeets
    rwa [hstep r hr, List.foldl_append, List.foldl_cons, List.foldl_nil]
  exact hinv.holds

/-! ### The groups of the pages -/

def groupOf (columns : List CStr) (count : CStr) (hnodup : (columns.filter (· ≠ noText)).Nodup := by decide +kernel)
    (hshort : ∀ col ∈ columns, col.length ≤ 21 := by decide +kernel)
    (hdigit : ∀ name ∈ count :: columns, Digitless name := by decide +kernel) : Group :=
  ⟨columns, count, hnodup, hshort, hdigit⟩

/-- The blocked addresses. -/
def urlList : Group := groupOf [.lit "url_keyword_x"] (.lit "url_num_x")

def groups : List Group :=
  [groupOf [.lit "vts_port_x", .lit "vts_ipaddr_x", .lit "vts_lport_x", .lit "vts_proto_x", .lit "vts_desc_x"]
      (.lit "vts_num_x"),
    groupOf [.lit "autofw_outport_x", .lit "autofw_outproto_x", .lit "autofw_inport_x", .lit "autofw_inproto_x",
      .lit "autofw_desc_x"] (.lit "autofw_num_x"),
    groupOf [.lit "filter_wl_srcip_x", .lit "filter_wl_srcport_x", .lit "filter_wl_dstip_x", .lit "filter_wl_dstport_x",
      .lit "filter_wl_proto_x"] (.lit "filter_wl_num_x"),
    groupOf [.lit "filter_lw_srcip_x", .lit "filter_lw_dstport_x", .lit "filter_lw_proto_x", .lit "filter_lw_desc_x"]
      (.lit "filter_lw_num_x"),
    urlList,
    groupOf [.lit "macfilter_list_x"] (.lit "macfilter_num_x"),
    groupOf [.lit "sr_ipaddr_x", .lit "sr_netmask_x", .lit "sr_gateway_x", .lit "sr_matric_x", .lit "sr_if_x"]
      (.lit "sr_num_x"),
    groupOf [.lit "dhcp_staticmac_x", .lit "dhcp_staticip_x"] (.lit "dhcp_staticnum_x"),
    groupOf [.lit "wl_maclist_x"] (.lit "wl_macnum_x"),
    groupOf [.lit "wl_wdslist_x"] (.lit "wl_wdsnum_x"),
    groupOf [.lit "mssid_index_x", .lit "mssid_ssid_x", .lit "mssid_ssid_2_x", .lit "mssid_vlanid_x",
      .lit "mssid_auth_mode_x", .lit "mssid_crypto_x", .lit "mssid_wpa_psk_x", .lit "mssid_wep_x",
      .lit "mssid_phrase_x", .lit "mssid_key1_x", .lit "mssid_key2_x", .lit "mssid_key3_x", .lit "mssid_key4_x",
      .lit "mssid_key_x", .lit "mssid_wpa_gtk_rekey_x"] (.lit "mssidnum_x"),
    groupOf [.lit "qos_service_name_x", .lit "qos_ip_x", .lit "qos_port_x", .lit "qos_prio_x"]
      (.lit "qos_rulenum_x")]

/-- An addition of an empty row. -/
def addsRow (room : Room) : GroupTurn := ⟨.add fun _ => none, room⟩

theorem emptyTable_empty (g : Group) : EmptyTable g ∅ := by
  refine ⟨?_, fun _ _ _ _ => Finmap.lookup_empty _⟩
  rw [nvramGetX, Finmap.lookup_empty]
  decide

/-- A row is added to each group. -/
theorem rows_added : groups.Forall fun g => HoldsRows g (((addsRow fun _ _ _ => true).run g ∅).getD ∅)
    [formValue fun _ => none] := by
  refine List.forall_iff_forall_mem.mpr fun g _ => ?_
  have hmeets : (addsRow fun _ _ _ => true).Meets g ∅ := by
    refine ⟨fun _ _ _ => rfl, ?_⟩
    show atoi (nvramGetX ∅ g.count).bytes + 1 < 10000
    rw [(emptyTable_empty g).count]
    decide
  have hstep : (addsRow fun _ _ _ => true).Step g ∅ (((addsRow fun _ _ _ => true).run g ∅).getD ∅) := by
    intro r hr
    rw [hr, Option.getD_some]
  exact rows_of_run (emptyTable_empty g)
    (Run.Trace.nil.snoc (e := addsRow fun _ _ _ => true) ⟨trivial, hmeets, hstep⟩)

/-- There is room for the count, but not for the row. -/
def countOnly : Room := fun _ name value => name.length + value.length ≤ 10

/-- So an addition leaves the count alone. -/
theorem addsRow_countOnly : (addsRow countOnly).run urlList ∅ =
    some ((∅ : VarMap).insert urlList.count (.lit "1")) := by
  have hcols : urlList.columns = [.lit "url_keyword_x"] := rfl
  have hcount : atoi (nvramGetX (∅ : VarMap) urlList.count).bytes = 0 := by
    rw [(emptyTable_empty urlList).count]
  have hname : fits 32 (CStr.lit "url_keyword_x").bytes = some (.lit "url_keyword_x") := by decide +kernel
  have hindexed : fits 32 ((CStr.lit "url_keyword_x").bytes ++ printInt 0) = some (.lit "url_keyword_x0") := by
    decide +kernel
  have hnew : fits 5 (printInt (0 + 1)) = some (.lit "1") := by decide +kernel
  have hrow : ∀ value, addListsX countOnly ∅ (.lit "url_keyword_x") value 0 = some ∅ := by
    intro value
    simp only [addListsX, hname, hindexed, Option.bind_eq_bind, Option.bind_some]
    rw [if_pos (by decide), nvramSet, if_neg]
    have hlen : (CStr.lit "url_keyword_x0").length = 14 := by decide
    simp only [countOnly, hlen, decide_eq_true_eq]
    omega
  have hset : nvramSet countOnly ∅ urlList.count (some (.lit "1")) =
      (∅ : VarMap).insert urlList.count (.lit "1") := by
    rw [nvramSet, if_pos (by decide)]
  change addGroupItem urlList countOnly (fun _ => none) ∅ = _
  unfold addGroupItem
  simp only [hcount, hcols, List.foldlM_cons, List.foldlM_nil, hrow, hnew, hset, Option.bind_eq_bind,
    Option.bind_some, Option.pure_def]

theorem row_lost : ¬∀ (g : Group) (nv nv' : VarMap) (ts : List GroupTurn), EmptyTable g nv →
    Run.Trace (fun nv (t : GroupTurn) nv' => t.Given g nv ∧ t.Step g nv nv') nv ts nv' →
      HoldsRows g nv' (ts.foldl GroupTurn.rows []) := by
  intro hclaim
  have hstep : (addsRow countOnly).Step urlList ∅ ((∅ : VarMap).insert urlList.count (.lit "1")) :=
    fun r hr => Option.some.inj (addsRow_countOnly.symm.trans hr)
  have hrow := (hclaim urlList ∅ _ _ (emptyTable_empty urlList)
    (Run.Trace.nil.snoc (e := addsRow countOnly) ⟨trivial, hstep⟩)).row
    (.lit "url_keyword_x") (by decide) (by decide) 0 (by decide)
  rw [Finmap.lookup_insert_of_ne _ (by decide), Finmap.lookup_empty] at hrow
  cases hrow

end Httpd
end Router
