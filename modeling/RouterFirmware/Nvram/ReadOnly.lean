/-
# Read-only variables

`nvram_ro.c` keeps the variables it found as a list of chunks. `nvram_getall` copies the
strings of all of them into a buffer, `bcm_nvram_refresh` does so for the cache, and
`nvram_get` looks into the cache first. What it finds there is what the chunks, in
order, would have given (`nvramGet_first_match`), and `nvram_getall` says when the buffer
is too short.

A chunk holds strings in front of an empty one (`Chunk`). Its strings end inside it.
The loops over the strings take fuel; as many turns as the chunk has bytes are enough.
-/
import RouterFirmware.Nvram.Image

namespace Router
namespace Nvram
namespace ReadOnly

open CMem

/-- `vars_t`. -/
structure Vars where
  size : ℕ
  vars : Mem

/-! ### `findvar` -/

/-- The loop of `findvar`, from `s` on. -/
def findvarLoop (vars : Mem) (lim : ℕ) (name : CStr) : ℕ → ℕ → Option ℕ
  | 0, _ => none
  | fuel + 1, s =>
    if s < lim ∧ vars s ≠ 0 then
      if bytesAt vars s name.length = name.bytes ∧ vars (s + name.length) = 61 then some (s + name.length + 1)
      else findvarLoop vars lim name fuel (s + (readStr vars s (lim - s)).length + 1)
    else none

/-- `findvar(vars, vars + lim, name)`: the string it points to. -/
def findvar (vars : Mem) (lim : ℕ) (name : CStr) : Option CStr :=
  (findvarLoop vars lim name lim 0).map fun p => readStr vars p (lim - p)

/-! ### `nvram_getall` -/

def bcmeBuftooshort : ℤ := -14

/-- The loop over the strings of a chunk, from `p` on: how much was copied, unless the buffer is too
short, and the memory. -/
def copyVars (this : Vars) (buf : ℕ) (resid : ℤ) : ℕ → ℕ → ℕ → Mem → Option ℕ × Mem
  | 0, _, acc, m => (some acc, m)
  | fuel + 1, p, acc, m =>
    if p < this.size ∧ this.vars p ≠ 0 then
      let len := (readStr this.vars p (this.size - p)).length + 1
      if resid < acc + len then (none, m)
      else copyVars this buf resid fuel (p + len) (acc + len) (write m (buf + acc) (bytesAt this.vars p len))
    else (some acc, m)

/-- The loop of `nvram_getall` over the chunks. -/
def getallLoop : List Vars → ℕ → ℤ → Mem → ℤ × Mem
  | [], buf, resid, m => if resid < 1 then (bcmeBuftooshort, m) else (0, write m buf [0])
  | this :: vars, buf, resid, m =>
    match copyVars this buf resid this.size 0 0 m with
    | (none, m) => (bcmeBuftooshort, m)
    | (some acc, m) => getallLoop vars (buf + acc) (resid - acc) m

/-- `nvram_getall(buf, count)`: what it returns, and the buffer. -/
def nvramGetall (vars : List Vars) (buf : Mem) (count : ℤ) : ℤ × Mem := getallLoop vars 0 count buf

/-! ### The cache -/

/-- `nvram_vars` and `vars_len`. -/
structure Cache where
  nvramVars : Mem
  varsLen : ℕ

/-- Where the first double NUL is. -/
def nvramLength (flash : Mem) : ℕ :=
  ((List.range nvramSpace).find? fun i => flash i == 0 && flash (i + 1) == 0).getD nvramSpace

/-- `bcm_nvram_refresh(flash)`. -/
def bcmNvramRefresh (vars : List Vars) (c : Cache) : Cache :=
  let (ret, flash) := nvramGetall vars (write c.nvramVars 0 [0, 0]) nvramSpace
  if ret ≠ 0 then { c with nvramVars := flash }
  else
    let i := nvramLength flash
    ⟨flash, if i > 1 then i + 2 else 0⟩

/-- The defaults, one NUL behind each. -/
def defvars : List CStr :=
  [.lit "il0macaddr=00:11:22:33:44:55", .lit "boardtype=0xffff", .lit "boardrev=0x10", .lit "boardflags=8",
    .lit "aa0=3"]

/-- `DEFVARSLEN`. -/
def defvarslen : ℕ := 79

/-- `nvram_get(name)`, once there is a cache; with `BCMRECLAIM` the chunks may be gone. -/
def nvramGet (bcmreclaim : Bool) (vars : List Vars) (c : Cache) (name : CStr) : Option CStr :=
  let c := bcmNvramRefresh vars c
  let v := findvar c.nvramVars c.varsLen name
  let v := if bcmreclaim then v else v.or (vars.findSome? fun cur => findvar cur.vars cur.size name)
  v.or (findvar (write (fun _ => 0) 0 (defvars.flatMap CStr.withNul)) defvarslen name)

/-! ### Strings one after the other -/

/-- A variable: a name, and its value behind the '='. -/
def IsVar (s : CStr) : Prop := ∃ name value : List UInt8, name ≠ [] ∧ s.bytes = name ++ 61 :: value

/-- The strings, each with its NUL. -/
def strings (ss : List CStr) : List UInt8 := ss.flatMap CStr.withNul

/-- A well-formed chunk: variables in front of an empty string. -/
structure Chunk (this : Vars) (ss : List CStr) : Prop where
  holds : Holds this.vars 0 (strings ss ++ [0])
  fits : (strings ss).length < this.size
  isVar : ∀ s ∈ ss, IsVar s

/-- The value in a string, if it is the variable's. -/
def valueOf (name s : CStr) : Option CStr :=
  if (name.bytes ++ [61]).isPrefixOf s.bytes then
    some ⟨s.bytes.drop (name.length + 1), fun h => s.nul_notMem (List.mem_of_mem_drop h)⟩
  else none

/-- **The first match** in a list of strings. -/
def lookup (name : CStr) (ss : List CStr) : Option CStr := ss.findSome? (valueOf name)

theorem lookup_flatten (name : CStr) (l : List (List CStr)) :
    lookup name l.flatten = l.findSome? (lookup name) := by
  induction l with
  | nil => rfl
  | cons ss l ih =>
    unfold lookup at ih ⊢
    rw [List.flatten_cons, List.findSome?_append, ih, List.findSome?_cons]
    cases ss.findSome? (valueOf name) with
    | none => rfl
    | some v => rfl

theorem strings_cons (s : CStr) (ss : List CStr) : strings (s :: ss) = s.bytes ++ 0 :: strings ss := by
  show (s.bytes ++ [0]) ++ strings ss = _
  rw [List.append_assoc]
  rfl

theorem length_strings_cons (s : CStr) (ss : List CStr) :
    (strings (s :: ss)).length = s.length + 1 + (strings ss).length := by
  rw [strings_cons, List.length_append, List.length_cons]
  unfold CStr.length
  omega

theorem strings_append (ss ss' : List CStr) : strings (ss ++ ss') = strings ss ++ strings ss' :=
  List.flatMap_append

theorem IsVar.length {s : CStr} (h : IsVar s) : 2 ≤ s.length := by
  obtain ⟨name, value, hname, hs⟩ := h
  have hpos := List.length_pos_iff.mpr hname
  unfold CStr.length
  rw [hs, List.length_append, List.length_cons]
  omega

theorem IsVar.pos {s : CStr} (h : IsVar s) : 0 < s.length := Nat.lt_of_lt_of_le (by decide) h.length

/-! ### What `findvar` finds -/

/-- Comparing with a string does not go past its NUL. -/
theorem bcmp_iff {m : Mem} {rest : List UInt8} : ∀ {name x : List UInt8} {s : ℕ}, (0 : UInt8) ∉ name →
    Holds m s (x ++ 0 :: rest) →
    ((bytesAt m s name.length = name ∧ m (s + name.length) = 61) ↔ name ++ [61] <+: x) := by
  intro name
  induction name with
  | nil =>
    intro x s _ h
    cases x with
    | nil =>
      have hnul : m s = 0 := h.1
      simp [bytesAt, hnul]
    | cons b x =>
      have hb : m s = b := h.1
      simp [bytesAt, hb, eq_comm]
  | cons c name ih =>
    intro x s hname h
    rw [List.mem_cons, not_or] at hname
    cases x with
    | nil =>
      have hnul : m s = 0 := h.1
      rw [List.length_cons, bytesAt_succ, hnul]
      simp [hname.1]
    | cons b x =>
      have hb : m s = b := h.1
      rw [List.length_cons, bytesAt_succ, hb, List.cons_append, List.cons_prefix_cons, ← ih hname.2 h.2,
        List.cons.injEq, show s + (name.length + 1) = s + 1 + name.length by omega, and_assoc]
      exact and_congr_left' eq_comm

/-- In front of a string: the loop goes on, and `strlen` gives its end. -/
theorem at_string {m : Mem} {lim s : ℕ} {x : CStr} {ss : List CStr} (h : Holds m s (strings (x :: ss) ++ [0]))
    (hlim : s + (strings (x :: ss)).length < lim) (hpos : 0 < x.length) :
    (s < lim ∧ m s ≠ 0) ∧ readStr m s (lim - s) = x ∧ Holds m s x.withNul ∧
      Holds m (s + (x.length + 1)) (strings ss ++ [0]) := by
  rw [length_strings_cons] at hlim
  have hall : Holds m s (x.withNul ++ (strings ss ++ [0])) := by
    rwa [strings_cons, List.append_assoc, List.cons_append, ← List.singleton_append, ← List.append_assoc] at h
  obtain ⟨hx, hrest⟩ := holds_append.mp hall
  rw [CStr.length_withNul] at hrest
  refine ⟨⟨by omega, fun hzero => ?_⟩, readStr_of_holds hx (by omega), hx, hrest⟩
  have hfirst := holds_iff.mp (holds_append.mp hx).1 0 hpos
  rw [Nat.add_zero, hzero] at hfirst
  exact x.nul_notMem (hfirst ▸ List.getElem_mem _)

/-- The loop stands in front of the strings `ss`. -/
theorem findvarLoop_strings {m : Mem} {lim : ℕ} {name : CStr} : ∀ {ss : List CStr} {fuel s : ℕ},
    Holds m s (strings ss ++ [0]) → s + (strings ss).length < lim → (strings ss).length < fuel →
    (∀ x ∈ ss, 0 < x.length) →
    (findvarLoop m lim name fuel s).map (fun p => readStr m p (lim - p)) = lookup name ss := by
  intro ss
  induction ss with
  | nil =>
    intro fuel s h _ hfuel _
    obtain ⟨fuel, rfl⟩ := Nat.exists_eq_succ_of_ne_zero (Nat.ne_of_gt (Nat.zero_lt_of_lt hfuel))
    have hnul : m s = 0 := h.1
    rw [findvarLoop, if_neg fun hgo => hgo.2 hnul]
    rfl
  | cons x ss ih =>
    intro fuel s h hlim hfuel hvars
    obtain ⟨fuel, rfl⟩ := Nat.exists_eq_succ_of_ne_zero (Nat.ne_of_gt (Nat.zero_lt_of_lt hfuel))
    obtain ⟨hgo, hread, hx, hrest⟩ := at_string h hlim (hvars x List.mem_cons_self)
    rw [length_strings_cons] at hlim hfuel
    have hmem : Holds m s (x.bytes ++ 0 :: []) := hx
    have hcmp := bcmp_iff name.nul_notMem hmem
    unfold lookup
    rw [findvarLoop, if_pos hgo, List.findSome?_cons]
    unfold valueOf
    by_cases hfound : name.bytes ++ [61] <+: x.bytes
    · have hmatch : bytesAt m s name.length = name.bytes ∧ m (s + name.length) = 61 := hcmp.mpr hfound
      rw [if_pos hmatch, if_pos (List.isPrefixOf_iff_prefix.mpr hfound), Option.map_some]
      congr 1
      obtain ⟨value, hvalue⟩ := hfound
      have hcut : (name.bytes ++ [61]).length = name.length + 1 := by
        rw [List.length_append, List.length_singleton]
        rfl
      have hdrop : x.bytes.drop (name.length + 1) = value := by
        rw [← hvalue, ← hcut, List.drop_left]
      have hxlen : x.length = name.length + 1 + value.length := by
        unfold CStr.length
        rw [← hvalue, List.length_append, hcut]
        rfl
      have hv : Holds m (s + name.length + 1) (value ++ [0]) := by
        rw [← hvalue, List.append_assoc] at hmem
        have htail := (holds_append.mp hmem).2
        rwa [hcut, ← Nat.add_assoc] at htail
      apply CStr.ext_bytes
      show scan m (s + name.length + 1) (lim - (s + name.length + 1)) = x.bytes.drop (name.length + 1)
      have hnotin : (0 : UInt8) ∉ value := fun hin => x.nul_notMem (List.mem_of_mem_drop (hdrop ▸ hin))
      rw [hdrop, scan_of_holds hnotin hv (by omega)]
    · have hmiss : ¬(bytesAt m s name.length = name.bytes ∧ m (s + name.length) = 61) :=
        fun hmatch => hfound (hcmp.mp hmatch)
      rw [if_neg hmiss, if_neg fun hpre => hfound (List.isPrefixOf_iff_prefix.mp hpre), hread]
      apply ih
      · exact hrest
      · omega
      · omega
      · exact fun y hy => hvars y (List.mem_cons_of_mem x hy)

/-- `findvar` finds the first match. -/
theorem findvar_strings {m : Mem} {lim : ℕ} {ss : List CStr} (h : Holds m 0 (strings ss ++ [0]))
    (hlim : (strings ss).length < lim) (hvars : ∀ x ∈ ss, 0 < x.length) (name : CStr) : findvar m lim name = lookup name ss :=
  findvarLoop_strings h (by omega) hlim hvars

/-! ### What `nvram_getall` copies -/

/-- In front of a string, `nvram_getall` copies it if there is room. -/
theorem copyVars_string {this : Vars} {buf : ℕ} {resid : ℤ} {x : CStr} {ss : List CStr} {fuel p acc : ℕ} {m : Mem}
    (h : Holds this.vars p (strings (x :: ss) ++ [0])) (hlim : p + (strings (x :: ss)).length < this.size)
    (hvar : IsVar x) :
    copyVars this buf resid (fuel + 1) p acc m =
      if resid < (acc : ℤ) + (x.length + 1) then (none, m)
      else copyVars this buf resid fuel (p + (x.length + 1)) (acc + (x.length + 1)) (write m (buf + acc) x.withNul) := by
  obtain ⟨hgo, hread, hx, -⟩ := at_string h hlim hvar.pos
  have hbytes : bytesAt this.vars p (x.length + 1) = x.withNul := by
    rw [← CStr.length_withNul]
    exact bytesAt_of_holds hx
  rw [copyVars, if_pos hgo, hread]
  dsimp only
  rw [hbytes, Nat.cast_add, Nat.cast_one]

theorem copyVars_end {this : Vars} {buf : ℕ} {resid : ℤ} {fuel p acc : ℕ} {m : Mem}
    (h : Holds this.vars p (strings [] ++ [0])) : copyVars this buf resid (fuel + 1) p acc m = (some acc, m) := by
  have hnul : this.vars p = 0 := h.1
  rw [copyVars, if_neg fun hgo => hgo.2 hnul]

/-- A chunk is copied if there is room for it. -/
theorem copyVars_strings {this : Vars} {buf : ℕ} {resid : ℤ} : ∀ {ss : List CStr} {fuel p acc : ℕ} {m : Mem},
    Holds this.vars p (strings ss ++ [0]) → p + (strings ss).length < this.size → (strings ss).length < fuel →
    (∀ x ∈ ss, IsVar x) → (acc : ℤ) + (strings ss).length ≤ resid →
    copyVars this buf resid fuel p acc m = (some (acc + (strings ss).length), write m (buf + acc) (strings ss)) := by
  intro ss
  induction ss with
  | nil =>
    intro fuel p acc m h _ hfuel _ _
    obtain ⟨fuel, rfl⟩ := Nat.exists_eq_succ_of_ne_zero (Nat.ne_of_gt (Nat.zero_lt_of_lt hfuel))
    rw [copyVars_end h]
    show (some acc, m) = (some acc, write m (buf + acc) [])
    rw [write_nil]
  | cons x ss ih =>
    intro fuel p acc m h hlim hfuel hvars hroom
    obtain ⟨fuel, rfl⟩ := Nat.exists_eq_succ_of_ne_zero (Nat.ne_of_gt (Nat.zero_lt_of_lt hfuel))
    have hvar := hvars x List.mem_cons_self
    obtain ⟨-, -, -, hrest⟩ := at_string h hlim hvar.pos
    have hcut : strings (x :: ss) = x.withNul ++ strings ss := rfl
    rw [copyVars_string h hlim hvar]
    rw [length_strings_cons] at hlim hfuel hroom
    rw [if_neg (by omega), ih hrest (by omega) (by omega) (fun y hy => hvars y (List.mem_cons_of_mem x hy)) (by omega),
      length_strings_cons, Nat.add_assoc acc, hcut, ← write_write, CStr.length_withNul, Nat.add_assoc buf]

/-- And otherwise the buffer is too short. -/
theorem copyVars_short {this : Vars} {buf : ℕ} {resid : ℤ} : ∀ {ss : List CStr} {fuel p acc : ℕ} {m : Mem},
    Holds this.vars p (strings ss ++ [0]) → p + (strings ss).length < this.size → (strings ss).length < fuel →
    (∀ x ∈ ss, IsVar x) → ss ≠ [] → resid < (acc : ℤ) + (strings ss).length →
    (copyVars this buf resid fuel p acc m).1 = none := by
  intro ss
  induction ss with
  | nil =>
    intro fuel p acc m _ _ _ _ hne
    exact absurd rfl hne
  | cons x ss ih =>
    intro fuel p acc m h hlim hfuel hvars _ hshort
    obtain ⟨fuel, rfl⟩ := Nat.exists_eq_succ_of_ne_zero (Nat.ne_of_gt (Nat.zero_lt_of_lt hfuel))
    have hvar := hvars x List.mem_cons_self
    obtain ⟨-, -, -, hrest⟩ := at_string h hlim hvar.pos
    rw [copyVars_string h hlim hvar]
    rw [length_strings_cons] at hlim hfuel hshort
    by_cases hnow : resid < (acc : ℤ) + (x.length + 1)
    · rw [if_pos hnow]
    · rw [if_neg hnow]
      apply ih hrest (by omega) (by omega) (fun y hy => hvars y (List.mem_cons_of_mem x hy))
      · rintro rfl
        have hnil : (strings []).length = 0 := rfl
        omega
      · push_cast
        omega

/-- Both, for the chunks one after the other. -/
theorem getallLoop_chunks {vars : List Vars} {l : List (List CStr)} (h : List.Forall₂ Chunk vars l) :
    ∀ (buf : ℕ) (resid : ℤ) (m : Mem),
      if resid < (strings l.flatten).length + 1 then (getallLoop vars buf resid m).1 = bcmeBuftooshort
      else getallLoop vars buf resid m = (0, write m buf (strings l.flatten ++ [0])) := by
  induction h with
  | nil =>
    intro buf resid m
    have hnil : (strings ([] : List (List CStr)).flatten).length = 0 := rfl
    rw [getallLoop, hnil]
    by_cases hshort : resid < 1
    · rw [if_pos (by omega), if_pos hshort]
    · rw [if_neg (by omega), if_neg hshort]
      rfl
  | @cons this ss vars l hchunk _ ih =>
    intro buf resid m
    have hfits := hchunk.fits
    have hlen : (strings (ss :: l).flatten).length = (strings ss).length + (strings l.flatten).length := by
      rw [List.flatten_cons, strings_append, List.length_append]
    have hsplit : strings (ss :: l).flatten = strings ss ++ strings l.flatten := by
      rw [List.flatten_cons, strings_append]
    rw [getallLoop]
    by_cases hroom : ((strings ss).length : ℤ) ≤ resid
    · rw [copyVars_strings hchunk.holds (by omega) hfits hchunk.isVar (by omega), Nat.zero_add, Nat.add_zero]
      have hrest := ih (buf + (strings ss).length) (resid - (strings ss).length) (write m buf (strings ss))
      by_cases hshort : resid < (strings (ss :: l).flatten).length + 1
      · rw [if_pos hshort]
        rw [if_pos (by omega)] at hrest
        exact hrest
      · rw [if_neg hshort]
        rw [if_neg (by omega)] at hrest
        dsimp only
        rw [hrest, write_write, hsplit, List.append_assoc]
    · rw [if_pos (by omega)]
      by_cases hss : ss = []
      · subst hss
        have hzero : (strings []).length = 0 := rfl
        obtain ⟨size, hsize⟩ := Nat.exists_eq_succ_of_ne_zero (Nat.ne_of_gt (Nat.zero_lt_of_lt hfits))
        rw [hsize, copyVars_end hchunk.holds]
        have hrest := ih (buf + 0) (resid - 0) m
        rw [if_pos (by omega)] at hrest
        exact hrest
      · have hnone : (copyVars this buf resid this.size 0 0 m).1 = none :=
          copyVars_short hchunk.holds (by omega) hfits hchunk.isVar hss (by omega)
        generalize copyVars this buf resid this.size 0 0 m = r at hnone ⊢
        obtain ⟨acc, m'⟩ := r
        cases hnone
        rfl

/-! ### The cache -/

theorem findSome?_chunks {vars : List Vars} {l : List (List CStr)} (h : List.Forall₂ Chunk vars l) (name : CStr) :
    (vars.findSome? fun cur => findvar cur.vars cur.size name) = lookup name l.flatten := by
  rw [lookup_flatten]
  induction h with
  | nil => rfl
  | cons hchunk _ ih =>
    have hpos := fun x hx => (hchunk.isVar x hx).pos
    rw [List.findSome?_cons, List.findSome?_cons, findvar_strings hchunk.holds hchunk.fits hpos, ih]

/-- In a row of strings no two NULs follow each other, up to its end. -/
theorem double_nul {m : Mem} : ∀ {ss : List CStr} {p : ℕ}, Holds m p (strings ss ++ [0]) → (∀ x ∈ ss, 0 < x.length) →
    ∀ i, p ≤ i → i + 1 < p + (strings ss).length → ¬(m i = 0 ∧ m (i + 1) = 0) := by
  intro ss
  induction ss with
  | nil =>
    intro p _ _ i hi hend
    exact absurd hend (by show ¬i + 1 < p + 0; omega)
  | cons x ss ih =>
    rintro p h hvars i hi hend ⟨h0, h1⟩
    obtain ⟨-, -, hx, hrest⟩ := at_string h (Nat.lt_succ_self _) (hvars x List.mem_cons_self)
    rw [length_strings_cons] at hend
    by_cases hin : i < p + x.length
    · have hbyte := holds_iff.mp (holds_append.mp hx).1 (i - p) (by unfold CStr.length at hin; omega)
      rw [Nat.add_sub_cancel' hi, h0] at hbyte
      exact x.nul_notMem (hbyte ▸ List.getElem_mem _)
    · by_cases hnul : i = p + x.length
      · cases ss with
        | nil =>
          have hzero : (strings []).length = 0 := rfl
          omega
        | cons y ss =>
          obtain ⟨hgo, -⟩ := at_string hrest (Nat.lt_succ_self _) (hvars y (List.mem_cons_of_mem x List.mem_cons_self))
          rw [hnul] at h1
          exact hgo.2 h1
      · exact ih hrest (fun y hy => hvars y (List.mem_cons_of_mem x hy)) i (by omega) (by omega) ⟨h0, h1⟩

theorem last_nul {m : Mem} : ∀ {ss : List CStr} {p : ℕ}, Holds m p (strings ss) → ss ≠ [] →
    ∃ i, i + 1 = p + (strings ss).length ∧ m i = 0 := by
  intro ss
  induction ss with
  | nil =>
    intro p _ hne
    exact absurd rfl hne
  | cons x ss ih =>
    intro p h _
    obtain ⟨hx, hrest⟩ := holds_append.mp (show Holds m p (x.withNul ++ strings ss) from h)
    rw [CStr.length_withNul] at hrest
    by_cases hss : ss = []
    · subst hss
      have hzero : (strings []).length = 0 := rfl
      refine ⟨p + x.length, ?_, (holds_append.mp hx).2.1⟩
      rw [length_strings_cons, hzero]
      omega
    · obtain ⟨i, hi, h0⟩ := ih hrest hss
      refine ⟨i, ?_, h0⟩
      rw [length_strings_cons]
      omega

/-- The length that the cache is given. -/
theorem nvramLength_strings {flash : Mem} {ss : List CStr} (h : Holds flash 0 (strings ss ++ [0])) (hne : ss ≠ [])
    (hvars : ∀ x ∈ ss, 0 < x.length) (hfit : (strings ss).length + 1 ≤ nvramSpace) :
    nvramLength flash + 1 = (strings ss).length := by
  obtain ⟨hstrings, hend⟩ := holds_append.mp h
  obtain ⟨i, hi, h0⟩ := last_nul hstrings hne
  have h1 : flash (i + 1) = 0 := by
    rw [hi]
    exact hend.1
  have hfind : ((List.range nvramSpace).find? fun i => flash i == 0 && flash (i + 1) == 0) = some i := by
    rw [List.find?_range_eq_some]
    refine ⟨?_, List.mem_range.mpr (by omega), fun j hj => ?_⟩
    · rw [h0, h1]
      rfl
    · have hnot := double_nul h hvars j (Nat.zero_le _) (by omega)
      rw [Bool.not_eq_true', Bool.and_eq_false_iff, beq_eq_false_iff_ne, beq_eq_false_iff_ne]
      exact not_and_or.mp hnot
  unfold nvramLength
  rw [hfind, Option.getD_some]
  omega

theorem isVar_flatten {vars : List Vars} {l : List (List CStr)} (h : List.Forall₂ Chunk vars l) :
    ∀ x ∈ l.flatten, IsVar x := by
  induction h with
  | nil => exact fun x hx => absurd hx List.not_mem_nil
  | cons hchunk _ ih =>
    intro x hx
    rw [List.flatten_cons, List.mem_append] at hx
    rcases hx with hx | hx
    · exact hchunk.isVar x hx
    · exact ih x hx

/-- What the cache holds. -/
theorem bcmNvramRefresh_chunks {vars : List Vars} {l : List (List CStr)} (h : List.Forall₂ Chunk vars l)
    (hfit : (strings l.flatten).length + 1 ≤ nvramSpace) (c : Cache) :
    Holds (bcmNvramRefresh vars c).nvramVars 0 (strings l.flatten ++ [0]) ∧
      (bcmNvramRefresh vars c).varsLen = if l.flatten = [] then 0 else (strings l.flatten).length + 1 := by
  have hall := getallLoop_chunks h 0 nvramSpace (write c.nvramVars 0 [0, 0])
  rw [if_neg (by omega)] at hall
  have hrefresh : bcmNvramRefresh vars c =
      ⟨write (write c.nvramVars 0 [0, 0]) 0 (strings l.flatten ++ [0]),
        if nvramLength (write (write c.nvramVars 0 [0, 0]) 0 (strings l.flatten ++ [0])) > 1 then
          nvramLength (write (write c.nvramVars 0 [0, 0]) 0 (strings l.flatten ++ [0])) + 2
        else 0⟩ := by
    unfold bcmNvramRefresh nvramGetall
    rw [hall]
    rfl
  have hholds := holds_write_same (write c.nvramVars 0 [0, 0]) 0 (strings l.flatten ++ [0])
  rw [hrefresh]
  refine ⟨hholds, ?_⟩
  dsimp only
  by_cases hnil : l.flatten = []
  · rw [if_pos hnil, hnil]
    have hzero : nvramLength (write (write c.nvramVars 0 [0, 0]) 0 (strings [] ++ [0])) = 0 := by
      unfold nvramLength
      rw [List.find?_range_eq_some.mpr ⟨rfl, List.mem_range.mpr (by decide), fun j hj => absurd hj (Nat.not_lt_zero j)⟩]
      rfl
    rw [hzero]
    rfl
  · rw [if_neg hnil]
    have hlen := nvramLength_strings hholds hnil (fun x hx => (isVar_flatten h x hx).pos) hfit
    obtain ⟨x, ss, hss⟩ := List.exists_cons_of_ne_nil hnil
    have hx := (isVar_flatten h x (hss ▸ List.mem_cons_self)).length
    have hthree : 3 ≤ (strings l.flatten).length := by
      rw [hss, length_strings_cons]
      omega
    rw [if_pos (by omega)]
    omega

/-- **Lookup in the cache**: for well-formed chunks that fit, `nvram_get` finds in the cache what the chunks
in order would have given; and `nvram_getall` copies everything or says that the buffer is too short. -/
theorem nvramGet_first_match {vars : List Vars} {l : List (List CStr)} (h : List.Forall₂ Chunk vars l) :
    ((strings l.flatten).length + 1 ≤ nvramSpace → ∀ (c : Cache) (name : CStr),
      (findvar (bcmNvramRefresh vars c).nvramVars (bcmNvramRefresh vars c).varsLen name =
        vars.findSome? fun cur => findvar cur.vars cur.size name) ∧
      ∀ bcmreclaim, nvramGet bcmreclaim vars c name =
        (vars.findSome? fun cur => findvar cur.vars cur.size name).or
          (findvar (write (fun _ => 0) 0 (defvars.flatMap CStr.withNul)) defvarslen name)) ∧
    ∀ (buf : Mem) (count : ℤ),
      if count < (strings l.flatten).length + 1 then (nvramGetall vars buf count).1 = bcmeBuftooshort
      else nvramGetall vars buf count = (0, write buf 0 (strings l.flatten ++ [0])) := by
  refine ⟨fun hfit c name => ?_, fun buf count => getallLoop_chunks h 0 count buf⟩
  have hcache : findvar (bcmNvramRefresh vars c).nvramVars (bcmNvramRefresh vars c).varsLen name =
      vars.findSome? fun cur => findvar cur.vars cur.size name := by
    obtain ⟨hholds, hlen⟩ := bcmNvramRefresh_chunks h hfit c
    rw [findSome?_chunks h, hlen]
    by_cases hnil : l.flatten = []
    · rw [if_pos hnil, hnil]
      rfl
    · rw [if_neg hnil]
      exact findvar_strings hholds (Nat.lt_succ_self _) (fun x hx => (isVar_flatten h x hx).pos) name
  refine ⟨hcache, fun bcmreclaim => ?_⟩
  unfold nvramGet
  dsimp only
  rw [hcache]
  cases bcmreclaim with
  | true => rfl
  | false => rw [if_neg Bool.false_ne_true, Option.or_self]

/-- The chunk of some strings. -/
def chunkOf (ss : List CStr) : Vars := ⟨(strings ss).length + 1, write (fun _ => 0) 0 (strings ss ++ [0])⟩

theorem chunk_chunkOf {ss : List CStr} (h : ∀ s ∈ ss, IsVar s) : Chunk (chunkOf ss) ss :=
  ⟨holds_write_same _ _ _, Nat.lt_succ_self _, h⟩

/-- Two chunks, with a variable that is in both. -/
theorem nvramGet_first_match_two :
    nvramGet true [chunkOf [.lit "a=1", .lit "b=2"], chunkOf [.lit "a=3"]] ⟨fun _ => 255, 0⟩ (.lit "a") =
      some (.lit "1") ∧
    (nvramGetall [chunkOf [.lit "a=1", .lit "b=2"], chunkOf [.lit "a=3"]] (fun _ => 0) 12).1 = bcmeBuftooshort := by
  have ha : IsVar (.lit "a=1") := ⟨[97], [49], by decide, by decide⟩
  have hb : IsVar (.lit "b=2") := ⟨[98], [50], by decide, by decide⟩
  have ha' : IsVar (.lit "a=3") := ⟨[97], [51], by decide, by decide⟩
  have hchunks : List.Forall₂ Chunk [chunkOf [.lit "a=1", .lit "b=2"], chunkOf [.lit "a=3"]]
      [[.lit "a=1", .lit "b=2"], [.lit "a=3"]] := by
    refine .cons (chunk_chunkOf ?_) (.cons (chunk_chunkOf ?_) .nil)
    · simpa using ⟨ha, hb⟩
    · simpa using ha'
  have hmain := nvramGet_first_match hchunks
  refine ⟨((hmain.1 (by decide) _ _).2 true).trans (by decide +kernel), ?_⟩
  have hshort := hmain.2 (fun _ => 0) 12
  rwa [if_pos (by decide)] at hshort

end ReadOnly
end Nvram
end Router
