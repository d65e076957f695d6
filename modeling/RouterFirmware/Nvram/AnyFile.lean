/-
# Any file restored

`nvram_restore` takes the number of bytes to read from the file, and reads as many as there are; it goes through the
strings in `buf` until an empty one, wherever that is; and it does so with what was in `buf` before when the file has no
header. An entry without `=` is unset, and so is every text it ends with. The `nvram_set` of user programs reads 13
bytes from `value` on for `wl_key1` while `wsc_set` is `"1"`, also where `value` is NULL.

What a run does is said by the entries of `buf` (`Chain`, `parseLoop_chain`), and from there on without the memory: the
run is safe exactly where the file and the entries are as in `Fits` (`restore_safe_iff`). The answers of the kernel are
an input; `nvram_restore` does not look at them.
-/
import RouterFirmware.Nvram.Restore
import RouterFirmware.Lib.Fuel
import RouterFirmware.Lib.InPlace

namespace Router
namespace Nvram
namespace AnyFile

open CMem CText Fuel

/-! ### The program -/

/-- The variables, and how many writes there have been. -/
structure Vars where
  vars : VarMap
  writes : ℕ

/-- What becomes of the call: a byte that is not in `buf` is read or written, or it is done. -/
inductive Result where
  | outside
  | done (s : Vars)

section Program

variable (answers : ℕ → Bool)

/-- A write to `/dev/nvram`, which the kernel may refuse. -/
def Vars.write (s : Vars) (name : CStr) (value : Option CStr) : Vars :=
  ⟨if answers s.writes then (mapDevice.write s.vars name value).getD s.vars else s.vars, s.writes + 1⟩

/-- `nvram_set(name, value)`, for the value at `value` in `buf`. -/
def nvramSet (s : Vars) (name : CStr) (buf : Mem) (value : ℕ) : Option Vars :=
  if wscIsSet mapDevice s.vars ∧ name.bytes.take 7 = wlKey1.bytes ∧ nvramSpace < value + 13 then none
  else
    some (s.write answers name (some (written (wscIsSet mapDevice s.vars) name
      (readStr buf value (nvramSpace - value)) (cstr (hexKey buf value)))))

/-- `nvram_unset(name)`: the value is NULL. -/
def nvramUnset (s : Vars) (name : CStr) : Option Vars :=
  if wscIsSet mapDevice s.vars ∧ (name.bytes.take 7 = wlKey1.bytes ∨ name = wlSsid) then none
  else some (s.write answers name none)

/-- The loop of `nvram_restore`, from `p`. -/
def parseLoop : ℕ → Mem → ℕ → Vars → Option Result
  | 0, _, _, _ => none
  | fuel + 1, buf, p, s =>
    if nvramSpace ≤ p then some .outside
    else if buf p = 0 then some (.done s)
    else
      match strchr buf 61 p (nvramSpace - p) with
      | some v =>
        let buf := write buf v [0]
        let name := readStr buf p (nvramSpace - p)
        let value := readStr buf (v + 1) (nvramSpace - (v + 1))
        if nvramSpace ≤ v + 1 + value.length then some .outside
        else
          match if issyspara name then nvramSet answers s name buf (v + 1) else some s with
          | none => some .outside
          | some s => parseLoop fuel buf (v + 1 + value.length + 1) s
      | none =>
        let name := readStr buf p (nvramSpace - p)
        if nvramSpace ≤ p + name.length then some .outside
        else
          match nvramUnset answers s name with
          | none => some .outside
          | some s => parseLoop fuel buf (p + 1) s

/-- `nvram_set("x_Setting", "1")` at the end. -/
def finish : Result → Result
  | .outside => .outside
  | .done s =>
    match nvramSet answers s xSetting (strcpy (fun _ => 0) 0 one) 0 with
    | none => .outside
    | some s => .done s

/-- The file starts with a complete header. -/
def Complete (file : Bytes) : Prop := 8 ≤ file.length ∧ file.take 4 = bytes "HDR1"

instance (file : Bytes) : Decidable (Complete file) := inferInstanceAs (Decidable (_ ∧ _))

/-- The bytes that are read after the header: as many as it says, or as there are. -/
def body (file : Bytes) : Bytes := (file.drop 8).take (le32 (write (fun _ => 0) 0 (file.take 8)) 4).toNat

/-- `nvram_restore`, for a file that can be opened; `stack` is what `buf` holds before. -/
def nvramRestore (stack : Mem) (file : Bytes) (s : Vars) (fuel : ℕ) : Option Result :=
  if Complete file then
    if nvramSpace < (body file).length then some .outside
    else (parseLoop answers fuel (write stack 0 (body file)) 0 s).map (finish answers)
  else (parseLoop answers fuel stack 0 s).map (finish answers)

end Program

/-- Whatever the variables are and the kernel answers: the call returns, stays inside of `buf`, and changes only
`x_Setting` if the file has no complete header. -/
def Safe (stack : Mem) (file : Bytes) : Prop :=
  ∀ (answers : ℕ → Bool) (m : VarMap), Returns (nvramRestore answers stack file ⟨m, 0⟩) fun r =>
    ∃ s, r = .done s ∧ (¬Complete file → ∀ n, n ≠ xSetting → s.vars.lookup n = m.lookup n)

/-! ### The entries of `buf` -/

/-- A name, and the bytes of `buf` from its value on. -/
structure Entry where
  name : CStr
  tail : Bytes

/-- Entries with a `=`, and what is behind them. -/
inductive Chain : Bytes → List Entry → Bytes → Prop
  | nil (data : Bytes) : Chain data [] data
  | cons (name value : CStr) {rest tail : Bytes} {es : List Entry} (hname : 61 ∉ name.bytes)
      (h : Chain rest es tail) :
      Chain (name.bytes ++ 61 :: (value.bytes ++ 0 :: rest)) (⟨name, value.bytes ++ 0 :: rest⟩ :: es) tail

/-- What the loop starts from. -/
def content (stack : Mem) (file : Bytes) : Mem := if Complete file then write stack 0 (body file) else stack

/-- What the file, and what `buf` holds before, have to be. -/
structure FitsAs (stack : Mem) (file : Bytes) (es : List Entry) (last : CStr) (rest : Bytes) : Prop where
  /-- No more is read than there is room for. -/
  body : Complete file → (body file).length ≤ nvramSpace
  /-- The entries end in `buf`: with an empty text, or with one that has no `=`. -/
  chain : Chain (load (content stack file) 0 nvramSpace) es (last.bytes ++ 0 :: rest)
  noEq : 61 ∉ last.bytes
  /-- There are 13 bytes for a key. -/
  key : ∀ e ∈ es, e.name.bytes.take 7 = wlKey1.bytes → 13 ≤ e.tail.length
  /-- The last text has none of the names for which the value is read. -/
  noKey : ¬wlKey1.bytes <:+: last.bytes
  noSsid : ¬wlSsid.bytes <:+ last.bytes
  /-- Without a header, nothing that was in `buf` before is set or unset. -/
  noSet : ¬Complete file → ∀ e ∈ es, issyspara e.name = false
  noUnset : ¬Complete file → last.bytes = []

def Fits (stack : Mem) (file : Bytes) : Prop := ∃ es last rest, FitsAs stack file es last rest

/-! ### A turn of the loop -/

section Turn

variable (answers : ℕ → Bool)

/-- `nvram_set`, by the bytes from the value on. -/
def setValue (s : Vars) (name : CStr) (tail : Bytes) : Option Vars :=
  if wscIsSet mapDevice s.vars ∧ name.bytes.take 7 = wlKey1.bytes ∧ tail.length < 13 then none
  else
    some (s.write answers name (some (written (wscIsSet mapDevice s.vars) name (cstr tail)
      (cstr ((tail.take 13).flatMap fun c => [upperHex (c.toNat / 16), upperHex (c.toNat % 16)])))))

def setEntry (s : Vars) (e : Entry) : Option Vars :=
  if issyspara e.name then setValue answers s e.name e.tail else some s

/-- The text is unset, and every text it ends with. -/
def unsetAll : Bytes → Vars → Option Vars
  | [], s => some s
  | c :: l, s => (nvramUnset answers s (cstr (c :: l))).bind (unsetAll l)

variable {buf : Mem} {p : ℕ}

/-- Where a text stands that has its end in `buf`. -/
theorem readStr_eq {name : CStr} {rest : Bytes} (h : Holds buf p (name.bytes ++ 0 :: rest))
    (hend : p + (name.bytes ++ 0 :: rest).length = nvramSpace) : readStr buf p (nvramSpace - p) = name := by
  have hsplit : name.bytes ++ 0 :: rest = name.withNul ++ rest := by simp [CStr.withNul]
  rw [hsplit] at h hend
  apply readStr_of_holds (holds_append.mp h).1
  rw [List.length_append, CStr.length_withNul] at hend
  omega

theorem nvramSet_eq {s : Vars} {name value : CStr} {rest : Bytes} (h : Holds buf p (value.bytes ++ 0 :: rest))
    (hend : p + (value.bytes ++ 0 :: rest).length = nvramSpace) :
    nvramSet answers s name buf p = setValue answers s name (value.bytes ++ 0 :: rest) := by
  have hvalue : cstr (value.bytes ++ 0 :: rest) = value := CStr.ext_bytes (cstr_append_nul value.nul_notMem rest)
  have hroom : nvramSpace < p + 13 ↔ (value.bytes ++ 0 :: rest).length < 13 := by omega
  unfold nvramSet setValue
  simp only [hroom]
  rw [readStr_eq h hend, hvalue]
  split
  · rfl
  · rename_i hnot
    by_cases hkey : wscIsSet mapDevice s.vars = true ∧ name.bytes.take 7 = wlKey1.bytes
    · -- the 13 bytes of the key are in `buf`
      have hlen : 13 ≤ (value.bytes ++ 0 :: rest).length := by
        by_contra hshort
        exact hnot ⟨hkey.1, hkey.2, by omega⟩
      have hload : load buf p 13 = (value.bytes ++ 0 :: rest).take 13 := by
        have htake : Holds buf p ((value.bytes ++ 0 :: rest).take 13) := by
          have hcut := h
          rw [← List.take_append_drop 13 (value.bytes ++ 0 :: rest)] at hcut
          exact (holds_append.mp hcut).1
        have heq := load_of_holds htake
        rwa [List.length_take, min_eq_left hlen] at heq
      rw [hexKey, hload]
    · have hsame : ∀ hex, written (wscIsSet mapDevice s.vars) name value hex =
          written (wscIsSet mapDevice s.vars) name value ⟨[], List.not_mem_nil⟩ := by
        intro hex
        unfold written
        rw [if_neg hkey, if_neg hkey]
      rw [hsame, hsame (cstr _)]

/-- An entry with a `=`. -/
theorem parseLoop_entry {name value : CStr} {rest : Bytes} (hname : 61 ∉ name.bytes)
    (h : Holds buf p (name.bytes ++ 61 :: (value.bytes ++ 0 :: rest)))
    (hend : p + (name.bytes ++ 61 :: (value.bytes ++ 0 :: rest)).length = nvramSpace) :
    ∃ buf', Holds buf' (nvramSpace - rest.length) rest ∧ ∀ fuel s,
      parseLoop answers (fuel + 1) buf p s =
        match setEntry answers s ⟨name, value.bytes ++ 0 :: rest⟩ with
        | none => some .outside
        | some s => parseLoop answers fuel buf' (nvramSpace - rest.length) s := by
  have hcut : name.bytes ++ 61 :: (value.bytes ++ 0 :: rest) = (name.bytes ++ [61]) ++ (value.bytes ++ 0 :: rest) := by
    simp
  have hlen : (name.bytes ++ 61 :: (value.bytes ++ 0 :: rest)).length =
      name.length + 1 + (value.length + 1 + rest.length) := by
    simp only [List.length_append, List.length_cons, CStr.length]
    omega
  rw [hlen] at hend
  have hh := h
  rw [hcut] at hh
  obtain ⟨hfront, htail⟩ := holds_append.mp hh
  have hpos : p + (name.bytes ++ [(61 : UInt8)]).length = p + name.length + 1 := by
    rw [List.length_append, List.length_singleton]
    rfl
  rw [hpos] at htail
  have hchr : strchr buf 61 p (nvramSpace - p) = some (p + name.length) :=
    strchr_of_holds name.nul_notMem hname hfront (by unfold CStr.length at *; omega)
  have hne : buf p ≠ 0 := by
    cases hb : name.bytes with
    | nil =>
      rw [hb] at hfront
      rw [hfront.1]
      decide
    | cons c l =>
      rw [hb] at hfront
      rw [hfront.1]
      rintro rfl
      exact name.nul_notMem (hb ▸ List.mem_cons_self)
  -- the NUL in place of the `=` ends the name, and what is behind it stays
  have hname' : readStr (write buf (p + name.length) [0]) p (nvramSpace - p) = name := by
    refine readStr_of_holds (holds_append.mpr ⟨holds_write_of_le (holds_append.mp hfront).1 (le_refl _), ?_⟩) (by omega)
    exact holds_write_same _ _ _
  have htail' : Holds (write buf (p + name.length) [0]) (p + name.length + 1) (value.bytes ++ 0 :: rest) :=
    holds_write_of_ge htail (by simp)
  have hspace : p + name.length + 1 + (value.bytes ++ 0 :: rest).length = nvramSpace := by
    simp only [List.length_append, List.length_cons]
    unfold CStr.length at hend ⊢
    omega
  have hvalue' : readStr (write buf (p + name.length) [0]) (p + name.length + 1)
      (nvramSpace - (p + name.length + 1)) = value := readStr_eq htail' hspace
  have hnext : p + name.length + 1 + value.length + 1 = nvramSpace - rest.length := by omega
  refine ⟨write buf (p + name.length) [0], ?_, fun fuel s => ?_⟩
  · have hrest := (holds_append.mp htail').2.2
    have hat : p + name.length + 1 + value.bytes.length + 1 = nvramSpace - rest.length := hnext
    rwa [hat] at hrest
  · rw [parseLoop, if_neg (by omega), if_neg hne, hchr]
    simp only [hname', hvalue', hnext]
    rw [if_neg (by omega), setEntry, nvramSet_eq answers htail' hspace]

/-- A text without a `=`, behind the last entry. -/
theorem parseLoop_last : ∀ {last rest : Bytes} {p : ℕ} (_ : (0 : UInt8) ∉ last) (_ : (61 : UInt8) ∉ last)
    (_ : Holds buf p (last ++ 0 :: rest)) (_ : p + (last ++ 0 :: rest).length = nvramSpace) (fuel : ℕ)
    (_ : last.length < fuel) (s : Vars),
    parseLoop answers fuel buf p s =
      match unsetAll answers last s with
      | none => some .outside
      | some s => some (.done s)
  | [], rest, p, _, _, h, hend, fuel + 1, _, s => by
    have h0 : buf p = 0 := h.1
    rw [List.nil_append, List.length_cons] at hend
    rw [parseLoop, if_neg (by omega), if_pos h0, unsetAll]
  | c :: l, rest, p, hnul, heq, h, hend, fuel + 1, hfuel, s => by
    have hc : buf p ≠ 0 := by
      rw [h.1]
      exact fun h0 => hnul (h0 ▸ List.mem_cons_self)
    have hname : cstr (c :: l) = ⟨c :: l, hnul⟩ := CStr.ext_bytes (cstr_bytes hnul)
    have hread : readStr buf p (nvramSpace - p) = cstr (c :: l) := by
      rw [hname]
      exact readStr_eq h hend
    have hstands : CText.Stands buf p (c :: l) := by
      have hcut : c :: l ++ 0 :: rest = (c :: l ++ [0]) ++ rest := by simp
      rw [hcut] at h
      exact ⟨(holds_append.mp h).1, hnul⟩
    have hchr : strchr buf 61 p (nvramSpace - p) = none := hstands.strchr_none (by decide) heq
    have hlen : (cstr (c :: l)).length = l.length + 1 := by
      rw [hname]
      rfl
    have hend' : p + 1 + (l ++ 0 :: rest).length = nvramSpace := by
      rw [List.cons_append, List.length_cons] at hend
      omega
    rw [List.cons_append, List.length_cons, List.length_append, List.length_cons] at hend
    rw [parseLoop, if_neg (by omega), if_neg hc, hchr]
    simp only [hread, hlen]
    rw [if_neg (by omega), unsetAll]
    cases nvramUnset answers s (cstr (c :: l)) with
    | none => rfl
    | some s =>
      exact parseLoop_last (fun h0 => hnul (List.mem_cons_of_mem _ h0)) (fun h61 => heq (List.mem_cons_of_mem _ h61))
        h.2 hend' fuel (by simpa using hfuel) s

/-- A text that has no end in `buf`. -/
theorem parseLoop_endless {tail : Bytes} (hnul : (0 : UInt8) ∉ tail) (h : Holds buf p tail)
    (hend : p + tail.length = nvramSpace) (fuel : ℕ) (s : Vars) :
    parseLoop answers (fuel + 1) buf p s = some .outside := by
  have hroom : nvramSpace - p = tail.length := by omega
  cases htail : tail with
  | nil =>
    rw [htail, List.length_nil] at hend
    rw [parseLoop, if_pos (by omega)]
  | cons c l =>
    have hp : p < nvramSpace := by
      rw [htail, List.length_cons] at hend
      omega
    have hc : buf p ≠ 0 := by
      rw [htail] at h hnul
      rw [h.1]
      exact fun h0 => hnul (h0 ▸ List.mem_cons_self)
    rw [parseLoop, if_neg (by omega), if_neg hc, hroom]
    by_cases heq : (61 : UInt8) ∈ tail
    · obtain ⟨name, value, hsplit, hname⟩ := List.eq_append_cons_of_mem heq
      rw [hsplit] at h hnul hend
      rw [List.mem_append, List.mem_cons, not_or, not_or] at hnul
      rw [List.append_cons] at h
      obtain ⟨hfront, hvalue⟩ := holds_append.mp h
      have hlen : (name ++ 61 :: value).length = name.length + 1 + value.length := by
        rw [List.length_append, List.length_cons]
        omega
      have hchr : strchr buf 61 p tail.length = some (p + name.length) :=
        strchr_of_holds hnul.1 hname hfront (by rw [hsplit, hlen]; omega)
      have hscan : scan (write buf (p + name.length) [0]) (p + name.length + 1)
          (nvramSpace - (p + name.length + 1)) = value := by
        have hspace : nvramSpace - (p + name.length + 1) = value.length := by omega
        rw [hspace]
        apply scan_of_full hnul.2.2
        apply holds_write_of_ge _ (by simp)
        rwa [List.length_append, List.length_singleton, ← Nat.add_assoc] at hvalue
      rw [hchr]
      simp only [CStr.length, readStr, hscan]
      rw [if_pos (by omega)]
    · rw [strchr_of_full heq h]
      simp only [CStr.length, readStr, scan_of_full hnul h]
      rw [if_pos (by omega)]

end Turn

/-! ### The run -/

section Run

variable (answers : ℕ → Bool)

theorem parseLoop_chain {data tail : Bytes} {es : List Entry} (hchain : Chain data es tail) : ∀ {buf : Mem} {p : ℕ},
    Holds buf p data → p + data.length = nvramSpace →
    ∃ buf', Holds buf' (nvramSpace - tail.length) tail ∧ tail.length ≤ nvramSpace ∧ ∀ fuel s,
      parseLoop answers (es.length + fuel) buf p s =
        match es.foldlM (setEntry answers) s with
        | none => some .outside
        | some s => parseLoop answers fuel buf' (nvramSpace - tail.length) s := by
  induction hchain with
  | nil data =>
    intro buf p h hend
    have hp : nvramSpace - data.length = p := by omega
    refine ⟨buf, hp ▸ h, by omega, fun fuel s => ?_⟩
    rw [hp, List.length_nil, Nat.zero_add]
    rfl
  | @cons name value rest tail es hname _ ih =>
    intro buf p h hend
    have hrest : rest.length ≤ nvramSpace := by
      simp only [List.length_append, List.length_cons] at hend
      omega
    obtain ⟨buf₁, h₁, hturn⟩ := parseLoop_entry answers hname h hend
    obtain ⟨buf', h', htail, hrun⟩ := ih h₁ (Nat.sub_add_cancel hrest)
    refine ⟨buf', h', htail, fun fuel s => ?_⟩
    rw [List.length_cons, Nat.add_right_comm, hturn, List.foldlM_cons]
    cases setEntry answers s ⟨name, value.bytes ++ 0 :: rest⟩ with
    | none => rfl
    | some s => exact hrun fuel s

/-- The entries of the whole of `buf`. -/
theorem parseLoop_buf {buf : Mem} {tail : Bytes} {es : List Entry} (hchain : Chain (load buf 0 nvramSpace) es tail) :
    ∃ buf', Holds buf' (nvramSpace - tail.length) tail ∧ tail.length ≤ nvramSpace ∧ ∀ fuel s,
      parseLoop answers (es.length + fuel) buf 0 s =
        match es.foldlM (setEntry answers) s with
        | none => some .outside
        | some s => parseLoop answers fuel buf' (nvramSpace - tail.length) s := by
  -- the size as a variable, so that the bytes are not computed
  obtain ⟨n, hn⟩ : ∃ n, n = nvramSpace := ⟨_, rfl⟩
  rw [← hn] at hchain
  exact parseLoop_chain answers hchain (holds_load buf 0 n) (by rw [length_load, Nat.zero_add, hn])

/-- The entries of any bytes, up to a text that is no entry or that does not end. -/
theorem exists_chain (data : Bytes) : ∃ es tail, Chain data es tail ∧
    ((0 : UInt8) ∉ tail ∨ ∃ (last : CStr) (rest : Bytes), 61 ∉ last.bytes ∧ tail = last.bytes ++ 0 :: rest) := by
  induction hn : data.length using Nat.strongRecOn generalizing data with
  | ind n ih =>
    by_cases hnul : (0 : UInt8) ∈ data
    · obtain ⟨text, rest, rfl, htext⟩ := List.eq_append_cons_of_mem hnul
      by_cases heq : (61 : UInt8) ∈ text
      · obtain ⟨name, value, rfl, hname⟩ := List.eq_append_cons_of_mem heq
        rw [List.mem_append, List.mem_cons, not_or, not_or] at htext
        have hlt : rest.length < n := by
          rw [← hn, List.length_append, List.length_cons]
          omega
        obtain ⟨es, tail, hchain, htail⟩ := ih _ hlt rest rfl
        refine ⟨⟨⟨name, htext.1⟩, value ++ 0 :: rest⟩ :: es, tail, ?_, htail⟩
        rw [List.append_assoc, List.cons_append]
        exact .cons ⟨name, htext.1⟩ ⟨value, htext.2.2⟩ hname hchain
      · exact ⟨[], _, .nil _, Or.inr ⟨⟨text, htext⟩, rest, heq, rfl⟩⟩
    · exact ⟨[], data, .nil data, Or.inl hnul⟩

/-- What a run over the entries and the last text leaves, or `none` where it reads what is not in `buf`. -/
def outcome (es : List Entry) (last : Bytes) (s : Vars) : Option Vars :=
  (es.foldlM (setEntry answers) s).bind (unsetAll answers last)

theorem parseLoop_eq {buf : Mem} {es : List Entry} {last : CStr} {rest : Bytes} (hnoEq : 61 ∉ last.bytes)
    (hchain : Chain (load buf 0 nvramSpace) es (last.bytes ++ 0 :: rest)) (s : Vars) :
    ∀ fuel ≥ es.length + (last.length + 1), parseLoop answers fuel buf 0 s =
      some ((outcome answers es last.bytes s).elim .outside .done) := by
  intro fuel hfuel
  obtain ⟨buf', htail, hlen, hrun⟩ := parseLoop_buf answers hchain
  obtain ⟨fuel, rfl⟩ := Nat.exists_eq_add_of_le (Nat.le_of_add_right_le hfuel)
  rw [hrun, outcome]
  cases es.foldlM (setEntry answers) s with
  | none => rfl
  | some s =>
    have hlast : last.bytes.length < fuel := by
      unfold CStr.length at hfuel
      omega
    rw [Option.bind_some]
    dsimp only
    rw [parseLoop_last answers last.nul_notMem hnoEq htail (Nat.sub_add_cancel hlen) fuel hlast]
    cases unsetAll answers last.bytes s <;> rfl

/-- A run into a text that has no end in `buf`. -/
theorem parseLoop_outside {buf : Mem} {es : List Entry} {tail : Bytes} (hnul : (0 : UInt8) ∉ tail)
    (hchain : Chain (load buf 0 nvramSpace) es tail) (s : Vars) :
    ∀ fuel ≥ es.length + 1, parseLoop answers fuel buf 0 s = some .outside := by
  intro fuel hfuel
  obtain ⟨buf', htail, hlen, hrun⟩ := parseLoop_buf answers hchain
  obtain ⟨fuel, rfl⟩ := Nat.exists_eq_add_of_le (Nat.le_of_add_right_le hfuel)
  rw [hrun]
  cases es.foldlM (setEntry answers) s with
  | none => rfl
  | some s =>
    obtain ⟨fuel, rfl⟩ : ∃ k, fuel = k + 1 := ⟨fuel - 1, by omega⟩
    exact parseLoop_endless answers hnul htail (Nat.sub_add_cancel hlen) fuel s

theorem finish_done (s : Vars) : finish answers (.done s) = .done (s.write answers xSetting (some one)) := by
  have hkey : xSetting.bytes.take 7 ≠ wlKey1.bytes := by decide
  have hone : readStr (strcpy (fun _ => 0) 0 one) 0 (nvramSpace - 0) = one :=
    readStr_of_holds (holds_write_same _ _ _) (by decide)
  have hwritten : ∀ wsc hex, written wsc xSetting one hex = one := by
    intro wsc hex
    have hssid : xSetting ≠ wlSsid := by decide
    unfold written
    rw [if_neg fun h => hkey h.2, if_neg fun h => hssid h.2.1]
  have hset : nvramSet answers s xSetting (strcpy (fun _ => 0) 0 one) 0 = some (s.write answers xSetting (some one)) := by
    rw [nvramSet, if_neg fun h => hkey h.2.1, hone, hwritten]
  rw [finish, hset]

end Run

/-! ### When nothing else is read -/

section Reads

variable {answers : ℕ → Bool}

theorem take_key_iff {l : Bytes} : l.take 7 = wlKey1.bytes ↔ wlKey1.bytes <+: l := by
  have hlen : wlKey1.bytes.length = 7 := by decide
  rw [List.prefix_iff_eq_take, hlen, eq_comm]

theorem issyspara_key {name : CStr} (h : name.bytes.take 7 = wlKey1.bytes) : issyspara name = true := by
  have hmem : routerDefaults[87]? = some "wl_key1" := rfl
  refine List.any_eq_true.mpr ⟨"wl_key1", List.mem_of_getElem? hmem, ?_⟩
  exact strstr_isSome_iff.mpr (take_key_iff.mp h).isInfix

/-- The entries are read if there are 13 bytes for every key. -/
theorem entries_read {es : List Entry} (h : ∀ e ∈ es, e.name.bytes.take 7 = wlKey1.bytes → 13 ≤ e.tail.length) :
    ∀ s, ∃ s', es.foldlM (setEntry answers) s = some s' := by
  induction es with
  | nil => exact fun s => ⟨s, rfl⟩
  | cons e es ih =>
    intro s
    have hstep : ∃ s₁, setEntry answers s e = some s₁ := by
      unfold setEntry setValue
      split
      · rw [if_neg fun hbad => by have := h e List.mem_cons_self hbad.2.1; omega]
        exact ⟨_, rfl⟩
      · exact ⟨s, rfl⟩
    obtain ⟨s₁, h₁⟩ := hstep
    obtain ⟨s', h'⟩ := ih (fun e he => h e (List.mem_cons_of_mem _ he)) s₁
    refine ⟨s', ?_⟩
    rw [List.foldlM_cons, h₁]
    exact h'

/-- The last text is unset if it has none of the names whose value is read. -/
theorem last_read : ∀ {last : Bytes} (_ : (0 : UInt8) ∉ last) (_ : ¬wlKey1.bytes <:+: last) (_ : ¬wlSsid.bytes <:+ last)
    (s : Vars), ∃ s', unsetAll answers last s = some s'
  | [], _, _, _, s => ⟨s, rfl⟩
  | c :: l, hnul, hkey, hssid, s => by
    rw [List.infix_cons_iff, not_or] at hkey
    rw [List.suffix_cons_iff, not_or] at hssid
    have hname : (cstr (c :: l)).bytes = c :: l := cstr_bytes hnul
    have hgood : ¬(wscIsSet mapDevice s.vars = true ∧
        ((cstr (c :: l)).bytes.take 7 = wlKey1.bytes ∨ cstr (c :: l) = wlSsid)) := by
      rintro ⟨-, hk | hs⟩
      · rw [hname] at hk
        exact hkey.1 (take_key_iff.mp hk)
      · exact hssid.1 (by rw [← hname, hs])
    obtain ⟨s', h'⟩ := @last_read l (fun h0 => hnul (List.mem_cons_of_mem _ h0)) hkey.2 hssid.2
      (s.write answers (cstr (c :: l)) none)
    refine ⟨s', ?_⟩
    rw [unsetAll, nvramUnset, if_neg hgood]
    exact h'

/-- The kernel refuses every write. -/
def refused : ℕ → Bool := fun _ => false

/-- `wsc_set` is `"1"`. -/
def wscVars : VarMap := (∅ : VarMap).insert wscSet one

theorem wscIsSet_wscVars : wscIsSet mapDevice wscVars = true := by
  have hget : mapDevice.get wscVars wscSet = some one := by
    show wscVars.lookup wscSet = some one
    rw [wscVars, Finmap.lookup_insert]
  rw [wscIsSet, hget]
  rfl

/-- What is read where the kernel refuses every write and `wsc_set` stays `"1"`. -/
theorem key_of_refused : ∀ {es : List Entry} {s s' : Vars} (_ : s.vars = wscVars)
    (_ : es.foldlM (setEntry refused) s = some s'),
    s'.vars = wscVars ∧ ∀ e ∈ es, e.name.bytes.take 7 = wlKey1.bytes → 13 ≤ e.tail.length
  | [], s, s', hs, h => by
    cases h
    exact ⟨hs, fun e he => absurd he List.not_mem_nil⟩
  | e :: es, s, s', hs, h => by
    rw [List.foldlM_cons] at h
    obtain ⟨s₁, h₁, h⟩ := Option.bind_eq_some_iff.mp h
    have hstep : s₁.vars = wscVars ∧ (e.name.bytes.take 7 = wlKey1.bytes → 13 ≤ e.tail.length) := by
      unfold setEntry setValue at h₁
      rw [hs, wscIsSet_wscVars] at h₁
      split at h₁
      · split at h₁
        · cases h₁
        · rename_i hgood
          cases h₁
          refine ⟨hs, fun hk => ?_⟩
          by_contra hshort
          exact hgood ⟨rfl, hk, by omega⟩
      · rename_i hsys
        cases h₁
        exact ⟨hs, fun hk => absurd (issyspara_key hk) hsys⟩
    obtain ⟨hs', hes⟩ := key_of_refused hstep.1 h
    refine ⟨hs', fun e' he' => ?_⟩
    rcases List.mem_cons.mp he' with rfl | he'
    · exact hstep.2
    · exact hes e' he'

theorem last_of_refused : ∀ {last : Bytes} {s s' : Vars} (_ : (0 : UInt8) ∉ last) (_ : s.vars = wscVars)
    (_ : unsetAll refused last s = some s'), ¬wlKey1.bytes <:+: last ∧ ¬wlSsid.bytes <:+ last
  | [], _, _, _, _, _ => by decide
  | c :: l, s, s', hnul, hs, h => by
    obtain ⟨s₁, h₁, h⟩ := Option.bind_eq_some_iff.mp h
    have hname : (cstr (c :: l)).bytes = c :: l := cstr_bytes hnul
    unfold nvramUnset at h₁
    rw [hs, wscIsSet_wscVars] at h₁
    split at h₁
    · cases h₁
    · rename_i hgood
      cases h₁
      have hvars : (s.write refused (cstr (c :: l)) none).vars = wscVars := hs
      obtain ⟨hkey, hssid⟩ := last_of_refused (fun h0 => hnul (List.mem_cons_of_mem _ h0)) hvars h
      rw [List.infix_cons_iff, List.suffix_cons_iff, not_or, not_or]
      refine ⟨⟨fun hk => hgood ⟨rfl, Or.inl ?_⟩, hkey⟩, fun hw => hgood ⟨rfl, Or.inr (CStr.ext_bytes ?_)⟩, hssid⟩
      · rw [hname]
        exact take_key_iff.mpr hk
      · rw [hname, hw]

end Reads

/-! ### When nothing is changed -/

section Changes

/-- The kernel takes every write. -/
def taken : ℕ → Bool := fun _ => true

/-- What is set for the name of a setting is not `x_Setting`. -/
theorem kernelName_of_sys {name : CStr} (h : issyspara name = true) : ∃ n, kernelName name = some n ∧ n ≠ xSetting := by
  have hne : ∀ {n}, issyspara n = false → name ≠ n := by
    rintro n hn rfl
    rw [hn] at h
    cases h
  unfold kernelName
  split
  · rename_i hcfe
    have hnot : ¬(name = cfeNvramCommit ∨ name = cfeNvramWatchdog) :=
      not_or.mpr ⟨hne (issyspara_of_mem (by simp)), hne (issyspara_of_mem (by simp))⟩
    rw [if_neg hnot]
    refine ⟨_, rfl, fun hskip => ?_⟩
    have hfront : name.bytes.take cfeNvramPrefix.length = cfeNvramPrefix.bytes := beq_iff_eq.mp hcfe
    have hback : name.bytes.drop cfeNvramPrefix.length = xSetting.bytes := congrArg CStr.bytes hskip
    have hnul : (0 : UInt8) ∉ cfeNvramPrefix.bytes ++ xSetting.bytes := by decide
    have hname : name = cstr (cfeNvramPrefix.bytes ++ xSetting.bytes) := by
      apply CStr.ext_bytes
      rw [cstr_bytes hnul, ← List.take_append_drop cfeNvramPrefix.length name.bytes, hfront, hback]
    exact hne (issyspara_of_mem (by simp)) hname
  · exact ⟨name, rfl, ne_xSetting h⟩

/-- A variable other than `x_Setting` is there. -/
def Other (s : Vars) : Prop := ∃ n, n ≠ xSetting ∧ (s.vars.lookup n).isSome = true

/-- A set leaves it there. -/
theorem Other.write {s : Vars} (h : Other s) (name value : CStr) : Other (s.write taken name (some value)) := by
  obtain ⟨n, hn, hsome⟩ := h
  refine ⟨n, hn, ?_⟩
  show (((kernelName name).elim s.vars fun n => s.vars.insert n value).lookup n).isSome = true
  cases kernelName name with
  | none => exact hsome
  | some k =>
    by_cases hk : n = k
    · subst hk
      rw [Option.elim_some, Finmap.lookup_insert]
      rfl
    · rw [Option.elim_some, Finmap.lookup_insert_of_ne _ hk]
      exact hsome

theorem other_of_sys {s : Vars} {name value : CStr} (h : issyspara name = true) :
    Other (s.write taken name (some value)) := by
  obtain ⟨n, hkernel, hn⟩ := kernelName_of_sys h
  refine ⟨n, hn, ?_⟩
  show (((kernelName name).elim s.vars fun n => s.vars.insert n value).lookup n).isSome = true
  rw [hkernel, Option.elim_some, Finmap.lookup_insert]
  rfl

/-- Where an entry is set, a variable is there at the end. -/
theorem other_of_entries : ∀ {es : List Entry} {s s' : Vars} (_ : es.foldlM (setEntry taken) s = some s')
    (_ : Other s ∨ ∃ e ∈ es, issyspara e.name = true), Other s'
  | [], s, s', h, hor => by
    cases h
    rcases hor with hs | ⟨e, he, -⟩
    · exact hs
    · exact absurd he List.not_mem_nil
  | e :: es, s, s', h, hor => by
    rw [List.foldlM_cons] at h
    obtain ⟨s₁, h₁, h⟩ := Option.bind_eq_some_iff.mp h
    apply other_of_entries h
    unfold setEntry setValue at h₁
    by_cases hsys : issyspara e.name = true
    · rw [if_pos hsys] at h₁
      split at h₁
      · cases h₁
      · cases h₁
        exact Or.inl (other_of_sys hsys)
    · rw [if_neg hsys] at h₁
      cases h₁
      rcases hor with hs | ⟨e', he', hsys'⟩
      · exact Or.inl hs
      · rcases List.mem_cons.mp he' with rfl | he'
        · exact absurd hsys' hsys
        · exact Or.inr ⟨e', he', hsys'⟩

/-- Entries that are not set leave everything as it is. -/
theorem entries_quiet {answers : ℕ → Bool} {es : List Entry} (h : ∀ e ∈ es, issyspara e.name = false) (s : Vars) :
    es.foldlM (setEntry answers) s = some s := by
  induction es with
  | nil => rfl
  | cons e es ih =>
    have hstep : setEntry answers s e = some s := by
      rw [setEntry, if_neg (by rw [h e List.mem_cons_self]; exact Bool.false_ne_true)]
    rw [List.foldlM_cons, hstep]
    exact ih fun e he => h e (List.mem_cons_of_mem _ he)

/-- The last letter of a text is unset. -/
theorem unset_last : ∀ {last : Bytes} {c : UInt8} {s s' : Vars} (_ : unsetAll taken (last ++ [c]) s = some s'),
    s'.vars.lookup (cstr [c]) = none
  | [], c, s, s', h => by
    obtain ⟨s₁, h₁, h⟩ := Option.bind_eq_some_iff.mp h
    cases h
    unfold nvramUnset at h₁
    split at h₁
    · cases h₁
    · cases h₁
      exact Finmap.lookup_erase _ _
  | b :: l, c, s, s', h => by
    obtain ⟨s₁, -, h⟩ := Option.bind_eq_some_iff.mp h
    exact unset_last h

/-- The set of `x_Setting` changes no other variable. -/
theorem lookup_write_xSetting (answers : ℕ → Bool) (s : Vars) {n : CStr} (hn : n ≠ xSetting) :
    (s.write answers xSetting (some one)).vars.lookup n = s.vars.lookup n := by
  have hkernel : kernelName xSetting = some xSetting := by decide
  unfold Vars.write mapDevice
  dsimp only
  split
  · rw [hkernel]
    exact Finmap.lookup_insert_of_ne _ hn
  · rfl

end Changes

/-- Once the file has been read, the call is the run over `buf`. -/
theorem nvramRestore_eq {stack : Mem} {file : Bytes} (hbody : Complete file → (body file).length ≤ nvramSpace)
    (answers : ℕ → Bool) (s : Vars) (fuel : ℕ) : nvramRestore answers stack file s fuel =
      (parseLoop answers fuel (content stack file) 0 s).map (finish answers) := by
  unfold nvramRestore content
  split
  · rename_i h
    rw [if_neg (by have := hbody h; omega)]
  · rfl

/-- **The call is safe if every run over its entries is.** -/
theorem safe_iff_outcome {stack : Mem} {file : Bytes} {es : List Entry} {last : CStr} {rest : Bytes}
    (hbody : Complete file → (body file).length ≤ nvramSpace) (hnoEq : 61 ∉ last.bytes)
    (hchain : Chain (load (content stack file) 0 nvramSpace) es (last.bytes ++ 0 :: rest)) : Safe stack file ↔
      ∀ answers m, ∃ s, outcome answers es last.bytes ⟨m, 0⟩ = some s ∧ (¬Complete file → ∀ n, n ≠ xSetting →
        (s.write answers xSetting (some one)).vars.lookup n = m.lookup n) := by
  unfold Safe
  refine forall_congr' fun answers => forall_congr' fun m => ?_
  have hrun : ∀ fuel ≥ es.length + (last.length + 1), nvramRestore answers stack file ⟨m, 0⟩ fuel =
      some (finish answers ((outcome answers es last.bytes ⟨m, 0⟩).elim .outside .done)) := by
    intro fuel hfuel
    rw [nvramRestore_eq hbody, parseLoop_eq answers hnoEq hchain _ fuel hfuel, Option.map_some]
  rw [returns_iff hrun]
  cases outcome answers es last.bytes ⟨m, 0⟩ with
  | none =>
    constructor
    · rintro ⟨s, hs, -⟩
      cases hs
    · rintro ⟨s, hs, -⟩
      cases hs
  | some s =>
    rw [Option.elim_some, finish_done]
    constructor
    · rintro ⟨s', hs', h⟩
      cases hs'
      exact ⟨s, rfl, h⟩
    · rintro ⟨s', hs', h⟩
      cases hs'
      exact ⟨_, rfl, h⟩

/-- More is read than there is room for. -/
theorem not_safe_of_long {stack : Mem} {file : Bytes} (h : Complete file) (hlong : nvramSpace < (body file).length) :
    ¬Safe stack file := by
  intro hsafe
  have hrun : ∀ fuel ≥ 0, nvramRestore refused stack file ⟨∅, 0⟩ fuel = some .outside := by
    intro fuel _
    rw [nvramRestore, if_pos h, if_pos hlong]
  obtain ⟨s, hs, -⟩ := (returns_iff hrun).mp (hsafe refused ∅)
  cases hs

/-- **What a restore may be given.** -/
theorem restore_safe_iff (stack : Mem) (file : Bytes) : Safe stack file ↔ Fits stack file := by
  constructor
  · intro hsafe
    have hbody : Complete file → (body file).length ≤ nvramSpace := by
      intro h
      by_contra hlong
      exact not_safe_of_long h (Nat.lt_of_not_le hlong) hsafe
    obtain ⟨es, tail, hchain, hnul | ⟨last, rest, hnoEq, rfl⟩⟩ :=
      exists_chain (load (content stack file) 0 nvramSpace)
    · have hrun : ∀ fuel ≥ es.length + 1, nvramRestore refused stack file ⟨∅, 0⟩ fuel = some .outside := by
        intro fuel hfuel
        rw [nvramRestore_eq hbody, parseLoop_outside refused hnul hchain _ fuel hfuel]
        rfl
      obtain ⟨s, hs, -⟩ := (returns_iff hrun).mp (hsafe refused ∅)
      cases hs
    · have hout := (safe_iff_outcome hbody hnoEq hchain).mp hsafe
      -- what is read shows where nothing is written
      obtain ⟨s, hs, -⟩ := hout refused wscVars
      obtain ⟨s₁, h₁, h₂⟩ := Option.bind_eq_some_iff.mp hs
      obtain ⟨hvars, hkey⟩ := key_of_refused rfl h₁
      obtain ⟨hnoKey, hnoSsid⟩ := last_of_refused last.nul_notMem hvars h₂
      -- what is unset shows where there is a variable of one letter
      have hnoUnset : ¬Complete file → last.bytes = [] := by
        intro hnot
        rcases List.eq_nil_or_concat' last.bytes with hnil | ⟨l, c, hlast⟩
        · exact hnil
        · have hc : cstr [c] ≠ xSetting := by
            intro heq
            have hnul : (0 : UInt8) ∉ [c] := fun h0 => last.nul_notMem (hlast ▸ List.mem_append_right l h0)
            have hlen : [c].length = xSetting.bytes.length := by rw [← heq, cstr_bytes hnul]
            exact absurd hlen (show ¬1 = xSetting.bytes.length by decide)
          obtain ⟨s, hs, hsame⟩ := hout taken ((∅ : VarMap).insert (cstr [c]) one)
          obtain ⟨s₁, -, h₂⟩ := Option.bind_eq_some_iff.mp hs
          rw [hlast] at h₂
          have hone := hsame hnot _ hc
          rw [lookup_write_xSetting _ _ hc, unset_last h₂, Finmap.lookup_insert] at hone
          cases hone
      -- and what is set where there is none
      have hnoSet : ¬Complete file → ∀ e ∈ es, issyspara e.name = false := by
        intro hnot e he
        by_contra hsys
        obtain ⟨s, hs, hsame⟩ := hout taken ∅
        obtain ⟨s₁, h₁, h₂⟩ := Option.bind_eq_some_iff.mp hs
        rw [hnoUnset hnot] at h₂
        cases h₂
        obtain ⟨n, hn, hsome⟩ := other_of_entries h₁ (Or.inr ⟨e, he, (Bool.not_eq_false _).mp hsys⟩)
        rw [← lookup_write_xSetting taken s hn, hsame hnot n hn] at hsome
        cases hsome
      exact ⟨es, last, rest, hbody, hchain, hnoEq, hkey, hnoKey, hnoSsid, hnoSet, hnoUnset⟩
  · rintro ⟨es, last, rest, h⟩
    refine (safe_iff_outcome h.body h.noEq h.chain).mpr fun answers m => ?_
    obtain ⟨s₁, h₁⟩ := @entries_read answers es h.key ⟨m, 0⟩
    obtain ⟨s, h₂⟩ := @last_read answers last.bytes last.nul_notMem h.noKey h.noSsid s₁
    refine ⟨s, Option.bind_eq_some_iff.mpr ⟨s₁, h₁, h₂⟩, fun hnot n hn => ?_⟩
    rw [entries_quiet (h.noSet hnot)] at h₁
    rw [h.noUnset hnot] at h₂
    cases h₁
    cases h₂
    exact lookup_write_xSetting answers _ hn

theorem userNvramSet_of_nvramSet {s s' : Vars} {name : CStr} {buf : Mem} {v : ℕ}
    (h : nvramSet taken s name buf v = some s') : userNvramSet mapDevice s.vars name buf v = some s'.vars := by
  unfold nvramSet at h
  split at h
  · cases h
  · cases h
    rfl

theorem write_of_nvramUnset {s s' : Vars} {name : CStr} (h : nvramUnset taken s name = some s') :
    mapDevice.write s.vars name none = some s'.vars := by
  unfold nvramUnset at h
  split at h
  · cases h
  · cases h
    rfl

/-- Where every write is taken and no byte outside of `buf` is touched, the loop is that of the restore of a saved
file. -/
theorem restoreLoop_of_parseLoop : ∀ {fuel : ℕ} {buf : Mem} {p : ℕ} {s s' : Vars}
    (_ : parseLoop taken fuel buf p s = some (.done s')), restoreLoop mapDevice fuel buf p s.vars = some s'.vars
  | fuel + 1, buf, p, s, s', h => by
    unfold parseLoop at h
    unfold restoreLoop
    split at h
    · cases h
    · by_cases h0 : buf p = 0
      · rw [if_pos h0] at h ⊢
        cases h
        rfl
      · rw [if_neg h0] at h ⊢
        cases hv : strchr buf 61 p (nvramSpace - p) with
        | some v =>
          rw [hv] at h
          dsimp only at h ⊢
          split at h
          · cases h
          · split_ifs at h ⊢
            · cases hset : nvramSet taken s (readStr (CMem.write buf v [0]) p (nvramSpace - p)) (CMem.write buf v [0])
                (v + 1) with
              | none =>
                rw [hset] at h
                cases h
              | some s₁ =>
                rw [hset] at h
                rw [userNvramSet_of_nvramSet hset, Option.bind_some]
                exact restoreLoop_of_parseLoop h
            · exact restoreLoop_of_parseLoop h
        | none =>
          rw [hv] at h
          dsimp only at h ⊢
          split at h
          · cases h
          · cases hunset : nvramUnset taken s (readStr buf p (nvramSpace - p)) with
            | none =>
              rw [hunset] at h
              cases h
            | some s₁ =>
              rw [hunset] at h
              rw [write_of_nvramUnset hunset, Option.bind_some]
              exact restoreLoop_of_parseLoop h

/-! ### A file that is too long -/

/-- A header, and what it gives the length of. -/
theorem body_header (n : UInt32) (data : Bytes) : Complete (bytes "HDR1" ++ (bytes32 n ++ data)) ∧
    body (bytes "HDR1" ++ (bytes32 n ++ data)) = data.take n.toNat := by
  have hlen : (bytes "HDR1").length = 4 := by decide
  have hhead : (bytes "HDR1" ++ (bytes32 n ++ data)).take 8 = bytes "HDR1" ++ bytes32 n := by
    rw [← List.append_assoc, List.take_left' (by rw [List.length_append, hlen, length_bytes32])]
  have hcount : le32 (write (fun _ => 0) 0 (bytes "HDR1" ++ bytes32 n)) 4 = n := by
    have hh := holds_write_same (fun _ => 0) 0 (bytes "HDR1" ++ bytes32 n)
    have hn := (holds_append.mp hh).2
    rw [hlen] at hn
    exact le32_of_holds hn
  refine ⟨⟨?_, List.take_left' hlen⟩, ?_⟩
  · rw [List.length_append, List.length_append, hlen, length_bytes32]
    omega
  · rw [body, hhead, hcount, ← List.append_assoc, List.drop_left' (by rw [List.length_append, hlen, length_bytes32])]

/-- A file whose header tells of a byte more than there is room for. -/
def longFile : Bytes := bytes "HDR1" ++ (bytes32 0x8001 ++ List.replicate 0x8001 97)

theorem long_file_not_safe : ¬Safe (fun _ => 0) longFile := by
  obtain ⟨hcomplete, hbody⟩ := body_header 0x8001 (List.replicate 0x8001 97)
  apply not_safe_of_long hcomplete
  rw [hbody, List.length_take, List.length_replicate]
  decide

end AnyFile
end Nvram
end Router
