/-
# The variables of an SROM

`initvars_srom_pci` and `initvars_table` of `shared/bcmsrom.c`, for a part whose CRC is right: the table of variables is
printed from the words of the part, in the layout of its revision. What is printed of a word is a `Value`; all of them but
the letters of the country code are free of NUL, so that the table is well formed if these are (`visible_iff`).

Words behind the part that was read are what the buffer held before.
-/
import RouterFirmware.Bcm.Srom
import RouterFirmware.Bcm.EtherAddr
import RouterFirmware.Lib.StringTable

namespace Router
namespace Bcm
namespace SromVars

open CMem CText Srom

/-- `VARS_MAX`. -/
def varsMax : ℕ := 4096

/-! ### Variables -/

/-- What is printed behind the `=`. -/
inductive Value where
  /-- `%d`. -/
  | int (v : UInt32)
  /-- `%s` of what `bcm_ether_ntoa` prints. -/
  | ether (ea : EtherAddr)
  /-- `%c%c`. -/
  | chars (c d : UInt8)
  /-- `%02x` of each byte. -/
  | hex (l : List UInt8)
  /-- Nothing. -/
  | none

def Value.text : Value → Bytes
  | .int v => printInt v
  | .ether ea => (bcmEtherNtoa ea).bytes
  | .chars c d => [c, d]
  | .hex l => l.flatMap (hexByte 97)
  | .none => []

structure Var where
  name : Bytes
  value : Value

/-- The string as it is printed. -/
def Var.text (v : Var) : Bytes := v.name ++ 61 :: v.value.text

/-- `name=%d`. -/
def int (name : String) (v : UInt32) : Var := ⟨bytes name, .int v⟩

/-- `name%d=%d`. -/
def intAt (name : String) (i : ℕ) (v : UInt32) : Var := ⟨bytes name ++ decimal i, .int v⟩

/-- `name%da%d=%d`. -/
def intPath (name : String) (i path : ℕ) (v : UInt32) : Var :=
  ⟨bytes name ++ decimal i ++ bytes "a" ++ decimal path, .int v⟩

/-- `w & 0xff` and `(w >> 8) & 0xff`. -/
def lo (w : UInt16) : UInt32 := (w &&& 0xff).toUInt32
def hi (w : UInt16) : UInt32 := (w >>> 8 &&& 0xff).toUInt32

/-- Two words, the high one first. -/
def dword (h l : UInt16) : UInt32 := h.toUInt32 <<< 16 ||| l.toUInt32

/-- The address in three words from `woff` on. -/
def eaAt (b : Words) (woff : ℕ) : EtherAddr :=
  #v[(hi (b woff)).toUInt8, (lo (b woff)).toUInt8, (hi (b (woff + 1))).toUInt8, (lo (b (woff + 1))).toUInt8,
    (hi (b (woff + 2))).toUInt8, (lo (b (woff + 2))).toUInt8]

/-- `ccode`. -/
def ccode (w : UInt16) : Var :=
  ⟨bytes "ccode", if w = 0 then .none else .chars (hi w).toUInt8 (lo w).toUInt8⟩

/-- `ledbh0` and `ledbh1`. -/
def ledbh10 (w : UInt16) : List Var :=
  if w ≠ 0 ∧ w ≠ 0xffff then [int "ledbh0" (lo w), int "ledbh1" (hi w)] else []

/-- `ledbh2` and `ledbh3`. -/
def ledbh32 (w : UInt16) : List Var :=
  if w ≠ 0 ∧ w ≠ 0xffff then [int "ledbh2" (lo w), int "ledbh3" (hi w)] else []

/-- `leddc`, the LED powersave duty cycle: oncount and offcount. -/
def leddc (w : UInt16) : Var := int "leddc" (hi w <<< 24 ||| lo w <<< 8)

/-! ### Revision 4 -/

/-- `pathbases`. -/
def pathbases : List ℕ := [64, 87, 110, 133]

def board4 (b : Words) : List Var :=
  [int "boardrev" (b 33).toUInt32,
    int "boardflags" (dword (b 35) (b 34)),
    int "boardflags2" (dword (b 37) (b 36)),
    ⟨bytes "macaddr", .ether (eaAt b 38)⟩]

def antennas4 (b : Words) : List Var :=
  [int "aa2g" (lo (b 46)),
    int "aa5g" (b 46 >>> 8).toUInt32,
    int "ag0" (lo (b 47)),
    int "ag1" (hi (b 47)),
    int "ag2" (lo (b 48)),
    int "ag3" (hi (b 48))]

/-- Fixed power indices when power control is disabled. -/
def txpid4 (b : Words) : List Var :=
  (List.range 2).flatMap fun i =>
    [intAt "txpid2ga" (2 * i) (lo (b (49 + i))),
      intAt "txpid2ga" (2 * i + 1) (hi (b (49 + i))),
      intAt "txpid5ga" (2 * i) (lo (b (51 + i))),
      intAt "txpid5ga" (2 * i + 1) (hi (b (51 + i))),
      intAt "txpid5gla" (2 * i) (lo (b (53 + i))),
      intAt "txpid5gla" (2 * i + 1) (hi (b (53 + i))),
      intAt "txpid5gha" (2 * i) (lo (b (55 + i))),
      intAt "txpid5gha" (2 * i + 1) (hi (b (55 + i)))]

/-- Per path variables. -/
def paths4 (b : Words) : List Var :=
  (List.range 4).flatMap fun path =>
    let pathbase := pathbases.getD path 0
    [intAt "itt2ga" path (b (pathbase + 0) >>> 8).toUInt32,
      intAt "maxp2ga" path (lo (b (pathbase + 0)))] ++
    (List.range 4).map (fun i => intPath "pa2gw" i path (b (pathbase + 1 + i)).toUInt32) ++
    [intAt "itt5ga" path (b (pathbase + 5) >>> 8).toUInt32,
      intAt "maxp5ga" path (lo (b (pathbase + 5))),
      intAt "maxp5gla" path (b (pathbase + 6) >>> 8).toUInt32,
      intAt "maxp5gha" path (lo (b (pathbase + 6)))] ++
    (List.range 4).flatMap fun i =>
      [intPath "pa5gw" i path (b (pathbase + 7 + i)).toUInt32,
        intPath "pa5glw" i path (b (pathbase + 11 + i)).toUInt32,
        intPath "pa5ghw" i path (b (pathbase + 15 + i)).toUInt32]

def offsets4 (b : Words) : List Var :=
  [int "cck2gpo" (b 156).toUInt32,
    int "ofdm2gpo" (dword (b 158) (b 157)),
    int "ofdm5gpo" (dword (b 160) (b 159)),
    int "ofdm5glpo" (dword (b 162) (b 161)),
    int "ofdm5ghpo" (dword (b 164) (b 163))] ++
  ((List.range 8).flatMap fun i =>
    [intAt "mcs2gpo" i (b (165 + i)).toUInt32,
      intAt "mcs5gpo" i (b (173 + i)).toUInt32,
      intAt "mcs5glpo" i (b (181 + i)).toUInt32,
      intAt "mcs5ghpo" i (b (189 + i)).toUInt32]) ++
  [int "cddpo" (b 197).toUInt32,
    int "stbcpo" (b 198).toUInt32,
    int "bw40po" (b 199).toUInt32,
    int "bwduppo" (b 200).toUInt32]

/-- What is printed for a revision of 4 or more. -/
def vars4 (b : Words) : List Var :=
  board4 b ++ ccode (b 41) :: int "regrev" (b 42).toUInt32 :: ledbh10 (b 43) ++ ledbh32 (b 44) ++
    (if b 45 ≠ 0xffff then [leddc (b 45)] else []) ++ antennas4 b ++ txpid4 b ++ paths4 b ++ offsets4 b

/-! ### Revisions up to 3 -/

/-- The section of revision 3. -/
def section3 (b : Words) : List Var :=
  [int "ofdmapo" (dword (b 23) (b 22)),
    int "ofdmalpo" (dword (b 25) (b 24)),
    int "ofdmahpo" (dword (b 27) (b 26)),
    leddc (b 21)]

/-- The section of revision 2, in front of the country code. -/
def section2 (b : Words) : List Var :=
  [int "pa1himaxpwr" (lo (b 29)), int "pa1lomaxpwr" (hi (b 29))] ++
  (List.range 3).flatMap fun i =>
    [intAt "pa1lob" i (b (30 + i)).toUInt32, intAt "pa1hib" i (b (33 + i)).toUInt32]

/-- The addresses, the PHYs, and word 46. -/
def board1 (b : Words) (sromrev : UInt8) : List Var :=
  [⟨bytes "il0macaddr", .ether (eaAt b 36)⟩,
    ⟨bytes "et0macaddr", .ether (eaAt b 39)⟩,
    ⟨bytes "et1macaddr", .ether (eaAt b 42)⟩,
    int "et0phyaddr" (b 45 &&& 0x1f).toUInt32,
    int "et1phyaddr" (b 45 >>> 5 &&& 0x1f).toUInt32,
    int "et0mdcport" (b 45 >>> 14 &&& 0x1).toUInt32,
    int "et1mdcport" (b 45 >>> 15 &&& 0x1).toUInt32,
    int "boardrev" (lo (b 46)),
    int (if sromrev > 1 then "cctl" else "cc") (b 46 >>> 8 &&& 0xf).toUInt32,
    int "aa2g" (b 46 >>> 12 &&& 0x3).toUInt32,
    int "aa5g" (b 46 >>> 14 &&& 0x3).toUInt32] ++
  (List.range 3).flatMap fun i => [intAt "pa0b" i (b (47 + i)).toUInt32, intAt "pa1b" i (b (47 + i + 6)).toUInt32]

/-- `boardflags`: word 57, if it is programmed, and from revision 2 on word 28. -/
def boardflags (b : Words) (sromrev : UInt8) : UInt32 :=
  let w32 := if (b 57).toUInt32 = 0xffff then 0 else (b 57).toUInt32
  if sromrev > 1 then w32 ||| (b 28).toUInt32 <<< 16 else w32

/-- Words 52 to 62. -/
def power1 (b : Words) (sromrev : UInt8) : List Var :=
  [int "pa0maxpwr" (lo (b 52)),
    int "pa1maxpwr" (hi (b 52)),
    int "pa0itssit" (lo (b 56)),
    int "pa1itssit" (hi (b 56)),
    int "boardflags" (boardflags b sromrev),
    int "ag0" (lo (b 58)),
    int "ag1" (hi (b 58))] ++
  if sromrev = 1 then
    [⟨bytes "oem", .hex ([59, 60, 61, 62].flatMap fun i => [(hi (b i)).toUInt8, (lo (b i)).toUInt8])⟩]
  else if sromrev = 2 ∨ sromrev = 3 then [int "opo" (lo (b 60))]
  else [int "cckpo" (b 60).toUInt32, int "ofdmgpo" (dword (b 62) (b 61))]

/-- What is printed for a revision up to 3. -/
def vars123 (b : Words) (sromrev : UInt8) : List Var :=
  (if sromrev ≥ 3 then section3 b else []) ++ (if sromrev ≥ 2 then section2 b ++ [ccode (b 59)] else []) ++
    board1 b sromrev ++ ledbh10 (b 50) ++ ledbh32 (b 51) ++ power1 b sromrev

/-! ### The table -/

/-- The variables, in the order in which they are printed. -/
def written (b : Words) (sromrev : UInt8) : List Var :=
  int "sromrev" sromrev.toUInt32 :: if sromrev ≥ 4 then vars4 b else vars123 b sromrev

/-- What lies between `base` and `vp` in the end. -/
def printed (b : Words) (sromrev : UInt8) : Bytes := table ((written b sromrev).map Var.text)

/-- `initvars_table`: no table for the null string alone. -/
def initvarsTable (l : Bytes) : Option Bytes := if l.length > 1 then some l else none

/-- Where the variables come from. -/
inductive Source where
  /-- The CRC is wrong: from flash, or from nowhere. -/
  | flash
  /-- The revision is not known: -2. -/
  | unknown
  | srom (vars : Option Bytes)

/-- `initvars_srom_pci(sbh, curmap, vars, count)`, with what lies in `b` at first. -/
def initvarsSromPci (srom b : Words) : Source :=
  let (err, b) := spromReadPci srom 0 b spromCrcRange true
  let (err, b, sromrev) : ℕ × Words × UInt8 :=
    if b srom4Sign = srom4Signature then
      let (err, b) := spromReadPci srom 0 b srom4Words true
      (err, b, (b (srom4Words - 1) &&& 0xff).toUInt8)
    else if err = 0 then
      -- bcm4401 sroms misprogrammed
      let sromrev := (b 63 &&& 0xff).toUInt8
      (err, b, if sromrev = 0x10 then 1 else sromrev)
    else (err, b, 0)
  if err ≠ 0 then .flash
  else if sromrev > 4 then .unknown
  else .srom (initvarsTable (printed b sromrev))

/-! ### What is asked of the table -/

/-- A table of at most `VARS_MAX` bytes that is well formed, and in which a loop comes by every variable. -/
structure Visible (l : Bytes) (vars : List Var) : Prop where
  length_le : l.length ≤ varsMax
  wellFormed : ∃ ss, TableOf l ss
  seen : ∀ v ∈ vars, v.text ∈ tableStrings l

/-! ### Room and names -/

theorem nul_notMem_hexByte (c : UInt8) : (0 : UInt8) ∉ hexByte 97 c := fun h =>
  absurd (digitIn_hexByte (.inl rfl) c 0 h) (by decide)

/-- What is known of a value without its words. -/
inductive Kind where
  | int
  | ether
  | chars
  | hex (n : ℕ)
  | none
deriving DecidableEq

def Value.kind : Value → Kind
  | .int _ => .int
  | .ether _ => .ether
  | .chars _ _ => .chars
  | .hex l => .hex l.length
  | .none => .none

def Kind.room : Kind → ℕ
  | .int => 11
  | .ether => 17
  | .chars => 2
  | .hex n => 2 * n
  | .none => 0

theorem length_etherText (a : UInt8) : ∀ l : List UInt8, l ≠ [] → (etherText a l).length + 1 = 3 * l.length
  | [], h => absurd rfl h
  | [v], _ => by simp [etherText, hexByte]
  | v :: w :: l, _ => by
    have ih := length_etherText a (w :: l) (List.cons_ne_nil w l)
    rw [etherText_cons_cons, List.length_append, List.length_cons, List.length_cons, Nat.add_assoc, ih]
    simp only [hexByte, List.length_cons, List.length_nil]
    omega

theorem Value.length_text_le : ∀ v : Value, v.text.length ≤ v.kind.room
  | .int v => length_printInt_le v
  | .ether ea => by
    have h := length_etherText 97 ea.toList (List.ne_nil_of_length_pos (by simp))
    rw [Vector.length_toList] at h
    change (etherText 97 ea.toList).length ≤ 17
    omega
  | .chars c d => le_rfl
  | .hex l => (length_flatMap_hexByte 97 l).le
  | .none => le_rfl

theorem Value.nul_notMem : ∀ {v : Value}, v.kind ≠ .chars → (0 : UInt8) ∉ v.text
  | .int v, _ => nul_notMem_printInt v
  | .ether ea, _ => (bcmEtherNtoa ea).nul_notMem
  | .chars _ _, h => absurd rfl h
  | .hex l, _ => by
    intro h
    obtain ⟨c, -, hc⟩ := List.mem_flatMap.mp h
    exact nul_notMem_hexByte c hc
  | .none, _ => List.not_mem_nil

/-- Variables with names that are names, values free of NUL, and room for all of them with their NULs. -/
structure Within (n : ℕ) (l : List Var) : Prop where
  named : ∀ v ∈ l, v.name ≠ [] ∧ (0 : UInt8) ∉ v.name ∧ (61 : UInt8) ∉ v.name
  clean : ∀ v ∈ l, (0 : UInt8) ∉ v.value.text
  room : (l.map fun v => v.text.length + 1).sum ≤ n

theorem within_nil : Within 0 [] := ⟨by simp, by simp, le_rfl⟩

theorem Within.append {m n : ℕ} {l l' : List Var} (h : Within m l) (h' : Within n l') : Within (m + n) (l ++ l') where
  named v hv := (List.mem_append.mp hv).elim (h.named v) (h'.named v)
  clean v hv := (List.mem_append.mp hv).elim (h.clean v) (h'.clean v)
  room := by
    rw [List.map_append, List.sum_append]
    exact Nat.add_le_add h.room h'.room

theorem Within.mono {m n : ℕ} {l : List Var} (h : Within m l) (hle : m ≤ n) : Within n l :=
  ⟨h.named, h.clean, h.room.trans hle⟩

theorem Within.perm {n : ℕ} {l l' : List Var} (h : Within n l) (hperm : l.Perm l') : Within n l' where
  named v hv := h.named v (hperm.mem_iff.mpr hv)
  clean v hv := h.clean v (hperm.mem_iff.mpr hv)
  room := by
    rw [← (hperm.map fun v => v.text.length + 1).sum_eq]
    exact h.room

theorem Within.ite {n : ℕ} {l : List Var} (h : Within n l) (p : Prop) [Decidable p] : Within n (if p then l else []) := by
  split_ifs
  · exact h
  · exact within_nil.mono (Nat.zero_le n)

/-- What is known of a variable without its words. -/
def Var.shape (v : Var) : Bytes × Kind := (v.name, v.value.kind)

/-- Names that are names, no letters, and room for them. -/
def fits (n : ℕ) (shapes : List (Bytes × Kind)) : Bool :=
  (shapes.all fun s => !s.1.isEmpty && s.1.all (fun c => c ≠ 0 && c ≠ 61) && s.2 ≠ .chars) &&
    (shapes.map fun s => s.1.length + s.2.room + 2).sum ≤ n

/-- The names are the same whatever the words are. -/
theorem within_of_fits {n : ℕ} {l l' : List Var} (hshape : l.map Var.shape = l'.map Var.shape)
    (h : fits n (l'.map Var.shape) = true) : Within n l := by
  rw [← hshape] at h
  unfold fits at h
  rw [Bool.and_eq_true, List.all_eq_true, decide_eq_true_iff] at h
  have hvar : ∀ v ∈ l, (v.name ≠ [] ∧ ∀ c ∈ v.name, c ≠ 0 ∧ c ≠ 61) ∧ v.value.kind ≠ .chars := by
    intro v hv
    have hs := h.1 v.shape (List.mem_map_of_mem hv)
    rw [Bool.and_eq_true, Bool.and_eq_true] at hs
    obtain ⟨⟨hne, hall⟩, hkind⟩ := hs
    exact ⟨⟨by simpa [Var.shape] using hne, by simpa [Var.shape] using hall⟩, of_decide_eq_true hkind⟩
  refine ⟨fun v hv => ⟨(hvar v hv).1.1, fun h0 => ((hvar v hv).1.2 0 h0).1 rfl, fun h61 => ((hvar v hv).1.2 61 h61).2 rfl⟩,
    fun v hv => Value.nul_notMem (hvar v hv).2, le_trans ?_ h.2⟩
  rw [List.map_map]
  refine List.sum_le_sum fun v _ => ?_
  have hlen := v.value.length_text_le
  simp only [Var.text, List.length_append, List.length_cons, Function.comp_apply, Var.shape]
  omega

/-! ### The sections -/

section Sections

variable (b : Words)

@[simp] theorem shape_mk (name : Bytes) (v : Value) : (Var.mk name v).shape = (name, v.kind) := rfl

@[simp] theorem shape_int (name : String) (v : UInt32) : (int name v).shape = (bytes name, .int) := rfl

@[simp] theorem shape_intAt (name : String) (i : ℕ) (v : UInt32) :
    (intAt name i v).shape = (bytes name ++ decimal i, .int) := rfl

@[simp] theorem shape_intPath (name : String) (i path : ℕ) (v : UInt32) :
    (intPath name i path v).shape = (bytes name ++ decimal i ++ bytes "a" ++ decimal path, .int) := rfl

theorem int_within {name : String} (v : UInt32) {n : ℕ} (h : fits n [(bytes name, .int)] = true) : Within n [int name v] :=
  @within_of_fits _ _ [int name 0] (by simp) h

/-- All words 0. -/
def zeros : Words := fun _ => 0

/-- The room of the sections. -/
theorem fits_sections :
    (fits 20 [(bytes "sromrev", .int)] = true ∧ fits 19 [(bytes "regrev", .int)] = true ∧
      fits 18 [(bytes "leddc", .int)] = true ∧ fits 38 ([int "ledbh0" 0, int "ledbh1" 0].map Var.shape) = true ∧
      fits 38 ([int "ledbh2" 0, int "ledbh3" 0].map Var.shape) = true) ∧
    (fits 94 ((board4 zeros).map Var.shape) = true ∧ fits 98 ((antennas4 zeros).map Var.shape) = true ∧
      fits 360 ((txpid4 zeros).map Var.shape) = true ∧ fits 1880 ((paths4 zeros).map Var.shape) = true ∧
      fits 870 ((offsets4 zeros).map Var.shape) = true) ∧
    (fits 80 ((section3 zeros).map Var.shape) = true ∧ fits 168 ((section2 zeros).map Var.shape) = true) ∧
    (fits 359 ((board1 zeros 1).map Var.shape) = true ∧ fits 359 ((board1 zeros 2).map Var.shape) = true) ∧
    fits 181 ((power1 zeros 1).map Var.shape) = true ∧ fits 181 ((power1 zeros 2).map Var.shape) = true ∧
      fits 181 ((power1 zeros 4).map Var.shape) = true :=
  ⟨⟨by decide +kernel, by decide +kernel, by decide +kernel, by decide +kernel, by decide +kernel⟩,
    ⟨by decide +kernel, by decide +kernel, by decide +kernel, by decide +kernel, by decide +kernel⟩,
    ⟨by decide +kernel, by decide +kernel⟩, ⟨by decide +kernel, by decide +kernel⟩, by decide +kernel, by decide +kernel,
    by decide +kernel⟩

theorem sromrev_within (v : UInt32) : Within 20 [int "sromrev" v] := int_within v fits_sections.1.1

theorem regrev_within (v : UInt32) : Within 19 [int "regrev" v] := int_within v fits_sections.1.2.1

theorem leddc_within (w : UInt16) : Within 18 [leddc w] := int_within _ fits_sections.1.2.2.1

theorem ledbh10_within (w : UInt16) : Within 38 (ledbh10 w) :=
  Within.ite (within_of_fits (by simp) fits_sections.1.2.2.2.1) _

theorem ledbh32_within (w : UInt16) : Within 38 (ledbh32 w) :=
  Within.ite (within_of_fits (by simp) fits_sections.1.2.2.2.2) _

theorem board4_within : Within 94 (board4 b) :=
  within_of_fits (by simp [board4, Value.kind]) fits_sections.2.1.1

theorem antennas4_within : Within 98 (antennas4 b) :=
  within_of_fits (by simp [antennas4]) fits_sections.2.1.2.1

theorem txpid4_within : Within 360 (txpid4 b) :=
  within_of_fits (by simp [txpid4, List.map_flatMap]) fits_sections.2.1.2.2.1

theorem paths4_within : Within 1880 (paths4 b) :=
  within_of_fits (by simp [paths4, List.map_flatMap, Function.comp_def]) fits_sections.2.1.2.2.2.1

theorem offsets4_within : Within 870 (offsets4 b) :=
  within_of_fits (by simp [offsets4, List.map_flatMap]) fits_sections.2.1.2.2.2.2

theorem section3_within : Within 80 (section3 b) :=
  within_of_fits (by simp [section3, leddc]) fits_sections.2.2.1.1

theorem section2_within : Within 168 (section2 b) :=
  within_of_fits (by simp [section2, List.map_flatMap]) fits_sections.2.2.1.2

theorem board1_within (sromrev : UInt8) : Within 359 (board1 b sromrev) := by
  by_cases h : sromrev > 1
  · exact within_of_fits (by simp [board1, h, List.map_flatMap, Value.kind]) fits_sections.2.2.2.1.2
  · exact within_of_fits (by simp [board1, h, List.map_flatMap, Value.kind]) fits_sections.2.2.2.1.1

theorem power1_within (sromrev : UInt8) : Within 181 (power1 b sromrev) := by
  by_cases h1 : sromrev = 1
  · exact within_of_fits (by simp [power1, h1, Value.kind]) fits_sections.2.2.2.2.1
  · by_cases h23 : sromrev = 2 ∨ sromrev = 3
    · exact within_of_fits (by simp [power1, h1, h23]) fits_sections.2.2.2.2.2.1
    · exact within_of_fits (by simp [power1, h1, h23]) fits_sections.2.2.2.2.2.2

end Sections

/-! ### The country code -/

/-- The letters are none, or both are there. -/
def Lettered (w : UInt16) : Prop := w = 0 ∨ w >>> 8 &&& 0xff ≠ 0 ∧ w &&& 0xff ≠ 0

theorem byte_eq_zero_iff (w : UInt16) : (w &&& 0xff).toUInt32.toUInt8 = 0 ↔ w &&& 0xff = 0 := by
  have hand : (w &&& 0xff).toNat = w.toNat % 2 ^ 8 := Nat.and_two_pow_sub_one_eq_mod w.toNat 8
  rw [← UInt8.toNat_inj, ← UInt16.toNat_inj, UInt32.toNat_toUInt8, UInt16.toNat_toUInt32, hand, Nat.mod_mod]
  rfl

theorem ccode_clean_iff (w : UInt16) : (0 : UInt8) ∉ (ccode w).value.text ↔ Lettered w := by
  unfold ccode Lettered
  by_cases hw : w = 0
  · rw [if_pos hw]
    exact iff_of_true List.not_mem_nil (.inl hw)
  · rw [if_neg hw, or_iff_right hw]
    change (0 : UInt8) ∉ [(hi w).toUInt8, (lo w).toUInt8] ↔ _
    have hhi : (hi w).toUInt8 = 0 ↔ w >>> 8 &&& 0xff = 0 := byte_eq_zero_iff (w >>> 8)
    have hlo : (lo w).toUInt8 = 0 ↔ w &&& 0xff = 0 := byte_eq_zero_iff w
    rw [List.mem_cons, List.mem_singleton, not_or, @eq_comm _ 0 (hi w).toUInt8, hhi, @eq_comm _ 0 (lo w).toUInt8, hlo]

theorem ccode_within {w : UInt16} (h : Lettered w) : Within 9 [ccode w] where
  named v hv := by
    rw [List.mem_singleton.mp hv]
    change bytes "ccode" ≠ [] ∧ (0 : UInt8) ∉ bytes "ccode" ∧ (61 : UInt8) ∉ bytes "ccode"
    decide +kernel
  clean v hv := by
    rw [List.mem_singleton.mp hv]
    exact (ccode_clean_iff w).mpr h
  room := by
    unfold ccode
    split_ifs
    · decide +kernel
    · exact le_rfl

/-- Everything in front of the country code and behind it, if there is one. -/
theorem exists_ccode (b : Words) {sromrev : UInt8} (h : ¬sromrev < 2) : ∃ before after,
    written b sromrev = before ++ ccode (b (if sromrev ≥ 4 then 41 else 59)) :: after ∧ Within 4086 (before ++ after) := by
  have hrev := sromrev_within sromrev.toUInt32
  unfold written
  by_cases h4 : sromrev ≥ 4
  · have hregrev := regrev_within (b 42).toUInt32
    have hafter := ((((((hregrev.append (ledbh10_within (b 43))).append (ledbh32_within (b 44))).append
      ((leddc_within (b 45)).ite (b 45 ≠ 0xffff))).append (antennas4_within b)).append (txpid4_within b)).append
      (paths4_within b)).append (offsets4_within b)
    refine ⟨_, _, ?_, ((hrev.append (board4_within b)).append hafter).mono (by decide)⟩
    rw [if_pos h4, if_pos h4]
    simp [vars4]
  · have hbefore := (hrev.append ((section3_within b).ite (sromrev ≥ 3))).append (section2_within b)
    have hafter := (((board1_within b sromrev).append (ledbh10_within (b 50))).append (ledbh32_within (b 51))).append
      (power1_within b sromrev)
    refine ⟨_, _, ?_, (hbefore.append hafter).mono (by decide)⟩
    rw [if_neg h4, if_neg h4, vars123, if_pos (UInt8.not_lt.mp h)]
    simp

theorem written_within (b : Words) {sromrev : UInt8} (h : sromrev < 2) : Within 4095 (written b sromrev) := by
  have hrev := sromrev_within sromrev.toUInt32
  have hrest := (((board1_within b sromrev).append (ledbh10_within (b 50))).append (ledbh32_within (b 51))).append
    (power1_within b sromrev)
  have h4 : ¬sromrev ≥ 4 := by
    rw [ge_iff_le, UInt8.not_le]
    exact UInt8.lt_trans h (by decide)
  have h3 : ¬sromrev ≥ 3 := by
    rw [ge_iff_le, UInt8.not_le]
    exact UInt8.lt_trans h (by decide)
  unfold written
  rw [if_neg h4, vars123, if_neg h3, if_neg (UInt8.not_le.mpr h)]
  exact (hrev.append hrest).mono (by decide)

/-! ### The table -/

/-- Variables within the room are all visible. -/
theorem Within.visible {l : List Var} (h : Within 4095 l) : Visible (table (l.map Var.text)) l := by
  have htable : TableOf (table (l.map Var.text)) (l.map Var.text) := by
    refine ⟨rfl, fun s hs => ?_, fun s hs => ?_⟩
    · obtain ⟨v, hv, rfl⟩ := List.mem_map.mp hs
      rw [Var.text, List.mem_append, List.mem_cons, not_or, not_or]
      exact ⟨(h.named v hv).2.1, by decide, h.clean v hv⟩
    · obtain ⟨v, hv, rfl⟩ := List.mem_map.mp hs
      exact ⟨v.name, v.value.text, rfl, (h.named v hv).1, (h.named v hv).2.2⟩
  refine ⟨?_, ⟨_, htable⟩, fun v hv => ?_⟩
  · rw [length_table, List.map_map]
    exact Nat.succ_le_succ h.room
  · rw [htable.scanned]
    exact List.mem_map_of_mem hv

/-- A variable that is visible is free of NUL. -/
theorem Visible.clean {l : Bytes} {vars : List Var} (h : Visible l vars) {v : Var} (hv : v ∈ vars) :
    (0 : UInt8) ∉ v.value.text := by
  obtain ⟨ss, hss⟩ := h.wellFormed
  have hmem := h.seen v hv
  rw [hss.scanned] at hmem
  intro h0
  exact hss.nul_notMem _ hmem (List.mem_append_right _ (List.mem_cons_of_mem _ h0))

/-- **When the variables are all visible**: the letters of the country code are. -/
theorem visible_iff (b : Words) (sromrev : UInt8) : Visible (printed b sromrev) (written b sromrev) ↔
    sromrev < 2 ∨ Lettered (b (if sromrev ≥ 4 then 41 else 59)) := by
  by_cases h2 : sromrev < 2
  · exact iff_of_true (written_within b h2).visible (.inl h2)
  obtain ⟨before, after, hwritten, hwithin⟩ := exists_ccode b h2
  rw [or_iff_right h2]
  constructor
  · intro h
    rw [← ccode_clean_iff]
    refine h.clean ?_
    rw [hwritten]
    simp
  · intro h
    have hall : Within 4095 (before ++ ccode (b (if sromrev ≥ 4 then 41 else 59)) :: after) :=
      ((ccode_within h).append hwithin).perm (by rw [List.singleton_append]; exact List.perm_middle.symm)
    rw [printed, hwritten]
    exact hall.visible

/-- The words as they are read: those of the part, and behind them what the buffer held. -/
def readInto (srom b : Words) : Words := fun i => if i < readWords srom then srom i else b i

/-- The revision of the part. -/
def revision (srom : Words) : UInt8 :=
  if srom srom4Sign = srom4Signature then (srom (srom4Words - 1) &&& 0xff).toUInt8
  else if (srom 63 &&& 0xff).toUInt8 = 0x10 then 1
  else (srom 63 &&& 0xff).toUInt8

/-- The word with the country code. -/
def ccodeAt (sromrev : UInt8) : ℕ := if sromrev ≥ 4 then 41 else 59

/-- There is always a table. -/
theorem initvarsTable_printed (b : Words) (sromrev : UInt8) :
    initvarsTable (printed b sromrev) = some (printed b sromrev) := by
  refine if_pos ?_
  rw [printed, written, List.map_cons, table_cons, Var.text, List.length_append, List.length_append, List.length_cons,
    List.length_cons]
  omega

/-- A part with a good CRC is printed. -/
theorem initvarsSromPci_eq {srom b : Words} (hcrc : crcCheck srom b = 0) (hrev : revision srom ≤ 4) :
    initvarsSromPci srom b = .srom (some (printed (readInto srom b) (revision srom))) := by
  have hgood : srom 0 ≠ 0xffff ∧ hndcrc8 (Srom.bytes srom (readWords srom)) crc8InitValue = crc8GoodValue := by
    rw [crcCheck_eq] at hcrc
    by_contra hbad
    split_ifs at hcrc with h0 hg
    exact hbad ⟨h0, hg⟩
  have hread (b : Words) : spromReadPci srom 0 b (readWords srom) true =
      (0, fun i => if i < readWords srom then srom i else b i) := by
    have hpos : 0 < readWords srom := by
      unfold readWords
      split_ifs <;> decide
    rw [spromReadPci_eq srom b hpos, if_neg hgood.1, if_pos hgood.2]
  have hlast : ¬revision srom > 4 := UInt8.not_lt.mpr hrev
  have hword : (if srom4Sign < spromCrcRange then srom srom4Sign else b srom4Sign) = srom srom4Sign := if_pos (by decide)
  unfold initvarsSromPci
  by_cases hsign : srom srom4Sign = srom4Signature
  · have hwords : readWords srom = srom4Words := if_pos hsign
    have hbuf : (fun i => if i < srom4Words then srom i else if i < spromCrcRange then srom i else b i) = readInto srom b := by
      funext i
      unfold readInto spromCrcRange srom4Words
      rw [hwords, srom4Words]
      split_ifs <;> first | rfl | omega
    have hrevision : (readInto srom b (srom4Words - 1) &&& 0xff).toUInt8 = revision srom := by
      rw [readInto, hwords, if_pos (by decide), revision, if_pos hsign]
    rw [hwords] at hread
    rw [spromReadPci_eq srom b (show 0 < spromCrcRange by decide)]
    dsimp only
    rw [if_pos (hword.trans hsign), hread, hbuf]
    dsimp only
    rw [hrevision, if_neg (by decide), if_neg hlast, initvarsTable_printed]
  · have hwords : readWords srom = spromCrcRange := if_neg hsign
    have hread' : spromReadPci srom 0 b spromCrcRange true = (0, readInto srom b) := by
      rw [← hwords]
      exact hread b
    have hword' (i : ℕ) (hi : i < spromCrcRange) : readInto srom b i = srom i := if_pos (by rwa [hwords])
    have hrevision : (if (srom 63 &&& 0xff).toUInt8 = 0x10 then 1 else (srom 63 &&& 0xff).toUInt8) = revision srom :=
      (if_neg hsign).symm
    rw [hread']
    dsimp only
    rw [hword' srom4Sign (by decide), if_neg hsign, if_pos rfl, hword' 63 (by decide), hrevision]
    dsimp only
    rw [if_neg (by decide), if_neg hlast, initvarsTable_printed]

/-- **When the variables of an SROM are all visible.** -/
theorem initvarsSromPci_visible_iff (srom b : Words) (hcrc : crcCheck srom b = 0) (hrev : revision srom ≤ 4) :
    (∃ l, initvarsSromPci srom b = .srom (some l) ∧ Visible l (written (readInto srom b) (revision srom))) ↔
      revision srom < 2 ∨ Lettered (srom (ccodeAt (revision srom))) := by
  rw [initvarsSromPci_eq hcrc hrev]
  have hword : readInto srom b (ccodeAt (revision srom)) = srom (ccodeAt (revision srom)) := by
    have hlt : ccodeAt (revision srom) < readWords srom := by
      unfold ccodeAt readWords
      split_ifs <;> decide
    exact if_pos hlt
  rw [← hword]
  constructor
  · rintro ⟨l, hl, hvisible⟩
    obtain rfl := Option.some.inj (Source.srom.inj hl)
    exact (visible_iff _ _).mp hvisible
  · intro h
    exact ⟨_, rfl, (visible_iff _ _).mpr h⟩

/-- A part of revision 2 with the word `w` for the country code, all else 0, and its CRC. -/
def codedPart (w : UInt16) : Words := setCrc (fun i => if i = 59 then w else if i = 63 then 2 else 0) 64 128

/-- A part with a country code. -/
theorem initvarsSromPci_visible_iff_us :
    (∃ l, initvarsSromPci (codedPart 0x5553) (fun _ => 0) = .srom (some l) ∧
      Visible l (written (readInto (codedPart 0x5553) fun _ => 0) (revision (codedPart 0x5553)))) ↔
      revision (codedPart 0x5553) < 2 ∨ Lettered (codedPart 0x5553 (ccodeAt (revision (codedPart 0x5553)))) :=
  initvarsSromPci_visible_iff _ _ (by decide +kernel) (by decide +kernel)

/-- A country code of one letter hides what stands behind it. -/
theorem initvarsSromPci_hidden : crcCheck (codedPart 0x4100) (fun _ => 0) = 0 ∧ revision (codedPart 0x4100) = 2 ∧
    ¬∃ l, initvarsSromPci (codedPart 0x4100) (fun _ => 0) = .srom (some l) ∧
      Visible l (written (readInto (codedPart 0x4100) fun _ => 0) (revision (codedPart 0x4100))) := by
  have hcrc : crcCheck (codedPart 0x4100) (fun _ => 0) = 0 := by decide +kernel
  have hrev : revision (codedPart 0x4100) = 2 := by decide +kernel
  refine ⟨hcrc, hrev, ?_⟩
  rintro ⟨l, hl, hvisible⟩
  rw [initvarsSromPci_eq hcrc (by rw [hrev]; decide)] at hl
  obtain rfl := Option.some.inj (Source.srom.inj hl)
  rw [visible_iff, hrev] at hvisible
  exact absurd hvisible (by unfold Lettered; decide +kernel)

end SromVars
end Bcm
end Router
