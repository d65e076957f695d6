/-
# The variables of a CIS

`srom_parsecis` of `shared/bcmsrom.c`, built without its assertions. A block of the CIS is a run of tuples, each with a
kind, a length and as many bytes; of most kinds it is a list of fields that are printed (`fields`). Nothing but the size
of the block is looked at before a tuple is: `none` is a read outside the tuple, or of a header outside the block.

Beside the scan stands what the tuples of a block are (`walk`), what is read of each (`Tuple.Inside`), and how much text
it makes (`Tuple.room`). The memory that is allocated is always there.
-/
import RouterFirmware.Bcm.SromVars

namespace Router
namespace Bcm
namespace Cis

open CMem CText SromVars

/-- `CIS_SIZE`. -/
def cisSize : ℕ := 896

/-- A block. -/
abbrev Block := Vector UInt8 cisSize

def cistplVers1 : UInt8 := 0x15
def cistplManfid : UInt8 := 0x20
def cistplFuncid : UInt8 := 0x21
def cistplFunce : UInt8 := 0x22
def cistplCftable : UInt8 := 0x1b
def cistplBrcmHnbu : UInt8 := 0x80

/-- `LAN_NID`, a node identification. -/
def lanNid : UInt8 := 4

def hnbuSromrev : UInt8 := 0x00
def hnbuChipid : UInt8 := 0x01
def hnbuBoardrev : UInt8 := 0x02
def hnbuPaparms : UInt8 := 0x03
def hnbuOem : UInt8 := 0x04
def hnbuCc : UInt8 := 0x05
def hnbuAa : UInt8 := 0x06
def hnbuAg : UInt8 := 0x07
def hnbuBoardflags : UInt8 := 0x08
def hnbuLeds : UInt8 := 0x09
def hnbuCcode : UInt8 := 0x0a
def hnbuCckpo : UInt8 := 0x0b
def hnbuOfdmpo : UInt8 := 0x0c
def hnbuPaparms5g : UInt8 := 0x0e
def hnbuAnt5g : UInt8 := 0x0f
def hnbuRdlid : UInt8 := 0x10
def hnbuRssismbxa2g : UInt8 := 0x11
def hnbuRssismbxa5g : UInt8 := 0x12
def hnbuXtalfreq : UInt8 := 0x13
def hnbuTri2g : UInt8 := 0x14
def hnbuTri5g : UInt8 := 0x15
def hnbuRxpo2g : UInt8 := 0x16
def hnbuRxpo5g : UInt8 := 0x17
def hnbuRdlrndis : UInt8 := 0x20
def hnbuRdlrwu : UInt8 := 0x30

/-! ### Fields -/

/-- How the bytes of a field are printed. -/
inductive Form where
  /-- `%d` of a number, the low byte first. -/
  | int
  /-- `0x%x` of a number, the low byte first. -/
  | hex
  /-- `%d` of `b >> shift & mask`. -/
  | bits (shift mask : UInt8)
  /-- `%d`, or no variable at all if the byte is `0xff`. -/
  | led
  /-- `%02x` of each byte. -/
  | octets
  /-- `%s` of what `bcm_ether_ntoa` prints. -/
  | ether
  /-- `%c%c`, or nothing behind the `=` if one of them is 0. -/
  | letters

/-- A number from its bytes, the low one first. -/
def number (l : Bytes) : UInt32 := l.foldr (fun b n => n <<< 8 ||| b.toUInt32) 0

/-- Whether letters are printed. -/
def areLetters (l : Bytes) : Bool := l.all (· ≠ 0)

/-- What is printed behind the `=`, if anything is. -/
def Form.text : Form → Bytes → Option Bytes
  | .int, l => some (printInt (number l))
  | .hex, l => some (bytes "0x" ++ printHex (number l))
  | .bits shift mask, l => some (printInt (l.headD 0 >>> shift &&& mask).toUInt32)
  | .led, l => if l.headD 0 ≠ 0xff then some (printInt (l.headD 0).toUInt32) else none
  | .octets, l => some (l.flatMap (hexByte 97))
  | .ether, l => some (etherText 97 l)
  | .letters, l => some (if areLetters l then l else [])

/-- A field: the name of its variable, the bytes of the tuple that it is read from, and its form. -/
structure Field where
  name : Bytes
  offs : List ℕ
  form : Form

/-- `name=value`. -/
def pair (name value : Bytes) : Bytes := name ++ 61 :: value

/-- The variable of a field, if it is printed. -/
def Field.print (data : Bytes) (f : Field) : Option (List Bytes) := do
  let l ← f.offs.mapM (data[·]?)
  pure ((f.form.text l).toList.map (pair f.name))

/-- The variables of fields. -/
def fields (data : Bytes) : List Field → Option (List Bytes)
  | [] => some []
  | f :: fs => do
    let ss ← f.print data
    let ss' ← fields data fs
    pure (ss ++ ss')

/-- `name=%d`. -/
def int (name : String) (offs : List ℕ) : Field := ⟨bytes name, offs, .int⟩

/-- `name%d=%d`. -/
def intAt (name : String) (j : ℕ) (offs : List ℕ) : Field := ⟨bytes name ++ decimal j, offs, .int⟩

/-- `name=0x%x`. -/
def hex (name : String) (offs : List ℕ) : Field := ⟨bytes name, offs, .hex⟩

/-- `name=%d`, of some bits. -/
def bits (name : String) (off : ℕ) (shift mask : UInt8) : Field := ⟨bytes name, [off], .bits shift mask⟩

/-- `name=%d`, unless it is `0xff`. -/
def led (name : String) (off : ℕ) : Field := ⟨bytes name, [off], .led⟩

def manfidFields : List Field := [hex "manfid" [0, 1], hex "prodid" [2, 3]]

def lanNidFields : List Field := [int "boardnum" [7, 6], ⟨bytes "macaddr", [2, 3, 4, 5, 6, 7], .ether⟩]

def cftableFields : List Field := [int "regwindowsz" [6, 7]]

/-- `HNBU_PAPARMS`, of three lengths. -/
def paparms (tlen : ℕ) : List Field :=
  if tlen = 2 then [int "pa0maxpwr" [1]]
  else if tlen ≥ 9 then
    (if tlen = 10 then [int "opo" [9]] else []) ++
      (List.range 3).map (fun j => intAt "pa0b" j [j * 2 + 1, j * 2 + 2]) ++ [int "pa0itssit" [7], int "pa0maxpwr" [8]]
  else []

/-- `HNBU_PAPARMS5G`. -/
def paparms5g : List Field :=
  (List.range 3).map (fun j => intAt "pa1b" j [j * 2 + 1, j * 2 + 2]) ++
    (List.range 3).map (fun j => intAt "pa1lob" j [(j + 3) * 2 + 1, (j + 3) * 2 + 2]) ++
    (List.range 3).map (fun j => intAt "pa1hib" j [(j + 6) * 2 + 1, (j + 6) * 2 + 2]) ++
    [int "pa1itssit" [19], int "pa1maxpwr" [20], int "pa1lomaxpwr" [21], int "pa1himaxpwr" [22]]

/-- The fields of the kinds of `CISTPL_BRCM_HNBU` that nothing but the printing is done for. -/
def hnbuFields (tlen : ℕ) : List (UInt8 × List Field) :=
  [(hnbuChipid, [hex "vendid" [1, 2], hex "devid" [3, 4]] ++ if tlen = 7 then [int "chiprev" [5, 6]] else []),
    (hnbuBoardrev, [int "boardrev" [1]]),
    (hnbuAa, [int "aa2g" [1]]),
    (hnbuAnt5g, [int "aa5g" [1], int "ag1" [2]]),
    (hnbuCc, [int "cc" [1]]),
    (hnbuPaparms, paparms tlen),
    (hnbuPaparms5g, paparms5g),
    (hnbuOem, [⟨bytes "oem", [1, 2, 3, 4, 5, 6, 7, 8], .octets⟩]),
    (hnbuBoardflags, [hex "boardflags" (if tlen = 5 then [1, 2, 3, 4] else [1, 2])]),
    (hnbuLeds, [led "ledbh0" 1, led "ledbh1" 2, led "ledbh2" 3, led "ledbh3" 4]),
    (hnbuCckpo, [hex "cckpo" [1, 2]]),
    (hnbuOfdmpo, [hex "ofdmpo" [1, 2, 3, 4]]),
    (hnbuRdlid, [hex "rdlid" [1, 2]]),
    (hnbuRdlrndis, [int "rdlrndis" [1]]),
    (hnbuRdlrwu, [int "rdlrwu" [1]]),
    (hnbuXtalfreq, [int "xtalfreq" [1, 2, 3, 4]]),
    (hnbuRssismbxa2g,
      [bits "rssismf2g" 1 0 0xf, bits "rssismc2g" 1 4 0xf, bits "rssisav2g" 2 0 0x7, bits "bxa2g" 2 3 0x3]),
    (hnbuRssismbxa5g,
      [bits "rssismf5g" 1 0 0xf, bits "rssismc5g" 1 4 0xf, bits "rssisav5g" 2 0 0x7, bits "bxa5g" 2 3 0x3]),
    (hnbuTri2g, [int "tri2g" [1]]),
    (hnbuTri5g, [int "tri5gl" [1], int "tri5g" [2], int "tri5gh" [3]]),
    (hnbuRxpo2g, [int "rxpo2g" [1]]),
    (hnbuRxpo5g, [int "rxpo5g" [1]])]

/-! ### The scan -/

/-- What is printed so far, and the variables of `srom_parsecis`. -/
structure State where
  vars : List Bytes
  sromrev : UInt8
  agInit : Bool
  funcid : UInt32

/-- Strings behind those that are printed. -/
def State.print (st : State) (ss : List Bytes) : State := { st with vars := st.vars ++ ss }

/-- The string from `k` on, up to its NUL. -/
def string (data : Bytes) (k : ℕ) : Option Bytes :=
  let s := (cstr (data.drop k)).bytes
  if k + s.length < data.length then some s else none

/-- `CISTPL_VERS_1`: the strings are assumed to be good if the version field checks out, or else it is a
`CISTPL_MANFID`. -/
def vers1 (data : Bytes) : Option (List Bytes) := do
  let h ← data[1]?
  let l ← data[0]?
  if h.toNat * 256 + l.toNat ≥ 8 then
    let manf ← string data 2
    let productname ← string data (3 + manf.length)
    pure [pair (bytes "manf") manf, pair (bytes "productname") productname]
  else fields data manfidFields

/-- `HNBU_CCODE`: the second letter is not read if the first is 0. -/
def ccode (data : Bytes) : Option (List Bytes) := do
  let c ← data[1]?
  let d ← if c = 0 then some 0 else data[2]?
  let cctl ← data[3]?
  pure [pair (bytes "ccode") (if c = 0 ∨ d = 0 then [] else [c, d]),
    pair (bytes "cctl") (bytes "0x" ++ printHex cctl.toUInt32)]

/-- A tuple of `CISTPL_BRCM_HNBU`. -/
def hnbu (st : State) (data : Bytes) : Option State := do
  let sub ← data[0]?
  if sub = hnbuSromrev then
    let sromrev ← data[1]?
    pure { st with sromrev }
  else if sub = hnbuAg then
    let ss ← fields data [int "ag0" [1]]
    pure { st.print ss with agInit := true }
  else if sub = hnbuCcode then (ccode data).map st.print
  else (fields data (((hnbuFields data.length).lookup sub).getD [])).map st.print

/-- A tuple of `CISTPL_FUNCE`; every `funcid` is the default. -/
def funce (st : State) (data : Bytes) : Option State := do
  let nid ← data[0]?
  if nid = lanNid then (fields data lanNidFields).map st.print else pure st

/-- A tuple of the kind `tup`. -/
def tuple (st : State) (tup : UInt8) (data : Bytes) : Option State :=
  if tup = cistplVers1 then (vers1 data).map st.print
  else if tup = cistplManfid then (fields data manfidFields).map st.print
  else if tup = cistplFuncid then data[0]?.map fun b => { st with funcid := b.toUInt32 }
  else if tup = cistplFunce then funce st data
  else if tup = cistplCftable then (fields data cftableFields).map st.print
  else if tup = cistplBrcmHnbu then hnbu st data
  else some st

/-- The bytes of a tuple. -/
def dataAt (cis : Block) (i : ℕ) (tlen : UInt8) : Bytes := (cis.toList.drop i).take tlen.toNat

/-- The loop over a block, from `i` on. -/
def scan (cis : Block) (i : ℕ) (st : State) : Option State := do
  let tup ← cis[i]?
  let tlen ← cis[i + 1]?
  if i + 2 + tlen.toNat ≥ cisSize then some st
  else
    let st ← tuple st tup (dataAt cis (i + 2) tlen)
    if tup ≠ 0xff then scan cis (i + 2 + tlen.toNat) st else some st
termination_by cisSize - i
decreasing_by omega

/-- The loop over the blocks. -/
def scanAll : List Block → State → Option State
  | [], st => some st
  | cis :: pcis, st => do
    let st ← scan cis 0 { st with funcid := 0 }
    scanAll pcis st

/-- The strings at the end: the version, and the antenna gain if there was none. -/
def closing (st : State) : List Bytes :=
  pair (bytes "sromrev") (printInt st.sromrev.toUInt32) ::
    if st.agInit then [] else [pair (bytes "ag0") (printInt 0xff)]

/-- `srom_parsecis(osh, pcis, ciscnt, vars, count)`: what lies between `base` and `vp` in the end. -/
def sromParsecis (pcis : List Block) : Option Bytes :=
  (scanAll pcis ⟨[], 1, false, 0⟩).map fun st => table (st.vars ++ closing st)

/-! ### The tuples of a block -/

structure Tuple where
  tup : UInt8
  data : Bytes

/-- The tuples from a header at `i` on, and where the last header stands: it begins a tuple that is not there in full, or
the one of the kind `0xff`. -/
def walk (cis : Block) (i : ℕ) : List Tuple × ℕ :=
  let tlen := cis[i + 1]?.getD 0
  if i + 2 + tlen.toNat ≥ cisSize then ([], i)
  else if cis[i]?.getD 0 = 0xff then ([⟨0xff, dataAt cis (i + 2) tlen⟩], i)
  else
    let w := walk cis (i + 2 + tlen.toNat)
    (⟨cis[i]?.getD 0, dataAt cis (i + 2) tlen⟩ :: w.1, w.2)
termination_by cisSize - i
decreasing_by omega

def tuples (cis : Block) : List Tuple := (walk cis 0).1

namespace Tuple

variable (t : Tuple)

def byte (k : ℕ) : UInt8 := t.data.getD k 0

/-- Whether it is a `CISTPL_VERS_1` with a version field that checks out. -/
abbrev Strings : Prop := t.tup = cistplVers1 ∧ 8 ≤ (t.byte 1).toNat * 256 + (t.byte 0).toNat

/-- Whether it is of the kind `sub` of `CISTPL_BRCM_HNBU`. -/
abbrev IsHnbu (sub : UInt8) : Prop := t.tup = cistplBrcmHnbu ∧ t.byte 0 = sub

end Tuple

/-- The fields of all kinds of `CISTPL_BRCM_HNBU`. -/
def hnbuAll (tlen : ℕ) : List (UInt8 × List Field) :=
  (hnbuSromrev, []) :: (hnbuAg, [int "ag0" [1]]) ::
    (hnbuCcode, [⟨bytes "ccode", [1, 2], .letters⟩, hex "cctl" [3]]) :: hnbuFields tlen

namespace Tuple

variable (t : Tuple)

/-- The fields that are printed. -/
def fields : List Field :=
  if t.Strings then []
  else if t.tup = cistplVers1 ∨ t.tup = cistplManfid then manfidFields
  else if t.tup = cistplFunce ∧ t.byte 0 = lanNid then lanNidFields
  else if t.tup = cistplCftable then cftableFields
  else if t.tup = cistplBrcmHnbu then ((hnbuAll t.data.length).lookup (t.byte 0)).getD []
  else []

/-- The bytes that are read, but for the strings. -/
def reads : List ℕ :=
  (if t.tup = cistplVers1 then [0, 1]
    else if t.tup = cistplFuncid ∨ t.tup = cistplFunce ∨ t.tup = cistplBrcmHnbu then [0] else []) ++
  (if t.IsHnbu hnbuSromrev then [1] else []) ++ t.fields.flatMap Field.offs

/-- A tuple with all that is read of it, and with the NULs of its strings. -/
def Inside : Prop := (∀ k ∈ t.reads, k < t.data.length) ∧ (t.Strings → 2 ≤ (t.data.drop 2).count 0)

instance : Decidable t.Inside :=
  inferInstanceAs (Decidable ((∀ k ∈ t.reads, k < t.data.length) ∧ (t.Strings → 2 ≤ (t.data.drop 2).count 0)))

end Tuple

/-! ### Room -/

/-- The room behind the `=`, if anything is printed. -/
def Form.room : Form → Bytes → Option ℕ
  | .int, l => some (intRoom (number l))
  | .hex, l => some (2 + digitCount 16 (number l).toNat)
  | .bits shift mask, l => some (intRoom (l.headD 0 >>> shift &&& mask).toUInt32)
  | .led, l => if l.headD 0 ≠ 0xff then some (intRoom (l.headD 0).toUInt32) else none
  | .octets, l => some (2 * l.length)
  | .ether, l => some (3 * l.length - 1)
  | .letters, l => some (if areLetters l then l.length else 0)

/-- The bytes of a field. -/
def Field.bytesIn (data : Bytes) (f : Field) : Bytes := f.offs.map (data.getD · 0)

/-- The room of a field, with the `=` and the NUL. -/
def Field.room (data : Bytes) (f : Field) : ℕ := (f.form.room (f.bytesIn data)).elim 0 (f.name.length + 2 + ·)

/-- The length of the string from `k` on. -/
def stringRoom (data : Bytes) (k : ℕ) : ℕ := (data.drop k).idxOf 0

/-- The room of what is printed of a tuple. -/
def Tuple.room (t : Tuple) : ℕ :=
  if t.Strings then 6 + stringRoom t.data 2 + (13 + stringRoom t.data (3 + stringRoom t.data 2))
  else (t.fields.map (Field.room t.data)).sum

/-- The last version of the tuples, `r` if there is none. -/
def sromrevOf (r : UInt8) (ts : List Tuple) : UInt8 :=
  ts.foldl (fun r t => if t.IsHnbu hnbuSromrev then t.byte 1 else r) r

/-- The room of the table: the tuples, the version, the antenna gain if no tuple has one, and the last NUL. -/
def roomOf (ts : List Tuple) : ℕ :=
  (ts.map Tuple.room).sum + (9 + intRoom (sromrevOf 1 ts).toUInt32) +
    (if ∃ t ∈ ts, t.IsHnbu hnbuAg then 0 else 8) + 1

/-- A walk over headers that are all there, and tuples with all that is read of them. -/
structure Complete (w : List Tuple × ℕ) : Prop where
  header : w.2 + 1 < cisSize
  inside : ∀ t ∈ w.1, t.Inside

instance (w : List Tuple × ℕ) : Decidable (Complete w) :=
  decidable_of_iff (w.2 + 1 < cisSize ∧ ∀ t ∈ w.1, t.Inside) ⟨fun h => ⟨h.1, h.2⟩, fun h => ⟨h.1, h.2⟩⟩

theorem complete_cons {t : Tuple} {w : List Tuple × ℕ} : Complete (t :: w.1, w.2) ↔ t.Inside ∧ Complete w :=
  ⟨fun h => ⟨h.inside t List.mem_cons_self, h.header, fun x hx => h.inside x (List.mem_cons_of_mem t hx)⟩,
    fun h => ⟨h.2.header, List.forall_mem_cons.mpr ⟨h.1, h.2.inside⟩⟩⟩

/-! ### Fields that are there -/

section Fields

variable (data : Bytes)

theorem getElem?_eq_ite (k : ℕ) : data[k]? = if k < data.length then some (data.getD k 0) else none := by
  split_ifs with h
  · rw [List.getD_eq_getElem?_getD, List.getElem?_eq_getElem h, Option.getD_some]
  · exact List.getElem?_eq_none (Nat.not_lt.mp h)

theorem mapM_getElem? : ∀ offs : List ℕ, offs.mapM (data[·]?) =
    if ∀ k ∈ offs, k < data.length then some (offs.map (data.getD · 0)) else none
  | [] => by simp
  | k :: offs => by
    rw [List.mapM_cons, mapM_getElem? offs, getElem?_eq_ite]
    by_cases hall : ∀ x ∈ k :: offs, x < data.length
    · obtain ⟨hk, hoffs⟩ := List.forall_mem_cons.mp hall
      rw [if_pos hk, if_pos hoffs, if_pos hall]
      rfl
    · rw [if_neg hall]
      by_cases hk : k < data.length
      · rw [if_pos hk, if_neg fun hoffs => hall (List.forall_mem_cons.mpr ⟨hk, hoffs⟩)]
        rfl
      · rw [if_neg hk]
        rfl

/-- The variables of a field that is there. -/
def Field.texts (f : Field) : List Bytes := (f.form.text (f.bytesIn data)).toList.map (pair f.name)

theorem Field.print_eq (f : Field) : f.print data =
    if ∀ k ∈ f.offs, k < data.length then some (f.texts data) else none := by
  unfold Field.print
  rw [mapM_getElem?]
  split_ifs <;> rfl

theorem fields_eq : ∀ fs : List Field, Cis.fields data fs =
    if ∀ k ∈ fs.flatMap Field.offs, k < data.length then some (fs.flatMap (Field.texts data)) else none
  | [] => by simp [Cis.fields]
  | f :: fs => by
    rw [Cis.fields, Field.print_eq, fields_eq fs]
    have hcons : (∀ k ∈ (f :: fs).flatMap Field.offs, k < data.length) ↔
        (∀ k ∈ f.offs, k < data.length) ∧ ∀ k ∈ fs.flatMap Field.offs, k < data.length := by
      rw [List.flatMap_cons, List.forall_mem_append]
    by_cases hf : ∀ k ∈ f.offs, k < data.length
    · by_cases hfs : ∀ k ∈ fs.flatMap Field.offs, k < data.length
      · rw [if_pos hf, if_pos hfs, if_pos (hcons.mpr ⟨hf, hfs⟩)]
        rfl
      · rw [if_pos hf, if_neg hfs, if_neg fun h => hfs (hcons.mp h).2]
        rfl
    · rw [if_neg hf, if_neg fun h => hf (hcons.mp h).1]
      rfl

theorem Form.length_text (f : Form) (l : Bytes) : (f.text l).map List.length = f.room l := by
  cases f with
  | int => exact congrArg some (length_printInt _)
  | hex => rw [Form.text, Form.room, Option.map_some, List.length_append, length_printHex]; rfl
  | bits shift mask => exact congrArg some (length_printInt _)
  | led =>
    rw [Form.text, Form.room]
    split_ifs
    · exact congrArg some (length_printInt _)
    · rfl
  | octets => exact congrArg some (length_flatMap_hexByte 97 l)
  | ether =>
    refine congrArg some ?_
    rcases eq_or_ne l [] with rfl | hl
    · rfl
    · have h := length_etherText 97 l hl
      omega
  | letters =>
    refine congrArg some ?_
    split_ifs <;> rfl

/-- The room of a field that is there. -/
theorem Field.sum_texts (f : Field) : ((f.texts data).map fun s => s.length + 1).sum = f.room data := by
  have h := f.form.length_text (f.bytesIn data)
  unfold Field.texts Field.room
  cases htext : f.form.text (f.bytesIn data) with
  | none =>
    rw [htext] at h
    rw [← h]
    rfl
  | some v =>
    rw [htext] at h
    rw [← h]
    simp [pair]
    omega

theorem sum_flatMap_texts (fs : List Field) :
    ((fs.flatMap (Field.texts data)).map fun s => s.length + 1).sum = (fs.map (Field.room data)).sum := by
  induction fs with
  | nil => rfl
  | cons f fs ih =>
    rw [List.flatMap_cons, List.map_append, List.sum_append, ih, Field.sum_texts, List.map_cons, List.sum_cons]

/-! ### Strings that are there -/

theorem string_eq (k : ℕ) :
    string data k = if (0 : UInt8) ∈ data.drop k then some (cstr (data.drop k)).bytes else none := by
  unfold string
  dsimp only
  by_cases h : (0 : UInt8) ∈ data.drop k
  · have hlen := congrArg List.length (eq_cstr_append h)
    rw [List.length_append, List.length_cons, List.length_drop] at hlen
    rw [if_pos h, if_pos (by omega)]
  · rw [if_neg h, cstr_bytes h, List.length_drop, if_neg (by omega)]

/-- The two strings of a `CISTPL_VERS_1` end. -/
theorem strings_end_iff : 2 ≤ (data.drop 2).count 0 ↔
    (0 : UInt8) ∈ data.drop 2 ∧ (0 : UInt8) ∈ data.drop (3 + (cstr (data.drop 2)).bytes.length) := by
  have hdrop : (data.drop 2).drop ((cstr (data.drop 2)).bytes.length + 1) =
      data.drop (3 + (cstr (data.drop 2)).bytes.length) := by
    rw [List.drop_drop]
    congr 1
    omega
  rw [two_le_count_iff, hdrop]

theorem length_string {k : ℕ} (h : (0 : UInt8) ∈ data.drop k) :
    (cstr (data.drop k)).bytes.length = stringRoom data k := length_cstr h

end Fields

/-! ### One tuple -/

/-- What is printed of a tuple that is there. -/
def Tuple.texts (t : Tuple) : List Bytes :=
  if t.Strings then
    let manf := (cstr (t.data.drop 2)).bytes
    [pair (bytes "manf") manf, pair (bytes "productname") (cstr (t.data.drop (3 + manf.length))).bytes]
  else t.fields.flatMap (Field.texts t.data)

/-- The state behind a tuple that is there. -/
def State.after (st : State) (t : Tuple) : State where
  vars := st.vars ++ t.texts
  sromrev := if t.IsHnbu hnbuSromrev then t.byte 1 else st.sromrev
  agInit := st.agInit || decide (t.IsHnbu hnbuAg)
  funcid := if t.tup = cistplFuncid then (t.byte 0).toUInt32 else st.funcid

section OneTuple

variable {t : Tuple} (st : State)

theorem getElem?_data (t : Tuple) (k : ℕ) : t.data[k]? = if k < t.data.length then some (t.byte k) else none :=
  getElem?_eq_ite t.data k

theorem texts_of_fields {fs : List Field} (hs : ¬t.Strings) (hfs : t.fields = fs) :
    t.texts = fs.flatMap (Field.texts t.data) := by
  rw [Tuple.texts, if_neg hs, hfs]

/-- A tuple of strings, or of a version that does not check out. -/
theorem vers1_eq (h : t.tup = cistplVers1) : vers1 t.data = if t.Inside then some t.texts else none := by
  have hsub : ∀ sub, ¬t.IsHnbu sub := fun sub hsub => absurd (h.symm.trans hsub.1) (by decide)
  have hreads : t.reads = [0, 1] ++ t.fields.flatMap Field.offs := by
    rw [Tuple.reads, if_pos h, if_neg (hsub _), List.append_nil]
  by_cases hlen : 1 < t.data.length
  · have h0 : t.data[0]? = some (t.byte 0) := by rw [getElem?_data, if_pos (by omega)]
    have h1 : t.data[1]? = some (t.byte 1) := by rw [getElem?_data, if_pos hlen]
    have hhead : ∀ k ∈ [0, 1], k < t.data.length := by
      simp only [List.mem_cons, List.not_mem_nil, or_false, forall_eq_or_imp, forall_eq]
      omega
    by_cases hs : 8 ≤ (t.byte 1).toNat * 256 + (t.byte 0).toNat
    · have hinside : t.Inside ↔ 2 ≤ (t.data.drop 2).count 0 := by
        have hfields : t.fields = [] := if_pos ⟨h, hs⟩
        rw [Tuple.Inside, hreads, hfields, List.flatMap_nil, List.append_nil, and_iff_right hhead]
        exact forall_prop_of_true ⟨h, hs⟩
      have htexts : t.texts = _ := if_pos ⟨h, hs⟩
      rw [strings_end_iff] at hinside
      simp only [hinside, htexts, vers1, h0, h1, Option.bind_eq_bind, Option.bind_some, if_pos hs, string_eq]
      by_cases hmanf : (0 : UInt8) ∈ t.data.drop 2
      · rw [if_pos hmanf]
        by_cases hname : (0 : UInt8) ∈ t.data.drop (3 + (cstr (t.data.drop 2)).bytes.length)
        · rw [if_pos ⟨hmanf, hname⟩]
          simp [hname]
        · rw [if_neg fun hand => hname hand.2]
          simp [hname]
      · rw [if_neg hmanf, if_neg fun hand => hmanf hand.1]
        rfl
    · have hns : ¬t.Strings := fun hand => hs hand.2
      have hfields : t.fields = manfidFields := by rw [Tuple.fields, if_neg hns, if_pos (.inl h)]
      have hinside : t.Inside ↔ ∀ k ∈ manfidFields.flatMap Field.offs, k < t.data.length := by
        rw [Tuple.Inside, hreads, hfields, List.forall_mem_append, and_iff_right hhead]
        exact and_iff_left fun hand => absurd hand hns
      simp only [hinside, texts_of_fields hns hfields, vers1, h0, h1, Option.bind_eq_bind, Option.bind_some]
      rw [if_neg hs, fields_eq]
  · have h1 : t.data[1]? = none := by rw [getElem?_data, if_neg hlen]
    have hinside : ¬t.Inside := fun hin => hlen (hin.1 1 (by rw [hreads]; simp))
    rw [if_neg hinside, vers1, h1]
    rfl

/-- A country code is two fields. -/
theorem ccode_eq (data : Bytes) :
    ccode data = Cis.fields data [⟨bytes "ccode", [1, 2], .letters⟩, hex "cctl" [3]] := by
  rw [fields_eq]
  unfold ccode
  by_cases h3 : 3 < data.length
  · rw [if_pos (by simp [hex]; omega)]
    have hget (k : ℕ) (hk : k ≤ 3) : data[k]? = some (data.getD k 0) := by rw [getElem?_eq_ite, if_pos (by omega)]
    simp only [hget, Nat.reduceLeDiff, le_refl, Option.bind_eq_bind, Option.bind_some]
    by_cases hc : data.getD 1 0 = 0
    · simp [-List.getD_eq_getElem?_getD, hc, hex, Field.texts, Field.bytesIn, Form.text, areLetters, number]
    · by_cases hd : data.getD 2 0 = 0
      · simp [-List.getD_eq_getElem?_getD, hc, hd, hex, Field.texts, Field.bytesIn, Form.text, areLetters, number]
      · simp [-List.getD_eq_getElem?_getD, hc, hd, hex, Field.texts, Field.bytesIn, Form.text, areLetters, number]
  · have hnone : data[3]? = none := by rw [getElem?_eq_ite, if_neg h3]
    rw [if_neg fun h => h3 (h 3 (by simp [hex])), hnone]
    simp

/-- A tuple that fields are printed of, behind other bytes that are there. -/
theorem map_fields {fs : List Field} {ks : List ℕ} {f : List Bytes → State} (hs : ¬t.Strings) (hfields : t.fields = fs)
    (hreads : t.reads = ks ++ t.fields.flatMap Field.offs) (hks : ∀ k ∈ ks, k < t.data.length)
    (hafter : st.after t = f t.texts) :
    (Cis.fields t.data fs).map f = if t.Inside then some (st.after t) else none := by
  have hinside : t.Inside ↔ ∀ k ∈ fs.flatMap Field.offs, k < t.data.length := by
    rw [Tuple.Inside, hreads, hfields, List.forall_mem_append, and_iff_right hks]
    exact and_iff_left fun h => absurd h hs
  simp only [hinside, hafter, texts_of_fields hs hfields]
  rw [fields_eq]
  split_ifs <;> rfl

/-- Of a kind that is no `CISTPL_BRCM_HNBU` and no `CISTPL_FUNCID` nothing but text is kept. -/
theorem after_eq_print (hhnbu : t.tup ≠ cistplBrcmHnbu) (hfuncid : t.tup ≠ cistplFuncid) :
    st.after t = st.print t.texts := by
  have hsub : ∀ sub, ¬t.IsHnbu sub := fun sub hsub => hhnbu hsub.1
  simp [State.after, State.print, hsub, hfuncid]

theorem funce_eq (h : t.tup = cistplFunce) : funce st t.data = if t.Inside then some (st.after t) else none := by
  have hs : ¬t.Strings := fun hs => absurd (h.symm.trans hs.1) (by decide)
  have hhnbu : t.tup ≠ cistplBrcmHnbu := by rw [h]; decide
  have hafter : st.after t = st.print t.texts := after_eq_print st hhnbu (by rw [h]; decide)
  have hreads : t.reads = [0] ++ t.fields.flatMap Field.offs := by
    rw [Tuple.reads, if_neg (by rw [h]; decide), if_pos (.inr (.inl h)), if_neg fun hsub => hhnbu hsub.1]
    rfl
  have hfields : t.fields = if t.byte 0 = lanNid then lanNidFields else [] := by
    rw [Tuple.fields, if_neg hs]
    simp [h, cistplVers1, cistplManfid, cistplFunce, cistplCftable, cistplBrcmHnbu]
  by_cases h0 : 0 < t.data.length
  · have hks : ∀ k ∈ [0], k < t.data.length := List.forall_mem_singleton.mpr h0
    rw [← map_fields st hs rfl hreads hks hafter, funce, getElem?_data, if_pos h0, hfields]
    dsimp only [Option.bind_eq_bind, Option.bind_some]
    split_ifs
    · rfl
    · simp [Cis.fields, State.print]
  · rw [funce, getElem?_data, if_neg h0, if_neg fun hin => h0 (hin.1 0 (by rw [hreads]; simp))]
    rfl

theorem hnbu_eq (h : t.tup = cistplBrcmHnbu) : hnbu st t.data = if t.Inside then some (st.after t) else none := by
  have hs : ¬t.Strings := fun hs => absurd (h.symm.trans hs.1) (by decide)
  have hfuncid : t.tup ≠ cistplFuncid := by rw [h]; decide
  have hvers1 : t.tup ≠ cistplVers1 := by rw [h]; decide
  have hreads : t.reads = [0] ++ (if t.byte 0 = hnbuSromrev then [1] else []) ++ t.fields.flatMap Field.offs := by
    rw [Tuple.reads, if_neg hvers1, if_pos (.inr (.inr h))]
    simp only [Tuple.IsHnbu, h, true_and]
  have hfields : t.fields = ((hnbuAll t.data.length).lookup (t.byte 0)).getD [] := by
    rw [Tuple.fields, if_neg hs]
    simp [h, cistplVers1, cistplManfid, cistplFunce, cistplCftable, cistplBrcmHnbu]
  have hafter : st.after t = { st.print t.texts with
      sromrev := if t.byte 0 = hnbuSromrev then t.byte 1 else st.sromrev,
      agInit := st.agInit || decide (t.byte 0 = hnbuAg) } := by
    simp [State.after, State.print, Tuple.IsHnbu, h, cistplBrcmHnbu, cistplFuncid]
  by_cases h0 : 0 < t.data.length
  · have hks : ∀ k ∈ [0], k < t.data.length := List.forall_mem_singleton.mpr h0
    rw [hnbu, getElem?_data, if_pos h0]
    dsimp only [Option.bind_eq_bind, Option.bind_some]
    by_cases hrev : t.byte 0 = hnbuSromrev
    · have hnil : t.fields = [] := by rw [hfields, hrev]; rfl
      have htexts : t.texts = [] := by rw [texts_of_fields hs hnil]; rfl
      have hne : ¬hnbuSromrev = hnbuAg := by decide
      have hinside : t.Inside ↔ 1 < t.data.length := by
        rw [Tuple.Inside, hreads, hnil, if_pos hrev]
        simp [h0, hs]
      rw [if_pos hrev, hafter, htexts, getElem?_data]
      simp only [hinside, hrev, if_pos, hne, decide_false, Bool.or_false]
      split_ifs
      · simp [State.print]
      · rfl
    · rw [if_neg hrev, List.append_nil] at hreads
      rw [if_neg hrev]
      by_cases hag : t.byte 0 = hnbuAg
      · have hone : t.fields = [int "ag0" [1]] := by rw [hfields, hag]; rfl
        rw [if_pos hag, ← @map_fields t st _ _ (fun ss => { st.print ss with agInit := true }) hs hone hreads hks
          (by rw [hafter]; simp [hag, State.print, hnbuSromrev, hnbuAg])]
        cases Cis.fields t.data [int "ag0" [1]] <;> rfl
      · have hprint : st.after t = st.print t.texts := by
          rw [hafter]
          simp [hrev, hag, State.print]
        rw [if_neg hag]
        by_cases hcc : t.byte 0 = hnbuCcode
        · rw [if_pos hcc, ccode_eq, map_fields st hs (by rw [hfields, hcc]; rfl) hreads hks hprint]
        · have hlookup : t.fields = ((hnbuFields t.data.length).lookup (t.byte 0)).getD [] := by
            rw [hfields, hnbuAll, List.lookup_cons, List.lookup_cons, List.lookup_cons,
              beq_false_of_ne hrev, beq_false_of_ne hag, beq_false_of_ne hcc]
          rw [if_neg hcc, map_fields st hs hlookup hreads hks hprint]
  · rw [hnbu, getElem?_data, if_neg h0, if_neg fun hin => h0 (hin.1 0 (by rw [hreads]; simp))]
    rfl

/-- **A tuple is done if all that is read of it is there.** -/
theorem tuple_eq (t : Tuple) : tuple st t.tup t.data = if t.Inside then some (st.after t) else none := by
  unfold tuple
  by_cases hvers1 : t.tup = cistplVers1
  · have hafter : st.after t = st.print t.texts :=
      after_eq_print st (by rw [hvers1]; decide) (by rw [hvers1]; decide)
    rw [if_pos hvers1, vers1_eq hvers1, hafter]
    split_ifs <;> rfl
  have hs : ¬t.Strings := fun hs => hvers1 hs.1
  rw [if_neg hvers1]
  by_cases hhnbu : t.tup = cistplBrcmHnbu
  · rw [← hnbu_eq st hhnbu, hhnbu]
    rfl
  by_cases hfunce : t.tup = cistplFunce
  · rw [← funce_eq st hfunce, hfunce]
    rfl
  by_cases hfuncid : t.tup = cistplFuncid
  · have hfields : t.fields = [] := by
      rw [Tuple.fields, if_neg hs]
      simp [hfuncid, cistplVers1, cistplManfid, cistplFuncid, cistplFunce, cistplCftable, cistplBrcmHnbu]
    have hinside : t.Inside ↔ 0 < t.data.length := by
      rw [Tuple.Inside, Tuple.reads, if_neg hvers1, if_pos (.inl hfuncid), if_neg fun hsub => hhnbu hsub.1, hfields]
      simp [hs]
    have hafter : st.after t = { st with funcid := (t.byte 0).toUInt32 } := by
      simp [State.after, texts_of_fields hs hfields, hfuncid, Tuple.IsHnbu, cistplFuncid, cistplBrcmHnbu]
    simp only [hinside, hafter, hfuncid]
    rw [if_neg (by decide), if_pos trivial, getElem?_data]
    split_ifs <;> rfl
  · have hreads : t.reads = [] ++ t.fields.flatMap Field.offs := by
      rw [Tuple.reads, if_neg hvers1, if_neg (by tauto), if_neg fun hsub => hhnbu hsub.1]
      rfl
    have hprint : st.after t = st.print t.texts := after_eq_print st hhnbu hfuncid
    have hmap {fs : List Field} (hfs : t.fields = fs) := map_fields st hs hfs hreads (by simp) hprint
    by_cases hmanfid : t.tup = cistplManfid
    · rw [if_pos hmanfid, hmap]
      rw [Tuple.fields, if_neg hs, if_pos (.inr hmanfid)]
    · rw [if_neg hmanfid, if_neg hfuncid, if_neg hfunce]
      have hother : t.fields = if t.tup = cistplCftable then cftableFields else [] := by
        rw [Tuple.fields, if_neg hs]
        simp [hvers1, hmanfid, hfunce, hhnbu]
      by_cases hcftable : t.tup = cistplCftable
      · rw [if_pos hcftable, hmap]
        rw [hother, if_pos hcftable]
      · rw [if_neg hcftable, if_neg hhnbu, ← hmap (hother.trans (if_neg hcftable))]
        simp [Cis.fields, State.print]

/-- The text of a tuple. -/
theorem Tuple.Inside.sum_texts (h : t.Inside) : (t.texts.map fun s => s.length + 1).sum = t.room := by
  unfold Tuple.texts Tuple.room
  by_cases hs : t.Strings
  · obtain ⟨hmanf, hname⟩ := (strings_end_iff t.data).mp (h.2 hs)
    have hlen := length_string t.data hmanf
    rw [hlen] at hname
    have hlen' := length_string t.data hname
    have hnames : (bytes "manf").length = 4 ∧ (bytes "productname").length = 11 := by decide +kernel
    rw [if_pos hs, if_pos hs]
    simp only [pair, List.map_cons, List.map_nil, List.sum_cons, List.sum_nil, List.length_append, List.length_cons, hlen,
      hlen', hnames.1, hnames.2]
    omega
  · rw [if_neg hs, if_neg hs]
    exact sum_flatMap_texts t.data t.fields

end OneTuple

/-! ### All tuples -/

theorem walk_eq (cis : Block) {i : ℕ} (hi : i + 1 < cisSize) : walk cis i =
    if i + 2 + cis[i + 1].toNat ≥ cisSize then ([], i)
    else if cis[i] = 0xff then ([⟨0xff, dataAt cis (i + 2) cis[i + 1]⟩], i)
    else (⟨cis[i], dataAt cis (i + 2) cis[i + 1]⟩ :: (walk cis (i + 2 + cis[i + 1].toNat)).1,
      (walk cis (i + 2 + cis[i + 1].toNat)).2) := by
  have htup : cis[i]? = some cis[i] := Vector.getElem?_eq_getElem (by omega)
  have htlen : cis[i + 1]? = some cis[i + 1] := Vector.getElem?_eq_getElem hi
  rw [walk, htup, htlen]
  rfl

/-- **The loop over a block** does its tuples, one after the other. -/
theorem scan_eq (cis : Block) (i : ℕ) (st : State) : scan cis i st =
    if Complete (walk cis i) then some ((walk cis i).1.foldl State.after st) else none := by
  rw [scan]
  by_cases hi : i + 1 < cisSize
  · have htup : cis[i]? = some cis[i] := Vector.getElem?_eq_getElem (by omega)
    have htlen : cis[i + 1]? = some cis[i + 1] := Vector.getElem?_eq_getElem hi
    have hwalk := walk_eq cis hi
    rw [htup, htlen]
    dsimp only [Option.bind_eq_bind, Option.bind_some]
    by_cases hsize : i + 2 + cis[i + 1].toNat ≥ cisSize
    · rw [if_pos hsize] at hwalk ⊢
      rw [hwalk, if_pos ⟨hi, by simp⟩]
      rfl
    · have htuple := tuple_eq st ⟨cis[i], dataAt cis (i + 2) cis[i + 1]⟩
      dsimp only at htuple
      rw [if_neg hsize] at hwalk ⊢
      rw [htuple]
      by_cases hlast : cis[i] = 0xff
      · have hone {t : Tuple} : Complete ([t], i) ↔ t.Inside :=
          ⟨fun h => h.inside t List.mem_cons_self, fun h => ⟨hi, List.forall_mem_singleton.mpr h⟩⟩
        rw [if_pos hlast] at hwalk
        simp only [hwalk, hone, hlast, ne_eq, not_true_eq_false, if_false]
        split_ifs <;> rfl
      · rw [if_neg hlast] at hwalk
        simp only [hwalk, complete_cons, ne_eq, hlast, not_false_eq_true, if_true]
        by_cases hin : (Tuple.mk cis[i] (dataAt cis (i + 2) cis[i + 1])).Inside
        · rw [if_pos hin, Option.bind_some, scan_eq]
          simp only [hin, true_and]
          rfl
        · rw [if_neg hin, if_neg fun h => hin h.1]
          rfl
  · have hnone : cis[i + 1]? = none := Vector.getElem?_eq_none (Nat.not_lt.mp hi)
    have hwalk : walk cis i = ([], i) := by
      rw [walk, if_pos]
      omega
    rw [hwalk, if_neg fun h => hi h.header, hnone]
    cases cis[i]? <;> rfl
termination_by cisSize - i
decreasing_by omega

/-- The state `st'` behind tuples that are done in the state `st`. -/
structure Behind (st : State) (ts : List Tuple) (st' : State) : Prop where
  vars : st'.vars = st.vars ++ ts.flatMap Tuple.texts
  sromrev : st'.sromrev = sromrevOf st.sromrev ts
  agInit : st'.agInit = true ↔ st.agInit = true ∨ ∃ t ∈ ts, t.IsHnbu hnbuAg

theorem behind_foldl (st : State) (ts : List Tuple) : Behind st ts (ts.foldl State.after st) := by
  induction ts generalizing st with
  | nil => exact ⟨by simp, rfl, by simp⟩
  | cons t ts ih =>
    obtain ⟨hvars, hrev, hag⟩ := ih (st.after t)
    refine ⟨?_, hrev, ?_⟩
    · rw [List.foldl_cons, hvars]
      simp [State.after]
    · rw [List.foldl_cons, hag]
      simp [State.after, or_assoc]

theorem Behind.append {st st' st'' : State} {ts ts' : List Tuple} (h : Behind st ts st') (h' : Behind st' ts' st'') :
    Behind st (ts ++ ts') st'' where
  vars := by rw [h'.vars, h.vars, List.append_assoc, List.flatMap_append]
  sromrev := by rw [h'.sromrev, h.sromrev, sromrevOf, sromrevOf, sromrevOf, List.foldl_append]
  agInit := by
    rw [h'.agInit, h.agInit, or_assoc]
    simp only [List.mem_append, or_and_right, exists_or]

/-- The blocks are done if all are complete. -/
theorem scanAll_some : ∀ {pcis : List Block} (st : State), (∀ cis ∈ pcis, Complete (walk cis 0)) →
    ∃ st', scanAll pcis st = some st' ∧ Behind st (pcis.flatMap tuples) st'
  | [], st, _ => ⟨st, rfl, by simp, rfl, by simp⟩
  | cis :: pcis, st, h => by
    obtain ⟨hcis, hpcis⟩ := List.forall_mem_cons.mp h
    obtain ⟨hvars, hrev, hag⟩ := behind_foldl { st with funcid := 0 } (tuples cis)
    obtain ⟨st', hst', hbehind⟩ := scanAll_some ((tuples cis).foldl State.after { st with funcid := 0 }) hpcis
    have hone : Behind st (tuples cis) ((tuples cis).foldl State.after { st with funcid := 0 }) := ⟨hvars, hrev, hag⟩
    refine ⟨st', ?_, hone.append hbehind⟩
    rw [scanAll, scan_eq, if_pos hcis]
    exact hst'

theorem complete_of_scanAll : ∀ {pcis : List Block} {st st' : State}, scanAll pcis st = some st' →
    ∀ cis ∈ pcis, Complete (walk cis 0)
  | [], _, _, _ => by simp
  | cis :: pcis, st, st', h => by
    rw [scanAll, scan_eq] at h
    by_cases hcis : Complete (walk cis 0)
    · rw [if_pos hcis] at h
      exact List.forall_mem_cons.mpr ⟨hcis, complete_of_scanAll h⟩
    · rw [if_neg hcis] at h
      exact absurd h (by simp)

/-! ### The table -/

theorem sum_closing (st : State) : ((closing st).map fun s => s.length + 1).sum =
    9 + intRoom st.sromrev.toUInt32 + if st.agInit then 0 else 8 := by
  have hrev : (bytes "sromrev").length = 7 := by decide +kernel
  have hag : (pair (bytes "ag0") (printInt 0xff)).length = 7 := by decide +kernel
  rw [closing, List.map_cons, List.sum_cons, pair, List.length_append, List.length_cons, length_printInt, hrev]
  split_ifs
  · rw [List.map_nil, List.sum_nil]
    omega
  · rw [List.map_singleton, List.sum_singleton, hag]
    omega

/-- The room of tuples that are there. -/
theorem sum_flatMap_room {ts : List Tuple} (h : ∀ t ∈ ts, t.Inside) :
    ((ts.flatMap Tuple.texts).map fun s => s.length + 1).sum = (ts.map Tuple.room).sum := by
  induction ts with
  | nil => rfl
  | cons t ts ih =>
    obtain ⟨ht, hts⟩ := List.forall_mem_cons.mp h
    rw [List.flatMap_cons, List.map_append, List.sum_append, ht.sum_texts, ih hts, List.map_cons, List.sum_cons]

/-- **What is printed** of complete blocks. -/
theorem exists_table {pcis : List Block} (h : ∀ cis ∈ pcis, Complete (walk cis 0)) :
    ∃ l, sromParsecis pcis = some l ∧ l.length = roomOf (pcis.flatMap tuples) := by
  obtain ⟨st, hst, hvars, hrev, hag⟩ := scanAll_some ⟨[], 1, false, 0⟩ h
  refine ⟨table (st.vars ++ closing st), by rw [sromParsecis, hst]; rfl, ?_⟩
  have hinside : ∀ t ∈ pcis.flatMap tuples, t.Inside := fun t ht => by
    obtain ⟨cis, hcis, hmem⟩ := List.mem_flatMap.mp ht
    exact (h cis hcis).inside t hmem
  have hagInit : (if st.agInit then 0 else 8) = if ∃ t ∈ pcis.flatMap tuples, t.IsHnbu hnbuAg then 0 else 8 :=
    if_congr (hag.trans (or_iff_right Bool.false_ne_true)) rfl rfl
  rw [length_table, List.map_append, List.sum_append, sum_closing, hagInit, hrev, hvars, List.nil_append,
    sum_flatMap_room hinside, roomOf, Nat.add_assoc _ (9 + _)]

/-- **When `srom_parsecis` reads and writes nothing outside.** -/
theorem sromParsecis_safe_iff (pcis : List Block) : (∃ l, sromParsecis pcis = some l ∧ l.length < varsMax) ↔
    (∀ cis ∈ pcis, Complete (walk cis 0)) ∧ roomOf (pcis.flatMap tuples) < varsMax := by
  constructor
  · rintro ⟨l, hl, hlt⟩
    obtain ⟨st, hst, -⟩ := Option.map_eq_some_iff.mp hl
    have hcomplete := complete_of_scanAll hst
    obtain ⟨l', hl', hlen⟩ := exists_table hcomplete
    obtain rfl := Option.some.inj (hl.symm.trans hl')
    exact ⟨hcomplete, hlen ▸ hlt⟩
  · rintro ⟨hcomplete, hlt⟩
    obtain ⟨l, hl, hlen⟩ := exists_table hcomplete
    exact ⟨l, hl, hlen.symm ▸ hlt⟩

theorem sum_le_roomOf (ts : List Tuple) : (ts.map Tuple.room).sum ≤ roomOf ts := by
  unfold roomOf
  omega

/-- One complete block with too much text. -/
theorem exists_table_of_le {cis : Block} (h : Complete (walk cis 0)) (hroom : varsMax ≤ roomOf (tuples cis)) :
    ∃ l, sromParsecis [cis] = some l ∧ ¬l.length < varsMax := by
  obtain ⟨l, hl, hlen⟩ := @exists_table [cis] fun c hc => (List.mem_singleton.mp hc).symm ▸ h
  rw [List.flatMap_singleton] at hlen
  exact ⟨l, hl, Nat.not_lt.mpr (hlen ▸ hroom)⟩

/-- A block full of `HNBU_RSSISMBXA2G`, each with the two bytes that it takes. -/
def crowded : Block := Vector.ofFn fun i =>
  if i.val < 890 then [cistplBrcmHnbu, 3, hnbuRssismbxa2g, 0xff, 0xff].getD (i.val % 5) 0
  else if i.val = 890 then 0xff else 0

/-- Its tuples. -/
def crowdedTuple : Tuple := ⟨cistplBrcmHnbu, [hnbuRssismbxa2g, 0xff, 0xff]⟩

theorem getElem_crowded {i k d : ℕ} (hk : k < 178) (hi : i = 5 * k + d) (hd : d < 5) (h : i < cisSize) :
    crowded[i] = [cistplBrcmHnbu, 3, hnbuRssismbxa2g, 0xff, 0xff].getD d 0 := by
  have hmod : i % 5 = d := by omega
  rw [crowded, Vector.getElem_ofFn, if_pos (show i < 890 by omega), hmod]

theorem dataAt_crowded {k : ℕ} (hk : k < 178) :
    dataAt crowded (5 * k + 2) 3 = [hnbuRssismbxa2g, 0xff, 0xff] := by
  have hlen : crowded.toList.length = cisSize := Vector.length_toList
  have hget (d : ℕ) (hd : d < 5) : crowded.toList[5 * k + d]? =
      some ([cistplBrcmHnbu, 3, hnbuRssismbxa2g, 0xff, 0xff].getD d 0) := by
    have h : 5 * k + d < cisSize := by unfold cisSize; omega
    rw [Vector.getElem?_toList, Vector.getElem?_eq_getElem h, getElem_crowded hk rfl hd h]
  have hdrop (d : ℕ) (hd : d < 5) : crowded.toList.drop (5 * k + d) =
      [cistplBrcmHnbu, 3, hnbuRssismbxa2g, 0xff, 0xff].getD d 0 :: crowded.toList.drop (5 * k + d + 1) := by
    obtain ⟨h, hd⟩ := List.getElem?_eq_some_iff.mp (hget d hd)
    rw [List.drop_eq_getElem_cons h, hd]
  rw [dataAt, hdrop 2 (by decide), hdrop 3 (by decide), hdrop 4 (by decide)]
  rfl

theorem getElem_crowded_end {i : ℕ} (hi : 890 ≤ i) (h : i < cisSize) : crowded[i] = if i = 890 then 0xff else 0 := by
  rw [crowded, Vector.getElem_ofFn, if_neg (show ¬i < 890 by omega)]

/-- The walk from the last tuples on. -/
theorem walk_crowded : ∀ n ≤ 178, walk crowded (5 * (178 - n)) = (List.replicate n crowdedTuple ++ [⟨0xff, []⟩], 890)
  | 0, _ => by
    have hi : 890 + 1 < cisSize := by decide
    have htup : crowded[890] = 0xff := getElem_crowded_end le_rfl (by decide)
    have htlen : crowded[890 + 1] = 0 := getElem_crowded_end (by decide) hi
    have hsize : ¬890 + 2 + (0 : UInt8).toNat ≥ cisSize := by
      change ¬892 ≥ 896
      omega
    change walk crowded 890 = _
    rw [walk_eq crowded hi, htup, htlen, if_neg hsize, if_pos rfl]
    rfl
  | n + 1, h => by
    obtain ⟨k, hk, hkn⟩ : ∃ k, k < 178 ∧ 178 - (n + 1) = k := ⟨_, by omega, rfl⟩
    have hi : 5 * k + 1 < cisSize := by unfold cisSize; omega
    have htup : crowded[5 * k] = cistplBrcmHnbu := @getElem_crowded _ k 0 hk rfl (by decide) (by omega)
    have htlen : crowded[5 * k + 1] = 3 := @getElem_crowded _ k 1 hk rfl (by decide) hi
    have hnext : 5 * k + 2 + (3 : UInt8).toNat = 5 * (178 - n) := by change 5 * k + 2 + 3 = _; omega
    have hsize : ¬5 * (178 - n) ≥ cisSize := by unfold cisSize; omega
    have ih := walk_crowded n (Nat.le_of_succ_le h)
    rw [hkn, walk_eq crowded hi, htup, htlen, hnext, if_neg hsize, if_neg (by decide), ih, dataAt_crowded hk]
    rfl

/-- Of tuples that are all there too much is printed for the buffer. -/
theorem sromParsecis_crowded : ∃ l, sromParsecis [crowded] = some l ∧ ¬l.length < varsMax := by
  have hwalk := walk_crowded 178 le_rfl
  rw [Nat.sub_self, Nat.mul_zero] at hwalk
  have hinside : crowdedTuple.Inside ∧ (Tuple.mk 0xff []).Inside ∧ crowdedTuple.room = 46 := by decide +kernel
  have hcomplete : Complete (walk crowded 0) := by
    rw [hwalk]
    refine ⟨by decide, fun t ht => ?_⟩
    rcases List.mem_append.mp ht with ht | ht
    · rw [List.eq_of_mem_replicate ht]
      exact hinside.1
    · rw [List.mem_singleton.mp ht]
      exact hinside.2.1
  refine exists_table_of_le hcomplete ?_
  have hsum : varsMax ≤ ((tuples crowded).map Tuple.room).sum := by
    rw [tuples, hwalk, List.map_append, List.map_replicate, List.sum_append, List.sum_replicate, hinside.2.2]
    exact le_trans (show varsMax ≤ 178 * 46 by decide) (Nat.le_add_right _ _)
  exact hsum.trans (sum_le_roomOf _)

end Cis
end Bcm
end Router
