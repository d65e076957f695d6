/-
# Channel specifications as text

`wf_chspec_ntoa` and `wf_chspec_aton` of `shared/bcmwifi.c`. A chanspec has the channel in the middle, the text the channel
the control side-band is on. Both the driver and applications have the file; `TextLib` is what they take from their
libraries.

The parser takes the number that its `strtoul` finds and then letters in any order, in either case: at most one for the
band and one for bandwidth and side-band. What a text says is `Says`, and `aton_ntoa` that printing says it again.
-/
import RouterFirmware.Bcm.Strtoul
import RouterFirmware.Lib.CMem

namespace Router
namespace Bcm
namespace Chanspec

open CMem CText

/-! ### The chanspec -/

def chApart10Mhz : UInt32 := 2
def max2gChannel : UInt32 := 14
def maxChannel : UInt32 := 224

def chanMask : UInt16 := 0x00ff
def ctlSbMask : UInt16 := 0x0300
def bwMask : UInt16 := 0x0C00
def bandMask : UInt16 := 0xf000

def ctlSbLower : UInt16 := 0x0100
def ctlSbUpper : UInt16 := 0x0200
def ctlSbNone : UInt16 := 0x0300
def bw10 : UInt16 := 0x0400
def bw20 : UInt16 := 0x0800
def bw40 : UInt16 := 0x0C00
def band5g : UInt16 := 0x1000
def band2g : UInt16 := 0x2000

/-- `LOWER_20_SB(channel)`. -/
def lower20Sb (channel : UInt32) : UInt32 := if channel > chApart10Mhz then channel - chApart10Mhz else 0

/-- `UPPER_20_SB(channel)`. -/
def upper20Sb (channel : UInt32) : UInt32 :=
  if channel < maxChannel - chApart10Mhz then channel + chApart10Mhz else 0

/-! ### Printing -/

/-- `channel`, `band`, `bw` and `sb` of `wf_chspec_ntoa`. -/
def ntoaChannel (chspec : UInt16) : UInt32 :=
  let channel := (chspec &&& chanMask).toUInt32
  if chspec &&& bwMask = bw40 then
    if chspec &&& ctlSbMask = ctlSbUpper then channel + chApart10Mhz else channel - chApart10Mhz
  else channel

def ntoaBand (chspec : UInt16) : Bytes := if chspec &&& bandMask = band2g then [98] else [97]

def ntoaBw (chspec : UInt16) : Bytes :=
  if chspec &&& bwMask = bw40 then [] else if chspec &&& bwMask = bw10 then [110] else []

def ntoaSb (chspec : UInt16) : Bytes :=
  if chspec &&& bwMask = bw40 then if chspec &&& ctlSbMask = ctlSbUpper then [117] else [108] else []

/-- `wf_chspec_ntoa(chspec, buf)`: the string in `buf`. -/
def wfChspecNtoa (chspec : UInt16) : CStr where
  bytes := printInt (ntoaChannel chspec) ++ (ntoaBand chspec ++ (ntoaBw chspec ++ ntoaSb chspec))
  nul_notMem := by
    simp only [List.mem_append, not_or]
    refine ⟨nul_notMem_printInt _, ?_, ?_, ?_⟩
    · unfold ntoaBand
      split_ifs <;> decide
    · unfold ntoaBw
      split_ifs <;> decide
    · unfold ntoaSb
      split_ifs <;> decide

/-! ### Parsing -/

/-- What the parser takes from a library: `strtoul` to base 10, and `tolower`. -/
structure TextLib where
  strtoul : Bytes → UInt32 × Bytes
  tolower : UInt8 → UInt8
  tolower_eq : ∀ c, ∀ k ∈ [(97, 65), (98, 66), (108, 76), (110, 78), (117, 85)],
    tolower c = k.1 ↔ c = k.1 ∨ c = k.2

/-- With `BCMDRIVER`. -/
def bcmdriver : TextLib where
  strtoul s := bcmStrtoul s 10
  tolower c := if bcmIsmask c &&& 0x01 ≠ 0 then c + 97 - 65 else c
  tolower_eq c k hk :=
    of_decide_eq_true (List.all_eq_true.mp (forall_ismask (p := fun c m =>
      ([(97, 65), (98, 66), (108, 76), (110, 78), (117, 85)].all fun k =>
        decide ((if m &&& 0x01 ≠ 0 then c + 97 - 65 else c) = k.1 ↔ c = k.1 ∨ c = k.2)) = true)
      (by decide +kernel) c) k hk)

/-- With the C library. -/
def stdlib : TextLib where
  strtoul s := (UInt32.ofNat (strtoulIn 10 s).1, (strtoulIn 10 s).2)
  tolower c := if 65 ≤ c && c ≤ 90 then c + 32 else c
  tolower_eq := forall_byte_mem (by decide +kernel)

/-- The variables of the loop over the letters. -/
structure Parse where
  channel : UInt32
  band : UInt16
  bw : UInt16
  ctlSb : UInt16
  bandSet : Bool
  bwSet : Bool
  ctlSbSet : Bool
deriving DecidableEq

/-- The `switch` for one letter; `error` is -1 for `none`. -/
def Parse.letter (L : TextLib) (s : Parse) (c : UInt8) : Option Parse :=
  if L.tolower c = 97 ∨ L.tolower c = 98 then
    if !s.bandSet then
      some { s with band := if L.tolower c = 97 then band5g else band2g, bandSet := true }
    else none
  else if L.tolower c = 110 then
    if !s.bwSet then some { s with bw := bw10, bwSet := true } else none
  else if L.tolower c = 108 ∨ L.tolower c = 117 then
    if !s.ctlSbSet && !s.bwSet then
      some { s with
        ctlSb := if L.tolower c = 108 then ctlSbLower else ctlSbUpper
        ctlSbSet := true
        channel := if L.tolower c = 108 then upper20Sb s.channel else lower20Sb s.channel
        bw := bw40
        bwSet := true }
    else none
  else none

/-- The variables before the first letter. -/
def Parse.init (channel : UInt32) : Parse where
  channel := channel
  band := if channel ≤ max2gChannel then band2g else band5g
  bw := bw20
  ctlSb := ctlSbNone
  bandSet := false
  bwSet := false
  ctlSbSet := false

/-- What is returned from the variables behind the last letter. -/
def Parse.result (s : Parse) : UInt16 :=
  if s.bwSet && s.bw = bw40 && !s.ctlSbSet then 0
  else if s.ctlSbSet && !s.bwSet then 0
  else s.channel.toUInt16 ||| s.band ||| s.bw ||| s.ctlSb

/-- `wf_chspec_aton(a)`. -/
def wfChspecAton (L : TextLib) (a : CStr) : UInt16 :=
  let (channel, endp) := L.strtoul a.bytes
  if endp = a.bytes then 0
  else if channel > maxChannel then 0
  else
    match endp.foldlM (Parse.letter L) (Parse.init channel) with
    | none => 0
    | some s => s.result

/-! ### What a text says -/

inductive Band where
  | g2
  | g5
deriving DecidableEq

inductive Width where
  | ten
  | twenty
  | lower
  | upper
deriving DecidableEq

def bandOf (c : UInt8) : Option Band :=
  if c = 97 ∨ c = 65 then some .g5 else if c = 98 ∨ c = 66 then some .g2 else none

def widthOf (c : UInt8) : Option Width :=
  if c = 110 ∨ c = 78 then some .ten
  else if c = 108 ∨ c = 76 then some .lower
  else if c = 117 ∨ c = 85 then some .upper
  else none

/-- The channel of the control side-band, the band, and bandwidth with side-band. -/
structure Named where
  ctl : ℕ
  band : Band
  width : Width

/-- What a number and the letters behind it say. -/
structure Says (n : ℕ) (letters : Bytes) (ν : Named) : Prop where
  known : ∀ c ∈ letters, (bandOf c).isSome ∨ (widthOf c).isSome
  oneBand : (letters.filterMap bandOf).length ≤ 1
  oneWidth : (letters.filterMap widthOf).length ≤ 1
  ctl_eq : ν.ctl = n
  band_eq : ν.band = (letters.filterMap bandOf).head?.getD (if n ≤ 14 then .g2 else .g5)
  width_eq : ν.width = (letters.filterMap widthOf).head?.getD .twenty

/-- The middle of the 40 MHz lies among the channels. -/
def Named.InRange (ν : Named) : Prop :=
  match ν.width with
  | .lower => ν.ctl < 222
  | .upper => 2 ≤ ν.ctl
  | _ => True

def Band.bits : Band → UInt16
  | .g2 => band2g
  | .g5 => band5g

def Width.bits : Width → UInt16
  | .ten => bw10 ||| ctlSbNone
  | .twenty => bw20 ||| ctlSbNone
  | .lower => bw40 ||| ctlSbLower
  | .upper => bw40 ||| ctlSbUpper

/-- The channel in the middle. -/
def Named.centre (ν : Named) : ℕ :=
  match ν.width with
  | .lower => ν.ctl + 2
  | .upper => ν.ctl - 2
  | _ => ν.ctl

/-- The chanspec of what is named. -/
def Named.spec (ν : Named) : UInt16 := UInt16.ofNat ν.centre ||| ν.band.bits ||| ν.width.bits

def Band.letter : Band → Bytes
  | .g2 => [98]
  | .g5 => [97]

def Width.letter : Width → Bytes
  | .ten => [110]
  | .twenty => []
  | .lower => [108]
  | .upper => [117]

/-- The text that names it. -/
def Named.text (ν : Named) : Bytes := decimal ν.ctl ++ (ν.band.letter ++ ν.width.letter)

/-! ### The letters -/

/-- The variables, from the number and what the letters so far have said. -/
def Parse.of (channel : UInt32) (b : Option Band) (w : Option Width) : Parse where
  channel :=
    match w with
    | some .lower => upper20Sb channel
    | some .upper => lower20Sb channel
    | _ => channel
  band := b.elim (if channel ≤ max2gChannel then band2g else band5g) Band.bits
  bw :=
    match w with
    | none | some .twenty => bw20
    | some .ten => bw10
    | _ => bw40
  ctlSb :=
    match w with
    | some .lower => ctlSbLower
    | some .upper => ctlSbUpper
    | _ => ctlSbNone
  bandSet := b.isSome
  bwSet := w.isSome
  ctlSbSet := w = some .lower || w = some .upper

theorem Parse.init_eq (channel : UInt32) : Parse.init channel = Parse.of channel none none := rfl

/-- One letter: it says what has not been said, or the text is wrong. -/
theorem Parse.letter_of (L : TextLib) (channel : UInt32) (b : Option Band) (w : Option Width) (c : UInt8) :
    Parse.letter L (Parse.of channel b w) c =
      match bandOf c, widthOf c with
      | some β, _ => if b = none then some (Parse.of channel (some β) w) else none
      | none, some ω => if w = none then some (Parse.of channel b (some ω)) else none
      | none, none => none := by
  have ha : L.tolower c = 97 ↔ c = 97 ∨ c = 65 := L.tolower_eq c (97, 65) (by simp)
  have hb : L.tolower c = 98 ↔ c = 98 ∨ c = 66 := L.tolower_eq c (98, 66) (by simp)
  have hl : L.tolower c = 108 ↔ c = 108 ∨ c = 76 := L.tolower_eq c (108, 76) (by simp)
  have hn : L.tolower c = 110 ↔ c = 110 ∨ c = 78 := L.tolower_eq c (110, 78) (by simp)
  have hu : L.tolower c = 117 ↔ c = 117 ∨ c = 85 := L.tolower_eq c (117, 85) (by simp)
  unfold Parse.letter bandOf widthOf
  simp only [ha, hb, hl, hn, hu]
  by_cases h97 : c = 97 ∨ c = 65
  · simp only [h97, true_or, if_true]
    cases b <;> rfl
  · by_cases h98 : c = 98 ∨ c = 66
    · simp only [h97, h98, or_true, if_true, if_false]
      cases b <;> rfl
    · by_cases h110 : c = 110 ∨ c = 78
      · simp only [h97, h98, h110, or_false, if_true, if_false]
        cases w <;> rfl
      · by_cases h108 : c = 108 ∨ c = 76
        · simp only [h97, h98, h110, h108, or_false, true_or, if_true, if_false]
          cases w with
          | none => rfl
          | some ω => cases ω <;> rfl
        · by_cases h117 : c = 117 ∨ c = 85
          · simp only [h97, h98, h110, h108, h117, or_true, or_false, if_true, if_false]
            cases w with
            | none => rfl
            | some ω => cases ω <;> rfl
          · simp only [h97, h98, h110, h108, h117, or_false, if_false]

/-- No letter says two things. -/
theorem widthOf_of_bandOf : ∀ c, (bandOf c).isSome = true → widthOf c = none := forall_byte.mpr (by decide +kernel)

/-- All letters: each thing is said once at most, and known. -/
theorem foldlM_letter_iff (L : TextLib) (channel : UInt32) : ∀ (l : Bytes) (b : Option Band) (w : Option Width) (s : Parse),
    l.foldlM (Parse.letter L) (Parse.of channel b w) = some s ↔
      (∀ c ∈ l, (bandOf c).isSome ∨ (widthOf c).isSome) ∧ (b.toList ++ l.filterMap bandOf).length ≤ 1 ∧
        (w.toList ++ l.filterMap widthOf).length ≤ 1 ∧
        s = Parse.of channel (b.toList ++ l.filterMap bandOf).head? (w.toList ++ l.filterMap widthOf).head?
  | [], b, w, s => by
    have hb : (b.toList ++ [].filterMap bandOf).length ≤ 1 ∧ (b.toList ++ [].filterMap bandOf).head? = b := by
      cases b <;> simp
    have hw : (w.toList ++ [].filterMap widthOf).length ≤ 1 ∧ (w.toList ++ [].filterMap widthOf).head? = w := by
      cases w <;> simp
    rw [hb.2, hw.2]
    constructor
    · intro h
      exact ⟨by simp, hb.1, hw.1, (Option.some.inj h).symm⟩
    · rintro ⟨-, -, -, rfl⟩
      rfl
  | c :: l, b, w, s => by
    rw [List.foldlM_cons, Parse.letter_of, List.forall_mem_cons]
    cases hb : bandOf c with
    | some β =>
      have hw := widthOf_of_bandOf c (by rw [hb]; rfl)
      rw [List.filterMap_cons_some hb, List.filterMap_cons_none hw]
      cases b with
      | none =>
        have ih := foldlM_letter_iff L channel l (some β) w s
        simpa using ih
      | some β' => simp
    | none =>
      rw [List.filterMap_cons_none hb]
      cases hw : widthOf c with
      | some ω =>
        rw [List.filterMap_cons_some hw]
        cases w with
        | none =>
          have ih := foldlM_letter_iff L channel l b (some ω) s
          simpa using ih
        | some ω' => simp
      | none => simp

theorem toNat_ofNat_le {n : ℕ} (hn : n ≤ 224) : (UInt32.ofNat n).toNat = n :=
  UInt32.toNat_ofNat_of_lt' (by rw [UInt32.size]; omega)

theorem upper20Sb_ofNat {n : ℕ} (hn : n < 222) : upper20Sb (UInt32.ofNat n) = UInt32.ofNat (n + 2) := by
  have hlt : UInt32.ofNat n < maxChannel - chApart10Mhz := by
    rw [UInt32.lt_iff_toNat_lt, toNat_ofNat_le (by omega)]
    exact hn
  rw [upper20Sb, if_pos hlt, UInt32.ofNat_add]
  rfl

theorem lower20Sb_ofNat {n : ℕ} (hlo : 2 ≤ n) (hn : n ≤ 224) : lower20Sb (UInt32.ofNat n) = UInt32.ofNat (n - 2) := by
  have hlt : UInt32.ofNat n > chApart10Mhz ↔ 2 < n := by
    rw [gt_iff_lt, UInt32.lt_iff_toNat_lt, toNat_ofNat_le hn]
    rfl
  unfold lower20Sb
  simp only [hlt]
  split_ifs with h
  · rw [UInt32.ofNat_sub hlo]
    rfl
  · obtain rfl : n = 2 := by omega
    rfl

/-- What is returned is the chanspec of what was said. -/
theorem Parse.result_of {b : Option Band} {w : Option Width} {ν : Named} (hn : ν.ctl ≤ 224)
    (hband : ν.band = b.getD (if ν.ctl ≤ 14 then .g2 else .g5)) (hwidth : ν.width = w.getD .twenty) (hν : ν.InRange) :
    (Parse.of (UInt32.ofNat ν.ctl) b w).result = ν.spec := by
  have hbits : (Parse.of (UInt32.ofNat ν.ctl) b w).band = ν.band.bits := by
    have hle : UInt32.ofNat ν.ctl ≤ max2gChannel ↔ ν.ctl ≤ 14 := by
      rw [UInt32.le_iff_toNat_le, toNat_ofNat_le hn]
      rfl
    rw [hband]
    cases b with
    | some β => rfl
    | none =>
      simp only [Parse.of, Option.elim_none, Option.getD_none, hle]
      split_ifs <;> rfl
  have hchannel : (Parse.of (UInt32.ofNat ν.ctl) b w).channel = UInt32.ofNat ν.centre := by
    unfold Named.InRange at hν
    unfold Named.centre
    cases w with
    | none =>
      rw [hwidth]
      rfl
    | some ω =>
      rw [Option.getD_some] at hwidth
      rw [hwidth] at hν ⊢
      cases ω with
      | ten | twenty => rfl
      | lower => exact upper20Sb_ofNat hν
      | upper => exact lower20Sb_ofNat hν hn
  have hresult : (Parse.of (UInt32.ofNat ν.ctl) b w).result = (Parse.of (UInt32.ofNat ν.ctl) b w).channel.toUInt16 |||
      (Parse.of (UInt32.ofNat ν.ctl) b w).band ||| ν.width.bits := by
    rw [hwidth]
    cases w with
    | none => exact UInt16.or_assoc ..
    | some ω => cases ω <;> exact UInt16.or_assoc ..
  rw [hresult, hbits, hchannel, UInt32.toUInt16_ofNat']
  rfl

/-- **A text that says a channel within range is read as its chanspec.** -/
theorem aton_eq (L : TextLib) {a : CStr} {n : ℕ} {rest : Bytes} {ν : Named} (hnum : L.strtoul a.bytes = (UInt32.ofNat n, rest))
    (hrest : rest ≠ a.bytes) (hn : n ≤ 224) (hwords : Says n rest ν) (hν : ν.InRange) : wfChspecAton L a = ν.spec := by
  obtain rfl := hwords.ctl_eq
  have hmax : ¬UInt32.ofNat ν.ctl > maxChannel := by
    rw [gt_iff_lt, UInt32.lt_iff_toNat_lt, toNat_ofNat_le hn, not_lt]
    exact hn
  have hfold := (foldlM_letter_iff L (UInt32.ofNat ν.ctl) rest none none _).mpr
    ⟨hwords.known, hwords.oneBand, hwords.oneWidth, rfl⟩
  unfold wfChspecAton
  rw [hnum]
  dsimp only
  rw [if_neg hrest, if_neg hmax, Parse.init_eq, hfold]
  exact Parse.result_of hn hwords.band_eq hwords.width_eq hν

/-- What is read says something. -/
theorem says_of_aton (L : TextLib) {a : CStr} (h : wfChspecAton L a ≠ 0) :
    ∃ n rest ν, L.strtoul a.bytes = (UInt32.ofNat n, rest) ∧ rest ≠ a.bytes ∧ n ≤ 224 ∧ Says n rest ν := by
  obtain ⟨channel, endp, hnum⟩ : ∃ channel endp, L.strtoul a.bytes = (channel, endp) := ⟨_, _, rfl⟩
  unfold wfChspecAton at h
  rw [hnum] at h
  dsimp only at h
  have hend : endp ≠ a.bytes := fun he => by
    rw [if_pos he] at h
    exact h rfl
  rw [if_neg hend] at h
  have hmax : ¬channel > maxChannel := fun hgt => by
    rw [if_pos hgt] at h
    exact h rfl
  rw [if_neg hmax] at h
  cases hfold : endp.foldlM (Parse.letter L) (Parse.init channel) with
  | none =>
    rw [hfold] at h
    exact absurd rfl h
  | some s =>
    rw [Parse.init_eq, foldlM_letter_iff] at hfold
    obtain ⟨hknown, hband, hwidth, -⟩ := hfold
    rw [gt_iff_lt, UInt32.lt_iff_toNat_lt, not_lt] at hmax
    exact ⟨channel.toNat, endp, ⟨channel.toNat, _, _⟩, by rw [hnum, UInt32.ofNat_toNat], hend, hmax, hknown, hband, hwidth,
      rfl, rfl, rfl⟩

/-! ### Printing what is named -/

theorem or_and_distrib (x y z : UInt16) : (x ||| y) &&& z = x &&& z ||| y &&& z :=
  UInt16.eq_of_toBitVec_eq BitVec.and_or_distrib_right

/-- The bits of a channel number lie apart from the others. -/
theorem and_ofNat : ∀ n : Fin 256, UInt16.ofNat n &&& 0x00ff = UInt16.ofNat n ∧ UInt16.ofNat n &&& 0xff00 = 0 := by
  decide +kernel

theorem Named.centre_lt {ν : Named} (hn : ν.ctl ≤ 224) : ν.centre < 256 := by
  unfold centre
  split <;> omega

theorem Named.spec_and {ν : Named} (hn : ν.ctl ≤ 224) {m : UInt16} (hm : m = 0xff00 &&& m) :
    ν.spec &&& m = ν.band.bits &&& m ||| ν.width.bits &&& m := by
  have hhigh : UInt16.ofNat ν.centre &&& m = 0 := by
    rw [hm, ← UInt16.and_assoc, (and_ofNat ⟨ν.centre, Named.centre_lt hn⟩).2, UInt16.zero_and]
  rw [spec, or_and_distrib, or_and_distrib, hhigh, UInt16.zero_or]

theorem Named.spec_bw {ν : Named} (hn : ν.ctl ≤ 224) : ν.spec &&& bwMask = ν.width.bits &&& bwMask := by
  rw [spec_and hn (by decide)]
  cases ν.band <;> cases ν.width <;> decide

theorem Named.spec_ctlSb {ν : Named} (hn : ν.ctl ≤ 224) : ν.spec &&& ctlSbMask = ν.width.bits &&& ctlSbMask := by
  rw [spec_and hn (by decide)]
  cases ν.band <;> cases ν.width <;> decide

theorem Named.spec_band {ν : Named} (hn : ν.ctl ≤ 224) : ν.spec &&& bandMask = ν.band.bits := by
  rw [spec_and hn (by decide)]
  cases ν.band <;> cases ν.width <;> decide

theorem Named.spec_channel {ν : Named} (hn : ν.ctl ≤ 224) : ν.spec &&& chanMask = UInt16.ofNat ν.centre := by
  have hlow : UInt16.ofNat ν.centre &&& chanMask = UInt16.ofNat ν.centre := (and_ofNat ⟨ν.centre, centre_lt hn⟩).1
  have hbits : ν.band.bits &&& chanMask = 0 ∧ ν.width.bits &&& chanMask = 0 := by
    cases ν.band <;> cases ν.width <;> decide
  rw [spec, or_and_distrib, or_and_distrib, hlow, hbits.1, hbits.2, UInt16.or_zero, UInt16.or_zero]

/-- The channel in the middle, and back. -/
theorem Named.ntoaChannel_spec {ν : Named} (hn : ν.ctl ≤ 224) (hν : ν.InRange) :
    ntoaChannel ν.spec = UInt32.ofNat ν.ctl := by
  have hcentre : (UInt16.ofNat ν.centre).toUInt32 = UInt32.ofNat ν.centre := by
    apply UInt32.toNat.inj
    have hlt := centre_lt hn
    rw [UInt16.toNat_toUInt32, UInt16.toNat_ofNat_of_lt' (by rw [UInt16.size]; omega),
      UInt32.toNat_ofNat_of_lt' (by rw [UInt32.size]; omega)]
  unfold ntoaChannel
  dsimp only
  rw [spec_channel hn, spec_bw hn, spec_ctlSb hn, hcentre]
  unfold InRange at hν
  unfold centre
  cases hw : ν.width with
  | ten | twenty => exact if_neg (by decide)
  | lower =>
    rw [if_pos (by decide), if_neg (by decide)]
    dsimp only
    rw [UInt32.ofNat_add]
    exact UInt32.add_sub_cancel _ _
  | upper =>
    rw [hw] at hν
    rw [if_pos (by decide), if_pos (by decide)]
    dsimp only
    rw [UInt32.ofNat_sub hν]
    exact UInt32.sub_add_cancel _ _

/-- What is named is printed so. -/
theorem ntoa_spec {ν : Named} (hn : ν.ctl ≤ 224) (hν : ν.InRange) : (wfChspecNtoa ν.spec).bytes = ν.text := by
  have hint : printInt (UInt32.ofNat ν.ctl) = decimal ν.ctl := by
    rw [printInt, toNat_ofNat_le hn, if_pos (by omega)]
  have hband : ntoaBand ν.spec = ν.band.letter := by
    rw [ntoaBand, Named.spec_band hn]
    cases ν.band <;> rfl
  have hwidth : ntoaBw ν.spec ++ ntoaSb ν.spec = ν.width.letter := by
    rw [ntoaBw, ntoaSb, Named.spec_bw hn, Named.spec_ctlSb hn]
    cases ν.width <;> rfl
  change printInt (ntoaChannel ν.spec) ++ (ntoaBand ν.spec ++ (ntoaBw ν.spec ++ ntoaSb ν.spec)) = _
  rw [Named.ntoaChannel_spec hn hν, hint, hband, hwidth]
  rfl

/-- What is printed says what is named. -/
theorem says_letters (ν : Named) : Says ν.ctl (ν.band.letter ++ ν.width.letter) ν where
  known := by cases ν.band <;> cases ν.width <;> decide
  oneBand := by cases ν.band <;> cases ν.width <;> decide
  oneWidth := by cases ν.band <;> cases ν.width <;> decide
  ctl_eq := rfl
  band_eq := by cases ν.band <;> cases ν.width <;> rfl
  width_eq := by cases ν.band <;> cases ν.width <;> rfl

/-! ### Chanspecs that are valid -/

/-- A channel there is, in one of the bands, of 10 or 20 MHz, or of 40 MHz with both halves among the channels. -/
structure Valid (c : UInt16) : Prop where
  channel : c &&& chanMask ≤ 224
  band : c &&& bandMask = band2g ∨ c &&& bandMask = band5g
  width : (c &&& bwMask = bw10 ∨ c &&& bwMask = bw20) ∧ c &&& ctlSbMask = ctlSbNone ∨
    c &&& bwMask = bw40 ∧ (c &&& ctlSbMask = ctlSbLower ∨ c &&& ctlSbMask = ctlSbUpper) ∧
      2 ≤ c &&& chanMask ∧ (c &&& chanMask) + 2 ≤ 224

/-- A word is its four fields. -/
theorem fields_eq (c : UInt16) :
    c = c &&& chanMask ||| c &&& bandMask ||| (c &&& bwMask ||| c &&& ctlSbMask) := by
  have hall : (chanMask ||| bandMask ||| (bwMask ||| ctlSbMask)) &&& c = c := UInt16.neg_one_and
  conv_lhs => rw [← hall]
  rw [or_and_distrib, or_and_distrib, or_and_distrib, UInt16.and_comm chanMask, UInt16.and_comm bandMask,
    UInt16.and_comm bwMask, UInt16.and_comm ctlSbMask]

/-- A valid chanspec has a name. -/
theorem Valid.exists_spec {c : UInt16} (h : Valid c) : ∃ ν : Named, c = ν.spec ∧ ν.ctl ≤ 224 ∧ ν.InRange := by
  have hchannel : (c &&& chanMask).toNat ≤ 224 := UInt16.le_iff_toNat_le.mp h.channel
  obtain ⟨β, hβ⟩ : ∃ β : Band, c &&& bandMask = β.bits := h.band.elim (fun h => ⟨.g2, h⟩) fun h => ⟨.g5, h⟩
  have hspec (ν : Named) (hcentre : ν.centre = (c &&& chanMask).toNat) (hband : ν.band = β)
      (hwidth : c &&& bwMask ||| c &&& ctlSbMask = ν.width.bits) : c = ν.spec := by
    rw [fields_eq c, Named.spec, hcentre, hband, hβ, hwidth, UInt16.ofNat_toNat]
  rcases h.width with ⟨hbw | hbw, hsb⟩ | ⟨hbw, hsb, hlo, hhi⟩
  · exact ⟨⟨_, β, .ten⟩, hspec ⟨_, β, .ten⟩ rfl rfl (by rw [hbw, hsb]; rfl), hchannel, trivial⟩
  · exact ⟨⟨_, β, .twenty⟩, hspec ⟨_, β, .twenty⟩ rfl rfl (by rw [hbw, hsb]; rfl), hchannel, trivial⟩
  · have hlo' : 2 ≤ (c &&& chanMask).toNat := UInt16.le_iff_toNat_le.mp hlo
    have hhi' : (c &&& chanMask).toNat + 2 ≤ 224 := by
      have hle := UInt16.le_iff_toNat_le.mp hhi
      rwa [UInt16.toNat_add, Nat.mod_eq_of_lt (by change (c &&& chanMask).toNat + 2 < 2 ^ 16; omega)] at hle
    rcases hsb with hsb | hsb
    · refine ⟨⟨(c &&& chanMask).toNat - 2, β, .lower⟩, hspec _ ?_ rfl (by rw [hbw, hsb]; rfl), ?_, ?_⟩
      · exact Nat.sub_add_cancel hlo'
      · exact (Nat.sub_le _ _).trans hchannel
      · change (c &&& chanMask).toNat - 2 < 222
        omega
    · exact ⟨⟨(c &&& chanMask).toNat + 2, β, .upper⟩, hspec ⟨_, β, .upper⟩ (Nat.add_sub_cancel ..) rfl
        (by rw [hbw, hsb]; rfl), hhi', Nat.le_add_left ..⟩

/-! ### Numbers -/

/-- A number for `bcm_strtoul`, 32 bits wide: something is read, not always a digit. -/
def BcmNumber (s : Bytes) (n : ℕ) (rest : Bytes) : Prop :=
  ∃ spaces sign digits, NumberAt 10 bcmIsspace (bcmPrefix 10) s spaces sign [] digits rest ∧ rest ≠ s ∧
    n = if sign = [45] then (2 ^ 32 - valueIn 10 digits % 2 ^ 32) % 2 ^ 32 else valueIn 10 digits % 2 ^ 32

/-- A number for `strtoul`: there is a digit, and the number goes to 32 bits. -/
def LibcNumber (s : Bytes) (n : ℕ) (rest : Bytes) : Prop :=
  ∃ spaces sign digits, NumberAt 10 isSpace (prefixIn 10) s spaces sign [] digits rest ∧ digits ≠ [] ∧
    n = if 2 ^ 32 ≤ valueIn 10 digits then 2 ^ 32 - 1
      else if sign = [45] then (2 ^ 32 - valueIn 10 digits) % 2 ^ 32 else valueIn 10 digits

/-- To base 10 nothing is a prefix. -/
theorem NumberAt.pre_eq_nil {space : UInt8 → Bool} {hasPrefix : Bytes → Bool} {s spaces sign pre digits rest : Bytes}
    (h : NumberAt 10 space hasPrefix s spaces sign pre digits rest) (hpre : ∀ s, hasPrefix s = false) : pre = [] := by
  rw [h.isPre, hpre, if_neg Bool.false_ne_true]

theorem ofNat_eq_iff {m n : ℕ} (hn : n < 2 ^ 32) : UInt32.ofNat m = UInt32.ofNat n ↔ n = m % 2 ^ 32 := by
  rw [← UInt32.toNat_inj, UInt32.toNat_ofNat', UInt32.toNat_ofNat', Nat.mod_eq_of_lt hn]
  exact eq_comm

theorem bcmNumber_iff {s rest : Bytes} {n : ℕ} (hn : n < 2 ^ 32) :
    BcmNumber s n rest ↔ bcmStrtoul s 10 = (UInt32.ofNat n, rest) ∧ rest ≠ s := by
  have hpre (s : Bytes) : bcmPrefix 10 s = false := rfl
  have hstrtoul := @bcmStrtoul_eq 10 (.inl rfl) s
  -- what is returned, by the parts that stand in the text
  have hread {spaces sign digits rest : Bytes} (hat : NumberAt 10 bcmIsspace (bcmPrefix 10) s spaces sign [] digits rest) :
      bcmStrtoul s 10 = (UInt32.ofNat (if sign = [45] then (2 ^ 32 - valueIn 10 digits % 2 ^ 32) % 2 ^ 32
        else valueIn 10 digits % 2 ^ 32), rest) := by
    rw [hat.readNumber_eq] at hstrtoul
    refine hstrtoul.trans (congrArg (·, rest) ?_)
    dsimp only
    by_cases hs : sign = [45]
    · rw [if_pos (decide_eq_true hs), if_pos hs]
      apply UInt32.toNat.inj
      rw [UInt32.toNat_sub, UInt32.toNat_ofNat', UInt32.toNat_ofNat']
      simp
    · rw [if_neg (by simp [hs]), if_neg hs]
      apply UInt32.toNat.inj
      rw [UInt32.toNat_ofNat', UInt32.toNat_ofNat', Nat.mod_mod]
  constructor
  · rintro ⟨spaces, sign, digits, hat, hne, rfl⟩
    exact ⟨hread hat, hne⟩
  · rintro ⟨heq, hne⟩
    obtain ⟨spaces, sign, pre, digits, rest', hat⟩ := exists_numberAt 10 bcmIsspace (bcmPrefix 10) s
    obtain rfl := NumberAt.pre_eq_nil hat hpre
    rw [hread hat] at heq
    obtain ⟨hvalue, rfl⟩ := Prod.mk.inj heq
    refine ⟨spaces, sign, digits, hat, hne, ?_⟩
    rw [ofNat_eq_iff hn] at hvalue
    rw [hvalue, Nat.mod_eq_of_lt]
    split_ifs <;> exact Nat.mod_lt _ (by decide)

theorem libcNumber_iff {s rest : Bytes} {n : ℕ} (hn : n < 2 ^ 32) :
    LibcNumber s n rest ↔ stdlib.strtoul s = (UInt32.ofNat n, rest) ∧ rest ≠ s := by
  have hpre (s : Bytes) : prefixIn 10 s = false := rfl
  change _ ↔ (UInt32.ofNat (strtoulIn 10 s).1, (strtoulIn 10 s).2) = _ ∧ _
  constructor
  · rintro ⟨spaces, sign, digits, hat, hne, rfl⟩
    rw [hat.strtoulIn_eq, if_neg hne]
    refine ⟨rfl, fun he => ?_⟩
    -- what is left is shorter by the digits
    have hlen := congrArg List.length (he.trans hat.text)
    simp only [List.length_append] at hlen
    exact hne (List.length_eq_zero_iff.mp (by omega))
  · rintro ⟨heq, hne⟩
    obtain ⟨spaces, sign, pre, digits, rest', hat⟩ := exists_numberAt 10 isSpace (prefixIn 10) s
    obtain rfl := NumberAt.pre_eq_nil hat hpre
    rw [hat.strtoulIn_eq] at heq
    by_cases hnil : digits = []
    · rw [if_pos hnil] at heq
      exact absurd (Prod.mk.inj heq).2.symm hne
    · rw [if_neg hnil] at heq
      obtain ⟨hvalue, rfl⟩ := Prod.mk.inj heq
      refine ⟨spaces, sign, digits, hat, hnil, ?_⟩
      rw [ofNat_eq_iff hn] at hvalue
      rw [hvalue, Nat.mod_eq_of_lt]
      split_ifs <;> omega

/-! ### The round trip -/

/-- A printed chanspec is read as it was, if the number is. -/
theorem aton_ntoa (L : TextLib) {c : UInt16} (h : Valid c)
    (hnum : ∀ (n : ℕ) (rest : Bytes), n ≤ 224 → (∀ c ∈ rest.head?, digitIn 10 c = false) →
      L.strtoul (decimal n ++ rest) = (UInt32.ofNat n, rest)) : wfChspecAton L (wfChspecNtoa c) = c := by
  obtain ⟨ν, rfl, hn, hν⟩ := h.exists_spec
  have htext := ntoa_spec hn hν
  have hletters : ∀ c ∈ (ν.band.letter ++ ν.width.letter).head?, digitIn 10 c = false := by
    cases ν.band <;> cases ν.width <;> decide
  refine @aton_eq L _ ν.ctl (ν.band.letter ++ ν.width.letter) ν ?_ ?_ hn (says_letters ν) hν
  · rw [htext]
    exact hnum _ _ hn hletters
  · rw [htext, Named.text]
    intro he
    have hlen := congrArg List.length he
    rw [@List.length_append _ (decimal ν.ctl)] at hlen
    exact decimal_ne_nil ν.ctl (List.length_eq_zero_iff.mp (by omega))

theorem not_space_of_isDigit : ∀ c, isDigit c = true → bcmIsspace c = false := forall_byte.mpr (by decide +kernel)

theorem Named.spec_ne_zero {ν : Named} (hn : ν.ctl ≤ 224) : ν.spec ≠ 0 := by
  intro h
  have hband := spec_band hn
  rw [h] at hband
  cases hb : ν.band <;> rw [hb] at hband <;> exact absurd hband (by decide)

/-- The form that is documented: a channel number, a letter for the band or none, and a letter for bandwidth or side-band
or none. -/
def Documented (s : Bytes) : Prop :=
  ∃ digits band side, s = digits ++ (band ++ side) ∧ digits ≠ [] ∧ (∀ c ∈ digits, isDigit c = true) ∧
    digitsVal digits ≤ 224 ∧ band.length ≤ 1 ∧ (∀ c ∈ band, (bandOf c).isSome) ∧ side.length ≤ 1 ∧
    ∀ c ∈ side, (widthOf c).isSome

/-- **What the parser accepts, and what it makes of it.** Every text that it accepts is a number and letters that say a
channel; if that lies within range, what is returned is printed as it. A valid chanspec is read as it was printed. -/
theorem wfChspec_roundTrip :
    (∀ a, wfChspecAton bcmdriver a ≠ 0 → ∃ n rest ν, BcmNumber a.bytes n rest ∧ n ≤ 224 ∧ Says n rest ν) ∧
      (∀ a n rest ν, BcmNumber a.bytes n rest → n ≤ 224 → Says n rest ν → ν.InRange →
        wfChspecAton bcmdriver a ≠ 0 ∧ wfChspecAton bcmdriver a = ν.spec ∧
          (wfChspecNtoa (wfChspecAton bcmdriver a)).bytes = ν.text) ∧
      (∀ c, Valid c → wfChspecAton bcmdriver (wfChspecNtoa c) = c) ∧
      (∀ a, wfChspecAton stdlib a ≠ 0 → ∃ n rest ν, LibcNumber a.bytes n rest ∧ n ≤ 224 ∧ Says n rest ν) ∧
      (∀ a n rest ν, LibcNumber a.bytes n rest → n ≤ 224 → Says n rest ν → ν.InRange →
        wfChspecAton stdlib a ≠ 0 ∧ wfChspecAton stdlib a = ν.spec ∧
          (wfChspecNtoa (wfChspecAton stdlib a)).bytes = ν.text) ∧
      ∀ c, Valid c → wfChspecAton stdlib (wfChspecNtoa c) = c := by
  -- what is read is printed, for either library
  have hprint (L : TextLib) {a : CStr} {n : ℕ} {rest : Bytes} {ν : Named} (hnum : L.strtoul a.bytes = (UInt32.ofNat n, rest))
      (hrest : rest ≠ a.bytes) (hn : n ≤ 224) (hwords : Says n rest ν) (hν : ν.InRange) :
      wfChspecAton L a ≠ 0 ∧ wfChspecAton L a = ν.spec ∧ (wfChspecNtoa (wfChspecAton L a)).bytes = ν.text := by
    have hctl : ν.ctl ≤ 224 := hwords.ctl_eq.trans_le hn
    have haton := aton_eq L hnum hrest hn hwords hν
    rw [haton]
    exact ⟨Named.spec_ne_zero hctl, rfl, ntoa_spec hctl hν⟩
  refine ⟨fun a h => ?_, fun a n rest ν hnum hn hwords hν => ?_, fun c hc => ?_, fun a h => ?_,
    fun a n rest ν hnum hn hwords hν => ?_, fun c hc => ?_⟩
  · obtain ⟨n, rest, ν, hnum, hrest, hn, hwords⟩ := says_of_aton _ h
    exact ⟨n, rest, ν, (bcmNumber_iff (by omega)).mpr ⟨hnum, hrest⟩, hn, hwords⟩
  · obtain ⟨hstrtoul, hrest⟩ := (bcmNumber_iff (by omega)).mp hnum
    exact hprint bcmdriver hstrtoul hrest hn hwords hν
  · refine aton_ntoa bcmdriver hc fun n rest hn hrest => ?_
    refine ((bcmNumber_iff (by omega)).mp ⟨[], [], decimal n, numberAt_decimal n not_space_of_isDigit (fun _ => rfl) hrest,
      ?_, ?_⟩).1
    · intro he
      have hlen := congrArg List.length he
      rw [List.length_append] at hlen
      exact decimal_ne_nil n (List.length_eq_zero_iff.mp (by omega))
    · rw [valueIn_decimal, if_neg (by decide)]
      omega
  · obtain ⟨n, rest, ν, hnum, hrest, hn, hwords⟩ := says_of_aton _ h
    exact ⟨n, rest, ν, (libcNumber_iff (by omega)).mpr ⟨hnum, hrest⟩, hn, hwords⟩
  · obtain ⟨hstrtoul, hrest⟩ := (libcNumber_iff (by omega)).mp hnum
    exact hprint stdlib hstrtoul hrest hn hwords hν
  · refine aton_ntoa stdlib hc fun n rest hn hrest => ?_
    refine ((libcNumber_iff (by omega)).mp ⟨[], [], decimal n,
      numberAt_decimal n (fun c h => (isSpace_of_isDigit h).1) (fun _ => rfl) hrest, decimal_ne_nil n, ?_⟩).1
    rw [valueIn_decimal, if_neg (by omega), if_neg (by decide)]

/-- A space before the number is accepted, and the letters in either order. -/
theorem wfChspecAton_spaced : wfChspecAton bcmdriver (.lit " 6nb") = band2g ||| bw10 ||| ctlSbNone ||| 6 ∧
    wfChspecAton stdlib (.lit " 6nb") = band2g ||| bw10 ||| ctlSbNone ||| 6 ∧ ¬Documented (CStr.lit " 6nb").bytes := by
  refine ⟨by decide +kernel, by decide +kernel, ?_⟩
  rintro ⟨digits, band, side, hs, hne, hdigits, -⟩
  obtain ⟨d, ds, rfl⟩ := List.exists_cons_of_ne_nil hne
  have hd : (32 : UInt8) = d := (List.cons.inj hs).1
  have hdigit := hdigits d List.mem_cons_self
  rw [← hd] at hdigit
  exact absurd hdigit (by decide)

end Chanspec
end Bcm
end Router
