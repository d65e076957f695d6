/-
# `vsnprintf`

The `vsnprintf` of `shared/bcmstdlib.c` and its `__atox`. A format is read into pieces, bytes and conversions; a piece
gives the text that is put out for it, and a number what `__atox` puts into its `buffer` on the way. A byte goes to
`optr` if that is not behind `end`, and `optr` is bumped in either case.

The format is the first of the strings that stand in memory from `fmt` on: one that ends inside a conversion has its NUL
taken for the conversion, and the scan goes on with the next string. Widths are words of 32 bits, signed only where
`__atox` compares them.

What is written is inside the buffer, and inside `buffer`, under conditions that nothing checks
(`vsnprintf_safe_iff`): a size of 0 has the terminator written in front of the buffer, and a width over 16 the zeros
behind `buffer`.
-/
import RouterFirmware.Lib.CMem
import RouterFirmware.Bcm.Utils

namespace Router
namespace Bcm
namespace Vsnprintf

open CMem

/-! ### The format -/

/-- A byte of the format, or a conversion with its width and what `width2` is there. -/
inductive Piece
  | lit (c : UInt8)
  | conv (width width2 : UInt32) (c : UInt8)
deriving DecidableEq

/-- The digits of a width, behind those that gave `width`. -/
def readWidth : UInt32 → List UInt8 → UInt32 × List UInt8
  | width, [] => (width, [])
  | width, c :: iptr =>
    if bcmIsdigit c then
      let width := width + (c - 48).toUInt32
      readWidth (if iptr.head?.any bcmIsdigit then width * 10 else width) iptr
    else (width, c :: iptr)

/-- `if (*iptr == c) iptr++`. -/
def skip (c : UInt8) (iptr : List UInt8) : List UInt8 := if iptr.head? = some c then iptr.tail else iptr

/-- What stands between the `%` and the conversion: both widths, and the rest. The second is kept from the conversion
before if there is none. -/
def readWidths (width2 : UInt32) (iptr : List UInt8) : UInt32 × UInt32 × List UInt8 :=
  -- the flags `#` and `-` are read over
  let (width, iptr) := readWidth 0 (skip 45 (skip 35 iptr))
  let (width2, iptr) := if iptr.head? = some 46 then readWidth 0 iptr.tail else (width2, iptr)
  (width, width2, skip 108 iptr)

/-- The pieces of a string, with so many turns of the loop, and `width2` at the end if the NUL is taken for a
conversion. -/
def scanString : ℕ → UInt32 → List UInt8 → List Piece × Option UInt32
  | _, _, [] => ([], none)
  | 0, _, _ :: _ => ([], none)
  | fuel + 1, width2, c :: iptr =>
    if c ≠ 37 then
      let r := scanString fuel width2 iptr
      (.lit c :: r.1, r.2)
    else
      match readWidths width2 iptr with
      | (width, width2, []) => ([.conv width width2 0], some width2)
      | (width, width2, c :: iptr) =>
        let r := scanString fuel width2 iptr
        (.conv width width2 c :: r.1, r.2)

/-- The pieces that the loop finds in the strings from `fmt` on; none if it runs over all of them. -/
def scanFmt : UInt32 → List CStr → Option (List Piece)
  | _, [] => none
  | width2, s :: behind =>
    match scanString s.length width2 s.bytes with
    | (pieces, none) => some pieces
    | (pieces, some width2) => (scanFmt width2 behind).map (pieces ++ ·)

/-! ### The text -/

/-- An argument: its word, and the string at that address. -/
structure Arg where
  word : UInt32
  str : CStr

def digits : List UInt8 := (List.range 10).map (fun d => UInt8.ofNat (48 + d)) ++ [65, 66, 67, 68, 69, 70]
def ldigits : List UInt8 := (List.range 10).map (fun d => UInt8.ofNat (48 + d)) ++ [97, 98, 99, 100, 101, 102]

/-- The first loop of `__atox`: the digits, the last one first. There are no more than 32 of a word. -/
def atoxDigits (radix : ℕ) (digits : List UInt8) : ℕ → ℕ → List UInt8
  | 0, _ => []
  | fuel + 1, num =>
    digits.getD (num % radix) 0 :: if num / radix ≠ 0 then atoxDigits radix digits fuel (num / radix) else []

/-- What `__atox` puts into its `buffer`, from the start; it is put out from the end. -/
def atox (num : UInt32) (radix : ℕ) (width : UInt32) (digits : List UInt8) : List UInt8 :=
  let ds := atoxDigits radix digits 32 num.toNat
  if width ≠ 0 ∧ (ds.length : ℤ) < width.toBitVec.toInt then
    ds ++ List.replicate (width.toBitVec.toInt.toNat - ds.length) 48
  else ds

/-- The loops of `%s` with a width: the string, cut, or filled up with spaces. -/
def strField : ℕ → List UInt8 → List UInt8
  | 0, _ => []
  | width + 1, [] => 32 :: strField width []
  | width + 1, c :: tmpptr => c :: strField width tmpptr

/-- What a piece puts out, and what it puts into the `buffer` of `__atox`, if it gets there. -/
structure Out where
  text : List UInt8
  scratch : List UInt8

/-- A number, behind its sign. -/
def Out.number (sign buffer : List UInt8) : Out := ⟨sign ++ buffer.reverse, buffer⟩

/-- The conversions that take an argument. -/
def takesArg (c : UInt8) : Bool := [115, 100, 105, 117, 88, 120, 112, 80, 99].contains c

/-- The `switch` of the conversions. -/
def convOut (width width2 : UInt32) (c : UInt8) (arg : Arg) : Out :=
  match c with
  | 115 =>
    let tmpptr := if arg.word = 0 then "(null)".toList.map fun c => UInt8.ofNat c.toNat else arg.str.bytes
    if width = 0 ∧ width2 = 0 then ⟨tmpptr, []⟩ else ⟨strField width.toNat tmpptr, []⟩
  | 100 | 105 =>
    if arg.word.toBitVec.toInt < 0 then .number [45] (atox (0 - arg.word) 10 width digits)
    else .number [] (atox arg.word 10 width digits)
  | 117 => .number [] (atox arg.word 10 width digits)
  | 88 => .number [] (atox arg.word 16 width digits)
  | 120 => .number [] (atox arg.word 16 width ldigits)
  | 80 => .number [] (atox arg.word 16 8 digits)
  | 112 => .number [] (atox arg.word 16 8 ldigits)
  | 99 => ⟨[arg.word.toUInt8], []⟩
  | c => ⟨[c], []⟩

/-- What the pieces put out, with the arguments from the `n`-th on. -/
def outs (args : ℕ → Arg) : ℕ → List Piece → List Out
  | _, [] => []
  | n, .lit c :: pieces => ⟨[c], []⟩ :: outs args n pieces
  | n, .conv width width2 c :: pieces =>
    convOut width width2 c (args n) :: outs args (if takesArg c then n + 1 else n) pieces

/-! ### The buffer -/

/-- The bytes that are stored of a text that goes to `optr` and on. -/
def putText (endp : UInt32) : UInt32 → List UInt8 → List (UInt32 × UInt8)
  | _, [] => []
  | optr, c :: text =>
    if optr ≤ endp then (optr, c) :: putText endp (optr + 1) text else putText endp (optr + 1) text

/-- `end`: the last byte of the buffer, or of all memory. -/
def bufEnd (buf size : UInt32) : UInt32 := if buf + size - 1 < buf - 1 then 0xffffffff else buf + size - 1

/-- What a call leaves: the bytes it stored, in order; what went through the `buffer` of `__atox`; and what it
returns. -/
structure Result where
  writes : List (UInt32 × UInt8)
  scratch : List (List UInt8)
  ret : UInt32

/-- The text of these, stored from `buf` on, and the terminator. -/
def putOuts (buf size : UInt32) (os : List Out) : Result :=
  let text := os.flatMap Out.text
  let endp := bufEnd buf size
  let optr := buf + UInt32.ofNat text.length
  if optr ≤ endp then ⟨putText endp buf text ++ [(optr, 0)], os.map Out.scratch, optr - buf⟩
  else ⟨putText endp buf text ++ [(endp, 0)], os.map Out.scratch, endp - buf⟩

/-- `vsnprintf(buf, size, fmt, ap)`, where `fmt` is the first of these strings. -/
def vsnprintf (buf size : UInt32) (fmt : List CStr) (args : ℕ → Arg) : Option Result :=
  (scanFmt 0 fmt).map fun pieces => putOuts buf size (outs args 0 pieces)

/-! ### The scan ends -/

theorem length_readWidth_le : ∀ (width : UInt32) (iptr : List UInt8), (readWidth width iptr).2.length ≤ iptr.length
  | _, [] => le_rfl
  | width, c :: iptr => by
    unfold readWidth
    split
    · exact Nat.le_succ_of_le (length_readWidth_le _ iptr)
    · exact le_rfl

theorem length_skip_le (c : UInt8) (iptr : List UInt8) : (skip c iptr).length ≤ iptr.length := by
  unfold skip
  split
  · rw [List.length_tail]
    exact Nat.sub_le _ _
  · exact le_rfl

theorem length_readWidths_le (width2 : UInt32) (iptr : List UInt8) :
    (readWidths width2 iptr).2.2.length ≤ iptr.length := by
  unfold readWidths
  dsimp only
  have hflags : (skip 45 (skip 35 iptr)).length ≤ iptr.length :=
    (length_skip_le _ _).trans (length_skip_le _ _)
  have hwidth := length_readWidth_le 0 (skip 45 (skip 35 iptr))
  refine (length_skip_le _ _).trans ?_
  split_ifs
  · have hwidth2 := length_readWidth_le 0 (readWidth 0 (skip 45 (skip 35 iptr))).2.tail
    rw [List.length_tail] at hwidth2
    omega
  · dsimp only
    omega

/-- A turn for each byte is enough. -/
theorem scanString_of_le : ∀ {fuel n : ℕ} (width2 : UInt32) {iptr : List UInt8}, iptr.length ≤ n → n ≤ fuel →
    scanString fuel width2 iptr = scanString n width2 iptr
  | 0, 0, _, [], _, _ => rfl
  | _ + 1, 0, _, [], _, _ => rfl
  | _ + 1, _ + 1, _, [], _, _ => rfl
  | fuel + 1, n + 1, width2, c :: iptr, h, hle => by
    have hlen : iptr.length ≤ n := Nat.le_of_succ_le_succ h
    have hfuel : n ≤ fuel := Nat.le_of_succ_le_succ hle
    unfold scanString
    split_ifs
    · rw [scanString_of_le width2 hlen hfuel]
    · have hrest := length_readWidths_le width2 iptr
      generalize readWidths width2 iptr = r at hrest ⊢
      obtain ⟨width, width2', _ | ⟨d, rest⟩⟩ := r
      · rfl
      · have hshort : rest.length ≤ n := by
          rw [List.length_cons] at hrest
          omega
        dsimp only
        rw [scanString_of_le width2' hshort hfuel]

/-! ### The scratch buffer -/

/-- The conversions whose number has the width of the format. -/
def isNumber (c : UInt8) : Bool := [100, 105, 117, 88, 120].contains c

theorem length_atoxDigits_le {radix : ℕ} (hradix : 0 < radix) (ds : List UInt8) :
    ∀ {k fuel num : ℕ}, num < radix ^ (k + 1) → (atoxDigits radix ds fuel num).length ≤ k + 1
  | _, 0, _, _ => Nat.zero_le _
  | k, fuel + 1, num, h => by
    rw [atoxDigits, List.length_cons]
    split_ifs with hnum
    · cases k with
      | zero => exact absurd (Nat.div_eq_of_lt (by simpa using h)) hnum
      | succ k =>
        have hquot : num / radix < radix ^ (k + 1) := by
          rw [Nat.div_lt_iff_lt_mul hradix, ← pow_succ]
          exact h
        exact Nat.succ_le_succ (length_atoxDigits_le hradix ds hquot)
    · exact Nat.succ_le_succ (Nat.zero_le _)

/-- A number goes into the 16 bytes if its width does. -/
theorem length_atox_le (num : UInt32) {radix : ℕ} (hradix : 10 ≤ radix) (width : UInt32) (ds : List UInt8) :
    (atox num radix width ds).length ≤ 16 ↔ width.toBitVec.toInt ≤ 16 := by
  have hdigits : (atoxDigits radix ds 32 num.toNat).length ≤ 9 + 1 := by
    apply length_atoxDigits_le (by omega)
    calc num.toNat < 2 ^ 32 := num.toNat_lt
      _ ≤ 10 ^ (9 + 1) := by decide
      _ ≤ radix ^ (9 + 1) := Nat.pow_le_pow_left hradix _
  unfold atox
  dsimp only
  split_ifs with hpad
  · rw [List.length_append, List.length_replicate]
    omega
  · have hzero : width = 0 → width.toBitVec.toInt = 0 := fun h => by rw [h]; rfl
    constructor
    · intro _
      by_cases hw : width = 0
      · rw [hzero hw]
        decide
      · have := not_and.mp hpad hw
        omega
    · omega

/-- Only a width can make it too long. -/
theorem length_scratch_le (width width2 : UInt32) (c : UInt8) (arg : Arg) :
    (convOut width width2 c arg).scratch.length ≤ 16 ↔ (isNumber c = true → width.toBitVec.toInt ≤ 16) := by
  have hempty : ∀ text, (Out.mk text []).scratch.length ≤ 16 := fun _ => Nat.zero_le _
  have height : ∀ ds sign, (Out.number sign (atox arg.word 16 8 ds)).scratch.length ≤ 16 := fun ds _ =>
    (length_atox_le arg.word (by decide) 8 ds).mpr (by decide)
  unfold convOut
  split
  · -- s
    dsimp only
    split_ifs <;> exact iff_of_true (hempty _) fun h => absurd h (by decide)
  · -- d
    split_ifs
    · exact (length_atox_le _ (by decide) _ _).trans ⟨fun h _ => h, fun h => h rfl⟩
    · exact (length_atox_le _ (by decide) _ _).trans ⟨fun h _ => h, fun h => h rfl⟩
  · -- i
    split_ifs
    · exact (length_atox_le _ (by decide) _ _).trans ⟨fun h _ => h, fun h => h rfl⟩
    · exact (length_atox_le _ (by decide) _ _).trans ⟨fun h _ => h, fun h => h rfl⟩
  · -- u
    exact (length_atox_le _ (by decide) _ _).trans ⟨fun h _ => h, fun h => h rfl⟩
  · -- X
    exact (length_atox_le _ (by decide) _ _).trans ⟨fun h _ => h, fun h => h rfl⟩
  · -- x
    exact (length_atox_le _ (by decide) _ _).trans ⟨fun h _ => h, fun h => h rfl⟩
  · -- P
    exact iff_of_true (height _ _) fun h => absurd h (by decide)
  · -- p
    exact iff_of_true (height _ _) fun h => absurd h (by decide)
  · -- c
    exact iff_of_true (hempty _) fun h => absurd h (by decide)
  · -- every other one is put out as it is
    rename_i hd hi hu hX hx _ _ _
    refine iff_of_true (hempty _) fun h => ?_
    have hmem : c ∈ [(100 : UInt8), 105, 117, 88, 120] := by simpa [isNumber] using h
    simp only [List.mem_cons, List.not_mem_nil, or_false] at hmem
    rcases hmem with h | h | h | h | h
    exacts [(hd h).elim, (hi h).elim, (hu h).elim, (hX h).elim, (hx h).elim]

theorem scratch_outs_le (args : ℕ → Arg) : ∀ (pieces : List Piece) (n : ℕ),
    (∀ o ∈ outs args n pieces, o.scratch.length ≤ 16) ↔
      ∀ width width2 c, .conv width width2 c ∈ pieces → isNumber c = true → width.toBitVec.toInt ≤ 16
  | [], n => by simp [outs]
  | .lit c :: pieces, n => by
    have hempty : (Out.mk [c] []).scratch.length ≤ 16 := Nat.zero_le _
    rw [outs, List.forall_mem_cons, and_iff_right hempty, scratch_outs_le args pieces]
    simp only [List.mem_cons, reduceCtorEq, false_or]
  | .conv width width2 c :: pieces, n => by
    rw [outs, List.forall_mem_cons, length_scratch_le, scratch_outs_le args pieces]
    constructor
    · rintro ⟨hfirst, hrest⟩ w w2 d hmem hd
      rcases List.mem_cons.mp hmem with heq | hmem
      · cases heq
        exact hfirst hd
      · exact hrest w w2 d hmem hd
    · intro h
      exact ⟨h width width2 c List.mem_cons_self, fun w w2 d hmem => h w w2 d (List.mem_cons_of_mem _ hmem)⟩

/-! ### The writes -/

/-- The `k`-th byte of the text goes `k` bytes behind `optr`, if that is not behind `end`. -/
theorem mem_putText {endp : UInt32} {w : UInt32 × UInt8} : ∀ {text : List UInt8} {optr : UInt32},
    w ∈ putText endp optr text ↔ ∃ k, text[k]? = some w.2 ∧ w.1 = optr + UInt32.ofNat k ∧ w.1 ≤ endp
  | [], optr => by simp [putText]
  | c :: text, optr => by
    have hnext : ∀ k, optr + 1 + UInt32.ofNat k = optr + UInt32.ofNat (k + 1) := fun k => by
      rw [UInt32.ofNat_add, UInt32.add_assoc, UInt32.add_comm 1]
      rfl
    have hrest : w ∈ putText endp (optr + 1) text ↔
        ∃ k, (c :: text)[k + 1]? = some w.2 ∧ w.1 = optr + UInt32.ofNat (k + 1) ∧ w.1 ≤ endp := by
      rw [mem_putText]
      simp only [hnext, List.getElem?_cons_succ]
    have hzero : optr + UInt32.ofNat 0 = optr := UInt32.add_zero optr
    unfold putText
    split_ifs with hle
    · rw [List.mem_cons, hrest]
      constructor
      · rintro (rfl | ⟨k, hk⟩)
        · exact ⟨0, rfl, hzero.symm, hle⟩
        · exact ⟨k + 1, hk⟩
      · rintro ⟨k, hk, haddr, hend⟩
        cases k with
        | zero => exact .inl (Prod.ext (haddr.trans hzero) (Option.some.inj hk).symm)
        | succ k => exact .inr ⟨k, hk, haddr, hend⟩
    · rw [hrest]
      constructor
      · rintro ⟨k, hk⟩
        exact ⟨k + 1, hk⟩
      · rintro ⟨k, hk, haddr, hend⟩
        cases k with
        | zero => exact absurd (haddr.trans hzero ▸ hend) hle
        | succ k => exact ⟨k, hk, haddr, hend⟩

/-- The memory after the writes. -/
def store (m : UInt32 → UInt8) (writes : List (UInt32 × UInt8)) : UInt32 → UInt8 :=
  writes.foldl (fun m w => Function.update m w.1 w.2) m

/-- All writes go to the buffer, which ends up with a NUL in it if it has a byte, and to the `buffer` of `__atox`. -/
structure Safe (buf size : UInt32) (r : Result) : Prop where
  inside : ∀ w ∈ r.writes, buf.toNat ≤ w.1.toNat ∧ w.1.toNat < buf.toNat + size.toNat
  terminated : size ≠ 0 → ∀ m, ∃ a, buf.toNat ≤ a.toNat ∧ a.toNat < buf.toNat + size.toNat ∧ store m r.writes a = 0
  scratch : ∀ b ∈ r.scratch, b.length ≤ 16

theorem toNat_bufEnd {buf size : UInt32} (hbuf : buf ≠ 0) (hsize : size ≠ 0) :
    (bufEnd buf size).toNat = min (buf.toNat + size.toNat - 1) (2 ^ 32 - 1) := by
  have hb : buf.toNat ≠ 0 := fun h => hbuf (UInt32.toNat_inj.mp h)
  have hs : size.toNat ≠ 0 := fun h => hsize (UInt32.toNat_inj.mp h)
  have hblt := buf.toNat_lt
  have hslt := size.toNat_lt
  unfold bufEnd
  split_ifs with h <;> rw [UInt32.lt_iff_toNat_lt] at h <;>
    simp only [UInt32.toNat_sub, UInt32.toNat_add, UInt32.toNat_one] at h ⊢
  · show 4294967295 = _
    omega
  · omega

/-- What stands in memory where the last write went. -/
theorem store_concat (m : UInt32 → UInt8) (writes : List (UInt32 × UInt8)) (a : UInt32) (c : UInt8) :
    store m (writes ++ [(a, c)]) a = c := by
  rw [store, List.foldl_append]
  exact Function.update_self _ _ _

/-- The last write is the terminator's. -/
theorem putOuts_writes (buf size : UInt32) (os : List Out) :
    (putOuts buf size os).writes = putText (bufEnd buf size) buf (os.flatMap Out.text) ++
      [(if buf + UInt32.ofNat (os.flatMap Out.text).length ≤ bufEnd buf size
        then buf + UInt32.ofNat (os.flatMap Out.text).length else bufEnd buf size, 0)] := by
  unfold putOuts
  dsimp only
  split_ifs <;> rfl

theorem putOuts_scratch (buf size : UInt32) (os : List Out) :
    (putOuts buf size os).scratch = os.map Out.scratch := by
  unfold putOuts
  dsimp only
  split_ifs <;> rfl

theorem toNat_add_ofNat {buf : UInt32} {k : ℕ} (h : buf.toNat + k < 2 ^ 32) :
    (buf + UInt32.ofNat k).toNat = buf.toNat + k := by
  have hk : k < 2 ^ 32 := by omega
  rw [UInt32.toNat_add, UInt32.toNat_ofNat_of_lt' hk]
  omega

/-- **When a text is stored safely**: there is a byte for the terminator, the text does not reach the end of memory, and
no number is too long for `buffer`. -/
theorem safe_putOuts_iff {buf size : UInt32} (hbuf : buf ≠ 0) (os : List Out) :
    Safe buf size (putOuts buf size os) ↔
      size ≠ 0 ∧ buf.toNat + (os.flatMap Out.text).length < 2 ^ 32 ∧ ∀ o ∈ os, o.scratch.length ≤ 16 := by
  have hb : buf.toNat ≠ 0 := fun h => hbuf (UInt32.toNat_inj.mp h)
  have hblt := buf.toNat_lt
  generalize htext : os.flatMap Out.text = text
  have hwrites := putOuts_writes buf size os
  rw [htext] at hwrites
  have hscratch := putOuts_scratch buf size os
  constructor
  · intro h
    have hlast := h.inside (if buf + UInt32.ofNat text.length ≤ bufEnd buf size
        then buf + UInt32.ofNat text.length else bufEnd buf size, 0) (by
      rw [hwrites]
      exact List.mem_append_right _ (List.mem_singleton_self _))
    have hsize : size ≠ 0 := by
      rintro rfl
      have hzero : (0 : UInt32).toNat = 0 := rfl
      rw [hzero] at hlast
      omega
    refine ⟨hsize, ?_, fun o ho => h.scratch _ (hscratch ▸ List.mem_map_of_mem ho)⟩
    by_contra hlong
    have hend := toNat_bufEnd hbuf hsize
    -- the byte that would go to the end of memory goes to its start
    have hwrap : buf + UInt32.ofNat (2 ^ 32 - buf.toNat) = 0 := by
      have hk : 2 ^ 32 - buf.toNat < 2 ^ 32 := by omega
      apply UInt32.toNat_inj.mp
      rw [UInt32.toNat_add, UInt32.toNat_ofNat_of_lt' hk]
      show _ = 0
      omega
    have hle : (0 : UInt32) ≤ bufEnd buf size := UInt32.le_iff_toNat_le.mpr (Nat.zero_le _)
    rcases Nat.eq_or_lt_of_le (show 2 ^ 32 - buf.toNat ≤ text.length by omega) with heq | hlt
    · rw [← heq, hwrap, if_pos hle] at hlast
      exact hb (Nat.le_zero.mp hlast.1)
    · have hmem : ((0 : UInt32), text[2 ^ 32 - buf.toNat]) ∈ (putOuts buf size os).writes := by
        rw [hwrites]
        refine List.mem_append_left _ (mem_putText.mpr ⟨2 ^ 32 - buf.toNat, ?_, hwrap.symm, hle⟩)
        exact List.getElem?_eq_getElem hlt
      exact hb (Nat.le_zero.mp (h.inside _ hmem).1)
  · rintro ⟨hsize, hroom, hshort⟩
    have hend := toNat_bufEnd hbuf hsize
    have hs : size.toNat ≠ 0 := fun h => hsize (UInt32.toNat_inj.mp h)
    have hoptr := toNat_add_ofNat hroom
    -- a write at or behind `buf` and not behind `end` is in the buffer
    have hin : ∀ a : UInt32, buf.toNat ≤ a.toNat → a ≤ bufEnd buf size → a.toNat < buf.toNat + size.toNat := by
      intro a _ hle
      rw [UInt32.le_iff_toNat_le, hend] at hle
      omega
    have hlast : buf.toNat ≤ (if buf + UInt32.ofNat text.length ≤ bufEnd buf size
        then buf + UInt32.ofNat text.length else bufEnd buf size).toNat ∧
        (if buf + UInt32.ofNat text.length ≤ bufEnd buf size
        then buf + UInt32.ofNat text.length else bufEnd buf size) ≤ bufEnd buf size := by
      split_ifs with hle
      · exact ⟨by omega, hle⟩
      · exact ⟨by omega, UInt32.le_refl _⟩
    refine ⟨fun w hw => ?_, fun _ m => ?_, fun b hbuf => ?_⟩
    · rw [hwrites, List.mem_append, List.mem_singleton] at hw
      rcases hw with hw | rfl
      · obtain ⟨k, hk, haddr, hle⟩ := mem_putText.mp hw
        have hklt := (List.getElem?_eq_some_iff.mp hk).1
        have hlow : buf.toNat ≤ w.1.toNat := by
          rw [haddr, toNat_add_ofNat (by omega)]
          omega
        exact ⟨hlow, hin _ hlow hle⟩
      · exact ⟨hlast.1, hin _ hlast.1 hlast.2⟩
    · rw [hwrites]
      exact ⟨_, hlast.1, hin _ hlast.1 hlast.2, store_concat _ _ _ _⟩
    · rw [hscratch] at hbuf
      obtain ⟨o, ho, rfl⟩ := List.mem_map.mp hbuf
      exact hshort o ho

/-! ### Formats that end inside a conversion -/

/-- `%17d`, behind any `width2`. -/
theorem scanFmt_wide (width2 : UInt32) :
    scanFmt width2 [.lit "%17d"] = some [.conv 17 width2 100] := by
  rfl

/-- A format that ends with a conversion is read on from the next string. -/
theorem scanFmt_cons (width2 : UInt32) (fmt : CStr) (behind : List CStr) :
    scanFmt width2 (fmt :: behind) = match scanFmt width2 [fmt] with
      | some pieces => some pieces
      | none => (scanFmt ((scanString fmt.length width2 fmt.bytes).2.getD 0) behind).map
        ((scanString fmt.length width2 fmt.bytes).1 ++ ·) := by
  rw [scanFmt, scanFmt]
  rcases scanString fmt.length width2 fmt.bytes with ⟨pieces, _ | width2'⟩ <;> rfl

/-- **When `vsnprintf` writes nowhere else**, whatever stands behind the format: the size is not 0; the format does not
end inside a conversion; no number in it has a width over 16; and the text does not reach the end of memory. -/
theorem vsnprintf_safe_iff {buf : UInt32} (hbuf : buf ≠ 0) (size : UInt32) (fmt : CStr) (args : ℕ → Arg) :
    (∀ behind r, vsnprintf buf size (fmt :: behind) args = some r → Safe buf size r) ↔
      size ≠ 0 ∧ ∃ pieces, scanFmt 0 [fmt] = some pieces ∧
        (∀ width width2 c, .conv width width2 c ∈ pieces → isNumber c = true → width.toBitVec.toInt ≤ 16) ∧
        buf.toNat + ((outs args 0 pieces).flatMap Out.text).length < 2 ^ 32 := by
  unfold vsnprintf
  cases hpieces : scanFmt 0 [fmt] with
  | none =>
    -- a number of 17 digits behind the format
    constructor
    · intro h
      have hscan := scanFmt_cons 0 fmt [.lit "%17d"]
      rw [hpieces, scanFmt_wide] at hscan
      have hsafe := h [.lit "%17d"] _ (by rw [hscan]; rfl)
      have hwide := (scratch_outs_le args _ 0).mp ((safe_putOuts_iff hbuf _).mp hsafe).2.2 17 _ 100
        (List.mem_append_right _ (List.mem_singleton_self _)) (by decide)
      exact absurd hwide (by decide)
    · rintro ⟨-, pieces, hnone, -⟩
      cases hnone
  | some pieces =>
    have hscan : ∀ behind, scanFmt 0 (fmt :: behind) = some pieces := fun behind => by
      rw [scanFmt_cons, hpieces]
    have hiff : (∀ behind r, (scanFmt 0 (fmt :: behind)).map (fun pieces => putOuts buf size (outs args 0 pieces)) =
        some r → Safe buf size r) ↔ Safe buf size (putOuts buf size (outs args 0 pieces)) := by
      constructor
      · intro h
        exact h [] _ (by rw [hscan]; rfl)
      · intro h behind r hr
        rw [hscan] at hr
        cases hr
        exact h
    rw [hiff, safe_putOuts_iff hbuf, scratch_outs_le]
    constructor
    · rintro ⟨hsize, hroom, hwidth⟩
      exact ⟨hsize, pieces, rfl, hwidth, hroom⟩
    · rintro ⟨hsize, pieces', heq, hwidth, hroom⟩
      cases heq
      exact ⟨hsize, hroom, hwidth⟩

/-- A counter in a buffer of eight bytes. -/
theorem vsnprintf_safe_counter :
    ∃ r, vsnprintf 0x1000 8 [.lit "n=%5d"] (fun _ => ⟨42, .lit ""⟩) = some r ∧ Safe 0x1000 8 r := by
  have hwidth : ∀ width width2 c, .conv width width2 c ∈ [Piece.lit 110, .lit 61, .conv 5 0 100] →
      isNumber c = true → width.toBitVec.toInt ≤ 16 := by
    intro width width2 c hmem _
    simp only [List.mem_cons, reduceCtorEq, List.not_mem_nil, or_false, false_or, Piece.conv.injEq] at hmem
    rw [hmem.1]
    decide
  have hsafe := (vsnprintf_safe_iff (show (0x1000 : UInt32) ≠ 0 by decide) 8 (.lit "n=%5d") fun _ => ⟨42, .lit ""⟩).mpr
    ⟨by decide, [.lit 110, .lit 61, .conv 5 0 100], by decide, hwidth, by decide⟩
  exact ⟨_, rfl, hsafe [] _ rfl⟩

/-- A width of 17: a byte is put behind the 16 of `buffer`. And a size of 0: the terminator goes in front of the
buffer. -/
theorem vsnprintf_overruns :
    (∃ r, vsnprintf 0x1000 64 [.lit "%17d"] (fun _ => ⟨42, .lit ""⟩) = some r ∧ r.scratch.map List.length = [17] ∧
      ¬Safe 0x1000 64 r) ∧
    ∃ r, vsnprintf 0x1000 0 [.lit ""] (fun _ => ⟨42, .lit ""⟩) = some r ∧ r.writes = [(0xfff, 0)] ∧
      ¬Safe 0x1000 0 r := by
  refine ⟨⟨_, rfl, by decide, fun h => ?_⟩, _, rfl, by decide, fun h => ?_⟩
  · exact absurd (h.scratch _ (List.mem_singleton_self _)) (by decide)
  · exact absurd (h.inside (0xfff, 0) (by decide)).1 (by decide)

end Vsnprintf
end Bcm
end Router
