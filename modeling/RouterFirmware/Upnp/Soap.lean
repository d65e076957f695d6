/-
# Arguments of an action

`upnp/upnp/soap.c`: `invoke` calls the function of an action when every VAR_IN parameter has a value and `ValidParam`
takes it. What a value should be is `Satisfies`. Not all that is taken satisfies its template (`Misread`):

* `ValidParam` looks at the list of a VAR_STRING only where `valid` is set, which it is not;
* `strtoul` and `strtol` skip spaces, `strtoul` reads a sign, a negative number wraps and a large one saturates;
* a step of 0 divides by zero.

`invoke_iff` says when this matters. A VAR_LONG is never taken, because the code looks for VAR_ULONG in its place.

The types are those of the router's processor: a `char` is signed, `int` and `long` have 32 bits. The members of the
union `allowed` are two fields; a template has the one that its flags say. What C leaves undefined, a division by zero
and an overflow, is an input.
-/
import RouterFirmware.Lib.Parse

namespace Router
namespace Upnp

open CText

/-! ### Templates -/

def VAR_USHORT : UInt32 := (1 : UInt32) <<< 0
def VAR_ULONG : UInt32 := (1 : UInt32) <<< 1
def VAR_STRING : UInt32 := (1 : UInt32) <<< 2
def VAR_BOOL : UInt32 := (1 : UInt32) <<< 3
def VAR_SHORT : UInt32 := (1 : UInt32) <<< 4
def VAR_LONG : UInt32 := (1 : UInt32) <<< 5
def VAR_BYTE : UInt32 := (1 : UInt32) <<< 6
def VAR_UBYTE : UInt32 := (1 : UInt32) <<< 7
def VAR_RANGE : UInt32 := (1 : UInt32) <<< 10
def VAR_LIST : UInt32 := (1 : UInt32) <<< 11

def VAR_IN : UInt32 := 1

/-- `allowedValueRange`. -/
structure AllowedValueRange where
  minimum : Bytes
  maximum : Bytes
  step : Bytes

/-- `VarTemplate`. -/
structure VarTemplate where
  flags : UInt32
  list : List Bytes
  range : Option AllowedValueRange

/-- `pVT->flags & flag`. -/
def VarTemplate.has (pVT : VarTemplate) (flag : UInt32) : Bool := pVT.flags &&& flag != 0

/-- `Param`. -/
structure Param where
  name : Bytes
  related : ℕ
  flags : UInt32

/-! ### The code -/

/-- `IsUnsigned(pVT)`. -/
def VarTemplate.isUnsigned (pVT : VarTemplate) : Bool := pVT.has (VAR_USHORT ||| VAR_ULONG ||| VAR_UBYTE)

/-- `ValidateInteger(valuestr, pVT)`, where `undef` is what comes of a remainder that C leaves undefined. -/
def validateInteger (undef : Bool) (valuestr : Bytes) (pVT : VarTemplate) : Bool :=
  if pVT.isUnsigned then
    let uvalue := (strtoulEnd valuestr).1
    let valid : Bool :=
      if (strtoulEnd valuestr).2 ≠ some [] then false
      else if pVT.has VAR_UBYTE then uvalue ≤ 255
      else if pVT.has VAR_USHORT then uvalue ≤ 65535
      else if pVT.has VAR_ULONG then uvalue ≤ 2 ^ 32 - 1
      else false
    match pVT.range with
    | none => valid
    | some range =>
      if valid && pVT.has VAR_RANGE then
        let umin := (strtoulEnd range.minimum).1
        let umax := (strtoulEnd range.maximum).1
        let ustep := (strtoulEnd range.step).1
        if umin ≤ uvalue ∧ uvalue ≤ umax then
          if ustep = 0 then undef else (uvalue - umin) % ustep = 0
        else false
      else valid
  else
    let value := (strtolEnd valuestr).1
    let valid : Bool :=
      if (strtolEnd valuestr).2 ≠ some [] then false
      else if pVT.has VAR_BYTE then -128 ≤ value ∧ value ≤ 127
      else if pVT.has VAR_SHORT then -32768 ≤ value ∧ value ≤ 32767
      else if pVT.has VAR_ULONG then -2 ^ 31 ≤ value ∧ value ≤ 2 ^ 31 - 1
      else false
    match pVT.range with
    | none => valid
    | some range =>
      if valid && pVT.has VAR_RANGE then
        let min := (strtolEnd range.minimum).1
        let max := (strtolEnd range.maximum).1
        let step := (strtolEnd range.step).1
        if min ≤ value ∧ value ≤ max then
          if step = 0 ∨ 2 ^ 31 ≤ value - min then undef else (value - min).tmod step = 0
        else false
      else valid

/-- `MemberOfList(value, list)`. -/
def memberOfList (value : Bytes) (list : List Bytes) : Bool := list.any (value == ·)

/-- `upnpBoolList`. -/
def upnpBoolList : List Bytes := [bytes "0", bytes "1"]

/-- `ValidParam(psvc, pa)`. -/
def validParam (undef : Bool) (value : Bytes) (pVT : VarTemplate) : Bool :=
  let valid := false
  if pVT.has VAR_STRING then
    if valid && pVT.has VAR_LIST then memberOfList value pVT.list else true
  else if pVT.has VAR_BOOL then memberOfList value upnpBoolList
  else validateInteger undef value pVT

/-- `getargval(name, args, nargs)`. -/
def getargval (name : Bytes) (args : List (Bytes × Bytes)) : Option Bytes :=
  (args.find? (·.1 = name)).map Prod.snd

/-- What `invoke` does: a SOAP error, or the function of the action is called. -/
inductive Invoked where
  | soapError (code : ℕ)
  | called
deriving DecidableEq

/-- `invoke(up, psvc, ac, args, nargs)`, with the variables of the service and the parameters of the action. -/
def invoke (undef : Bool) (vars : ℕ → VarTemplate) (params : List Param) (args : List (Bytes × Bytes)) : Invoked :=
  let badargs := params.any fun pa =>
    pa.flags &&& VAR_IN != 0 &&
      match getargval pa.name args with
      | none => true
      | some value => !validParam undef value (vars pa.related)
  if badargs then .soapError 402 else .called

/-! ### What a value should be -/

/-- The least and the greatest number of the type. -/
def VarTemplate.typeRange (pVT : VarTemplate) : Option (ℤ × ℤ) :=
  if pVT.has VAR_UBYTE then some (0, 255)
  else if pVT.has VAR_USHORT then some (0, 65535)
  else if pVT.has VAR_ULONG then some (0, 2 ^ 32 - 1)
  else if pVT.has VAR_BYTE then some (-128, 127)
  else if pVT.has VAR_SHORT then some (-32768, 32767)
  else if pVT.has VAR_LONG then some (-2 ^ 31, 2 ^ 31 - 1)
  else none

/-- The number that a text of the template stands for. -/
def VarTemplate.valueOf (pVT : VarTemplate) (s : Bytes) : ℤ :=
  if pVT.isUnsigned then (strtoulEnd s).1 else (strtolEnd s).1

/-- A number of the type. -/
def InType (pVT : VarTemplate) (z : ℤ) : Prop := ∃ t ∈ pVT.typeRange, t.1 ≤ z ∧ z ≤ t.2

/-- Between the minimum and the maximum. -/
def Between (pVT : VarTemplate) (range : AllowedValueRange) (z : ℤ) : Prop :=
  pVT.valueOf range.minimum ≤ z ∧ z ≤ pVT.valueOf range.maximum

/-- Between the minimum and the maximum, a multiple of the step from the minimum, if there is a range. -/
def InRange (pVT : VarTemplate) (z : ℤ) : Prop :=
  pVT.has VAR_RANGE → ∀ range ∈ pVT.range, Between pVT range z ∧
    pVT.valueOf range.step ∣ z - pVT.valueOf range.minimum

/-- What a template asks of a value. -/
def Satisfies (pVT : VarTemplate) (value : Bytes) : Prop :=
  if pVT.has VAR_STRING then pVT.has VAR_LIST → value ∈ pVT.list
  else if pVT.has VAR_BOOL then value = bytes "0" ∨ value = bytes "1"
  else ∃ z, IsNumeral (!pVT.isUnsigned) value z ∧ InType pVT z ∧ InRange pVT z

/-! ### What is taken without that -/

/-- The number that the code reads, if it reads to the end. -/
def ReadsAs (pVT : VarTemplate) (value : Bytes) (z : ℤ) : Prop :=
  if pVT.isUnsigned then strtoulEnd value = (z.toNat, some []) ∧ 0 ≤ z else strtolEnd value = (z, some [])

/-- The remainder is undefined: by 0, or of a difference that overflows. -/
def Undefined (pVT : VarTemplate) (range : AllowedValueRange) (z : ℤ) : Prop :=
  pVT.valueOf range.step = 0 ∨ pVT.isUnsigned = false ∧ 2 ^ 31 ≤ z - pVT.valueOf range.minimum

/-- A number is in the range, or its remainder is undefined. -/
def Checked (undef : Bool) (pVT : VarTemplate) (z : ℤ) : Prop :=
  pVT.has VAR_RANGE → ∀ range ∈ pVT.range, Between pVT range z ∧
    (pVT.valueOf range.step ∣ z - pVT.valueOf range.minimum ∧ ¬Undefined pVT range z ∨
      undef = true ∧ Undefined pVT range z)

/-- No type that `ValidateInteger` knows. -/
def VarTemplate.isLong (pVT : VarTemplate) : Bool := !pVT.isUnsigned && !pVT.has VAR_BYTE && !pVT.has VAR_SHORT

/-- A value that is taken and does not satisfy its template: a string that is not in the list, what is no numeral but
read as a number in the range, or a number that is not in the range and whose remainder is undefined. -/
def Misread (pVT : VarTemplate) (value : Bytes) : Prop :=
  if pVT.has VAR_STRING then pVT.has VAR_LIST ∧ value ∉ pVT.list
  else if pVT.has VAR_BOOL then False
  else pVT.isLong = false ∧ ∃ z, ReadsAs pVT value z ∧ InType pVT z ∧ Checked true pVT z ∧
    (¬IsNumeral (!pVT.isUnsigned) value z ∨ ¬InRange pVT z)

variable {pVT : VarTemplate} {value : Bytes} {undef : Bool} {z : ℤ}

theorem and_or_left (a b c : UInt32) : a &&& (b ||| c) = a &&& b ||| a &&& c := by
  apply UInt32.toBitVec_inj.mp
  ext i
  simp [Bool.and_or_distrib_left]

theorem isUnsigned_iff : pVT.isUnsigned = true ↔ pVT.has VAR_USHORT ∨ pVT.has VAR_ULONG ∨ pVT.has VAR_UBYTE := by
  unfold VarTemplate.isUnsigned VarTemplate.has
  simp only [bne_iff_ne, ne_eq, and_or_left, UInt32.or_eq_zero_iff]
  tauto

/-- The type of an unsigned number. -/
theorem inType_unsigned (hu : pVT.isUnsigned = true) (u : ℕ) :
    InType pVT u ↔ (if pVT.has VAR_UBYTE then decide (u ≤ 255) else if pVT.has VAR_USHORT then decide (u ≤ 65535)
      else if pVT.has VAR_ULONG then decide (u ≤ 2 ^ 32 - 1) else false) = true := by
  unfold InType VarTemplate.typeRange
  by_cases hub : pVT.has VAR_UBYTE = true
  · simp only [hub, if_true, Option.mem_some_iff, exists_eq_left', decide_eq_true_eq]
    omega
  · by_cases hus : pVT.has VAR_USHORT = true
    · simp only [hub, hus, if_true, Bool.false_eq_true, if_false, Option.mem_some_iff, exists_eq_left', decide_eq_true_eq]
      omega
    · have hul : pVT.has VAR_ULONG = true := by
        rcases isUnsigned_iff.mp hu with h | h | h
        · exact absurd h hus
        · exact h
        · exact absurd h hub
      simp only [hub, hus, hul, if_true, Bool.false_eq_true, if_false, Option.mem_some_iff, exists_eq_left',
        decide_eq_true_eq]
      omega

/-- The type of a signed number. The last of these is in the place of VAR_LONG. -/
theorem inType_signed (hu : pVT.isUnsigned = false) (z : ℤ) :
    pVT.isLong = false ∧ InType pVT z ↔
      (if pVT.has VAR_BYTE then decide (-128 ≤ z ∧ z ≤ 127) else if pVT.has VAR_SHORT then decide (-32768 ≤ z ∧ z ≤ 32767)
      else if pVT.has VAR_ULONG then decide (-2 ^ 31 ≤ z ∧ z ≤ 2 ^ 31 - 1) else false) = true := by
  have hnot : ¬(pVT.has VAR_USHORT = true ∨ pVT.has VAR_ULONG = true ∨ pVT.has VAR_UBYTE = true) := by
    rw [← isUnsigned_iff, hu]
    exact Bool.false_ne_true
  obtain ⟨hus, hul, hub⟩ : pVT.has VAR_USHORT = false ∧ pVT.has VAR_ULONG = false ∧ pVT.has VAR_UBYTE = false := by
    simpa using hnot
  unfold InType VarTemplate.typeRange VarTemplate.isLong
  by_cases hb : pVT.has VAR_BYTE = true
  · simp [hu, hus, hul, hub, hb]
  · by_cases hs : pVT.has VAR_SHORT = true
    · simp [hu, hus, hul, hub, hb, hs]
    · simp [hu, hul, hb, hs]

/-- What the rest of `ValidateInteger` does with a number. -/
theorem checked_iff (valid : Bool) (z : ℤ) (rem : AllowedValueRange → Bool)
    (hrem : ∀ range ∈ pVT.range, Between pVT range z → (rem range = true ↔
      pVT.valueOf range.step ∣ z - pVT.valueOf range.minimum ∧ ¬Undefined pVT range z ∨
        undef = true ∧ Undefined pVT range z)) :
    (match pVT.range with
      | none => valid
      | some range =>
        if valid && pVT.has VAR_RANGE then
          if pVT.valueOf range.minimum ≤ z ∧ z ≤ pVT.valueOf range.maximum then rem range else false
        else valid) = true ↔ valid = true ∧ Checked undef pVT z := by
  unfold Checked
  cases hrange : pVT.range with
  | none => simp
  | some range =>
    by_cases hv : valid = true
    · by_cases hr : pVT.has VAR_RANGE = true
      · by_cases hb : Between pVT range z
        · have hrem' := hrem range hrange hb
          have hb' : pVT.valueOf range.minimum ≤ z ∧ z ≤ pVT.valueOf range.maximum := hb
          simp [hv, hr, hb', hrem', hb]
        · have hb' : ¬(pVT.valueOf range.minimum ≤ z ∧ z ≤ pVT.valueOf range.maximum) := hb
          simp [hv, hr, hb', hb]
      · simp [hv, hr]
    · simp [hv]

/-- What `ValidateInteger` takes of an unsigned type. -/
theorem validateInteger_unsigned (hu : pVT.isUnsigned = true) :
    validateInteger undef value pVT = true ↔ ∃ z, ReadsAs pVT value z ∧ InType pVT z ∧ Checked undef pVT z := by
  have hval : ∀ s, pVT.valueOf s = ((strtoulEnd s).1 : ℤ) := fun s => if_pos hu
  have hreads : ∀ z, ReadsAs pVT value z ↔ z = (strtoulEnd value).1 ∧ (strtoulEnd value).2 = some [] := by
    intro z
    unfold ReadsAs
    rw [if_pos hu, Prod.ext_iff]
    refine ⟨fun ⟨⟨hz, hend⟩, hpos⟩ => ⟨by omega, hend⟩, fun ⟨hz, hend⟩ => ⟨⟨by omega, hend⟩, by omega⟩⟩
  have hrem : ∀ range ∈ pVT.range, Between pVT range (strtoulEnd value).1 →
      ((if (strtoulEnd range.step).1 = 0 then undef
        else decide (((strtoulEnd value).1 - (strtoulEnd range.minimum).1) % (strtoulEnd range.step).1 = 0)) = true ↔
      pVT.valueOf range.step ∣ ((strtoulEnd value).1 : ℤ) - pVT.valueOf range.minimum ∧
          ¬Undefined pVT range (strtoulEnd value).1 ∨
        undef = true ∧ Undefined pVT range (strtoulEnd value).1) := by
    intro range _ hb
    have hle : (strtoulEnd range.minimum).1 ≤ (strtoulEnd value).1 := by
      have hmin := hb.1
      rw [hval] at hmin
      exact_mod_cast hmin
    have hundef : Undefined pVT range (strtoulEnd value).1 ↔ (strtoulEnd range.step).1 = 0 := by
      unfold Undefined
      rw [hval, hu]
      simp
    rw [hundef, hval, hval, ← Nat.cast_sub hle, Int.natCast_dvd_natCast]
    by_cases hstep : (strtoulEnd range.step).1 = 0
    · simp [hstep]
    · simp [hstep, Nat.dvd_iff_mod_eq_zero]
  have hcheck := @checked_iff pVT undef
    (if (strtoulEnd value).2 ≠ some [] then false
      else if pVT.has VAR_UBYTE then decide ((strtoulEnd value).1 ≤ 255)
      else if pVT.has VAR_USHORT then decide ((strtoulEnd value).1 ≤ 65535)
      else if pVT.has VAR_ULONG then decide ((strtoulEnd value).1 ≤ 2 ^ 32 - 1) else false) _ _ hrem
  simp only [hval, Nat.cast_le] at hcheck
  unfold validateInteger
  rw [if_pos hu]
  apply hcheck.trans
  by_cases hend : (strtoulEnd value).2 = some []
  · rw [if_neg (not_not.mpr hend), ← inType_unsigned hu]
    simp [hreads, hend]
  · rw [if_pos hend]
    simp [hreads, hend]

/-- What it takes of a signed type. -/
theorem validateInteger_signed (hu : pVT.isUnsigned = false) :
    validateInteger undef value pVT = true ↔
      pVT.isLong = false ∧ ∃ z, ReadsAs pVT value z ∧ InType pVT z ∧ Checked undef pVT z := by
  have hnot : ¬pVT.isUnsigned = true := by
    rw [hu]
    exact Bool.false_ne_true
  have hval : ∀ s, pVT.valueOf s = (strtolEnd s).1 := fun s => if_neg hnot
  have hreads : ∀ z, ReadsAs pVT value z ↔ z = (strtolEnd value).1 ∧ (strtolEnd value).2 = some [] := by
    intro z
    unfold ReadsAs
    rw [if_neg hnot, Prod.ext_iff]
    dsimp only
    rw [eq_comm]
  have hrem : ∀ range ∈ pVT.range, Between pVT range (strtolEnd value).1 →
      ((if (strtolEnd range.step).1 = 0 ∨ 2 ^ 31 ≤ (strtolEnd value).1 - (strtolEnd range.minimum).1 then undef
        else decide (((strtolEnd value).1 - (strtolEnd range.minimum).1).tmod (strtolEnd range.step).1 = 0)) = true ↔
      pVT.valueOf range.step ∣ (strtolEnd value).1 - pVT.valueOf range.minimum ∧
          ¬Undefined pVT range (strtolEnd value).1 ∨
        undef = true ∧ Undefined pVT range (strtolEnd value).1) := by
    intro range _ _
    have hundef : Undefined pVT range (strtolEnd value).1 ↔
        (strtolEnd range.step).1 = 0 ∨ 2 ^ 31 ≤ (strtolEnd value).1 - (strtolEnd range.minimum).1 := by
      unfold Undefined
      rw [hval, hval, hu]
      simp
    rw [hundef, hval, hval]
    by_cases hstep : (strtolEnd range.step).1 = 0 ∨ 2 ^ 31 ≤ (strtolEnd value).1 - (strtolEnd range.minimum).1
    · rw [if_pos hstep]
      simp only [hstep, not_true_eq_false, and_false, false_or, and_true]
    · rw [if_neg hstep]
      simp only [hstep, not_false_eq_true, and_true, and_false, or_false, decide_eq_true_eq]
      exact Int.dvd_iff_tmod_eq_zero.symm
  have hcheck := @checked_iff pVT undef
    (if (strtolEnd value).2 ≠ some [] then false
      else if pVT.has VAR_BYTE then decide (-128 ≤ (strtolEnd value).1 ∧ (strtolEnd value).1 ≤ 127)
      else if pVT.has VAR_SHORT then decide (-32768 ≤ (strtolEnd value).1 ∧ (strtolEnd value).1 ≤ 32767)
      else if pVT.has VAR_ULONG then decide (-2 ^ 31 ≤ (strtolEnd value).1 ∧ (strtolEnd value).1 ≤ 2 ^ 31 - 1)
      else false) _ _ hrem
  simp only [hval] at hcheck
  unfold validateInteger
  rw [if_neg hnot]
  apply hcheck.trans
  by_cases hend : (strtolEnd value).2 = some []
  · rw [if_neg (not_not.mpr hend), ← inType_signed hu]
    simp [hreads, hend, and_assoc]
  · rw [if_pos hend]
    simp [hreads, hend]

/-- What `ValidateInteger` takes. -/
theorem validateInteger_iff :
    validateInteger undef value pVT = true ↔
      pVT.isLong = false ∧ ∃ z, ReadsAs pVT value z ∧ InType pVT z ∧ Checked undef pVT z := by
  cases hu : pVT.isUnsigned with
  | true =>
    have hlong : pVT.isLong = false := by simp [VarTemplate.isLong, hu]
    rw [validateInteger_unsigned hu]
    exact ⟨fun h => ⟨hlong, h⟩, fun h => h.2⟩
  | false => exact validateInteger_signed hu

/-- A numeral is read as it should be. -/
theorem reads_of_isNumeral (hlong : pVT.isLong = false) (hnum : IsNumeral (!pVT.isUnsigned) value z)
    (htype : InType pVT z) : ReadsAs pVT value z := by
  unfold ReadsAs
  cases hu : pVT.isUnsigned with
  | true =>
    rw [hu] at hnum
    obtain ⟨neg, n, hn, hz, hneg⟩ := number_of_isNumeral hnum
    cases hneg rfl
    have hpos : 0 ≤ z := by
      rw [hz]
      exact Int.natCast_nonneg n
    rw [if_pos rfl]
    refine ⟨strtoulEnd_of_isNumeral hnum ?_, hpos⟩
    have hle := (inType_unsigned hu z.toNat).mp (by rwa [Int.toNat_of_nonneg hpos])
    split_ifs at hle <;> simp at hle <;> omega
  | false =>
    rw [hu] at hnum
    rw [if_neg Bool.false_ne_true]
    have hle := (inType_signed hu z).mp ⟨hlong, htype⟩
    apply strtolEnd_of_isNumeral hnum
    · split_ifs at hle <;> simp at hle <;> omega
    · split_ifs at hle <;> simp at hle <;> omega

theorem ReadsAs.unique {z' : ℤ} (h : ReadsAs pVT value z) (h' : ReadsAs pVT value z') : z = z' := by
  unfold ReadsAs at h h'
  split_ifs at h h' with hu
  · have heq := (Prod.ext_iff.mp (h.1.symm.trans h'.1)).1
    dsimp only at heq
    omega
  · exact (Prod.ext_iff.mp (h.symm.trans h')).1

/-- What is in the range is taken. -/
theorem InRange.checked (h : InRange pVT z) : Checked true pVT z := by
  intro hr range hrange
  obtain ⟨hb, hdvd⟩ := h hr range hrange
  refine ⟨hb, ?_⟩
  by_cases hundef : Undefined pVT range z
  · exact .inr ⟨rfl, hundef⟩
  · exact .inl ⟨hdvd, hundef⟩

theorem Checked.mono (h : Checked undef pVT z) : Checked true pVT z := by
  intro hr range hrange
  obtain ⟨hb, hrem⟩ := h hr range hrange
  exact ⟨hb, hrem.imp_right fun hundef => ⟨rfl, hundef.2⟩⟩

/-- The value of a VAR_LONG is never taken. -/
def VarTemplate.neverTaken (pVT : VarTemplate) : Bool := !pVT.has VAR_STRING && !pVT.has VAR_BOOL && pVT.isLong

theorem memberOfList_bool : memberOfList value upnpBoolList = true ↔ value = bytes "0" ∨ value = bytes "1" := by
  simp [memberOfList, upnpBoolList]

/-- **What `ValidParam` takes**: what satisfies the template, but for VAR_LONG, and what is misread. -/
theorem validParam_iff :
    validParam true value pVT = true ↔ Satisfies pVT value ∧ pVT.neverTaken = false ∨ Misread pVT value := by
  unfold validParam Satisfies Misread VarTemplate.neverTaken
  by_cases hs : pVT.has VAR_STRING = true
  · simp only [hs, if_true, Bool.false_and, Bool.false_eq_true, if_false, Bool.not_true, and_true, true_iff]
    by_cases hl : pVT.has VAR_LIST = true
    · by_cases hmem : value ∈ pVT.list
      · exact .inl fun _ => hmem
      · exact .inr ⟨hl, hmem⟩
    · exact .inl fun h => absurd h hl
  · by_cases hb : pVT.has VAR_BOOL = true
    · simp only [hs, hb, Bool.false_eq_true, if_false, if_true, memberOfList_bool, Bool.not_true, Bool.and_false,
        Bool.false_and, and_true, or_false]
    · simp only [hs, hb, Bool.false_eq_true, if_false, validateInteger_iff, Bool.not_false, Bool.true_and]
      refine ⟨?_, ?_⟩
      · rintro ⟨hlong, z, hreads, htype, hcheck⟩
        by_cases hgood : IsNumeral (!pVT.isUnsigned) value z ∧ InRange pVT z
        · exact .inl ⟨⟨z, hgood.1, htype, hgood.2⟩, hlong⟩
        · exact .inr ⟨hlong, z, hreads, htype, hcheck, not_and_or.mp hgood⟩
      · rintro (⟨⟨z, hnum, htype, hrange⟩, hlong⟩ | ⟨hlong, z, hreads, htype, hcheck, _⟩)
        · exact ⟨hlong, z, reads_of_isNumeral hlong hnum htype, htype, hrange.checked⟩
        · exact ⟨hlong, z, hreads, htype, hcheck⟩

/-- A misread value does not satisfy its template. -/
theorem Misread.not_satisfies (h : Misread pVT value) : ¬Satisfies pVT value := by
  unfold Misread at h
  unfold Satisfies
  split_ifs at h ⊢
  · exact fun hmem => h.2 (hmem h.1)
  · obtain ⟨hlong, z, hreads, _, _, hbad⟩ := h
    rintro ⟨z', hnum, htype, hrange⟩
    have heq := hreads.unique (reads_of_isNumeral hlong hnum htype)
    subst heq
    exact hbad.elim (fun h => h hnum) fun h => h hrange

theorem Misread.not_neverTaken (h : Misread pVT value) : pVT.neverTaken = false := by
  unfold Misread at h
  unfold VarTemplate.neverTaken
  split_ifs at h with hs
  · rw [hs]
    rfl
  · rw [h.1, Bool.and_false]

theorem validParam_mono (h : validParam undef value pVT = true) : validParam true value pVT = true := by
  unfold validParam at h ⊢
  split_ifs at h ⊢
  · exact h
  · exact h
  · dsimp only at h ⊢
    rw [validateInteger_iff] at h ⊢
    obtain ⟨hlong, z, hreads, htype, hcheck⟩ := h
    exact ⟨hlong, z, hreads, htype, hcheck.mono⟩

/-! ### An action -/

/-- A value that is not taken. -/
def Refused (pVT : VarTemplate) (value : Bytes) : Prop :=
  pVT.neverTaken = true ∨ ¬Satisfies pVT value ∧ ¬Misread pVT value

theorem refused_iff : Refused pVT value ↔ ¬validParam true value pVT = true := by
  rw [validParam_iff]
  unfold Refused
  have hlong : Misread pVT value → pVT.neverTaken = false := Misread.not_neverTaken
  cases hnever : pVT.neverTaken with
  | true =>
    rw [hnever] at hlong
    have hnot : ¬Misread pVT value := fun h => nomatch hlong h
    simp [hnot]
  | false => simp

def Param.isIn (pa : Param) : Prop := pa.flags &&& VAR_IN ≠ 0

variable {vars : ℕ → VarTemplate} {params : List Param} {args : List (Bytes × Bytes)}

theorem invoke_called_iff :
    invoke undef vars params args = .called ↔ ∀ pa ∈ params, pa.isIn →
      ∃ value, getargval pa.name args = some value ∧ validParam undef value (vars pa.related) = true := by
  have hbad : ∀ pa : Param, (pa.flags &&& VAR_IN != 0 && match getargval pa.name args with
      | none => true
      | some value => !validParam undef value (vars pa.related)) = false ↔
      (pa.isIn → ∃ value, getargval pa.name args = some value ∧ validParam undef value (vars pa.related) = true) := by
    intro pa
    unfold Param.isIn
    cases getargval pa.name args with
    | none => simp
    | some value => simp
  unfold invoke
  rw [ite_eq_right_iff]
  simp only [reduceCtorEq, imp_false, Bool.not_eq_true, List.any_eq_false]
  exact forall₂_congr fun pa _ => hbad pa

/-- **When the function is called only with values that satisfy their templates**: if one is misread, then another is
missing or refused. -/
theorem invoke_iff :
    (∀ undef, invoke undef vars params args = .called → ∀ pa ∈ params, pa.isIn →
      ∃ value, getargval pa.name args = some value ∧ Satisfies (vars pa.related) value) ↔
    ((∃ pa ∈ params, pa.isIn ∧ ∃ value, getargval pa.name args = some value ∧ Misread (vars pa.related) value) →
      ∃ pa ∈ params, pa.isIn ∧ ∀ value, getargval pa.name args = some value → Refused (vars pa.related) value) := by
  refine ⟨?_, ?_⟩
  · rintro hgood ⟨pa, hpa, hin, value, hvalue, hmis⟩
    by_contra hnone
    have hcalled : invoke true vars params args = .called := by
      rw [invoke_called_iff]
      intro pa' hpa' hin'
      by_contra hrefused
      apply hnone
      refine ⟨pa', hpa', hin', fun value' hvalue' => refused_iff.mpr fun hvalid => ?_⟩
      exact hrefused ⟨value', hvalue', hvalid⟩
    obtain ⟨value', hvalue', hsat⟩ := hgood true hcalled pa hpa hin
    rw [hvalue] at hvalue'
    cases hvalue'
    exact hmis.not_satisfies hsat
  · intro hcond undef hcalled pa hpa hin
    rw [invoke_called_iff] at hcalled
    obtain ⟨value, hvalue, hvalid⟩ := hcalled pa hpa hin
    refine ⟨value, hvalue, ?_⟩
    rcases validParam_iff.mp (validParam_mono hvalid) with hsat | hmis
    · exact hsat.1
    · obtain ⟨pa', hpa', hin', hrefused⟩ := hcond ⟨pa, hpa, hin, value, hvalue, hmis⟩
      obtain ⟨value', hvalue', hvalid'⟩ := hcalled pa' hpa' hin'
      exact absurd (validParam_mono hvalid') (refused_iff.mp (hrefused value' hvalue'))

/-- ConnectionType of `igd/wanipc.c`. -/
def connectionType : VarTemplate :=
  ⟨VAR_STRING ||| VAR_LIST, [bytes "Unconfigured", bytes "IP_Routed", bytes "IP_Bridged"], none⟩

/-- The parameter of SetConnectionType. -/
def newConnectionType : Param := ⟨bytes "NewConnectionType", 0, VAR_IN⟩

/-- A connection type that is not in the list. -/
theorem type_not_in_list :
    let args := [(newConnectionType.name, bytes "PPPoE")]
    invoke false (fun _ => connectionType) [newConnectionType] args = .called ∧
      getargval newConnectionType.name args = some (bytes "PPPoE") ∧ ¬Satisfies connectionType (bytes "PPPoE") := by
  refine ⟨by decide, by decide, fun h => ?_⟩
  have hlist : bytes "PPPoE" ∈ connectionType.list := h (by decide)
  exact absurd hlist (by decide)

end Upnp
end Router
