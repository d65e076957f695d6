/-
# The unit in an interface name

`sh_strrspn` and `get_ifname_unit` of `router/shared/shutils.c`. A name is documented to end in digits or in
digits.digits. The search from the end stops when it has come to the first character, which it looks at only in a text
of one character, and then it goes on in front of it, where the run is undefined. So a number that is the whole text
loses its first digit, and one that is a single digit is not read at all; `getIfnameUnit_iff` says which names are read
as documented.
-/
import Mathlib.Data.List.DropRight
import RouterFirmware.Lib.Text

namespace Router
namespace Ifname

open CText CMem

/-! ### The source -/

def digits : Bytes := bytes "0123456789"

/-- The loop of `sh_strrspn`, with the text up to `p` from its end on; the loop ends with one character left. -/
def strrspnLoop (accept : Bytes) : Bytes → ℕ → Option ℕ
  | [], _ => none
  | c :: s, i =>
    if c ∉ accept then some i
    else if s.length = 1 then some (i + 1)
    else strrspnLoop accept s (i + 1)

/-- `sh_strrspn(s, accept)`. -/
def shStrrspn (s accept : Bytes) : Option ℕ := if s = [] then some 0 else strrspnLoop accept s.reverse 0

/-- What `get_ifname_unit` returns and sets. -/
structure Answer where
  ret : ℤ
  unit : ℤ
  subunit : ℤ
deriving DecidableEq

/-- `get_ifname_unit` from where the `.NNN` has been chopped off. -/
def getUnit (str : Bytes) (subunit : ℤ) : Option Answer := do
  let len ← shStrrspn str digits
  if len = 0 then some ⟨-1, -1, subunit⟩
  else
    let p := str.length - len
    some ⟨0, atoi (str.drop p), subunit⟩

/-- `get_ifname_unit(ifname, &unit, &subunit)`. -/
def getIfnameUnit (ifname : Bytes) : Option Answer :=
  if ifname.length + 1 > 64 then some ⟨-1, -1, -1⟩
  else do
    let len ← shStrrspn ifname digits
    if len = 0 then some ⟨-1, -1, -1⟩
    else
      let p := ifname.length - len
      let val := atoi (ifname.drop p)
      if p = 0 ∨ ifname.getD (p - 1) 0 ≠ 46 then some ⟨0, val, -1⟩
      else getUnit (ifname.take (p - 1)) val

/-! ### What is documented -/

/-- The number that a text ends in, and what stands in front of it. -/
def number (s : Bytes) : Bytes := s.rtakeWhile isDigit

def before (s : Bytes) : Bytes := s.rdropWhile isDigit

/-- The unit and the subunit of a name. -/
def documented (name : Bytes) : Option (ℤ × ℤ) :=
  if number name = [] then none
  else if (before name).getLast? = some 46 ∧ number (before name).dropLast ≠ [] then
    some (digitsVal (number (before name).dropLast), digitsVal (number name))
  else some (digitsVal (number name), -1)

/-- The name is read as documented. -/
def AsDocumented (name : Bytes) : Prop :=
  ∃ a, getIfnameUnit name = some a ∧ (a.ret = 0 ↔ (documented name).isSome = true) ∧
    ∀ v ∈ documented name, (a.unit, a.subunit) = v

/-! ### The search -/

theorem mem_digits_iff (c : UInt8) : c ∈ digits ↔ isDigit c = true := by
  have hdigits : digits = [48, 49, 50, 51, 52, 53, 54, 55, 56, 57] := by decide
  rw [hdigits, isDigit_iff]
  simp only [List.mem_cons, List.not_mem_nil, or_false, ← UInt8.toNat_inj, UInt8.reduceToNat]
  omega

/-- The digits at the end, but never the first character. -/
theorem strrspnLoop_eq : ∀ (s : Bytes) (i : ℕ), s ≠ [] → strrspnLoop digits s i =
    if s.length = 1 ∧ s.takeWhile isDigit ≠ [] then none
    else some (i + min (s.takeWhile isDigit).length (s.length - 1))
  | [], _, h => absurd rfl h
  | c :: s, i, _ => by
    rw [strrspnLoop]
    cases hc : isDigit c with
    | false =>
      have hout : c ∉ digits := by simp [mem_digits_iff, hc]
      rw [if_pos hout]
      simp [hc]
    | true =>
      have hin : c ∈ digits := (mem_digits_iff c).mpr hc
      rw [if_neg (not_not.mpr hin), List.takeWhile_cons_of_pos hc]
      rcases s with _ | ⟨d, s⟩
      · simp [strrspnLoop]
      · by_cases hs : s = []
        · subst hs
          simp
        · have hlength : 0 < s.length := List.length_pos_iff.mpr hs
          have hone : (d :: s).length ≠ 1 := by simp [hs]
          rw [if_neg hone, strrspnLoop_eq (d :: s) (i + 1) (List.cons_ne_nil d s), if_neg fun h => hone h.1,
            if_neg (by simp)]
          simp only [List.length_cons, Option.some.injEq]
          omega

theorem shStrrspn_eq (s : Bytes) : shStrrspn s digits =
    if s.length = 1 ∧ number s ≠ [] then none else some (min (number s).length (s.length - 1)) := by
  unfold shStrrspn number List.rtakeWhile
  by_cases hs : s = []
  · subst hs
    rfl
  · have hne : s.reverse ≠ [] := by simpa using hs
    rw [if_neg hs, strrspnLoop_eq _ _ hne]
    simp

/-! ### The two parts of a text -/

theorem before_append_number (s : Bytes) : before s ++ number s = s := List.rdropWhile_append_rtakeWhile

theorem isDigit_of_mem_number {s : Bytes} : ∀ c ∈ number s, isDigit c = true := fun _ => List.mem_rtakeWhile_imp

/-- Where the search has stopped. -/
def stop (s : Bytes) : ℕ := s.length - min (number s).length (s.length - 1)

/-- It is where the number starts, unless that is the whole text. -/
theorem stop_of_before {s : Bytes} (h : before s ≠ []) : stop s = (before s).length := by
  unfold stop
  have hpos := List.length_pos_iff.mpr h
  have hlength := congrArg List.length (before_append_number s)
  rw [List.length_append] at hlength
  omega

/-! ### What is read -/

/-- A text that ends in a number of type `int`, which is not all of it unless it begins with a 0. -/
structure Readable (s : Bytes) : Prop where
  ends : number s ≠ []
  fits : digitsVal (number s) < 2 ^ 31
  whole : before s = [] → 2 ≤ s.length ∧ s.head? = some 48

theorem foldl_digits (t : Bytes) (a : ℕ) :
    t.foldl (fun n c => 10 * n + (c.toNat - 48)) a = a * 10 ^ t.length + digitsVal t := by
  induction t generalizing a with
  | nil => simp [digitsVal]
  | cons c t ih =>
    rw [digitsVal, List.foldl_cons, List.foldl_cons, ih, ih, List.length_cons, pow_succ]
    ring

theorem digitsVal_cons (c : UInt8) (t : Bytes) : digitsVal (c :: t) = (c.toNat - 48) * 10 ^ t.length + digitsVal t := by
  rw [digitsVal, List.foldl_cons, foldl_digits, Nat.mul_zero, Nat.zero_add]

theorem atoi_number {t : Bytes} (hne : t ≠ []) (ht : ∀ c ∈ t, isDigit c = true) :
    atoi t = min (digitsVal t : ℤ) (2 ^ 31 - 1) := by
  have h : atoi (t ++ []) = _ := atoi_digits_min hne ht (by simp)
  rwa [List.append_nil] at h

/-- The first digit is lost. -/
theorem atoi_tail_iff {c : UInt8} {t : Bytes} (hne : t ≠ []) (ht : ∀ d ∈ c :: t, isDigit d = true) :
    atoi t = digitsVal (c :: t) ↔ c = 48 ∧ digitsVal (c :: t) < 2 ^ 31 := by
  rw [atoi_number hne fun d hd => ht d (List.mem_cons_of_mem c hd), digitsVal_cons]
  have hpow : 0 < 10 ^ t.length := Nat.pow_pos (by decide)
  constructor
  · intro h
    have hzero : c.toNat - 48 = 0 := by
      by_contra hc
      have hle : 1 * 10 ^ t.length ≤ (c.toNat - 48) * 10 ^ t.length :=
        Nat.mul_le_mul_right _ (Nat.one_le_iff_ne_zero.mpr hc)
      omega
    have hdigit := ht c List.mem_cons_self
    rw [isDigit, Bool.and_eq_true, decide_eq_true_eq, UInt8.le_iff_toNat_le] at hdigit
    have h48 : (48 : UInt8).toNat = 48 := rfl
    rw [hzero] at h ⊢
    exact ⟨UInt8.toNat_inj.mp (by omega), by omega⟩
  · rintro ⟨rfl, h⟩
    have h48 : (48 : UInt8).toNat - 48 = 0 := rfl
    rw [h48] at h ⊢
    omega

/-- What `strtol` makes of the text from where the search has stopped. -/
theorem atoi_drop_iff {s : Bytes} (hends : number s ≠ []) (hone : s.length ≠ 1) :
    atoi (s.drop (stop s)) = digitsVal (number s) ↔ Readable s := by
  by_cases hbefore : before s = []
  · have hs : number s = s := by
      have h := before_append_number s
      rwa [hbefore, List.nil_append] at h
    obtain ⟨c, t, rfl⟩ := List.exists_cons_of_ne_nil (hs ▸ hends)
    have ht : t ≠ [] := by
      rintro rfl
      exact hone rfl
    have hpos := List.length_pos_iff.mpr ht
    have hstop : stop (c :: t) = 1 := by
      rw [stop, hs, List.length_cons]
      omega
    rw [hstop, List.drop_one, List.tail_cons, hs, atoi_tail_iff ht (hs ▸ isDigit_of_mem_number)]
    constructor
    · rintro ⟨rfl, h⟩
      exact ⟨hends, hs.symm ▸ h, fun _ => ⟨by simp; omega, rfl⟩⟩
    · intro h
      exact ⟨Option.some.inj (h.whole hbefore).2, hs ▸ h.fits⟩
  · have hdrop : (before s ++ number s).drop (before s).length = number s := List.drop_left
    rw [before_append_number] at hdrop
    rw [stop_of_before hbefore, hdrop, atoi_number hends isDigit_of_mem_number]
    constructor
    · intro h
      exact ⟨hends, by omega, fun h => absurd h hbefore⟩
    · intro h
      have := h.fits
      omega

theorem length_number_le (s : Bytes) : (number s).length ≤ s.length := (List.rtakeWhile_suffix _ s).length_le

/-- The search finds nothing where there is no number. -/
theorem search_eq_zero_iff {s : Bytes} (hone : ¬(s.length = 1 ∧ number s ≠ [])) :
    min (number s).length (s.length - 1) = 0 ↔ number s = [] := by
  rw [← List.length_eq_zero_iff]
  have hle := length_number_le s
  by_cases hs : number s = []
  · simp [hs]
  · have hpos := List.length_pos_iff.mpr hs
    have hne : s.length ≠ 1 := fun h => hone ⟨h, hs⟩
    omega

/-- The character in front of where the search has stopped. -/
theorem stop_iff {s : Bytes} (hs : number s ≠ []) :
    (stop s = 0 ∨ s.getD (stop s - 1) 0 ≠ 46) ↔ (before s).getLast? ≠ some 46 := by
  have hpos := (List.length_pos_iff.mpr hs).trans_le (length_number_le s)
  rw [or_iff_right (by unfold stop; omega)]
  by_cases hbefore : before s = []
  · have hall : number s = s := by
      have h := before_append_number s
      rwa [hbefore, List.nil_append] at h
    obtain ⟨c, t, rfl⟩ := List.exists_cons_of_ne_nil (hall ▸ hs)
    have hdigit : isDigit c = true := isDigit_of_mem_number c (by rw [hall]; exact List.mem_cons_self)
    have hzero : stop (c :: t) - 1 = 0 := by
      simp [stop, hall]
    rw [hbefore, hzero, List.getD_cons_zero]
    refine iff_of_true ?_ (by simp)
    rintro rfl
    exact absurd hdigit (by decide)
  · obtain ⟨m, c, hm⟩ := List.eq_nil_or_concat (before s) |>.resolve_left hbefore
    have hget : s.getD ((m.concat c).length - 1) 0 = c := by
      rw [← before_append_number s, hm]
      simp
    rw [stop_of_before hbefore, hm, hget]
    simp

theorem getUnit_eq (m : Bytes) (subunit : ℤ) : getUnit m subunit =
    if m.length = 1 ∧ number m ≠ [] then none
    else if number m = [] then some ⟨-1, -1, subunit⟩
    else some ⟨0, atoi (m.drop (stop m)), subunit⟩ := by
  unfold getUnit
  rw [shStrrspn_eq]
  split_ifs with hone hm
  · rfl
  · simp [hm]
  · rw [Option.bind_eq_bind, Option.bind_some, if_neg (mt (search_eq_zero_iff hone).mp hm)]
    rfl

theorem getIfnameUnit_eq {s : Bytes} (hlong : s.length < 64) : getIfnameUnit s =
    if s.length = 1 ∧ number s ≠ [] then none
    else if number s = [] then some ⟨-1, -1, -1⟩
    else if (before s).getLast? ≠ some 46 then some ⟨0, atoi (s.drop (stop s)), -1⟩
    else getUnit (before s).dropLast (atoi (s.drop (stop s))) := by
  unfold getIfnameUnit
  rw [if_neg (by omega), shStrrspn_eq]
  split_ifs with hone hs hdot
  · rfl
  · simp [hs]
  · rw [Option.bind_eq_bind, Option.bind_some, if_neg (mt (search_eq_zero_iff hone).mp hs)]
    exact if_pos ((stop_iff hs).mpr hdot)
  · rw [Option.bind_eq_bind, Option.bind_some, if_neg (mt (search_eq_zero_iff hone).mp hs)]
    have hbefore : before s ≠ [] := by
      rintro h
      rw [h] at hdot
      exact hdot (by simp)
    have htake : s.take (stop s - 1) = (before s).dropLast := by
      have hparts : (before s ++ number s).take ((before s).length - 1) = (before s).take ((before s).length - 1) :=
        List.take_append_of_le_length (Nat.sub_le _ _)
      rw [before_append_number, ← List.dropLast_eq_take] at hparts
      rwa [stop_of_before hbefore]
    refine (if_neg (mt (stop_iff hs).mp hdot)).trans ?_
    show getUnit (s.take (stop s - 1)) _ = _
    rw [htake]
    rfl

/-! ### Which names are read as documented -/

theorem asDocumented_iff {s : Bytes} {v : ℤ × ℤ} (hv : documented s = some v) :
    AsDocumented s ↔ getIfnameUnit s = some ⟨0, v.1, v.2⟩ := by
  unfold AsDocumented
  rw [hv]
  constructor
  · rintro ⟨⟨ret, unit, subunit⟩, ha, hret, hval⟩
    obtain rfl : ret = 0 := hret.mpr rfl
    rw [ha, ← hval v rfl]
  · intro h
    refine ⟨_, h, by simp, ?_⟩
    rintro w ⟨⟩
    rfl

/-- A number of one digit that is the whole text. -/
theorem not_readable {s : Bytes} (hone : s.length = 1) (hs : number s ≠ []) : ¬Readable s := by
  intro h
  have hpos := List.length_pos_iff.mpr hs
  have hlength := congrArg List.length (before_append_number s)
  rw [List.length_append] at hlength
  have hwhole := (h.whole (List.length_eq_zero_iff.mp (by omega))).1
  omega

/-- **The names that are read as documented**: those without a number at the end; and of the others, those shorter than
64 characters whose number is readable, and in front of a dot the other number too. -/
theorem getIfnameUnit_iff (name : CStr) : AsDocumented name.bytes ↔ number name.bytes = [] ∨
    name.length < 64 ∧ Readable name.bytes ∧ ∀ m, before name.bytes = m ++ [46] → Readable m := by
  obtain ⟨s, hnul⟩ := name
  show AsDocumented s ↔ number s = [] ∨ s.length < 64 ∧ Readable s ∧ ∀ m, before s = m ++ [46] → Readable m
  by_cases hs : number s = []
  · -- no number at the end
    refine iff_of_true ⟨⟨-1, -1, -1⟩, ?_, by simp [documented, hs], by simp [documented, hs]⟩ (.inl hs)
    by_cases hlong : s.length < 64
    · rw [getIfnameUnit_eq hlong, if_neg fun h => h.2 hs, if_pos hs]
    · exact if_pos (by omega)
  rw [or_iff_right hs]
  by_cases hlong : s.length < 64
  · rw [and_iff_right hlong]
    by_cases hdot : (before s).getLast? = some 46
    · obtain ⟨m, hm⟩ := List.getLast?_eq_some_iff.mp hdot
      have hbefore : ∀ m', before s = m' ++ [46] → m' = m := fun m' h => List.append_cancel_right (h.symm.trans hm)
      have hall : (∀ m', before s = m' ++ [46] → Readable m') ↔ Readable m :=
        ⟨fun h => h m hm, fun h m' hm' => hbefore m' hm' ▸ h⟩
      have hlength := congrArg List.length (before_append_number s)
      have hone : s.length ≠ 1 := by
        have := List.length_pos_iff.mpr hs
        rw [hm, List.length_append, List.length_append, List.length_singleton] at hlength
        omega
      have hget : getIfnameUnit s = getUnit m (atoi (s.drop (stop s))) := by
        rw [getIfnameUnit_eq hlong, if_neg fun h => hone h.1, if_neg hs, if_neg (not_not.mpr hdot), hm,
          List.dropLast_concat]
      rw [hall]
      by_cases hnum : number m = []
      · -- the text in front of the dot does not end in a number
        have hdoc : documented s = some ((digitsVal (number s) : ℤ), -1) := by
          rw [documented, if_neg hs, if_neg]
          rw [hm, List.dropLast_concat]
          exact fun h => h.2 hnum
        rw [asDocumented_iff hdoc, hget, getUnit_eq, if_neg fun h => h.2 hnum, if_pos hnum]
        refine iff_of_false (by simp) fun h => h.2.ends hnum
      · have hdoc : documented s = some ((digitsVal (number m) : ℤ), (digitsVal (number s) : ℤ)) := by
          rw [documented, if_neg hs, hm, List.dropLast_concat, if_pos ⟨List.getLast?_concat, hnum⟩]
        rw [asDocumented_iff hdoc, hget, getUnit_eq]
        by_cases hmone : m.length = 1
        · rw [if_pos ⟨hmone, hnum⟩]
          exact iff_of_false (by simp) fun h => not_readable hmone hnum h.2
        · rw [if_neg fun h => hmone h.1, if_neg hnum, ← atoi_drop_iff hs hone, ← atoi_drop_iff hnum hmone]
          simp [and_comm]
    · -- one number
      have hdoc : documented s = some ((digitsVal (number s) : ℤ), -1) := by
        rw [documented, if_neg hs, if_neg fun h => hdot h.1]
      have hnone : ∀ m, before s = m ++ [46] → Readable m := by
        intro m hm
        rw [hm] at hdot
        exact absurd List.getLast?_concat hdot
      rw [asDocumented_iff hdoc, getIfnameUnit_eq hlong, and_iff_left hnone]
      by_cases hone : s.length = 1
      · rw [if_pos ⟨hone, hs⟩]
        exact iff_of_false (by simp) (not_readable hone hs)
      · rw [if_neg fun h => hone h.1, if_neg hs, if_pos hdot, ← atoi_drop_iff hs hone]
        simp
  · -- longer than the buffer
    have hdoc : ∃ v, documented s = some v := by
      unfold documented
      rw [if_neg hs]
      split_ifs
      · exact ⟨_, rfl⟩
      · exact ⟨_, rfl⟩
    obtain ⟨v, hv⟩ := hdoc
    have hget : getIfnameUnit s = some ⟨-1, -1, -1⟩ := if_pos (by omega)
    rw [asDocumented_iff hv, hget]
    exact iff_of_false (by simp) fun h => hlong h.1

/-- The name `12` has the unit 2. -/
theorem getIfnameUnit_whole : ¬ ∀ name : CStr, AsDocumented name.bytes := by
  intro h
  obtain ⟨a, ha, -, hval⟩ := h (.lit "12")
  cases ha
  exact absurd (hval (12, -1) (by decide)) (by decide)

end Ifname
end Router
