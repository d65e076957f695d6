/-
# Ethernet addresses as text

`bcm_ether_atoe` and `bcm_ether_ntoa` of `shared/bcmutils.c`, `ether_atoe` and `ether_etoa` of `router/shared/shutils.c`.
Both parsers read six numbers with a `strtoul` to base 16 and look at nothing but where the text ends: a number may have
spaces, a sign, a prefix, any number of digits or none, and any character may follow it.
-/
import RouterFirmware.Bcm.Strtoul
import RouterFirmware.Lib.CMem

namespace Router
namespace Bcm

open CMem CText

/-- `struct ether_addr`. -/
abbrev EtherAddr := Vector UInt8 6

/-! ### Parsing -/

/-- The loop of both parsers, for the number that `strtoul` returns and what it leaves its pointer at: `i` behind the
loop, and the address. -/
def atoeLoop (strtoul : Bytes → UInt8 × Bytes) : ℕ → Bytes → ℕ → EtherAddr → ℕ × EtherAddr
  | 0, _, i, ea => (i, ea)
  | fuel + 1, p, i, ea =>
    let (n, p) := strtoul p
    let ea := ea.set! i n
    let i := i + 1
    match p with
    | [] => (i, ea)
    | _ :: p => if i = 6 then (i, ea) else atoeLoop strtoul fuel p i ea

/-- `bcm_ether_atoe(p, ea)`. -/
def bcmEtherAtoe (p : CStr) (ea : EtherAddr) : Bool × EtherAddr :=
  let (i, ea) := atoeLoop (fun p => ((bcmStrtoul p 16).1.toUInt8, (bcmStrtoul p 16).2)) 6 p.bytes 0 ea
  (i = 6, ea)

/-- `ether_atoe(a, e)`: the address is cleared first. -/
def etherAtoe (a : CStr) : Bool × EtherAddr :=
  let (i, e) := atoeLoop (fun c => (UInt8.ofNat (strtoulIn 16 c).1, (strtoulIn 16 c).2)) 6 a.bytes 0 (Vector.replicate 6 0)
  (i = 6, e)

example : bcmEtherAtoe (.lit "00:e0:18:0a:0B:c") (Vector.replicate 6 0) =
    (true, #v[0x00, 0xe0, 0x18, 0x0a, 0x0b, 0x0c]) := by decide +kernel

/-! ### Printing -/

/-- Octets with `:` between, from 10 on with the letters from `a`. -/
def etherText (a : UInt8) (l : List UInt8) : Bytes := [58].intercalate (l.map (hexByte a))

theorem etherText_cons_cons (a v w : UInt8) (l : List UInt8) :
    etherText a (v :: w :: l) = hexByte a v ++ 58 :: etherText a (w :: l) := by
  unfold etherText
  rw [List.map_cons, List.map_cons, List.intercalate_cons_cons, List.append_assoc, List.singleton_append]

theorem nul_notMem_etherText {a : UInt8} (ha : a = 97 ∨ a = 65) : ∀ l : List UInt8, (0 : UInt8) ∉ etherText a l
  | [] => by simp [etherText]
  | [v] => fun h => by
    have h' : (0 : UInt8) ∈ hexByte a v := by simpa [etherText] using h
    exact absurd (digitIn_hexByte ha v 0 h') (by decide)
  | v :: w :: l => by
    rw [etherText_cons_cons, List.mem_append, List.mem_cons]
    rintro (h | h | h)
    · exact absurd (digitIn_hexByte ha v 0 h) (by decide)
    · exact absurd h (by decide)
    · exact nul_notMem_etherText ha (w :: l) h

/-- `bcm_ether_ntoa(ea, buf)`: the string in `buf`. -/
def bcmEtherNtoa (ea : EtherAddr) : CStr := ⟨etherText 97 ea.toList, nul_notMem_etherText (.inl rfl) _⟩

/-- `ether_etoa(e, a)`. -/
def etherEtoa (e : EtherAddr) : CStr := ⟨etherText 65 e.toList, nul_notMem_etherText (.inr rfl) _⟩

/-! ### What is read as an octet -/

/-- One or two digits, with no digit or prefix going on behind them. -/
def Octet (s : Bytes) (v : UInt8) (rest : Bytes) : Prop :=
  ∃ digits, s = digits ++ rest ∧ (digits.length = 1 ∨ digits.length = 2) ∧ (∀ c ∈ digits, digitIn 16 c = true) ∧
    (∀ c ∈ rest.head?, digitIn 16 c = false ∧ c ≠ 120 ∧ c ≠ 88) ∧ v = UInt8.ofNat (valueIn 16 digits)

/-- A number for `bcm_strtoul`, and its low byte. -/
def BcmOctet (s : Bytes) (v : UInt8) (rest : Bytes) : Prop :=
  ∃ spaces sign pre digits, NumberAt 16 bcmIsspace (bcmPrefix 16) s spaces sign pre digits rest ∧
    v = if sign = [45] then 0 - UInt8.ofNat (valueIn 16 digits) else UInt8.ofNat (valueIn 16 digits)

/-- A number for `strtoul`, and its low byte: it goes to 32 bits, and without a digit nothing is read. -/
def LibcOctet (s : Bytes) (v : UInt8) (rest : Bytes) : Prop :=
  (∃ spaces sign pre digits, NumberAt 16 isSpace (prefixIn 16) s spaces sign pre digits rest ∧ digits ≠ [] ∧
    v = if 2 ^ 32 ≤ valueIn 16 digits then 255
      else if sign = [45] then 0 - UInt8.ofNat (valueIn 16 digits) else UInt8.ofNat (valueIn 16 digits)) ∨
  (∃ spaces sign pre behind, NumberAt 16 isSpace (prefixIn 16) s spaces sign pre [] behind) ∧ v = 0 ∧ rest = s

/-- `bcm_strtoul` reads a number and leaves its pointer behind it. -/
theorem bcmOctet_iff {s rest : Bytes} {v : UInt8} :
    BcmOctet s v rest ↔ ((bcmStrtoul s 16).1.toUInt8, (bcmStrtoul s 16).2) = (v, rest) := by
  have hread := @bcmStrtoul_eq 16 (.inr rfl) s
  rw [show UInt32.ofNat 16 = 16 from rfl] at hread
  rw [hread]
  constructor
  · rintro ⟨spaces, sign, pre, digits, hat, rfl⟩
    rw [hat.readNumber_eq]
    by_cases hs : sign = [45]
    · simp [hs]
    · simp [hs]
  · intro h
    obtain ⟨spaces, sign, pre, digits, rest', hat⟩ := exists_numberAt 16 bcmIsspace (bcmPrefix 16) s
    rw [hat.readNumber_eq] at h
    obtain ⟨rfl, rfl⟩ := Prod.mk.inj h
    refine ⟨spaces, sign, pre, digits, hat, ?_⟩
    by_cases hs : sign = [45]
    · simp [hs]
    · simp [hs]

/-- So does `strtoul`. -/
theorem libcOctet_iff {s rest : Bytes} {v : UInt8} :
    LibcOctet s v rest ↔ (UInt8.ofNat (strtoulIn 16 s).1, (strtoulIn 16 s).2) = (v, rest) := by
  -- what is returned, by the parts that stand in the text
  have hread {spaces sign pre digits rest : Bytes} (hat : NumberAt 16 isSpace (prefixIn 16) s spaces sign pre digits rest) :
      (UInt8.ofNat (strtoulIn 16 s).1, (strtoulIn 16 s).2) = if digits = [] then (0, s)
        else (if 2 ^ 32 ≤ valueIn 16 digits then 255
          else if sign = [45] then 0 - UInt8.ofNat (valueIn 16 digits) else UInt8.ofNat (valueIn 16 digits), rest) := by
    rw [hat.strtoulIn_eq]
    by_cases hnil : digits = []
    · rw [if_pos hnil, if_pos hnil]
      rfl
    · rw [if_neg hnil, if_neg hnil]
      dsimp only
      by_cases hover : 2 ^ 32 ≤ valueIn 16 digits
      · have hbyte : UInt8.ofNat (2 ^ 32 - 1) = 255 := by decide
        rw [if_pos hover, if_pos hover, hbyte]
      · rw [if_neg hover, if_neg hover]
        by_cases hs : sign = [45]
        · rw [if_pos hs, if_pos hs, ofNat_sub_mod (by omega)]
        · rw [if_neg hs, if_neg hs]
  constructor
  · rintro (⟨spaces, sign, pre, digits, hat, hne, rfl⟩ | ⟨⟨spaces, sign, pre, behind, hat⟩, rfl, rfl⟩)
    · rw [hread hat, if_neg hne]
    · rw [hread hat, if_pos rfl]
  · intro h
    obtain ⟨spaces, sign, pre, digits, behind, hat⟩ := exists_numberAt 16 isSpace (prefixIn 16) s
    rw [hread hat] at h
    by_cases hnil : digits = []
    · subst hnil
      obtain ⟨rfl, rfl⟩ := Prod.mk.inj h
      exact .inr ⟨⟨spaces, sign, pre, behind, hat⟩, rfl, rfl⟩
    · rw [if_neg hnil] at h
      obtain ⟨rfl, rfl⟩ := Prod.mk.inj h
      exact .inl ⟨spaces, sign, pre, digits, hat, hnil, rfl⟩

/-- A hexadecimal digit is no space and no sign, and does not begin a prefix's second byte. -/
theorem not_of_digitIn : ∀ c : UInt8, digitIn 16 c = true →
    bcmIsspace c = false ∧ isSpace c = false ∧ (c ≠ 43 ∧ c ≠ 45) ∧ c ≠ 120 ∧ c ≠ 88 :=
  forall_byte.mpr (by decide +kernel)

/-- One or two digits are a number to either library. -/
theorem Octet.numberAt {s rest : Bytes} {v : UInt8} {space : UInt8 → Bool} {hasPrefix : Bytes → Bool}
    (hspace : ∀ c, digitIn 16 c = true → space c = false) (hpre : ∀ s, zeroX s = false → hasPrefix s = false)
    (h : Octet s v rest) : ∃ digits, NumberAt 16 space hasPrefix s [] [] [] digits rest ∧
      (digits.length = 1 ∨ digits.length = 2) ∧ v = UInt8.ofNat (valueIn 16 digits) := by
  obtain ⟨digits, rfl, hlen, hdigits, hrest, rfl⟩ := h
  obtain ⟨d, ds, rfl⟩ := List.exists_cons_of_length_pos (show 0 < digits.length by omega)
  have hd := not_of_digitIn d (hdigits d List.mem_cons_self)
  refine ⟨d :: ds, numberAt_digits hdigits (fun c hc => (hrest c hc).1) ?_ ?_ (hpre _ ?_), hlen, rfl⟩
  · intro c hc
    cases hc
    exact hspace d (hdigits d List.mem_cons_self)
  · intro c hc
    cases hc
    exact hd.2.2.1
  · -- what stands second is a digit or the first byte behind the digits
    have hsecond : ∀ c ∈ (ds ++ rest).head?, c ≠ 120 ∧ c ≠ 88 := by
      intro c hc
      cases ds with
      | nil => exact (hrest c hc).2
      | cons e ds =>
        obtain rfl : e = c := Option.some.inj hc
        exact (not_of_digitIn e (hdigits e (by simp))).2.2.2
    unfold zeroX
    rw [Bool.and_eq_false_iff, Bool.or_eq_false_iff]
    exact .inr ⟨decide_eq_false fun hx => (hsecond 120 hx).1 rfl, decide_eq_false fun hx => (hsecond 88 hx).2 rfl⟩

theorem Octet.bcmOctet {s rest : Bytes} {v : UInt8} (h : Octet s v rest) : BcmOctet s v rest := by
  have hpre : ∀ s, zeroX s = false → bcmPrefix 16 s = false := fun s hs => by rw [bcmPrefix, hs, Bool.and_false]
  obtain ⟨digits, hat, -, rfl⟩ := h.numberAt (fun c hc => (not_of_digitIn c hc).1) hpre
  exact ⟨[], [], [], digits, hat, rfl⟩

theorem Octet.libcOctet {s rest : Bytes} {v : UInt8} (h : Octet s v rest) : LibcOctet s v rest := by
  have hpre : ∀ s, zeroX s = false → prefixIn 16 s = false := fun s hs => by simp [prefixIn, hs]
  obtain ⟨digits, hat, hlen, rfl⟩ := h.numberAt (fun c hc => (not_of_digitIn c hc).2.1) hpre
  have hval := valueIn_lt hat.areDigits
  have hlt : valueIn 16 digits < 2 ^ 32 := by
    rcases hlen with hlen | hlen <;> rw [hlen] at hval <;> omega
  refine .inl ⟨[], [], [], digits, hat, ?_, ?_⟩
  · rintro rfl
    simp at hlen
  · rw [if_neg (by omega)]
    rfl

/-! ### The six octets -/

section Loop

variable {strtoul : Bytes → UInt8 × Bytes} {Reads : Bytes → UInt8 → Bytes → Prop}

theorem take_succ_set {l : List UInt8} {i : ℕ} (v : UInt8) (hi : i < l.length) :
    (l.set i v).take (i + 1) = l.take i ++ [v] := by
  rw [List.take_add_one, List.take_set_of_le le_rfl, List.getElem?_set_self hi, Option.toList_some]

/-- The octets from `i` on, if as many numbers stand there. -/
theorem atoeLoop_of_separated (hreads : ∀ s v rest, Reads s v rest → strtoul s = (v, rest)) :
    ∀ {k : ℕ} {p : Bytes} {i : ℕ} {ea : EtherAddr} {vs : List UInt8}, i + k = 6 → vs.length = k →
      Separated Reads (fun _ => True) p vs →
        (atoeLoop strtoul k p i ea).1 = 6 ∧ (atoeLoop strtoul k p i ea).2.toList = ea.toList.take i ++ vs
  | 0, _, _, _, _, _, hlen, h => absurd (List.length_eq_zero_iff.mp hlen) h.ne_nil
  | k + 1, p, i, ea, _, hi, hlen, h => by
    have hset (v : UInt8) : (ea.set! i v).toList.take (i + 1) = ea.toList.take i ++ [v] := by
      rw [Vector.toList_set!, take_succ_set v (by rw [Vector.length_toList]; omega)]
    cases h with
    | @last _ v rest hr =>
      -- the loop ends, whether or not the text does
      have hloop : atoeLoop strtoul (k + 1) p i ea = (i + 1, ea.set! i v) := by
        have hi6 : i + 1 = 6 := by simp at hlen; omega
        unfold atoeLoop
        rw [hreads _ _ _ hr]
        cases rest with
        | nil => rfl
        | cons c rest => exact if_pos hi6
      have hi6 : i + 1 = 6 := by simp at hlen; omega
      rw [hloop, ← hset, hi6]
      exact ⟨rfl, (List.take_of_length_le (by simp)).symm⟩
    | @more _ v c rest vs hr _ hs =>
      have hvs := List.length_pos_of_ne_nil hs.ne_nil
      have hlen' : vs.length = k := by simpa using hlen
      have ih := @atoeLoop_of_separated hreads k rest (i + 1) (ea.set! i v) vs (by omega) hlen' hs
      have hloop : atoeLoop strtoul (k + 1) p i ea = atoeLoop strtoul k rest (i + 1) (ea.set! i v) := by
        conv_lhs => unfold atoeLoop
        rw [hreads _ _ _ hr]
        exact if_neg (by omega)
      rw [hloop]
      refine ⟨ih.1, ?_⟩
      rw [ih.2, hset, List.append_assoc, List.singleton_append]

/-- What the loop has read when it comes to the end. -/
theorem separated_of_atoeLoop (hreads : ∀ s, Reads s (strtoul s).1 (strtoul s).2) :
    ∀ {k : ℕ} {p : Bytes} {i : ℕ} {ea : EtherAddr}, i + k = 6 → 0 < k → (atoeLoop strtoul k p i ea).1 = 6 →
      ∃ vs, vs.length = k ∧ Separated Reads (fun _ => True) p vs
  | k + 1, p, i, ea, hi, _, h => by
    have hr := hreads p
    unfold atoeLoop at h
    dsimp only at h
    cases hrest : (strtoul p).2 with
    | nil =>
      rw [hrest] at h hr
      exact ⟨[_], by rw [List.length_singleton]; simp at h; omega, .last hr⟩
    | cons c rest =>
      rw [hrest] at h hr
      dsimp only at h
      split_ifs at h with hi6
      · exact ⟨[_], by rw [List.length_singleton]; omega, .last hr⟩
      · obtain ⟨vs, hlen, hs⟩ := separated_of_atoeLoop hreads (by omega) (by omega) h
        exact ⟨_ :: vs, by rw [List.length_cons, hlen], .more hr trivial hs⟩

/-- The loop comes to the end for six numbers, and these are then the address. -/
theorem atoeLoop_iff (hreads : ∀ s v rest, Reads s v rest ↔ strtoul s = (v, rest)) (p : Bytes) (old : EtherAddr) :
    ((atoeLoop strtoul 6 p 0 old).1 = 6 ↔ ∃ ea : EtherAddr, Separated Reads (fun _ => True) p ea.toList) ∧
      ∀ ea : EtherAddr, Separated Reads (fun _ => True) p ea.toList → atoeLoop strtoul 6 p 0 old = (6, ea) := by
  have hend (ea : EtherAddr) (h : Separated Reads (fun _ => True) p ea.toList) : atoeLoop strtoul 6 p 0 old = (6, ea) := by
    obtain ⟨hi, hea⟩ := @atoeLoop_of_separated _ _ (fun s v rest => (hreads s v rest).mp) 6 p 0 old ea.toList rfl (by simp) h
    rw [List.take_zero, List.nil_append] at hea
    exact Prod.ext hi (Vector.toList_inj.mp hea)
  refine ⟨⟨fun h => ?_, fun ⟨ea, h⟩ => by rw [hend ea h]⟩, hend⟩
  obtain ⟨vs, hlen, hs⟩ := separated_of_atoeLoop (fun s => (hreads s _ _).mpr rfl) rfl (by decide) h
  exact ⟨⟨vs.toArray, hlen⟩, hs⟩

end Loop

/-- What is printed is octets. -/
theorem separated_etherText {a : UInt8} (ha : a = 97 ∨ a = 65) : ∀ {l : List UInt8}, l ≠ [] →
    Separated Octet (· = 58) (etherText a l) l
  | [], h => absurd rfl h
  | [v], _ => by
    refine @Separated.last _ _ _ v [] ⟨hexByte a v, ?_, .inr rfl, digitIn_hexByte ha v, by simp, ?_⟩
    · simp [etherText]
    · rw [valueIn_hexByte ha, UInt8.ofNat_toNat]
  | v :: w :: l, _ => by
    rw [etherText_cons_cons]
    refine @Separated.more _ _ _ v 58 _ _ ⟨hexByte a v, rfl, .inr rfl, digitIn_hexByte ha v, ?_, ?_⟩ rfl
      (separated_etherText ha (List.cons_ne_nil w l))
    · intro c hc
      cases hc
      decide
    · rw [valueIn_hexByte ha, UInt8.ofNat_toNat]

theorem bcmEtherAtoe_spec (p : CStr) (old : EtherAddr) :
    ((bcmEtherAtoe p old).1 = true ↔ ∃ ea : EtherAddr, Separated BcmOctet (fun _ => True) p.bytes ea.toList) ∧
      ∀ ea : EtherAddr, Separated BcmOctet (fun _ => True) p.bytes ea.toList → bcmEtherAtoe p old = (true, ea) := by
  have hloop := atoeLoop_iff (fun s v rest => @bcmOctet_iff s rest v) p.bytes old
  refine ⟨?_, fun ea h => ?_⟩
  · rw [← hloop.1]
    exact decide_eq_true_iff
  · rw [bcmEtherAtoe, hloop.2 ea h]
    rfl

theorem etherAtoe_spec (a : CStr) :
    ((etherAtoe a).1 = true ↔ ∃ e : EtherAddr, Separated LibcOctet (fun _ => True) a.bytes e.toList) ∧
      ∀ e : EtherAddr, Separated LibcOctet (fun _ => True) a.bytes e.toList → etherAtoe a = (true, e) := by
  have hloop := atoeLoop_iff (fun s v rest => @libcOctet_iff s rest v) a.bytes (Vector.replicate 6 0)
  refine ⟨?_, fun e h => ?_⟩
  · rw [← hloop.1]
    exact decide_eq_true_iff
  · rw [etherAtoe, hloop.2 e h]
    rfl

/-- **Which texts are read as addresses**, and as which: six numbers, each but the last with some character behind it.
Octets with `:` between them are, and so a printed address is read as it was. -/
theorem etherAtoe_iff (p : CStr) (old : EtherAddr) :
    ((bcmEtherAtoe p old).1 = true ↔ ∃ ea : EtherAddr, Separated BcmOctet (fun _ => True) p.bytes ea.toList) ∧
      (∀ ea : EtherAddr, Separated BcmOctet (fun _ => True) p.bytes ea.toList → bcmEtherAtoe p old = (true, ea)) ∧
      (∀ ea : EtherAddr, Separated Octet (· = 58) p.bytes ea.toList → bcmEtherAtoe p old = (true, ea)) ∧
      (∀ ea, bcmEtherAtoe (bcmEtherNtoa ea) old = (true, ea)) ∧
      ((etherAtoe p).1 = true ↔ ∃ ea : EtherAddr, Separated LibcOctet (fun _ => True) p.bytes ea.toList) ∧
      (∀ ea : EtherAddr, Separated LibcOctet (fun _ => True) p.bytes ea.toList → etherAtoe p = (true, ea)) ∧
      (∀ ea : EtherAddr, Separated Octet (· = 58) p.bytes ea.toList → etherAtoe p = (true, ea)) ∧
      ∀ ea, etherAtoe (etherEtoa ea) = (true, ea) := by
  have hne (ea : EtherAddr) : ea.toList ≠ [] := List.ne_nil_of_length_pos (by simp)
  obtain ⟨hbcm, hbcmEq⟩ := bcmEtherAtoe_spec p old
  obtain ⟨hlibc, hlibcEq⟩ := etherAtoe_spec p
  refine ⟨hbcm, hbcmEq, fun ea h => hbcmEq ea (h.mono (fun _ _ _ hr => hr.bcmOctet) fun _ _ => trivial), fun ea => ?_,
    hlibc, hlibcEq, fun ea h => hlibcEq ea (h.mono (fun _ _ _ hr => hr.libcOctet) fun _ _ => trivial), fun ea => ?_⟩
  · have htext := separated_etherText (.inl rfl) (hne ea)
    exact (bcmEtherAtoe_spec _ old).2 ea (htext.mono (fun _ _ _ hr => hr.bcmOctet) fun _ _ => trivial)
  · have htext := separated_etherText (.inr rfl) (hne ea)
    exact (etherAtoe_spec _).2 ea (htext.mono (fun _ _ _ hr => hr.libcOctet) fun _ _ => trivial)

/-- Octets without a `:` between them are an address. -/
theorem etherAtoe_dashes : bcmEtherAtoe (.lit "1-2-3-4-5-6") (Vector.replicate 6 0) = (true, #v[1, 2, 3, 4, 5, 6]) ∧
    etherAtoe (.lit "1-2-3-4-5-6") = (true, #v[1, 2, 3, 4, 5, 6]) := by
  decide +kernel

end Bcm
end Router
