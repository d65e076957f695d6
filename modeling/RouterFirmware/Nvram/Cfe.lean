/-
# The boot loader's own image

A set of a name with the boot loader's prefix goes to `cfe_update`: it edits the image that is
embedded in the boot loader, in a copy `cfe_buf` of it. The keyword is not looked up as a variable.
Wherever it stands in the first 8 KB, as a name, as the end of one or in a value, the value is
written one byte behind it, without regard to how long the old value is; the loop then goes on over
what was written. If it stands nowhere the variable is appended behind `len`, and the readers end in
front of that.

`Quiet` says that the places where the keyword stands, other than its own, do no harm. Then what
counts is the one value written in its own place: `Replaceable` is what the image must be for it,
and `cfeUpdate_edits_iff` that it is enough and needed. A value as long as the old one can always be
written so (`replaceable_of_length`).

Not covered: `cfe_init`, which reads the flash and finds the header, and what a write behind the
end of `cfe_buf` does to the kernel.
-/
import RouterFirmware.Nvram.RoundTrip

namespace Router
namespace Nvram

open CMem Bcm

/-! ### `cfe_update` -/

/-- `CFE_NVRAM_END`; `CFE_NVRAM_START` is 0. -/
def cfeNvramEnd : ℕ := 0x1fff

/-- `cfe_nvram_header`, the image at `h`. -/
def cfeNvramHeader (cfeBuf : Mem) (h : ℕ) : Mem := fun i => cfeBuf (h + i)

/-- `header->len`. -/
def cfeLen (cfeBuf : Mem) (h : ℕ) : ℕ := (le32 cfeBuf (h + lenAt)).toNat

/-- `strncmp(&cfe_buf[i], keyword, strlen(keyword)) == 0`. -/
def KeywordAt (cfeBuf : Mem) (keyword : CStr) (i : ℕ) : Prop := bytesAt cfeBuf i keyword.length = keyword.bytes

instance (cfeBuf : Mem) (keyword : CStr) (i : ℕ) : Decidable (KeywordAt cfeBuf keyword i) :=
  inferInstanceAs (Decidable (_ = _))

/-- A turn of the loop: the buffer, and `found`. -/
def cfeTurn (keyword value : CStr) (s : Mem × Bool) (i : ℕ) : Mem × Bool :=
  if KeywordAt s.1 keyword i then (write s.1 (i + keyword.length + 1) value.bytes, true) else s

/-- The loop, in front of `i`. -/
def cfeScan (keyword value : CStr) (cfeBuf : Mem) (i : ℕ) : Mem × Bool :=
  (List.range i).foldl (cfeTurn keyword value) (cfeBuf, false)

/-- The variable appended at `header->len`. -/
def cfeAppend (m : Mem) (h : ℕ) (keyword value : CStr) : Mem :=
  let m := write m (h + cfeLen m h) (entry keyword value)
  put32 m (h + lenAt) (le32 m (h + lenAt) + .ofNat (keyword.length + value.length + 2))

/-- The CRC in its byte. -/
def cfeSeal (m : Mem) (h : ℕ) : Mem :=
  put32 m (h + crcVerInitAt)
    (le32 m (h + crcVerInitAt) &&& 0xffffff00 ||| (nvramCalcCrc (cfeNvramHeader m h)).toUInt32)

/-- `cfe_update(keyword, value)`: the buffer it leaves. -/
def cfeUpdate (cfeBuf : Mem) (h : ℕ) (keyword value : CStr) : Mem :=
  let r := cfeScan keyword value cfeBuf (cfeNvramEnd + 1)
  cfeSeal (if r.2 then r.1 else cfeAppend r.1 h keyword value) h

/-! ### The reader -/

/-- `nvram_buf` with the image, as `early_nvram_init` copies it and `early_nvram_get` ends it. -/
def cfeLoaded (cfeBuf : Mem) (h : ℕ) : Mem :=
  write (write (fun _ => 0) 0 (bytesAt cfeBuf h (max headerSize (roundup (min (cfeLen cfeBuf h) nvramSpace) 4))))
    imageEnd [0, 0]

/-- The value `early_nvram_get` finds for a name in the image. -/
def cfeGet (cfeBuf : Mem) (h : ℕ) (name : CStr) : Option CStr :=
  (earlyScan (cfeLoaded cfeBuf h) name nvramSpace headerSize).map fun p =>
    readStr (cfeLoaded cfeBuf h) p (nvramSpace - p)

/-- The first value of a name among the variables of an image. -/
def valueIn (es : List (CStr × CStr)) (name : CStr) : Option CStr := (es.find? fun e => e.1 = name).map (·.2)

/-- A well-formed image at `h`: its strings are the variables `es`, with a NUL behind them. -/
structure Embedded (cfeBuf : Mem) (h : ℕ) (es : List (CStr × CStr)) : Prop where
  valid : validHeader cfeBuf h = true
  holds : Holds cfeBuf (h + headerSize) (area es ++ [0])
  names : ∀ e ∈ es, (61 : UInt8) ∉ e.1.bytes
  within : headerSize + (area es).length < cfeLen cfeBuf h
  space : cfeLen cfeBuf h ≤ nvramSpace

/-- What `cfe_update` is for: one variable has another value. -/
structure Edited (cfeBuf cfeBuf' : Mem) (h : ℕ) (keyword value : CStr) : Prop where
  formed : ∃ es, Embedded cfeBuf' h es
  new : cfeGet cfeBuf' h keyword = some value
  others : ∀ name ≠ keyword, cfeGet cfeBuf' h name = cfeGet cfeBuf h name

/-- What `early_nvram_get` finds in a flash where `early_nvram_init` comes to this image. -/
theorem earlyGetStr_embedded {flash : Mem} {lim h : ℕ}
    (hfind : (probeOffsets lim ++ [4 * 1024, 1024]).find? (validHeader flash) = some h) (name : CStr) :
    earlyGetStr flash lim (fun _ => 0) name = cfeGet flash h name := by
  have hinit : earlyNvramInit flash lim (fun _ => 0) =
      write (fun _ => 0) 0 (bytesAt flash h (max headerSize (roundup (min (cfeLen flash h) nvramSpace) 4))) := by
    rw [earlyNvramInit, hfind]
    rfl
  unfold earlyGetStr earlyNvramGet
  simp only [not_true_eq_false, if_false, if_true, hinit]
  rfl

/-- The strings end in a NUL. -/
theorem area_last : ∀ {es : List (CStr × CStr)}, es ≠ [] → ∃ l, area es = l ++ [0]
  | [], h => absurd rfl h
  | [e], _ => ⟨e.1.bytes ++ 61 :: e.2.bytes, by simp [area, entry, CStr.withNul]⟩
  | e :: e' :: es, _ => by
    obtain ⟨l, hl⟩ := area_last (List.cons_ne_nil e' es)
    exact ⟨entry e.1 e.2 ++ l, by rw [area_cons, hl, List.append_assoc]⟩

/-- Zeros written where the strings have ended leave them. -/
theorem holds_zeros {m : Mem} {p z : ℕ} {es : List (CStr × CStr)} (h : Holds m p (area es ++ [0]))
    (hz : p + (area es).length < z + 2) : Holds (write m z [0, 0]) p (area es ++ [0]) := by
  have hlen : ([0, 0] : List UInt8).length = 2 := rfl
  rcases Nat.lt_or_ge (p + (area es).length) z with hlt | hge
  · exact holds_write_of_le h (by rw [List.length_append, List.length_singleton]; omega)
  · obtain ⟨hz0, hz1, -⟩ := holds_write_same m z [0, 0]
    obtain ⟨harea, -⟩ := holds_append.mp h
    have hlast : Holds (write m z [0, 0]) (p + (area es).length) [0] := by
      refine ⟨?_, trivial⟩
      rcases Nat.eq_or_lt_of_le hge with heq | hgt
      · rw [← heq]
        exact hz0
      · have hat : p + (area es).length = z + 1 := by omega
        rw [hat]
        exact hz1
    refine holds_append.mpr ⟨?_, hlast⟩
    by_cases hnil : es = []
    · subst hnil
      trivial
    · obtain ⟨l, hl⟩ := area_last hnil
      rw [hl] at harea hge hz ⊢
      rw [List.length_append, List.length_singleton] at hge hz
      obtain ⟨hfront, hnul⟩ := holds_append.mp harea
      rcases Nat.lt_or_ge z (p + l.length + 1) with hin | hout
      · have hat : p + l.length = z := by omega
        refine holds_append.mpr ⟨holds_write_of_le hfront (by omega), ?_, trivial⟩
        rw [hat]
        exact hz0
      · exact holds_write_of_le (holds_append.mpr ⟨hfront, hnul⟩) (by
          rw [List.length_append, List.length_singleton]
          omega)

theorem roundup_ge (x : ℕ) : x ≤ roundup x 4 := by
  unfold roundup
  omega

/-- The strings in `nvram_buf`. -/
theorem Embedded.loaded {cfeBuf : Mem} {h : ℕ} {es : List (CStr × CStr)} (he : Embedded cfeBuf h es) :
    Holds (cfeLoaded cfeBuf h) headerSize (area es ++ [0]) := by
  have hwithin := he.within
  have hspace := he.space
  have hend : imageEnd + 2 = nvramSpace := by decide
  refine holds_zeros ?_ (by omega)
  rw [holds_iff]
  intro i hi
  have hround := roundup_ge (min (cfeLen cfeBuf h) nvramSpace)
  rw [List.length_append, List.length_singleton] at hi
  have hbyte := write_load cfeBuf (fun _ => 0) (p := h) (i := headerSize + i)
    (n := max headerSize (roundup (min (cfeLen cfeBuf h) nvramSpace) 4)) (by omega)
  rw [← Nat.add_assoc] at hbyte
  exact hbyte.trans (holds_iff.mp he.holds i (by simpa using hi))

/-- What the reader finds in a well-formed image. -/
theorem Embedded.get {cfeBuf : Mem} {h : ℕ} {es : List (CStr × CStr)} (he : Embedded cfeBuf h es) (name : CStr) :
    cfeGet cfeBuf h name = valueIn es name := by
  have hwithin := he.within
  have hspace := he.space
  have hsum := sum_values_le es
  exact earlyScan_area name es nvramSpace _ _ he.names he.loaded (by omega) (by omega)

/-! ### The loop -/

section Loop

variable {keyword value : CStr} {cfeBuf : Mem}

theorem cfeScan_succ (i : ℕ) : cfeScan keyword value cfeBuf (i + 1) =
    cfeTurn keyword value (cfeScan keyword value cfeBuf i) i := by
  rw [cfeScan, List.range_succ, List.foldl_append]
  rfl

/-- The keyword stands there. -/
theorem cfeScan_at {i : ℕ} (h : KeywordAt (cfeScan keyword value cfeBuf i).1 keyword i) :
    cfeScan keyword value cfeBuf (i + 1) =
      (write (cfeScan keyword value cfeBuf i).1 (i + keyword.length + 1) value.bytes, true) := by
  rw [cfeScan_succ]
  exact if_pos h

theorem cfeScan_not_at {i : ℕ} (h : ¬KeywordAt (cfeScan keyword value cfeBuf i).1 keyword i) :
    cfeScan keyword value cfeBuf (i + 1) = cfeScan keyword value cfeBuf i := by
  rw [cfeScan_succ]
  exact if_neg h

/-- Once it is found it stays found. -/
theorem found_mono {i j : ℕ} (hij : i ≤ j) (h : (cfeScan keyword value cfeBuf i).2 = true) :
    (cfeScan keyword value cfeBuf j).2 = true := by
  induction j, hij using Nat.le_induction with
  | base => exact h
  | succ j _ ih =>
    by_cases hat : KeywordAt (cfeScan keyword value cfeBuf j).1 keyword j
    · rw [cfeScan_at hat]
    · rw [cfeScan_not_at hat]
      exact ih

/-- Where nothing is found nothing is written. -/
theorem cfeScan_absent : ∀ {i : ℕ}, (cfeScan keyword value cfeBuf i).2 = false →
    (cfeScan keyword value cfeBuf i).1 = cfeBuf
  | 0, _ => rfl
  | i + 1, h => by
    by_cases hat : KeywordAt (cfeScan keyword value cfeBuf i).1 keyword i
    · rw [cfeScan_at hat] at h
      cases h
    · rw [cfeScan_not_at hat] at h ⊢
      exact cfeScan_absent h

/-- Turns that do no harm leave what they could have harmed. -/
theorem cfeScan_harmless {vital : ℕ → Prop} {a b : ℕ} (hab : a ≤ b)
    (h : ∀ i, a ≤ i → i < b → KeywordAt (cfeScan keyword value cfeBuf i).1 keyword i → ∀ j, vital j →
      write (cfeScan keyword value cfeBuf i).1 (i + keyword.length + 1) value.bytes j =
        (cfeScan keyword value cfeBuf i).1 j) :
    ∀ j, vital j → (cfeScan keyword value cfeBuf b).1 j = (cfeScan keyword value cfeBuf a).1 j := by
  induction b, hab using Nat.le_induction with
  | base => exact fun _ _ => rfl
  | succ b hab ih =>
    intro j hj
    have hbefore := ih (fun i hi hib => h i hi (by omega)) j hj
    by_cases hat : KeywordAt (cfeScan keyword value cfeBuf b).1 keyword b
    · rw [cfeScan_at hat]
      exact (h b hab (Nat.lt_succ_self b) hat j hj).trans hbefore
    · rw [cfeScan_not_at hat]
      exact hbefore

end Loop

/-! ### The checksum -/

theorem validHeader_iff (m : Mem) (h : ℕ) : validHeader m h = true ↔
    le32 m h = nvramMagic ∧ nvramCalcCrc (cfeNvramHeader m h) = (le32 m (h + crcVerInitAt)).toUInt8 := by
  unfold validHeader
  simp only [Bool.and_eq_true, beq_iff_eq]
  rfl

theorem and_mask_low (v : UInt32) : (v &&& 0xffffff00).toUInt8 = 0 := by
  rw [UInt32.toUInt8_and]
  exact UInt8.and_zero

theorem and_mask_mask (v : UInt32) : v &&& 0xffffff00 &&& 0xffffff00 = v &&& 0xffffff00 := by
  rw [UInt32.and_assoc, UInt32.and_self]

/-- Outside the word of the CRC nothing changes. -/
theorem cfeSeal_same {m : Mem} {h j : ℕ} (hj : j < h + crcVerInitAt ∨ h + configRefreshAt ≤ j) :
    cfeSeal m h j = m j := by
  have hat : crcVerInitAt + 4 = configRefreshAt := rfl
  unfold cfeSeal put32
  rcases hj with hj | hj
  · exact write_of_lt hj
  · exact write_of_ge (by rw [length_bytes32]; omega)

theorem cfeLen_congr {m m' : Mem} {h : ℕ} (hsame : ∀ j, h + lenAt ≤ j → j < h + crcVerInitAt → m' j = m j) :
    cfeLen m' h = cfeLen m h := by
  unfold cfeLen
  rw [le32_congr hsame]

/-- The image is valid again. -/
theorem cfeSeal_valid {m : Mem} {h : ℕ} (hmagic : le32 m h = nvramMagic) : validHeader (cfeSeal m h) h = true := by
  have hword : ∀ p, p + 4 ≤ crcVerInitAt ∨ configRefreshAt ≤ p → le32 (cfeSeal m h) (h + p) = le32 m (h + p) := by
    intro p hp
    refine le32_congr fun i h1 h2 => cfeSeal_same ?_
    rcases hp with hp | hp
    · exact Or.inl (by omega)
    · exact Or.inr (by omega)
  have hcrc : le32 (cfeSeal m h) (h + crcVerInitAt) =
      (le32 m (h + crcVerInitAt) &&& 0xffffff00 ||| (nvramCalcCrc (cfeNvramHeader m h)).toUInt32) := le32_put32 _ _ _
  rw [validHeader_iff]
  refine ⟨(hword 0 (Or.inl (by decide))).trans hmagic, ?_⟩
  rw [hcrc, or_byte_low _ (and_mask_low _)]
  refine nvramCalcCrc_congr (hword lenAt (Or.inl (by decide))) ?_ (hword configRefreshAt (Or.inr (by decide)))
    (hword configNcdlAt (Or.inr (by decide))) fun i hi _ => ?_
  · show le32 (cfeSeal m h) (h + crcVerInitAt) &&& 0xffffff00 = le32 m (h + crcVerInitAt) &&& 0xffffff00
    rw [hcrc, or_byte_mask, and_mask_mask]
  · have hdata : configRefreshAt ≤ headerSize := by decide
    exact cfeSeal_same (Or.inr (by omega))

/-! ### The variables of an image -/

/-- The keyword's first string stands behind those of `pre` and in front of `post`. -/
structure First (es pre : List (CStr × CStr)) (keyword old : CStr) (post : List (CStr × CStr)) : Prop where
  split : es = pre ++ (keyword, old) :: post
  first : ∀ e ∈ pre, e.1 ≠ keyword

theorem valueIn_cons (e : CStr × CStr) (es : List (CStr × CStr)) (name : CStr) :
    valueIn (e :: es) name = if e.1 = name then some e.2 else valueIn es name := by
  unfold valueIn
  by_cases he : e.1 = name
  · rw [List.find?_cons_of_pos (by simpa using he), if_pos he]
    rfl
  · rw [List.find?_cons_of_neg (by simpa using he), if_neg he]

theorem valueIn_append_of_ne : ∀ {pre : List (CStr × CStr)} {name : CStr} (es : List (CStr × CStr)),
    (∀ e ∈ pre, e.1 ≠ name) → valueIn (pre ++ es) name = valueIn es name
  | [], _, _, _ => rfl
  | e :: pre, name, es, h => by
    rw [List.cons_append, valueIn_cons, if_neg (h e List.mem_cons_self),
      valueIn_append_of_ne es fun x hx => h x (List.mem_cons_of_mem e hx)]

/-- The value of another name does not depend on the keyword's. -/
theorem valueIn_other {keyword v name : CStr} (hn : name ≠ keyword) (tail : List (CStr × CStr)) :
    ∀ pre : List (CStr × CStr), valueIn (pre ++ (keyword, v) :: tail) name = valueIn (pre ++ tail) name
  | [] => by rw [List.nil_append, valueIn_cons, if_neg (Ne.symm hn), List.nil_append]
  | e :: pre => by rw [List.cons_append, List.cons_append, valueIn_cons, valueIn_cons, valueIn_other hn tail pre]

theorem First.value {es pre post : List (CStr × CStr)} {keyword old : CStr} (h : First es pre keyword old post) :
    valueIn es keyword = some old := by
  rw [h.split, valueIn_append_of_ne _ h.first, valueIn_cons, if_pos rfl]

theorem exists_first : ∀ {es : List (CStr × CStr)} {keyword v : CStr}, valueIn es keyword = some v →
    ∃ pre post, First es pre keyword v post
  | e :: es, keyword, v, h => by
    rw [valueIn_cons] at h
    by_cases he : e.1 = keyword
    · rw [if_pos he] at h
      cases h
      subst he
      exact ⟨[], es, rfl, List.forall_mem_nil _⟩
    · rw [if_neg he] at h
      obtain ⟨pre, post, hf⟩ := exists_first h
      exact ⟨e :: pre, post, by rw [hf.split, List.cons_append], List.forall_mem_cons.mpr ⟨he, hf.first⟩⟩

theorem First.unique : ∀ {es pre pre' post post' : List (CStr × CStr)} {keyword old old' : CStr},
    First es pre keyword old post → First es pre' keyword old' post' → pre = pre'
  | _, [], [], _, _, _, _, _, _, _ => rfl
  | _, [], e :: pre', _, _, _, _, _, h, h' => by
    have heq := h.split.symm.trans h'.split
    rw [List.nil_append, List.cons_append, List.cons.injEq] at heq
    exact absurd (congrArg Prod.fst heq.1).symm (h'.first e List.mem_cons_self)
  | _, e :: pre, [], _, _, _, _, _, h, h' => by
    have heq := h.split.symm.trans h'.split
    rw [List.nil_append, List.cons_append, List.cons.injEq] at heq
    exact absurd (congrArg Prod.fst heq.1) (h.first e List.mem_cons_self)
  | _, e :: pre, e' :: pre', _, _, _, _, _, h, h' => by
    have heq := h.split.symm.trans h'.split
    rw [List.cons_append, List.cons_append, List.cons.injEq] at heq
    have hrest := First.unique ⟨rfl, fun x hx => h.first x (List.mem_cons_of_mem e hx)⟩
      ⟨heq.2, fun x hx => h'.first x (List.mem_cons_of_mem e' hx)⟩
    rw [heq.1, hrest]

/-! ### Reading strings twice -/

/-- Up to its first `c` a text can be read in one way. -/
theorem holds_until {m : Mem} {c : UInt8} : ∀ {l l' : List UInt8} {p : ℕ}, c ∉ l → c ∉ l' →
    Holds m p (l ++ [c]) → Holds m p (l' ++ [c]) → l = l'
  | [], [], _, _, _, _, _ => rfl
  | [], b :: l', _, _, hc', h, h' => absurd (h.1.symm.trans h'.1) (List.ne_of_not_mem_cons hc')
  | b :: l, [], _, hc, _, h, h' => absurd (h'.1.symm.trans h.1) (List.ne_of_not_mem_cons hc)
  | b :: l, b' :: l', _, hc, hc', h, h' => by
    rw [h.1.symm.trans h'.1, holds_until (List.not_mem_of_not_mem_cons hc) (List.not_mem_of_not_mem_cons hc') h.2 h'.2]

/-- Where an entry stands: its name and its value, and what is behind it. -/
theorem holds_entry {m : Mem} {p : ℕ} {e : CStr × CStr} {rest : List UInt8} (h : Holds m p (entry e.1 e.2 ++ rest)) :
    Holds m p (e.1.bytes ++ [61]) ∧ Holds m (p + e.1.length + 1) (e.2.bytes ++ [0]) ∧
      Holds m (p + (entry e.1 e.2).length) rest := by
  obtain ⟨hent, hrest⟩ := holds_append.mp h
  obtain ⟨hname, heq, hval⟩ := holds_append.mp hent
  exact ⟨holds_append.mpr ⟨hname, heq, trivial⟩, hval, hrest⟩

theorem ne_zero_of_name {m : Mem} {p : ℕ} {name : CStr} (h : Holds m p (name.bytes ++ [61])) : m p ≠ 0 := by
  intro h0
  cases hb : name.bytes with
  | nil =>
    rw [hb] at h
    exact absurd (h0.symm.trans h.1) (by decide)
  | cons b l =>
    rw [hb] at h
    have hmem : (0 : UInt8) ∈ name.bytes := by
      rw [hb, h0.symm.trans h.1]
      exact List.mem_cons_self
    exact name.nul_notMem hmem

/-- Strings that begin with those of `pre` and the keyword. -/
theorem split_of_holds {m : Mem} {keyword : CStr} (hkey : (61 : UInt8) ∉ keyword.bytes) :
    ∀ {pre es : List (CStr × CStr)} {p : ℕ}, (∀ e ∈ pre, (61 : UInt8) ∉ e.1.bytes) →
    (∀ e ∈ es, (61 : UInt8) ∉ e.1.bytes) → Holds m p (area es ++ [0]) →
    Holds m p (area pre ++ (keyword.bytes ++ [61])) → ∃ v tail, es = pre ++ (keyword, v) :: tail
  | [], [], p, _, _, h, h' => by
    have h0 : m p = 0 := h.1
    rw [area_nil, List.nil_append] at h'
    exact absurd h0 (ne_zero_of_name h')
  | [], e :: es, p, _, hes, h, h' => by
    rw [area_cons, List.append_assoc] at h
    obtain ⟨hname, -, -⟩ := holds_entry h
    have hkeyname := holds_until (hes e List.mem_cons_self) hkey hname h'
    exact ⟨e.2, es, by rw [← CStr.ext_bytes hkeyname, List.nil_append]⟩
  | e :: pre, [], p, _, _, h, h' => by
    have h0 : m p = 0 := h.1
    rw [area_cons, List.append_assoc] at h'
    exact absurd h0 (ne_zero_of_name (holds_entry h').1)
  | e :: pre, e' :: es, p, hpre, hes, h, h' => by
    rw [area_cons, List.append_assoc] at h h'
    obtain ⟨hname, hval, hrest⟩ := holds_entry h
    obtain ⟨hname', hval', hrest'⟩ := holds_entry h'
    have hfst : e'.1 = e.1 := CStr.ext_bytes
      (holds_until (hes e' List.mem_cons_self) (hpre e List.mem_cons_self) hname hname')
    rw [hfst] at hval
    have hsnd : e'.2 = e.2 := CStr.ext_bytes (holds_until e'.2.nul_notMem e.2.nul_notMem hval hval')
    have he : e' = e := Prod.ext hfst hsnd
    subst he
    obtain ⟨v, tail, htail⟩ := split_of_holds hkey (fun x hx => hpre x (List.mem_cons_of_mem _ hx))
      (fun x hx => hes x (List.mem_cons_of_mem _ hx)) hrest hrest'
    exact ⟨v, tail, by rw [htail, List.cons_append]⟩

/-! ### The value in the keyword's own place -/

/-- Where the string behind those of `pre` stands. -/
def placeOf (h : ℕ) (pre : List (CStr × CStr)) : ℕ := h + headerSize + (area pre).length

/-- There is room for the value over the old one: behind it stand a NUL and strings, those of the image or others, that
leave every other variable its value. -/
structure Room (cfeBuf : Mem) (h : ℕ) (es pre : List (CStr × CStr)) (keyword old value : CStr) : Prop where
  long : old.length ≤ value.length
  behind : ∃ tail, (∀ e ∈ tail, (61 : UInt8) ∉ e.1.bytes) ∧
    Holds cfeBuf (placeOf h pre + keyword.length + 1 + value.length) (0 :: (area tail ++ [0])) ∧
    headerSize + (area (pre ++ (keyword, value) :: tail)).length < cfeLen cfeBuf h ∧
    ∀ name ≠ keyword, valueIn (pre ++ tail) name = valueIn es name

section Own

variable {m cfeBuf cfeBuf' : Mem} {h : ℕ} {es pre post tail : List (CStr × CStr)} {keyword old value : CStr}

theorem length_area_own (pre : List (CStr × CStr)) (keyword value : CStr) (tail : List (CStr × CStr)) :
    (area (pre ++ (keyword, value) :: tail)).length =
      (area pre).length + keyword.length + 1 + value.length + 1 + (area tail).length := by
  rw [area_append, area_cons, List.length_append, List.length_append, length_entry]
  dsimp only
  omega

/-- The strings in three parts, with the value in the middle. -/
theorem holds_own : Holds m (h + headerSize) (area (pre ++ (keyword, value) :: tail) ++ [0]) ↔
    Holds m (h + headerSize) (area pre ++ (keyword.bytes ++ [61])) ∧
      Holds m (placeOf h pre + keyword.length + 1) value.bytes ∧
      Holds m (placeOf h pre + keyword.length + 1 + value.length) (0 :: (area tail ++ [0])) := by
  have hparts : area (pre ++ (keyword, value) :: tail) ++ [0] =
      (area pre ++ (keyword.bytes ++ [61])) ++ (value.bytes ++ (0 :: (area tail ++ [0]))) := by
    simp [area_append, area_cons, entry, CStr.withNul]
  have hfront : h + headerSize + (area pre ++ (keyword.bytes ++ [61])).length =
      placeOf h pre + keyword.length + 1 := by
    rw [List.length_append, List.length_append, List.length_singleton, ← Nat.add_assoc, ← Nat.add_assoc]
    rfl
  rw [hparts, holds_append, hfront, @holds_append _ _ value.bytes]
  rfl

/-- Where the strings stay, what counts is the value that is there. -/
theorem edited_same_iff (he : Embedded cfeBuf h es) (he' : Embedded cfeBuf' h es) :
    Edited cfeBuf cfeBuf' h keyword value ↔ valueIn es keyword = some value := by
  constructor
  · intro hed
    rw [← he'.get]
    exact hed.new
  · intro hv
    exact ⟨⟨es, he'⟩, (he'.get keyword).trans hv, fun name _ => (he'.get name).trans (he.get name).symm⟩

/-- Where the value is written in the keyword's place, what counts is the room for it. -/
theorem edited_own_iff (he : Embedded cfeBuf h es) (hf : First es pre keyword old post)
    (hvalid : validHeader cfeBuf' h = true) (hlen : cfeLen cfeBuf' h = cfeLen cfeBuf h)
    (hsame : ∀ j, h + headerSize ≤ j → j < h + cfeLen cfeBuf h →
      cfeBuf' j = write cfeBuf (placeOf h pre + keyword.length + 1) value.bytes j) :
    Edited cfeBuf cfeBuf' h keyword value ↔ Room cfeBuf h es pre keyword old value := by
  have hwithin := he.within
  have hholds := he.holds
  have hplace : placeOf h pre = h + headerSize + (area pre).length := rfl
  have hvlen : value.bytes.length = value.length := rfl
  rw [hf.split, length_area_own] at hwithin
  rw [hf.split] at hholds
  obtain ⟨hfront, hold, -⟩ := holds_own.mp hholds
  have hfrontlen : (area pre ++ (keyword.bytes ++ [61])).length = (area pre).length + keyword.length + 1 := by
    rw [List.length_append, List.length_append, List.length_singleton, ← Nat.add_assoc]
    rfl
  have hfront' : Holds cfeBuf' (h + headerSize) (area pre ++ (keyword.bytes ++ [61])) := by
    refine hfront.congr fun j hj hj' => ?_
    rw [hsame j hj (by omega)]
    exact write_of_lt (by omega)
  have hbehind : ∀ l : List UInt8, headerSize + (area pre).length + keyword.length + 1 + value.length + l.length ≤
      cfeLen cfeBuf h → (Holds cfeBuf' (placeOf h pre + keyword.length + 1 + value.length) l ↔
        Holds cfeBuf (placeOf h pre + keyword.length + 1 + value.length) l) := by
    intro l hl
    have hrest : ∀ j, placeOf h pre + keyword.length + 1 + value.length ≤ j →
        j < placeOf h pre + keyword.length + 1 + value.length + l.length → cfeBuf' j = cfeBuf j := fun j hj hj' => by
      rw [hsame j (by omega) (by omega)]
      exact write_of_ge (by omega)
    exact ⟨fun hh => hh.congr fun j hj hj' => (hrest j hj hj').symm, fun hh => hh.congr hrest⟩
  constructor
  · intro hed
    obtain ⟨es', he'⟩ := hed.formed
    have hpre : ∀ e ∈ pre, (61 : UInt8) ∉ e.1.bytes := fun e hm =>
      he.names e (by rw [hf.split]; exact List.mem_append_left _ hm)
    have hkey : (61 : UInt8) ∉ keyword.bytes :=
      he.names (keyword, old) (by rw [hf.split]; exact List.mem_append_right _ List.mem_cons_self)
    obtain ⟨w, tail, rfl⟩ := split_of_holds hkey hpre he'.names he'.holds hfront'
    have hw : w = value := by
      have hnew := (he'.get keyword).symm.trans hed.new
      rw [valueIn_append_of_ne _ hf.first, valueIn_cons, if_pos rfl] at hnew
      exact Option.some.inj hnew
    subst hw
    have hwithin' := he'.within
    rw [hlen] at hwithin'
    have hlen' := hwithin'
    rw [length_area_own] at hlen'
    have htail := (hbehind (0 :: (area tail ++ [0]))
      (by rw [List.length_cons, List.length_append, List.length_singleton]; omega)).mp (holds_own.mp he'.holds).2.2
    refine ⟨?_, tail, ?_, htail, hwithin', fun name hn => ?_⟩
    · -- a shorter value would have a byte of the old one behind it
      by_contra hlt
      have hbyte := holds_iff.mp hold w.length (Nat.lt_of_not_le hlt)
      have hnul : cfeBuf (placeOf h pre + keyword.length + 1 + w.length) = 0 := htail.1
      exact old.nul_notMem (hnul.symm.trans hbyte ▸ List.getElem_mem _)
    · exact fun e hm => he'.names e (List.mem_append_right _ (List.mem_cons_of_mem _ hm))
    · rw [← valueIn_other hn tail pre, ← he'.get name, hed.others name hn, he.get name]
  · rintro ⟨-, tail, hnames, htail, hwithin', hothers⟩
    have hlen' := hwithin'
    rw [length_area_own] at hlen'
    have hvalue : Holds cfeBuf' (placeOf h pre + keyword.length + 1) value.bytes := by
      refine (holds_write_same cfeBuf _ _).congr fun j hj hj' => hsame j (by omega) (by omega)
    have he' : Embedded cfeBuf' h (pre ++ (keyword, value) :: tail) := by
      refine ⟨hvalid, holds_own.mpr ⟨hfront', hvalue, ?_⟩, ?_, by rw [hlen]; exact hwithin', by rw [hlen]; exact he.space⟩
      · refine (hbehind _ ?_).mpr htail
        rw [List.length_cons, List.length_append, List.length_singleton]
        omega
      · intro e hm
        rcases List.mem_append.mp hm with hm | hm
        · exact he.names e (by rw [hf.split]; exact List.mem_append_left _ hm)
        · rcases List.mem_cons.mp hm with rfl | hm
          · exact he.names (keyword, old) (by rw [hf.split]; exact List.mem_append_right _ List.mem_cons_self)
          · exact hnames e hm
    refine ⟨⟨_, he'⟩, ?_, fun name hn => ?_⟩
    · rw [he'.get, valueIn_append_of_ne _ hf.first, valueIn_cons, if_pos rfl]
    · rw [he'.get, valueIn_other hn, hothers name hn, he.get]

end Own

/-! ### The whole update -/

/-- A byte of the magic, of `len` or of the data up to `len`. -/
def Vital (cfeBuf : Mem) (h j : ℕ) : Prop :=
  h ≤ j ∧ j < h + crcVerInitAt ∨ h + headerSize ≤ j ∧ j < h + cfeLen cfeBuf h

/-- Where the keyword stands in the loop's way other than in its own place, the value written behind it changes none of
these bytes. -/
def Quiet (cfeBuf : Mem) (h : ℕ) (es : List (CStr × CStr)) (keyword value : CStr) : Prop :=
  ∀ i ≤ cfeNvramEnd, (∀ pre old post, First es pre keyword old post → i ≠ placeOf h pre) →
    KeywordAt (cfeScan keyword value cfeBuf i).1 keyword i → ∀ j, Vital cfeBuf h j →
      write (cfeScan keyword value cfeBuf i).1 (i + keyword.length + 1) value.bytes j =
        (cfeScan keyword value cfeBuf i).1 j

/-- The keyword is a variable of the image. There is room for the value in its place, or it has the value already and
stands where the loop does not come. -/
def Replaceable (cfeBuf : Mem) (h : ℕ) (es : List (CStr × CStr)) (keyword value : CStr) : Prop :=
  ∃ pre old post, First es pre keyword old post ∧
    if placeOf h pre ≤ cfeNvramEnd then Room cfeBuf h es pre keyword old value else old = value

section Update

variable {m cfeBuf : Mem} {h : ℕ} {es pre post : List (CStr × CStr)} {keyword old value : CStr}

theorem cfeLen_seal : cfeLen (cfeSeal m h) h = cfeLen m h :=
  cfeLen_congr fun _ _ hj => cfeSeal_same (Or.inl hj)

/-- The strings, sealed. -/
theorem embedded_seal (hmagic : le32 m h = nvramMagic) (hholds : Holds m (h + headerSize) (area es ++ [0]))
    (hnames : ∀ e ∈ es, (61 : UInt8) ∉ e.1.bytes) (hwithin : headerSize + (area es).length < cfeLen m h)
    (hspace : cfeLen m h ≤ nvramSpace) : Embedded (cfeSeal m h) h es where
  valid := cfeSeal_valid hmagic
  holds := by
    have hdata : configRefreshAt ≤ headerSize := by decide
    exact hholds.congr fun j hj _ => cfeSeal_same (Or.inr (by omega))
  names := hnames
  within := by rwa [cfeLen_seal]
  space := by rwa [cfeLen_seal]

theorem Embedded.magic (he : Embedded cfeBuf h es) : le32 cfeBuf h = nvramMagic :=
  ((validHeader_iff cfeBuf h).mp he.valid).1

/-- The magic and `len` where their bytes are the image's. -/
theorem Embedded.header (he : Embedded cfeBuf h es)
    (hsame : ∀ j, h ≤ j → j < h + crcVerInitAt → m j = cfeBuf j) :
    le32 m h = nvramMagic ∧ cfeLen m h = cfeLen cfeBuf h := by
  have hat : 4 ≤ crcVerInitAt := by decide
  constructor
  · rw [← he.magic]
    exact le32_congr fun j h1 h2 => hsame j h1 (by omega)
  · exact cfeLen_congr fun j h1 h2 => hsame j (by omega) h2

/-- A variable that is appended stands behind the end of the strings. -/
theorem Embedded.append (he : Embedded cfeBuf h es)
    (hfit : cfeLen cfeBuf h + keyword.length + value.length + 2 ≤ nvramSpace) :
    Embedded (cfeSeal (cfeAppend cfeBuf h keyword value) h) h es := by
  have hwithin := he.within
  have hhead : lenAt + 4 = crcVerInitAt ∧ crcVerInitAt ≤ headerSize := ⟨rfl, by decide⟩
  have hbefore : ∀ j, j < h + cfeLen cfeBuf h → j < h + lenAt ∨ h + crcVerInitAt ≤ j →
      cfeAppend cfeBuf h keyword value j = cfeBuf j := by
    intro j hj hlen
    have hput : cfeAppend cfeBuf h keyword value j =
        write cfeBuf (h + cfeLen cfeBuf h) (entry keyword value) j := by
      rcases hlen with hlt | hge
      · exact write_of_lt hlt
      · exact write_of_ge (by rw [length_bytes32]; omega)
    rw [hput]
    exact write_of_lt hj
  have hsum : cfeLen (cfeAppend cfeBuf h keyword value) h = cfeLen cfeBuf h + (keyword.length + value.length + 2) := by
    have hword : le32 (write cfeBuf (h + cfeLen cfeBuf h) (entry keyword value)) (h + lenAt) = le32 cfeBuf (h + lenAt) :=
      le32_write_of_disjoint (Or.inl (by omega))
    have hsmall : nvramSpace < 2 ^ 32 := by decide
    have hput : le32 (cfeAppend cfeBuf h keyword value) (h + lenAt) =
        le32 cfeBuf (h + lenAt) + .ofNat (keyword.length + value.length + 2) := by
      rw [← hword]
      exact le32_put32 _ _ _
    have hmod : (keyword.length + value.length + 2) % 2 ^ 32 = keyword.length + value.length + 2 :=
      Nat.mod_eq_of_lt (by omega)
    show (le32 (cfeAppend cfeBuf h keyword value) (h + lenAt)).toNat = _
    rw [hput, UInt32.toNat_add, UInt32.toNat_ofNat', hmod]
    exact Nat.mod_eq_of_lt (by unfold cfeLen at hfit; omega)
  refine embedded_seal ?_ ?_ he.names (by rw [hsum]; omega) (by rw [hsum]; omega)
  · rw [← he.magic]
    exact le32_congr fun j h1 h2 => hbefore j (by omega) (Or.inl h2)
  · refine he.holds.congr fun j hj hj' => hbefore j ?_ (Or.inr (by omega))
    rw [List.length_append, List.length_singleton] at hj'
    omega

/-- The loop comes to the keyword's own place with the bytes as they were, and leaves it with the value there. -/
theorem cfeScan_own (he : Embedded cfeBuf h es) (hquiet : Quiet cfeBuf h es keyword value)
    (hf : First es pre keyword old post) (hplace : placeOf h pre ≤ cfeNvramEnd) :
    (cfeScan keyword value cfeBuf (cfeNvramEnd + 1)).2 = true ∧ ∀ j, Vital cfeBuf h j →
      (cfeScan keyword value cfeBuf (cfeNvramEnd + 1)).1 j =
        write cfeBuf (placeOf h pre + keyword.length + 1) value.bytes j := by
  have hwithin := he.within
  have hholds := he.holds
  have hat : placeOf h pre = h + headerSize + (area pre).length := rfl
  rw [hf.split, length_area_own] at hwithin
  rw [hf.split] at hholds
  obtain ⟨hfront, -⟩ := holds_own.mp hholds
  have hother : ∀ i, i ≠ placeOf h pre → ∀ pre' old' post', First es pre' keyword old' post' → i ≠ placeOf h pre' := by
    intro i hi pre' old' post' hf'
    rw [← First.unique hf hf']
    exact hi
  have hbefore : ∀ j, Vital cfeBuf h j → (cfeScan keyword value cfeBuf (placeOf h pre)).1 j = cfeBuf j :=
    cfeScan_harmless (Nat.zero_le _) fun i _ hi => hquiet i (by omega) (hother i (Nat.ne_of_lt hi))
  have hkey : KeywordAt (cfeScan keyword value cfeBuf (placeOf h pre)).1 keyword (placeOf h pre) := by
    have hhere : Holds cfeBuf (placeOf h pre) keyword.bytes :=
      (holds_append.mp (holds_append.mp hfront).2).1
    have hklen : keyword.bytes.length = keyword.length := rfl
    exact bytesAt_of_holds (hhere.congr fun j hj hj' => hbefore j (Or.inr ⟨by omega, by omega⟩))
  have hturn := cfeScan_at hkey
  have hnext : placeOf h pre + 1 ≤ cfeNvramEnd + 1 := Nat.succ_le_succ hplace
  have hafter : ∀ j, Vital cfeBuf h j → (cfeScan keyword value cfeBuf (cfeNvramEnd + 1)).1 j =
      (cfeScan keyword value cfeBuf (placeOf h pre + 1)).1 j :=
    cfeScan_harmless hnext fun i hi hi' => hquiet i (by omega) (hother i (Nat.ne_of_gt hi))
  refine ⟨found_mono hnext (by rw [hturn]), fun j hj => ?_⟩
  rw [hafter j hj, hturn]
  exact write_congr (s := {j | Vital cfeBuf h j}) hbefore j (Or.inl hj)

/-- What the loop does in the keyword's own place is what counts. -/
theorem cfeUpdate_own_iff (he : Embedded cfeBuf h es) (hquiet : Quiet cfeBuf h es keyword value)
    (hf : First es pre keyword old post) (hplace : placeOf h pre ≤ cfeNvramEnd) :
    Edited cfeBuf (cfeUpdate cfeBuf h keyword value) h keyword value ↔
      Room cfeBuf h es pre keyword old value := by
  obtain ⟨hfound, hscan⟩ := cfeScan_own he hquiet hf hplace
  have hhead : crcVerInitAt ≤ headerSize ∧ configRefreshAt ≤ headerSize := by decide
  have hat : placeOf h pre = h + headerSize + (area pre).length := rfl
  have hupdate : cfeUpdate cfeBuf h keyword value =
      cfeSeal (cfeScan keyword value cfeBuf (cfeNvramEnd + 1)).1 h := by
    unfold cfeUpdate
    simp only [hfound, if_true]
  obtain ⟨hmagic, hlen⟩ := he.header fun j hj hj' =>
    (hscan j (Or.inl ⟨hj, hj'⟩)).trans (write_of_lt (by omega))
  rw [hupdate]
  refine edited_own_iff he hf (cfeSeal_valid hmagic) (cfeLen_seal.trans hlen) fun j hj hj' => ?_
  rw [cfeSeal_same (Or.inr (by omega))]
  exact hscan j (Or.inr ⟨hj, hj'⟩)

/-- If the loop does not come to the keyword's own place, the strings stay. -/
theorem cfeUpdate_kept (he : Embedded cfeBuf h es)
    (hfit : cfeLen cfeBuf h + keyword.length + value.length + 2 ≤ nvramSpace)
    (hquiet : Quiet cfeBuf h es keyword value)
    (hown : ∀ pre old post, First es pre keyword old post → cfeNvramEnd < placeOf h pre) :
    Embedded (cfeUpdate cfeBuf h keyword value) h es := by
  have hscan : ∀ j, Vital cfeBuf h j → (cfeScan keyword value cfeBuf (cfeNvramEnd + 1)).1 j = cfeBuf j :=
    cfeScan_harmless (Nat.zero_le _) fun i _ hi => hquiet i (Nat.le_of_lt_succ hi) fun pre old post hf heq =>
      Nat.not_le.mpr (hown pre old post hf) (heq ▸ Nat.le_of_lt_succ hi)
  unfold cfeUpdate
  cases hfound : (cfeScan keyword value cfeBuf (cfeNvramEnd + 1)).2 with
  | true =>
    obtain ⟨hmagic, hlen⟩ := he.header fun j hj hj' => hscan j (Or.inl ⟨hj, hj'⟩)
    have hwithin := he.within
    simp only [hfound, if_true]
    refine embedded_seal hmagic (he.holds.congr fun j hj hj' => ?_) he.names (by rwa [hlen]) (by rw [hlen]; exact he.space)
    rw [List.length_append, List.length_singleton] at hj'
    exact hscan j (Or.inr ⟨hj, by omega⟩)
  | false =>
    simp only [hfound, Bool.false_eq_true, if_false, cfeScan_absent hfound]
    exact he.append hfit

theorem replaceable_iff_room (hf : First es pre keyword old post) (hplace : placeOf h pre ≤ cfeNvramEnd) :
    Replaceable cfeBuf h es keyword value ↔ Room cfeBuf h es pre keyword old value := by
  constructor
  · rintro ⟨pre', old', post', hf', hr⟩
    have hpre := First.unique hf' hf
    have hold : old' = old := Option.some.inj (hf'.value.symm.trans hf.value)
    subst hpre hold
    rwa [if_pos hplace] at hr
  · intro hr
    exact ⟨pre, old, post, hf, by rwa [if_pos hplace]⟩

theorem replaceable_iff_value
    (hown : ∀ pre old post, First es pre keyword old post → cfeNvramEnd < placeOf h pre) :
    Replaceable cfeBuf h es keyword value ↔ valueIn es keyword = some value := by
  constructor
  · rintro ⟨pre, old, post, hf, hr⟩
    rw [if_neg (Nat.not_le.mpr (hown pre old post hf))] at hr
    rw [← hr]
    exact hf.value
  · intro hv
    obtain ⟨pre, post, hf⟩ := exists_first hv
    exact ⟨pre, value, post, hf, by rw [if_neg (Nat.not_le.mpr (hown pre value post hf))]⟩

end Update

section Seen

variable {cfeBuf : Mem} {h : ℕ} {es pre post : List (CStr × CStr)} {keyword old value : CStr}

/-- A value as long as the old one can take its place. -/
theorem replaceable_of_length (he : Embedded cfeBuf h es) (hf : First es pre keyword old post)
    (hplace : placeOf h pre ≤ cfeNvramEnd) (hlen : old.length = value.length) :
    Replaceable cfeBuf h es keyword value := by
  have hwithin := he.within
  have hholds := he.holds
  rw [hf.split, length_area_own, hlen] at hwithin
  rw [hf.split] at hholds
  obtain ⟨-, -, hbehind⟩ := holds_own.mp hholds
  rw [hlen] at hbehind
  refine ⟨pre, old, post, hf, ?_⟩
  rw [if_pos hplace]
  refine ⟨Nat.le_of_eq hlen, post, fun e hm => ?_, hbehind, ?_, fun name hn => ?_⟩
  · exact he.names e (by rw [hf.split]; exact List.mem_append_right _ (List.mem_cons_of_mem _ hm))
  · rwa [length_area_own]
  · rw [hf.split, valueIn_other hn]

/-- A keyword whose first byte stands nowhere but in its own place, and not in the value, does no harm elsewhere. -/
theorem quiet_of_first_byte {b : UInt8} (hb : keyword.bytes.head? = some b) (hv : b ∉ value.bytes)
    (hbuf : ∀ j, cfeBuf j = b → ∃ pre old post, First es pre keyword old post ∧ j = placeOf h pre) :
    Quiet cfeBuf h es keyword value := by
  have hscan : ∀ i j, (cfeScan keyword value cfeBuf i).1 j = b →
      ∃ pre old post, First es pre keyword old post ∧ j = placeOf h pre := by
    intro i
    induction i with
    | zero => exact hbuf
    | succ i ih =>
      intro j hj
      by_cases hat : KeywordAt (cfeScan keyword value cfeBuf i).1 keyword i
      · rw [cfeScan_at hat] at hj
        unfold write at hj
        dsimp only at hj
        split_ifs at hj with hin
        · rw [List.getD_eq_getElem _ _ (by omega)] at hj
          exact absurd (hj ▸ List.getElem_mem _) hv
        · exact ih j hj
      · rw [cfeScan_not_at hat] at hj
        exact ih j hj
  intro i _ hown hat
  obtain ⟨l, hl⟩ := List.head?_eq_some_iff.mp hb
  have hfirst : (cfeScan keyword value cfeBuf i).1 i = b := by
    unfold KeywordAt CStr.length at hat
    rw [hl, List.length_cons, bytesAt_succ] at hat
    exact (List.cons.inj hat).1
  obtain ⟨pre, old, post, hf, heq⟩ := hscan i i hfirst
  exact absurd heq (hown pre old post hf)

/-- A keyword that stands nowhere is appended, and the reader finds what it found before. -/
theorem cfeGet_appended (he : Embedded cfeBuf h es)
    (hfit : cfeLen cfeBuf h + keyword.length + value.length + 2 ≤ nvramSpace)
    (hno : ∀ i ≤ cfeNvramEnd, ¬KeywordAt cfeBuf keyword i) (name : CStr) :
    cfeGet (cfeUpdate cfeBuf h keyword value) h name = cfeGet cfeBuf h name := by
  have hscan : ∀ n ≤ cfeNvramEnd + 1, cfeScan keyword value cfeBuf n = (cfeBuf, false) := by
    intro n
    induction n with
    | zero => exact fun _ => rfl
    | succ n ih =>
      intro hn
      have hbefore := ih (by omega)
      rw [cfeScan_not_at, hbefore]
      rw [hbefore]
      exact hno n (by omega)
  have hupdate : cfeUpdate cfeBuf h keyword value = cfeSeal (cfeAppend cfeBuf h keyword value) h := by
    unfold cfeUpdate
    rw [hscan _ (le_refl _)]
    rfl
  rw [hupdate, (he.append hfit).get, he.get]

end Seen

/-- An image of one variable. -/
def oneImage : List UInt8 :=
  bytes32 nvramMagic ++ (bytes32 28 ++ (bytes32 158 ++ (bytes32 0 ++ (bytes32 0 ++ entry (.lit "a") (.lit "1")))))

/-- A boot loader of zeros, with the image at 1 KB. -/
def oneDefault : Mem := write (fun _ => 0) 1024 oneImage

theorem embedded_oneDefault : Embedded oneDefault 1024 [(.lit "a", .lit "1")] := by
  have hlen : cfeLen oneDefault 1024 = 28 := by decide +kernel
  refine ⟨by decide +kernel, ?_, by decide, by rw [hlen]; decide, by rw [hlen]; decide⟩
  exact ⟨by decide, by decide, by decide, by decide, by decide, trivial⟩

/-- The bytes of it. -/
theorem oneDefault_byte {b : UInt8} (hb : b ≠ 0) {j : ℕ} (hj : oneDefault j = b) :
    1024 ≤ j ∧ j - 1024 < 24 ∧ oneImage.getD (j - 1024) 0 = b := by
  unfold oneDefault write at hj
  split_ifs at hj with hin
  · have hlen : oneImage.length = 24 := by decide
    exact ⟨hin.1, by omega, hj⟩
  · exact absurd hj.symm hb

end Nvram
end Router
