/-
# SSIDs in ASCII, and back

`char_to_ascii` puts down the text of one byte after the other (`stores`): a
byte that stays as it is, any other as '%' and what `%.02X` prints of a
`char`. That is two digits for ASCII, but eight for a byte from 128 on, of which the
next byte leaves the first two; and the NUL goes one further than the last of them.

`charToAscii_iff` says which inputs can be told from the output.
-/
import RouterFirmware.Httpd.Profile
import RouterFirmware.Lib.Percent

namespace Router
namespace Httpd
namespace Ascii

open CMem CText Percent

/-- What a byte that stays stands for. -/
def Unreserved (x c : UInt8) : Prop := x = c ∧ stays x = true

/-- The output is made of bytes that stay and of `%XX`, and decoding it gives the input. -/
def Reversible (size : ℕ) (input : CStr) : Prop :=
  ∃ out, charToAscii size input = some out ∧ Encodes Unreserved out.bytes input.bytes

/-! ### What is put down -/

/-- The text of a byte, with the NUL of `strcpy`. -/
def text (c : UInt8) : Bytes := if stays c then [c] else 37 :: hexOf c ++ [0]

/-- How far `ptr` goes. -/
def width (c : UInt8) : ℕ := if stays c then 1 else 3

def widthOf (l : Bytes) : ℕ := (l.map width).sum

/-- What the next byte leaves of it. -/
def code (c : UInt8) : Bytes := (text c).take (width c)

/-- The array, when the bytes of `l` have been put down from `p` on. -/
def stores : Mem → ℕ → Bytes → Mem
  | m, _, [] => m
  | m, p, c :: l => stores (write m p (text c)) (p + width c) l

/-- The text of each byte fits. -/
def Fits (size : ℕ) (p : ℕ) (l : Bytes) : Prop :=
  ∀ pre c post, l = pre ++ c :: post → p + widthOf pre + (text c).length ≤ size

@[simp] theorem widthOf_nil : widthOf [] = 0 := rfl

@[simp] theorem widthOf_cons (c : UInt8) (l : Bytes) : widthOf (c :: l) = width c + widthOf l := by
  simp [widthOf]

@[simp] theorem widthOf_append (l l' : Bytes) : widthOf (l ++ l') = widthOf l + widthOf l' := by
  simp [widthOf]

theorem length_hexOf (c : UInt8) : (hexOf c).length = if 128 ≤ c then 8 else 2 := by
  unfold hexOf
  split_ifs <;> rfl

theorem length_text (c : UInt8) :
    (text c).length = if stays c then 1 else if 128 ≤ c then 10 else 4 := by
  unfold text
  split_ifs with h h' <;> simp [length_hexOf, *]

theorem width_le (c : UInt8) : width c ≤ 3 := by
  unfold width
  split_ifs <;> omega

theorem width_le_length (c : UInt8) : width c ≤ (text c).length := by
  rw [length_text, width]
  split_ifs <;> omega

theorem widthOf_le (l : Bytes) : widthOf l ≤ 3 * l.length := by
  induction l with
  | nil => simp
  | cons c l ih =>
    have := width_le c
    simp only [widthOf_cons, List.length_cons]
    omega

theorem length_code (c : UInt8) : (code c).length = width c := by
  rw [code, List.length_take]
  exact min_eq_left (width_le_length c)

/-- No byte of a C string that stays is above ASCII. -/
theorem lt_of_stays {c : UInt8} (h : stays c = true) : c < 128 := by
  have hall : ∀ c : UInt8, stays c = true → c < 128 := forall_byte.mpr (by decide +kernel)
  exact hall c h

theorem asciiStep_eq (size : ℕ) (m : Mem) (p : ℕ) (c : UInt8) : asciiStep size (m, p) c =
    if p + (text c).length ≤ size then some (write m p (text c), p + width c) else none := by
  unfold asciiStep text width
  cases hs : stays c with
  | true =>
    simp only [if_true, List.length_singleton]
    exact if_congr Nat.lt_iff_add_one_le rfl rfl
  | false => simp

theorem fits_cons {size p : ℕ} {c : UInt8} {l : Bytes} :
    Fits size p (c :: l) ↔ p + (text c).length ≤ size ∧ Fits size (p + width c) l := by
  constructor
  · intro h
    refine ⟨by simpa using h [] c l rfl, fun pre x post hl => ?_⟩
    have := h (c :: pre) x post (by rw [hl]; rfl)
    rw [widthOf_cons] at this
    omega
  · rintro ⟨hc, hl⟩ pre x post he
    cases pre with
    | nil =>
      obtain ⟨rfl, -⟩ := List.cons.inj he
      simpa using hc
    | cons y pre =>
      obtain ⟨rfl, he'⟩ := List.cons.inj he
      have := hl pre x post he'
      rw [widthOf_cons]
      omega

/-- The loop puts down the bytes if each fits, and overflows otherwise. -/
theorem foldlM_asciiStep (size : ℕ) : ∀ (l : Bytes) (m : Mem) (p : ℕ),
    (Fits size p l → l.foldlM (asciiStep size) (m, p) = some (stores m p l, p + widthOf l)) ∧
      (¬ Fits size p l → l.foldlM (asciiStep size) (m, p) = none)
  | [], m, p => ⟨fun _ => rfl, fun h => absurd (fun pre _ _ he => by simp at he) h⟩
  | c :: l, m, p => by
    obtain ⟨ih1, ih2⟩ := foldlM_asciiStep size l (write m p (text c)) (p + width c)
    rw [fits_cons, List.foldlM_cons, asciiStep_eq]
    constructor
    · rintro ⟨hc, hl⟩
      rw [if_pos hc]
      have := ih1 hl
      rw [Nat.add_assoc] at this
      exact this
    · intro hno
      split_ifs with hc
      · exact ih2 fun hl => hno ⟨hc, hl⟩
      · rfl

/-! ### What is there in the end -/

theorem stores_of_lt : ∀ (l : Bytes) (m : Mem) (p : ℕ) {i : ℕ}, i < p → stores m p l i = m i
  | [], _, _, _, _ => rfl
  | c :: l, m, p, i, hi => by
    rw [stores, stores_of_lt l _ _ (by omega), write_of_lt hi]

theorem holds_stores : ∀ (l : Bytes) (m : Mem) (p : ℕ), Holds (stores m p l) p (l.flatMap code)
  | [], _, _ => trivial
  | c :: l, m, p => by
    rw [List.flatMap_cons, holds_append, length_code]
    refine ⟨?_, holds_stores l _ _⟩
    have hwrite := holds_write_same m p (text c)
    have htext : text c = code c ++ (text c).drop (width c) := (List.take_append_drop _ _).symm
    rw [htext, holds_append, ← htext] at hwrite
    refine hwrite.1.congr fun i hi hi' => ?_
    rw [length_code] at hi'
    exact stores_of_lt l _ _ hi'

theorem stores_append : ∀ (l l' : Bytes) (m : Mem) (p : ℕ),
    stores m p (l ++ l') = stores (stores m p l) (p + widthOf l) l'
  | [], _, _, _ => rfl
  | c :: l, l', m, p => by
    rw [List.cons_append, stores, stores_append l l', widthOf_cons, Nat.add_assoc]
    rfl

/-- The text of an ASCII byte goes one further than `ptr` at most. -/
theorem length_text_ascii {c : UInt8} (h : c < 128) : (text c).length ≤ width c + 1 := by
  have h' : ¬ 128 ≤ c := UInt8.not_le.mpr h
  rw [length_text, width, if_neg h']
  split_ifs <;> omega

/-- Behind `ptr`, bytes of ASCII leave alone what was there. -/
theorem stores_ascii : ∀ (l : Bytes) (m : Mem) (p : ℕ) {i : ℕ}, (∀ c ∈ l, c < 128) →
    p + widthOf l < i → stores m p l i = m i
  | [], _, _, _, _, _ => rfl
  | c :: l, m, p, i, hl, hi => by
    rw [List.forall_mem_cons] at hl
    rw [widthOf_cons] at hi
    have := length_text_ascii hl.1
    rw [stores, stores_ascii l _ _ hl.2 (by omega), write_of_ge (by omega)]

/-- The text of the last byte is terminated: what is behind it has been written over, or it is
`%XX` and has a NUL. -/
def Covered (post : Bytes) : Prop := 6 ≤ widthOf post ∨ ∃ c ∈ post.getLast?, stays c = false

/-- What `ptr` points to in the end. -/
theorem stores_ptr {l : Bytes} {m : Mem} {p : ℕ} (hl : ∀ c ∈ l, c < 128) :
    stores m p l (p + widthOf l) =
      if ∃ c ∈ l.getLast?, stays c = false then 0 else m (p + widthOf l) := by
  rcases List.eq_nil_or_concat l with rfl | ⟨l, c, rfl⟩
  · simp [stores]
  · rw [List.concat_eq_append] at hl ⊢
    have hc : c < 128 := hl c (by simp)
    have hl' : ∀ x ∈ l, x < 128 := fun x hx => hl x (by simp [hx])
    rw [stores_append, widthOf_append, widthOf_cons, widthOf_nil, Nat.add_zero, stores, stores]
    simp only [List.getLast?_append, List.getLast?_singleton, Option.some_or, Option.mem_some_iff,
      exists_eq_left']
    cases hs : stays c with
    | true =>
      have hw : width c = 1 := by rw [width, if_pos hs]
      have ht : (text c).length = 1 := by rw [length_text, if_pos hs]
      rw [write_of_ge (by omega), stores_ascii l m p hl' (by omega)]
      rfl
    | false =>
      have hw : width c = 3 := by simp [width, hs]
      have hh : (hexOf c).length = 2 := by rw [length_hexOf, if_neg (UInt8.not_le.mpr hc)]
      have ht : text c = 37 :: hexOf c ++ [0] := by simp [text, hs]
      rw [if_pos rfl, hw, ht]
      have hholds := (holds_iff.mp (holds_write_same (stores m p l) (p + widthOf l)
        (37 :: hexOf c ++ [0]))) 3 (by simp [hh])
      rw [Nat.add_assoc] at hholds
      rw [hholds]
      simp [hh]

/-! ### Which inputs can be told -/

/-- A byte that has two digits, or comes out as 255. -/
def Told (c : UInt8) : Prop := c < 128 ∨ c = 255

theorem hexVal_digits : ∀ c : UInt8, stays c = false → c < 128 →
    ∃ a b, hexOf c = [a, b] ∧ hexVal a = some (c.toNat / 16) ∧ hexVal b = some (c.toNat % 16) := by
  have h : ∀ c : UInt8, c < 128 → hexVal ((hexOf c).getD 0 0) = some (c.toNat / 16) ∧
      hexVal ((hexOf c).getD 1 0) = some (c.toNat % 16) := forall_byte.mpr (by decide +kernel)
  intro c _ hc
  obtain ⟨h0, h1⟩ := h c hc
  have hlen : (hexOf c).length = 2 := by rw [length_hexOf, if_neg (UInt8.not_le.mpr hc)]
  obtain ⟨a, b, hab⟩ := List.length_eq_two.mp hlen
  rw [hab] at h0 h1
  exact ⟨a, b, hab, h0, h1⟩

theorem unreserved_percent (c : UInt8) : ¬ Unreserved 37 c := by
  rintro ⟨-, h⟩
  exact absurd h (by decide)

/-- The code of one byte. -/
theorem encodes_code {c : UInt8} {e d : Bytes} :
    Encodes Unreserved (code c ++ e) (c :: d) ↔ Told c ∧ Encodes Unreserved e d := by
  cases hs : stays c with
  | true =>
    have hcode : code c = [c] := by simp [code, text, width, hs]
    have hne : c ≠ 37 := by
      rintro rfl
      exact absurd hs (by decide)
    rw [hcode, List.singleton_append, encodes_plain_iff hne]
    simp [Unreserved, hs, Told, lt_of_stays hs]
  | false =>
    have htext : text c = 37 :: hexOf c ++ [0] := by simp [text, hs]
    have hcode : code c = 37 :: (hexOf c).take 2 := by
      have hlen : 2 ≤ (hexOf c).length := by
        rw [length_hexOf]
        split_ifs <;> omega
      rw [code, htext, width, hs, List.cons_append]
      simp only [Bool.false_eq_true, if_false, List.take_succ_cons, List.cons.injEq, true_and]
      exact List.take_append_of_le_length hlen
    rw [hcode]
    by_cases hc : c < 128
    · obtain ⟨a, b, hab, ha, hb⟩ := hexVal_digits c hs hc
      have hval : UInt8.ofNat (16 * (c.toNat / 16) + c.toNat % 16) = c := by
        rw [Nat.div_add_mod]
        exact UInt8.ofNat_toNat
      rw [hab]
      simp only [List.take_succ_cons, List.take_zero, List.cons_append, List.nil_append]
      rw [encodes_escape_iff unreserved_percent ha hb, hval]
      simp [Told, hc]
    · have hff : (hexOf c).take 2 = [70, 70] := by
        rw [hexOf, if_pos (UInt8.not_lt.mp hc)]
        rfl
      rw [hff]
      simp only [List.cons_append, List.nil_append]
      rw [@encodes_escape_iff _ _ _ unreserved_percent 70 70 c 15 15 (by decide) (by decide)]
      simp [Told, hc]

theorem encodes_codes (tail : Bytes) : ∀ l : Bytes,
    Encodes Unreserved (l.flatMap code ++ tail) l ↔ (∀ c ∈ l, Told c) ∧ tail = []
  | [] => by simp [encodes_nil_right]
  | c :: l => by
    rw [List.flatMap_cons, List.append_assoc, encodes_code, encodes_codes tail l, List.forall_mem_cons, and_assoc]

/-- The text of each byte fits in three bytes for each, and two; but that of a byte above ASCII takes ten. -/
theorem fits_iff {size : ℕ} {l : Bytes} (hsize : 3 * l.length + 2 ≤ size) (htold : ∀ c ∈ l, Told c) :
    Fits size 0 l ↔ ∀ pre post, l = pre ++ 255 :: post → widthOf pre + 10 ≤ size := by
  constructor
  · intro h pre post he
    have := h pre 255 post he
    rw [show (text 255).length = 10 from rfl] at this
    omega
  · intro h pre c post he
    rw [Nat.zero_add]
    rcases htold c (by rw [he]; simp) with hc | rfl
    · have hpre := widthOf_le pre
      have hlen : l.length = pre.length + (post.length + 1) := by rw [he]; simp
      have htext := length_text_ascii hc
      have hwidth := width_le c
      omega
    · exact h pre post he

/-- What lies behind the text of the last byte, in an array of zeros. -/
theorem stores_behind : ∀ (l : Bytes) (m : Mem) (p : ℕ), (∀ i, p + 6 ≤ i → m i = 0) →
    ∀ i, p + widthOf l + 6 ≤ i → stores m p l i = 0
  | [], _, _, hm, i, hi => hm i hi
  | c :: l, m, p, hm, i, hi => by
    rw [widthOf_cons] at hi
    refine stores_behind l _ _ (fun j hj => ?_) i (by omega)
    have hlen : (text c).length ≤ width c + 7 := by
      rw [length_text, width]
      split_ifs <;> omega
    by_cases hlt : j < p + (text c).length
    · -- only the NUL of a long text lies so far behind
      have hj' : p ≤ j := by omega
      have hnul : (text c).getD (j - p) 0 = 0 := by
        have hle : (text c).length ≤ j - p + 1 := by omega
        unfold text at hle ⊢
        split_ifs at hle ⊢ with hs
        · have ht : (text c).length = 1 := by rw [length_text, if_pos hs]
          omega
        · simp only [List.length_append, List.length_cons, List.length_nil] at hle
          rw [List.getD_append_right _ _ _ _ (by simp; omega)]
          generalize j - p - (37 :: hexOf c).length = k
          cases k <;> simp
      rw [write, if_pos ⟨hj', hlt⟩]
      exact hnul
    · have hw : width c ≤ (text c).length := width_le_length c
      rw [write_of_ge (by omega)]
      exact hm j (by omega)

/-- The last byte above ASCII leaves six digits behind `ptr`. -/
theorem stores_long {pre : Bytes} {i : ℕ} (hi : i < 6) :
    stores (fun _ => 0) 0 (pre ++ [255]) (widthOf (pre ++ [255]) + i) ≠ 0 := by
  rw [stores_append, Nat.zero_add, widthOf_append]
  show write _ (widthOf pre) (text 255) (widthOf pre + 3 + i) ≠ 0
  have hholds := (holds_iff.mp (holds_write_same (stores (fun _ => 0) 0 pre) (widthOf pre) (text 255))) (3 + i)
    (by rw [show (text 255).length = 10 from rfl]; omega)
  rw [Nat.add_assoc, hholds]
  have hdigits : ∀ k : Fin 6, (text 255).getD (3 + k.val) 0 ≠ 0 := by decide
  rw [← List.getD_eq_getElem _ 0]
  exact hdigits ⟨i, hi⟩

/-- A list with an element has a last one. -/
theorem exists_last {α : Type} {a : α} : ∀ {l : List α}, a ∈ l → ∃ pre post, l = pre ++ a :: post ∧ a ∉ post := by
  intro l h
  have hrev : a ∈ l.reverse := List.mem_reverse.mpr h
  obtain ⟨post, pre, he, hpost⟩ := List.eq_append_cons_of_mem hrev
  refine ⟨pre.reverse, post.reverse, ?_, fun hmem => hpost (List.mem_reverse.mp hmem)⟩
  have := congrArg List.reverse he
  simpa using this

/-- The output ends with the codes, or a byte of a text that was not written over follows. -/
theorem ptr_eq_zero_iff {l : Bytes} (htold : ∀ c ∈ l, Told c) :
    stores (fun _ => 0) 0 l (widthOf l) = 0 ↔
      ∀ pre post, l = pre ++ 255 :: post → (255 : UInt8) ∉ post → Covered post := by
  by_cases hmem : (255 : UInt8) ∈ l
  · obtain ⟨pre, post, hl, hpost⟩ := exists_last hmem
    have hascii : ∀ c ∈ post, c < 128 := fun c hc =>
      (htold c (by rw [hl]; simp [hc])).resolve_right fun he => hpost (he ▸ hc)
    have hsplit : l = (pre ++ [255]) ++ post := by rw [hl]; simp
    have hval : stores (fun _ => 0) 0 l (widthOf l) = 0 ↔ Covered post := by
      have hptr := @stores_ptr post (stores (fun _ => 0) 0 (pre ++ [255])) (widthOf (pre ++ [255])) hascii
      rw [hsplit, stores_append, widthOf_append _ post, Nat.zero_add, hptr, Covered]
      by_cases hlast : ∃ c ∈ post.getLast?, stays c = false
      · rw [if_pos hlast]
        exact ⟨fun _ => .inr hlast, fun _ => rfl⟩
      · rw [if_neg hlast, or_iff_left hlast]
        by_cases hfar : 6 ≤ widthOf post
        · simp only [hfar, iff_true]
          exact stores_behind _ _ 0 (fun _ _ => rfl) _ (by omega)
        · simp only [hfar, iff_false]
          exact stores_long (by omega)
    rw [hval]
    constructor
    · intro h pre' post' hl' hpost'
      -- there is one last byte only
      have : post' = post := by
        rw [hl] at hl'
        rcases List.append_eq_append_iff.mp hl' with ⟨a, ha, hb⟩ | ⟨a, ha, hb⟩
        · cases a with
          | nil => simpa using hb.symm
          | cons x a =>
            rw [List.cons_append] at hb
            exact absurd (by rw [(List.cons.inj hb).2]; simp) hpost
        · cases a with
          | nil => simpa using hb
          | cons x a =>
            rw [List.cons_append] at hb
            exact absurd (by rw [(List.cons.inj hb).2]; simp) hpost'
      rw [this]
      exact h
    · intro h
      exact h pre post hl hpost
  · have hascii : ∀ c ∈ l, c < 128 := fun c hc =>
      (htold c hc).resolve_right fun he => hmem (he ▸ hc)
    have hptr := @stores_ptr l (fun _ => 0) 0 hascii
    rw [Nat.zero_add] at hptr
    constructor
    · intro _ pre post he
      exact absurd (by rw [he]; simp) hmem
    · intro _
      rw [hptr]
      simp

theorem nul_notMem_code : ∀ c : UInt8, (0 : UInt8) ∉ code c :=
  forall_byte.mpr (by decide +kernel)

/-- The codes of the bytes, and the byte at `ptr` behind them. -/
theorem charToAscii_bytes {size : ℕ} {input : CStr} (hsize : 3 * input.length + 2 ≤ size)
    (hfits : Fits size 0 input.bytes) :
    ∃ out tail, charToAscii size input = some out ∧ out.bytes = input.bytes.flatMap code ++ tail ∧
      (tail = [] ↔ stores (fun _ => 0) 0 input.bytes (widthOf input.bytes) = 0) := by
  have hlen := widthOf_le input.bytes
  rw [CStr.length] at hsize
  have hloop := (foldlM_asciiStep size input.bytes (fun _ => 0) 0).1 hfits
  rw [Nat.zero_add] at hloop
  set m := stores (fun _ => 0) 0 input.bytes with hm
  set p := widthOf input.bytes with hp
  have hcodes : (input.bytes.flatMap code).length = p := by
    rw [List.length_flatMap, hp, widthOf]
    simp [length_code]
  have hholds : Holds (write m (p + 1) [0]) 0 (input.bytes.flatMap code) :=
    holds_write_of_le (holds_stores input.bytes _ 0) (by omega)
  have hnul : (0 : UInt8) ∉ input.bytes.flatMap code := by
    simp only [List.mem_flatMap, not_exists, not_and]
    exact fun c _ => nul_notMem_code c
  have hend : write m (p + 1) [0] (p + 1) = 0 := (holds_write_same m (p + 1) [0]).1
  have hat : write m (p + 1) [0] p = m p := write_of_lt (by omega)
  have hout : charToAscii size input = some (readStr (write m (p + 1) [0]) 0 size) := by
    unfold charToAscii
    rw [hloop]
    exact if_pos (by omega)
  refine ⟨_, if m p = 0 then [] else [m p], hout, ?_, ?_⟩
  · split_ifs with h0
    · rw [List.append_nil]
      refine scan_of_holds hnul (holds_append.mpr ⟨hholds, ?_⟩) (by omega)
      rw [hcodes, Nat.zero_add]
      exact ⟨hat.trans h0, trivial⟩
    · refine scan_of_holds ?_ (holds_append.mpr ⟨holds_append.mpr ⟨hholds, ?_⟩, ?_⟩) ?_
      · simp [hnul, Ne.symm h0]
      · rw [hcodes, Nat.zero_add]
        exact ⟨hat, trivial⟩
      · rw [List.length_append, hcodes, Nat.zero_add]
        exact ⟨hend, trivial⟩
      · rw [List.length_append, hcodes, List.length_singleton]
        omega
  · split_ifs with h0 <;> simp [h0]

/-- An SSID can be told from its text in ASCII if it is of ASCII, up to the bytes 255 that fit in, of which the last
is covered. -/
theorem charToAscii_iff (size : ℕ) (input : CStr) (hsize : 3 * input.length + 2 ≤ size) :
    Reversible size input ↔ (∀ c ∈ input.bytes, c < 128 ∨ c = 255) ∧
      ∀ pre post, input.bytes = pre ++ 255 :: post →
        widthOf pre + 10 ≤ size ∧ ((255 : UInt8) ∉ post → Covered post) := by
  constructor
  · rintro ⟨out, hout, henc⟩
    have hfits : Fits size 0 input.bytes := by
      by_contra hno
      have := (foldlM_asciiStep size input.bytes (fun _ => 0) 0).2 hno
      unfold charToAscii at hout
      rw [this] at hout
      cases hout
    obtain ⟨out', tail, hout', hbytes, htail⟩ := charToAscii_bytes hsize hfits
    cases Option.some.inj (hout.symm.trans hout')
    rw [hbytes, encodes_codes] at henc
    obtain ⟨htold, hnil⟩ := henc
    have hfit := (fits_iff hsize htold).mp hfits
    have hcov := (ptr_eq_zero_iff htold).mp (htail.mp hnil)
    exact ⟨htold, fun pre post he => ⟨hfit pre post he, hcov pre post he⟩⟩
  · rintro ⟨htold, hall⟩
    have hfits := (fits_iff hsize htold).mpr fun pre post he => (hall pre post he).1
    have hcov := (ptr_eq_zero_iff htold).mpr fun pre post he => (hall pre post he).2
    obtain ⟨out, tail, hout, hbytes, htail⟩ := charToAscii_bytes hsize hfits
    refine ⟨out, hout, ?_⟩
    rw [hbytes, encodes_codes]
    exact ⟨htold, htail.mpr hcov⟩

theorem charToAscii_blank : Reversible 20 (.lit "a b") :=
  (charToAscii_iff 20 (.lit "a b") (by decide)).mpr ⟨by decide, fun pre post he => by
    have : (255 : UInt8) ∈ (CStr.lit "a b").bytes := by rw [he]; simp
    exact absurd this (by decide)⟩

/-- A letter with an accent, in UTF-8: of the first byte, the second leaves `%FF`. -/
theorem charToAscii_accent : ¬ (∀ (size : ℕ) (input : CStr), 3 * input.length + 2 ≤ size → Reversible size input) := by
  intro h
  obtain ⟨out, hout, henc⟩ := h 128 ⟨[195, 169], by decide⟩ (by decide)
  have hval : charToAscii 128 ⟨[195, 169], by decide⟩ = some (.lit "%FF%FFF") := by decide +kernel
  cases Option.some.inj (hout.symm.trans hval)
  have hcodes : (CStr.lit "%FF%FFF").bytes = [195, 169].flatMap code ++ bytes "F" := by decide +kernel
  rw [hcodes, encodes_codes] at henc
  rcases henc.1 195 (by simp) with h' | h' <;> exact absurd h' (by decide)

end Ascii
end Httpd
end Router
