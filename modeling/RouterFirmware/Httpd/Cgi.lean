/-
# Form variables

`router/httpd/cgi.c`: `init_cgi` splits a query into assignments and decodes each of them (`unescape`), all in the
buffer of the query, and enters pointers into it into the table that `get_cgi` looks names up in. An escape
makes the assignment two bytes shorter: its tail is moved, with NULs behind it, which the loop over the assignments
skips.

A query that encodes pairs of names and values (`Form`) sets each name to its last value (`getCgi_initCgi`).

The table of `hsearch_r` is a list of entries that does not fill up. The buffer has `size` bytes; what is not
initialised of the variable `c` is an input (`junk`).
-/
import RouterFirmware.Lib.InPlace
import RouterFirmware.Lib.Percent

namespace Router
namespace Httpd
namespace Cgi

open CMem CText Percent

/-! ### C library -/

/-- `strncpy(m + p, m + q, n)`, which copies forward and pads with NULs. -/
def strncpy (m : Mem) (p q n : ℕ) : Mem :=
  write m p (scan m q n ++ List.replicate (n - (scan m q n).length) 0)

/-- `sscanf(s, "%02x", &c)`, as far as `(char) c` goes: blanks are skipped, and a sign counts towards the two
characters. -/
def sscanf02x (s : Bytes) : Option UInt8 :=
  let w := sign ((s.dropWhile isSpace).take 2)
  let digits := w.2.takeWhile fun c => (hexVal c).isSome
  let n := UInt8.ofNat (digits.foldl (fun n c => 16 * n + (hexVal c).getD 0) 0)
  if digits = [] then none else some (if w.1 then 0 - n else n)

/-! ### `cgi.c` -/

/-- The loop of `unescape`, of `n` turns at most. -/
def unescape (size : ℕ) : ℕ → UInt8 → Mem → ℕ → Mem
  | 0, _, m, _ => m
  | n + 1, c, m, s =>
    match strpbrk (bytes "%+") (scan m s (size - s)) with
    | none => m
    | some k =>
      let s := s + k
      if m s = 37 then
        let c := (sscanf02x (scan m (s + 1) (size - (s + 1)))).getD c
        let m := write m s [c]
        unescape size n c (strncpy m (s + 1) (s + 3) (strlen size m (s + 1) + 1)) (s + 1)
      else unescape size n c (write m s [32]) (s + 1)

/-- An entry of the table. -/
structure Entry where
  key : ℕ
  data : ℕ

/-- The buffer of the query and `htab`, which has a table or none. -/
structure State where
  buf : Mem
  htab : Option (List Entry)

/-- `get_cgi(name)`. -/
def getCgi (size : ℕ) (s : State) (name : CStr) : Option CStr := do
  let table ← s.htab
  let ep ← table.find? fun e => readStr s.buf e.key (size - e.key) = name
  some (readStr s.buf ep.data (size - ep.data))

/-- `set_cgi(name, value)` in a table. -/
def setCgi (size : ℕ) (m : Mem) (name value : ℕ) : List Entry → List Entry
  | [] => [⟨name, value⟩]
  | e :: table =>
    if readStr m e.key (size - e.key) = readStr m name (size - name) then { e with data := value } :: table
    else e :: setCgi size m name value table

/-- `while (strsep(&q, "&;")) nel++`, of `n` turns at most. -/
def separate (size : ℕ) : ℕ → Mem → Option ℕ → Mem
  | n + 1, m, some q => separate size n (strsepAt size (bytes "&;") m q).1 (strsepAt size (bytes "&;") m q).2
  | _, m, _ => m

/-- `for (; q < (query + len) && !*q; q++)`, with `n` bytes left. -/
def skipNul (m : Mem) : ℕ → ℕ → ℕ
  | 0, q => q
  | n + 1, q => if m q = 0 then skipNul m n (q + 1) else q

/-- The loop over the assignments up to `last`, of `n` turns at most. -/
def assignments (size last : ℕ) (junk : ℕ → UInt8) : ℕ → Mem → List Entry → ℕ → Mem × List Entry
  | 0, m, table, _ => (m, table)
  | n + 1, m, table, q =>
    if q < last then
      let m := unescape size size (junk q) m q
      let next := skipNul m (last - (q + strlen size m q)) (q + strlen size m q)
      let r := strsepAt size (bytes "=") m q
      match r.2 with
      | some value => assignments size last junk n r.1 (setCgi size r.1 q value table) next
      | none => assignments size last junk n r.1 table next
    else (m, table)

/-- `init_cgi(query)`; `hcreate_r` leaves a table as it is. -/
def initCgi (size : ℕ) (junk : ℕ → UInt8) (s : State) : Option ℕ → State
  | none => { s with htab := none }
  | some query =>
    let len := strlen size s.buf query
    let r := assignments size (query + len) junk (len + 1) (separate size (len + 2) s.buf (some query))
      (s.htab.getD []) query
    ⟨r.1, some r.2⟩

/-! ### Encoded forms -/

/-- A character by itself, unless it is reserved, or '+' for a blank. -/
def Plain (reserved : Bytes) (x c : UInt8) : Prop := x = c ∧ x ∉ reserved ∨ x = 43 ∧ c = 32

/-- A name and a value, encoded. -/
def Assignment (pair : CStr × CStr) (e : Bytes) : Prop :=
  ∃ n v, Encodes (Plain (bytes "%+&;= ")) n pair.1.bytes ∧ Encodes (Plain (bytes "%+&; ")) v pair.2.bytes ∧
    e = n ++ 61 :: v

/-- The assignments, joined by '&' or ';'. -/
inductive Joined : List Bytes → Bytes → Prop
  | nil : Joined [] []
  | one (s : Bytes) : Joined [s] s
  | cons (s : Bytes) {c : UInt8} {s' : Bytes} {ss : List Bytes} {e : Bytes} :
      c ∈ bytes "&;" → Joined (s' :: ss) e → Joined (s :: s' :: ss) (s ++ c :: e)

/-- `e` is an encoding of the pairs. -/
def Form (pairs : List (CStr × CStr)) (e : Bytes) : Prop :=
  ∃ segments, List.Forall₂ Assignment pairs segments ∧ Joined segments e

/-- The value of the last pair with a name. -/
def lastValue (pairs : List (CStr × CStr)) (name : CStr) : Option CStr :=
  (pairs.reverse.find? fun p => p.1 = name).map Prod.snd

/-! ### One assignment -/

variable {size n p : ℕ} {c : UInt8} {m : Mem}

/-- A byte that `unescape` passes. -/
theorem unescape_skip {x : UInt8} {l : Bytes} (h : Stands m p (x :: l)) (hsize : p + (l.length + 1) < size)
    (hx : x ∉ bytes "%+") : unescape size n c m p = unescape size n c m (p + 1) := by
  cases n with
  | zero => rfl
  | succ n =>
    have h0 : scan m p (size - p) = x :: l := h.scan (by simp; omega)
    have h1 : scan m (p + 1) (size - (p + 1)) = l := h.tail.scan (by omega)
    unfold unescape
    rw [h0, h1, strpbrk_cons hx]
    cases strpbrk (bytes "%+") l with
    | none => rfl
    | some k =>
      simp only [Option.map_some]
      rw [show p + (k + 1) = p + 1 + k by omega]

theorem unescape_end (h : Stands m p []) (hsize : p < size) : unescape size n c m p = m := by
  cases n with
  | zero => rfl
  | succ n =>
    unfold unescape
    rw [h.scan (by simp; omega)]
    rfl

theorem unescape_plus {l : Bytes} (h : Stands m p (43 :: l)) (hsize : p + (l.length + 1) < size) :
    unescape size (n + 1) c m p = unescape size n c (write m p [32]) (p + 1) := by
  have h0 : scan m p (size - p) = 43 :: l := h.scan (by simp; omega)
  have hm : m p = 43 := h.1.1
  rw [unescape, h0]
  simp only [strpbrk, List.findIdx?_cons]
  rw [if_pos (by decide)]
  simp only [Nat.add_zero, hm]
  rw [if_neg (by decide)]

theorem hexVal_spec {a : UInt8} {hi : ℕ} (ha : hexVal a = some hi) : isSpace a = false ∧ a ≠ 45 ∧ a ≠ 43 := by
  have hall : ∀ c : UInt8, (hexVal c).isSome = true → isSpace c = false ∧ c ≠ 45 ∧ c ≠ 43 :=
    forall_byte.mpr (by decide +kernel)
  exact hall a (by rw [ha]; rfl)

theorem sscanf02x_hex {a b : UInt8} {hi lo : ℕ} (ha : hexVal a = some hi) (hb : hexVal b = some lo) (l : Bytes) :
    sscanf02x (a :: b :: l) = some (UInt8.ofNat (16 * hi + lo)) := by
  obtain ⟨hspace, hminus, hplus⟩ := hexVal_spec ha
  unfold sscanf02x
  rw [List.dropWhile_cons_of_neg (by simp [hspace])]
  simp only [List.take_succ_cons, List.take_zero]
  simp [sign, hminus, hplus, ha, hb]

/-- What is behind an escape is moved, with two NULs. -/
theorem unescape_escape {a b : UInt8} {hi lo : ℕ} {l : Bytes} (h : Stands m p (37 :: a :: b :: l))
    (hsize : p + (l.length + 3) < size) (ha : hexVal a = some hi) (hb : hexVal b = some lo) :
    ∃ c', unescape size (n + 1) c m p =
      unescape size n c' (write (write m p [UInt8.ofNat (16 * hi + lo)]) (p + 1) (l ++ [0, 0, 0])) (p + 1) := by
  have h0 : scan m p (size - p) = 37 :: a :: b :: l := h.scan (by simp; omega)
  have hm : m p = 37 := h.1.1
  have hdigits : sscanf02x (scan m (p + 1) (size - (p + 1))) = some (UInt8.ofNat (16 * hi + lo)) := by
    rw [h.tail.scan (by simp; omega), sscanf02x_hex ha hb]
  refine ⟨UInt8.ofNat (16 * hi + lo), ?_⟩
  rw [unescape, h0]
  simp only [strpbrk, List.findIdx?_cons]
  rw [if_pos (by decide)]
  simp only [Nat.add_zero, hm, if_true, hdigits, Option.getD_some]
  set m' := write m p [UInt8.ofNat (16 * hi + lo)] with hm'
  have htail : Stands m' (p + 1) (a :: b :: l) := h.tail.congr fun i h1 _ => write_of_ge (by simp; omega)
  have hlen : strlen size m' (p + 1) = l.length + 2 := by
    rw [strlen, htail.scan (by simp; omega)]
    rfl
  have hl : scan m' (p + 3) (l.length + 2 + 1) = l := htail.tail.tail.scan (by omega)
  rw [hlen, strncpy, hl, show l.length + 2 + 1 - l.length = 3 by omega]
  rfl

/-- What `unescape` makes of a text that encodes `d`: its bytes, and a NUL for each that it got shorter. -/
theorem unescape_spec {reserved e d : Bytes} (hres : 37 ∈ reserved ∧ 43 ∈ reserved)
    (h : Encodes (Plain reserved) e d) : ∀ {n p : ℕ} {c : UInt8} {m : Mem}, Stands m p e → p + e.length < size →
      e.length ≤ n →
      Holds (unescape size n c m p) p (d ++ List.replicate (e.length - d.length + 1) 0) ∧
        ∀ i, i < p ∨ p + e.length < i → unescape size n c m p i = m i := by
  induction h with
  | nil =>
    intro n p c m hm hsize _
    rw [unescape_end hm hsize]
    exact ⟨⟨hm.1.1, trivial⟩, fun _ _ => rfl⟩
  | @plain x b e d hx henc ih =>
    intro n p c m hm hsize hn
    simp only [List.length_cons] at hsize hn ⊢
    have hlen := henc.length_le
    have hcount : e.length + 1 - (d.length + 1) + 1 = e.length - d.length + 1 := by omega
    rw [hcount]
    -- the first byte stays or is a blank, and the others are decoded behind it
    have hstep : ∃ n' c', e.length ≤ n' ∧ unescape size n c m p = unescape size n' c' (write m p [b]) (p + 1) := by
      rcases hx with ⟨rfl, hx⟩ | ⟨rfl, rfl⟩
      · refine ⟨n, c, by omega, ?_⟩
        rw [@write_of_holds m p [x] ⟨hm.1.1, trivial⟩]
        refine unescape_skip hm hsize ?_
        rw [show bytes "%+" = [37, 43] by decide, List.mem_pair, not_or]
        constructor
        · rintro rfl
          exact hx hres.1
        · rintro rfl
          exact hx hres.2
      · obtain ⟨n, rfl⟩ : ∃ k, n = k + 1 := ⟨n - 1, by omega⟩
        exact ⟨n, c, by omega, unescape_plus hm hsize⟩
    obtain ⟨n', c', hn', heq⟩ := hstep
    have htail : Stands (write m p [b]) (p + 1) e := hm.tail.congr fun i h1 _ => write_of_ge (by simp; omega)
    obtain ⟨ih1, ih2⟩ := @ih n' (p + 1) c' _ htail (by omega) hn'
    rw [heq]
    refine ⟨⟨?_, ih1⟩, fun i hi => ?_⟩
    · rw [ih2 p (by omega)]
      exact (holds_write_same m p [b]).1
    · rw [ih2 i (by omega)]
      rcases hi with hi | hi
      · exact write_of_lt hi
      · exact write_of_ge (by simp; omega)
  | @escape a b hi lo e d ha hb henc ih =>
    intro n p c m hm hsize hn
    simp only [List.length_cons] at hsize hn ⊢
    have hlen := henc.length_le
    obtain ⟨n, rfl⟩ : ∃ k, n = k + 1 := ⟨n - 1, by omega⟩
    obtain ⟨c', heq⟩ := @unescape_escape size n p c m a b hi lo e hm hsize ha hb
    rw [heq]
    set m₁ := write m p [UInt8.ofNat (16 * hi + lo)] with hm₁
    set m₂ := write m₁ (p + 1) (e ++ [0, 0, 0]) with hm₂
    have hz : (0 : UInt8) ∉ e := hm.tail.tail.tail.2
    have hall : Holds m₂ (p + 1) (e ++ [0, 0, 0]) := holds_write_same _ _ _
    have htail : Stands m₂ (p + 1) e := by
      refine ⟨?_, hz⟩
      rw [holds_append] at hall ⊢
      exact ⟨hall.1, hall.2.1, trivial⟩
    obtain ⟨ih1, ih2⟩ := @ih n (p + 1) c' m₂ htail (by omega) (by omega)
    have hzeros : Holds (unescape size n c' m₂ (p + 1)) (p + 1 + e.length + 1) [0, 0] := by
      rw [holds_append] at hall
      refine Holds.congr hall.2.2 fun i h1 _ => ih2 i (by omega)
    refine ⟨⟨?_, ?_⟩, fun i hi => ?_⟩
    · rw [ih2 p (by omega), hm₂, write_of_lt (by omega)]
      exact (holds_write_same m p [UInt8.ofNat (16 * hi + lo)]).1
    · have hcount : e.length + 3 - (d.length + 1) + 1 = e.length - d.length + 1 + 2 := by omega
      rw [show e.length + 1 + 1 + 1 = e.length + 3 from rfl, hcount, List.replicate_add]
      show Holds _ _ (d ++ (List.replicate (e.length - d.length + 1) 0 ++ [0, 0]))
      rw [← List.append_assoc, holds_append]
      refine ⟨ih1, ?_⟩
      have hp : p + 1 + (d ++ List.replicate (e.length - d.length + 1) 0).length = p + 1 + e.length + 1 := by
        rw [List.length_append, List.length_replicate]
        omega
      rw [hp]
      exact hzeros
    · rw [ih2 i (by omega), hm₂, hm₁]
      rcases hi with hi | hi
      · rw [write_of_lt (by omega), write_of_lt hi]
      · rw [write_of_ge (by simp; omega), write_of_ge (by simp; omega)]

/-! ### The split -/

/-- The segments, each with a NUL. -/
def laid (segments : List Bytes) : Bytes := segments.flatMap (· ++ [0])

theorem laid_cons (s : Bytes) (ss : List Bytes) : laid (s :: ss) = s ++ 0 :: laid ss := by
  simp [laid]

theorem length_le_laid (ss : List Bytes) : ss.length ≤ (laid ss).length := by
  induction ss with
  | nil => exact Nat.le_refl _
  | cons s ss ih =>
    rw [laid_cons, List.length_append, List.length_cons, List.length_cons]
    omega

theorem Joined.length_laid {segments : List Bytes} {e : Bytes} (h : Joined segments e) :
    segments = [] ∧ e = [] ∨ (laid segments).length = e.length + 1 := by
  induction h with
  | nil => exact .inl ⟨rfl, rfl⟩
  | one s => exact .inr (by simp [laid])
  | cons s _ _ ih =>
    refine .inr ?_
    rcases ih with ⟨h, -⟩ | h
    · cases h
    · rw [laid_cons, List.length_append, List.length_cons, h, List.length_append, List.length_cons]
      omega

theorem Joined.nul_notMem {segments : List Bytes} {e : Bytes} (h : Joined segments e) :
    (∀ s ∈ segments, (0 : UInt8) ∉ s) → (0 : UInt8) ∉ e := by
  induction h with
  | nil => simp
  | one s => simp
  | cons s hc _ ih =>
    intro hs
    rw [List.forall_mem_cons] at hs
    rw [List.mem_append, List.mem_cons, not_or, not_or]
    refine ⟨hs.1, ?_, ih hs.2⟩
    rintro rfl
    exact absurd hc (by decide)

/-- The split writes NULs over the separators. -/
theorem separate_spec {segments : List Bytes} {e : Bytes} (h : Joined segments e) (hne : segments ≠ []) :
    ∀ {n p : ℕ} {m : Mem}, (∀ s ∈ segments, ∀ y ∈ s, y ∉ bytes "&;") → Stands m p e → p + e.length < size →
      segments.length ≤ n → Holds (separate size n m (some p)) p (laid segments) ∧
        ∀ i < p, separate size n m (some p) i = m i := by
  induction h with
  | nil => exact absurd rfl hne
  | one s =>
    intro n p m hs hm hsize hn
    obtain ⟨n, rfl⟩ : ∃ k, n = k + 1 := ⟨n - 1, by simp at hn; omega⟩
    rw [separate, strsepAt_eq_none hm hsize (hs s (by simp))]
    have : separate size n m none = m := by cases n <;> rfl
    rw [this]
    exact ⟨by simpa [laid] using hm.1, fun _ _ => rfl⟩
  | @cons s x s' ss e hx hj ih =>
    intro n p m hs hm hsize hn
    rw [List.forall_mem_cons] at hs
    obtain ⟨n, rfl⟩ : ∃ k, n = k + 1 := ⟨n - 1, by simp at hn; omega⟩
    simp only [List.length_append, List.length_cons] at hsize hn
    obtain ⟨hfirst, hrest⟩ := hm.cut
    obtain ⟨ih1, ih2⟩ := ih (List.cons_ne_nil _ _) hs.2 hrest (by omega) (by simpa using hn)
    rw [separate, strsepAt_of_holds hm (by simp; omega) hx hs.1]
    refine ⟨?_, fun i hi => ?_⟩
    · rw [laid_cons, holds_append]
      have hseg := holds_append.mp hfirst.1
      refine ⟨?_, ?_, ih1⟩
      · exact hseg.1.congr fun i _ hi => ih2 i (by omega)
      · rw [ih2 _ (by omega)]
        exact hseg.2.1
    · rw [ih2 i (by omega), write_of_lt (by omega)]

/-! ### The table -/

/-- A string in the buffer before `q`. -/
def StoredAt (m : Mem) (q p : ℕ) (s : CStr) : Prop := Holds m p s.withNul ∧ p + s.length < q

/-- The table has the pairs, with its strings before `q`. -/
def Tbl (m : Mem) (q : ℕ) (table : List Entry) (pairs : List (CStr × CStr)) : Prop :=
  List.Forall₂ (fun e p => StoredAt m q e.key p.1 ∧ StoredAt m q e.data p.2) table pairs

/-- A name set to a value. -/
def assign (name value : CStr) : List (CStr × CStr) → List (CStr × CStr)
  | [] => [(name, value)]
  | p :: pairs => if p.1 = name then (p.1, value) :: pairs else p :: assign name value pairs

/-- The value of a name. -/
def valueOf (pairs : List (CStr × CStr)) (name : CStr) : Option CStr :=
  (pairs.find? fun p => p.1 = name).map Prod.snd

theorem valueOf_cons (q : CStr × CStr) (pairs : List (CStr × CStr)) (name : CStr) :
    valueOf (q :: pairs) name = if q.1 = name then some q.2 else valueOf pairs name := by
  unfold valueOf
  rw [List.find?_cons]
  by_cases h : q.1 = name <;> simp [h]

theorem valueOf_assign (name value name' : CStr) : ∀ pairs : List (CStr × CStr),
    valueOf (assign name value pairs) name' = if name = name' then some value else valueOf pairs name'
  | [] => valueOf_cons _ _ _
  | q :: pairs => by
    rw [assign]
    by_cases hq : q.1 = name
    · rw [if_pos hq, valueOf_cons, valueOf_cons, hq]
      by_cases hn : name = name' <;> simp [hn]
    · rw [if_neg hq, valueOf_cons, valueOf_cons, valueOf_assign name value name' pairs]
      by_cases hn : name = name'
      · rw [if_pos hn, if_pos hn, if_neg (by rw [← hn]; exact hq)]
      · rw [if_neg hn, if_neg hn]

/-- Pairs set one after the other leave each name with its last value. -/
theorem valueOf_assigned (name : CStr) : ∀ (done pairs : List (CStr × CStr)),
    valueOf (pairs.foldl (fun d p => assign p.1 p.2 d) done) name = (lastValue pairs name <|> valueOf done name)
  | done, [] => rfl
  | done, q :: pairs => by
    rw [List.foldl_cons, valueOf_assigned name _ pairs, valueOf_assign]
    unfold lastValue
    rw [List.reverse_cons, List.find?_append, List.find?_singleton]
    cases pairs.reverse.find? fun p => p.1 = name with
    | some p => rfl
    | none => by_cases hq : q.1 = name <;> simp [hq]

theorem StoredAt.readStr {q : ℕ} {s : CStr} (h : StoredAt m q p s) (hq : q ≤ size) : readStr m p (size - p) = s :=
  readStr_of_holds h.1 (by have := h.2; omega)

theorem StoredAt.congr {m' : Mem} {q q' : ℕ} {s : CStr} (h : StoredAt m q p s) (he : ∀ i < q, m' i = m i)
    (hq : q ≤ q') : StoredAt m' q' p s := by
  have hlt := h.2
  refine ⟨h.1.congr fun i _ hi => he i ?_, by omega⟩
  rw [CStr.length_withNul] at hi
  omega

theorem Tbl.congr {m' : Mem} {q q' : ℕ} {table : List Entry} {pairs : List (CStr × CStr)} (h : Tbl m q table pairs)
    (he : ∀ i < q, m' i = m i) (hq : q ≤ q') : Tbl m' q' table pairs :=
  h.imp fun _ _ hep => ⟨hep.1.congr he hq, hep.2.congr he hq⟩

theorem Tbl.set {q name value : ℕ} {n v : CStr} (hn : StoredAt m q name n) (hv : StoredAt m q value v)
    (hq : q ≤ size) : ∀ {table : List Entry} {pairs : List (CStr × CStr)}, Tbl m q table pairs →
      Tbl m q (setCgi size m name value table) (assign n v pairs)
  | _, _, .nil => .cons ⟨hn, hv⟩ .nil
  | _, _, @List.Forall₂.cons _ _ _ e p table pairs hep htbl => by
    rw [setCgi, assign, hep.1.readStr hq, hn.readStr hq]
    split_ifs with h
    · exact .cons ⟨hep.1, hv⟩ htbl
    · exact .cons hep (Tbl.set hn hv hq htbl)

theorem Tbl.getCgi {q : ℕ} (hq : q ≤ size) (name : CStr) : ∀ {table : List Entry} {pairs : List (CStr × CStr)},
    Tbl m q table pairs → getCgi size ⟨m, some table⟩ name = valueOf pairs name
  | _, _, .nil => rfl
  | _, _, @List.Forall₂.cons _ _ _ e p table pairs hep htbl => by
    have ih := Tbl.getCgi hq name htbl
    unfold Cgi.getCgi at ih ⊢
    simp only [Option.bind_eq_bind, Option.bind_some, List.find?_cons, hep.1.readStr hq] at ih ⊢
    rw [valueOf_cons]
    by_cases h : p.1 = name
    · simp [h, hep.2.readStr hq]
    · simp only [h, decide_false, if_false]
      exact ih

/-! ### The loop -/

/-- A reserved character is not in an encoding, and a NUL is not in one of a string. -/
theorem notMem_of_encodes {reserved e d : Bytes} {b : UInt8} (hb : hexVal b = none) (h : Encodes (Plain reserved) e d)
    (hd : b ∈ reserved ∨ b ∉ d) (h37 : b ≠ 37) (h43 : b ≠ 43) : b ∉ e := by
  refine h.notMem h37 hb fun c hc => ?_
  rintro (⟨rfl, hres⟩ | ⟨rfl, -⟩)
  · rcases hd with hd | hd
    · exact hres hd
    · exact hd hc
  · exact h43 rfl

theorem Assignment.notMem {pair : CStr × CStr} {s : Bytes} (h : Assignment pair s) :
    (0 : UInt8) ∉ s ∧ ∀ y ∈ s, y ∉ bytes "&;" := by
  obtain ⟨n, v, hn, hv, rfl⟩ := h
  have hmem : ∀ b : UInt8, hexVal b = none → b ≠ 37 → b ≠ 43 → b ≠ 61 →
      (b ∈ bytes "&;" ∨ b = 0) → b ∉ n ++ 61 :: v := by
    intro b hb h37 h43 h61 hor
    rw [List.mem_append, List.mem_cons, not_or, not_or]
    refine ⟨notMem_of_encodes hb hn ?_ h37 h43, h61, notMem_of_encodes hb hv ?_ h37 h43⟩
    · rcases hor with hor | rfl
      · rw [show bytes "&;" = [38, 59] by decide] at hor
        rcases List.mem_pair.mp hor with rfl | rfl <;> exact .inl (by decide)
      · exact .inr pair.1.nul_notMem
    · rcases hor with hor | rfl
      · rw [show bytes "&;" = [38, 59] by decide] at hor
        rcases List.mem_pair.mp hor with rfl | rfl <;> exact .inl (by decide)
      · exact .inr pair.2.nul_notMem
  refine ⟨hmem 0 (by decide) (by decide) (by decide) (by decide) (.inr rfl), fun y hy hdelim => ?_⟩
  refine hmem y ?_ ?_ ?_ ?_ (.inl hdelim) hy <;>
  · rw [show bytes "&;" = [38, 59] by decide] at hdelim
    rcases List.mem_pair.mp hdelim with rfl | rfl <;> decide

theorem skipNul_zeros {k : ℕ} : ∀ {n q : ℕ}, Holds m q (List.replicate k 0) → k ≤ n →
    skipNul m n q = skipNul m (n - k) (q + k) := by
  induction k with
  | zero => intros; rfl
  | succ k ih =>
    intro n q h hk
    obtain ⟨n, rfl⟩ : ∃ j, n = j + 1 := ⟨n - 1, by omega⟩
    rw [List.replicate_succ] at h
    rw [skipNul, if_pos h.1, ih h.2 (by omega), Nat.add_sub_add_right, Nat.add_right_comm, Nat.add_assoc]

/-- A turn: the name and the value stand in the buffer, and the value ends before the next assignment. -/
theorem assignment_spec {pair : CStr × CStr} {s : Bytes} {q : ℕ} (h : Assignment pair s) (hname : (61 : UInt8) ∉ pair.1.bytes)
    (hm : Stands m q s) (hsize : q + s.length < size) :
    let m₁ := unescape size size c m q
    let len := pair.1.length + 1 + pair.2.length
    let m₂ := write m₁ (q + pair.1.length) [0]
    len ≤ s.length ∧ strlen size m₁ q = len ∧ Holds m₁ (q + len) (List.replicate (s.length - len + 1) 0) ∧
      (∀ i, i < q ∨ q + s.length < i → m₁ i = m i) ∧
      strsepAt size (bytes "=") m₁ q = (m₂, some (q + pair.1.length + 1)) ∧
      StoredAt m₂ (q + s.length + 1) q pair.1 ∧ StoredAt m₂ (q + s.length + 1) (q + pair.1.length + 1) pair.2 := by
  intro m₁ len m₂
  obtain ⟨n, v, hn, hv, rfl⟩ := h
  have hn' : Encodes (Plain (bytes "%+&; ")) n pair.1.bytes := by
    refine hn.mono fun x c hx => hx.imp_left fun hx => ⟨hx.1, fun hmem => hx.2 ?_⟩
    have hall : ∀ x ∈ bytes "%+&; ", x ∈ bytes "%+&;= " := by decide
    exact hall x hmem
  have heq : Encodes (Plain (bytes "%+&; ")) (61 :: v) (61 :: pair.2.bytes) := .plain (.inl ⟨rfl, by decide⟩) hv
  have henc := hn'.append heq
  have hlen := henc.length_le
  have hd : (pair.1.bytes ++ 61 :: pair.2.bytes).length = len := by
    simp only [List.length_append, List.length_cons, len, CStr.length]
    omega
  obtain ⟨hholds, hframe⟩ :=
    unescape_spec (by decide) henc hm hsize (Nat.le_of_lt (Nat.lt_of_le_of_lt (Nat.le_add_left _ _) hsize))
    (c := c)
  rw [hd] at hholds hlen
  rw [holds_append, hd] at hholds
  obtain ⟨hdec, hzeros⟩ := hholds
  have hnul : (0 : UInt8) ∉ pair.1.bytes ++ 61 :: pair.2.bytes := by
    simp [pair.1.nul_notMem, pair.2.nul_notMem]
  have hstands : Stands m₁ q (pair.1.bytes ++ 61 :: pair.2.bytes) := by
    refine ⟨holds_append.mpr ⟨hdec, ?_⟩, hnul⟩
    rw [hd]
    exact ⟨hzeros.1, trivial⟩
  rw [List.length_append, List.length_cons] at hsize
  have hpos : pair.1.length = pair.1.bytes.length := rfl
  have hpos' : pair.2.length = pair.2.bytes.length := rfl
  rw [holds_append] at hdec
  refine ⟨hlen, ?_, hzeros, hframe, ?_, ⟨?_, ?_⟩, ⟨?_, ?_⟩⟩
  · rw [strlen, hstands.scan (by rw [hd]; simp only [List.length_append, List.length_cons] at hlen; omega), hd]
  · rw [hpos]
    refine strsepAt_of_holds hstands ?_ (by decide) ?_
    · rw [hd]
      simp only [List.length_append, List.length_cons] at hlen
      omega
    · intro y hy
      rw [show bytes "=" = [61] by decide, List.mem_singleton]
      rintro rfl
      exact hname hy
  · rw [CStr.withNul, holds_append]
    refine ⟨holds_write_of_le hdec.1 (le_of_eq rfl), ?_⟩
    exact holds_write_same m₁ (q + pair.1.length) [0]
  · simp only [List.length_append, List.length_cons] at hlen ⊢
    omega
  · rw [CStr.withNul, holds_append]
    have hval : Holds m₁ (q + pair.1.length + 1) (pair.2.bytes ++ [0]) := by
      refine holds_append.mpr ⟨hdec.2.2, ?_, trivial⟩
      have := hzeros.1
      rw [← hpos', show q + pair.1.length + 1 + pair.2.length = q + len by omega]
      exact this
    rw [← holds_append]
    exact holds_write_of_ge hval (by simp)
  · simp only [List.length_append, List.length_cons] at hlen ⊢
    omega

theorem Assignment.ne_nil {pair : CStr × CStr} {s : Bytes} (h : Assignment pair s) : s ≠ [] := by
  obtain ⟨n, v, -, -, rfl⟩ := h
  simp

theorem assignments_done {last q : ℕ} {junk : ℕ → UInt8} {table : List Entry} (h : last ≤ q) :
    assignments size last junk n m table q = (m, table) := by
  cases n with
  | zero => rfl
  | succ n => rw [assignments, if_neg (by omega)]

/-- The loop sets the pairs, in order. -/
theorem assignments_spec {pairs : List (CStr × CStr)} {segments : List Bytes} {last : ℕ} {junk : ℕ → UInt8}
    (h : List.Forall₂ Assignment pairs segments) : ∀ {n q b : ℕ} {m : Mem} {table : List Entry}
      {done : List (CStr × CStr)}, (∀ p ∈ pairs, (61 : UInt8) ∉ p.1.bytes) → Holds m q (laid segments) →
      (segments = [] ∧ last ≤ q ∨ last + 1 = q + (laid segments).length) → q + (laid segments).length ≤ size →
      segments.length ≤ n → Tbl m b table done → b ≤ size → (segments ≠ [] → b ≤ q) →
      ∃ m' b' table', assignments size last junk n m table q = (m', table') ∧ b' ≤ size ∧
        Tbl m' b' table' (pairs.foldl (fun d p => assign p.1 p.2 d) done) := by
  induction h with
  | nil =>
    intro n q b m table done _ _ hlast _ _ htbl hb _
    have hle : last ≤ q := by
      rcases hlast with ⟨-, h⟩ | h
      · exact h
      · simp only [laid, List.flatMap_nil, List.length_nil] at h
        omega
    exact ⟨m, b, table, assignments_done hle, hb, htbl⟩
  | @cons pair s pairs segments hs hrest ih =>
    intro n q b m table done hname hm hlast hsize hn htbl hb hbq
    have hbq := hbq (List.cons_ne_nil _ _)
    rw [List.forall_mem_cons] at hname
    obtain ⟨n, rfl⟩ : ∃ k, n = k + 1 := ⟨n - 1, by simp at hn; omega⟩
    simp only [laid_cons, List.length_append, List.length_cons] at hlast hsize hn
    rw [laid_cons, holds_append] at hm
    obtain ⟨hseg, hnul, hbehind⟩ := hm
    have hstands : Stands m q s := ⟨holds_append.mpr ⟨hseg, hnul, trivial⟩, hs.notMem.1⟩
    have hpos : 0 < s.length := List.length_pos_iff.mpr hs.ne_nil
    obtain ⟨hlen, hstrlen, hzeros, hframe, hsep, hnm, hval⟩ :=
      assignment_spec (c := junk q) hs hname.1 hstands (show q + s.length < size by omega)
    set m₁ := unescape size size (junk q) m q with hm₁
    set len := pair.1.length + 1 + pair.2.length with hlenDef
    set m₂ := write m₁ (q + pair.1.length) [0] with hm₂
    have hlt : q < last := by
      rcases hlast with ⟨h, -⟩ | h
      · cases h
      · omega
    -- what is behind the assignment, and before it, stays
    have hkept : ∀ i, i < q ∨ q + s.length < i → m₂ i = m i := by
      intro i hi
      rw [hm₂, ← hframe i hi]
      rcases hi with hi | hi
      · exact write_of_lt (by omega)
      · exact write_of_ge (by simp; omega)
    have hbehind₂ : Holds m₂ (q + s.length + 1) (laid segments) := hbehind.congr fun i h1 _ => hkept i (by omega)
    have htbl₂ : Tbl m₂ (q + s.length + 1) table done := htbl.congr (fun i hi => hkept i (by omega)) (by omega)
    have htable := htbl₂.set hnm hval (show q + s.length + 1 ≤ size by omega)
    have hstep : assignments size last junk (n + 1) m table q = assignments size last junk n m₂
        (setCgi size m₂ q (q + pair.1.length + 1) table) (skipNul m₁ (last - (q + len)) (q + len)) := by
      rw [assignments, if_pos hlt]
      simp only [← hm₁, hsep, hstrlen]
    rw [hstep, List.foldl_cons]
    cases hrest with
    | nil =>
      have hend : last = q + s.length := by
        rcases hlast with ⟨h, -⟩ | h
        · cases h
        · simp only [laid, List.flatMap_nil, List.length_nil] at h
          omega
      have hnext : skipNul m₁ (last - (q + len)) (q + len) = last := by
        rw [skipNul_zeros (k := s.length - len) ?_ (by omega)]
        · rw [show last - (q + len) - (s.length - len) = 0 by omega, skipNul]
          omega
        · rw [List.replicate_succ', holds_append] at hzeros
          exact hzeros.1
      rw [hnext, assignments_done (le_refl last)]
      exact ⟨m₂, q + s.length + 1, _, rfl, by omega, htable⟩
    | @cons pair' s' pairs segments hs' hrest =>
      have hmore : last + 1 = q + (s.length + ((laid (s' :: segments)).length + 1)) := by
        rcases hlast with ⟨h, -⟩ | h
        · cases h
        · exact h
      have hlaid : 2 ≤ (laid (s' :: segments)).length := by
        have := List.length_pos_iff.mpr hs'.ne_nil
        rw [laid_cons, List.length_append, List.length_cons]
        omega
      have hfirst : m₁ (q + s.length + 1) ≠ 0 := by
        rw [hframe _ (by omega)]
        cases s' with
        | nil => exact absurd rfl hs'.ne_nil
        | cons x s' =>
          rw [laid_cons] at hbehind
          rw [hbehind.1]
          have := hs'.notMem.1
          rw [List.mem_cons, not_or] at this
          exact Ne.symm this.1
      have hnext : skipNul m₁ (last - (q + len)) (q + len) = q + s.length + 1 := by
        rw [skipNul_zeros hzeros (by omega)]
        have hat : q + len + (s.length - len + 1) = q + s.length + 1 := by omega
        rw [hat]
        obtain ⟨k, hk⟩ : ∃ k, last - (q + len) - (s.length - len + 1) = k + 1 :=
          ⟨last - (q + len) - (s.length - len + 1) - 1, by omega⟩
        rw [hk, skipNul, if_neg hfirst]
      rw [hnext]
      exact ih hname.2 hbehind₂ (.inr (by omega)) (by omega) (by simpa using hn) htable (by omega) fun _ => le_refl _

/-- After `init_cgi` of an encoding of pairs, `get_cgi` returns the last value of each name. -/
theorem getCgi_initCgi (size : ℕ) (junk : ℕ → UInt8) (m : Mem) (p : ℕ) (pairs : List (CStr × CStr)) (e : Bytes)
    (hnames : ∀ q ∈ pairs, (61 : UInt8) ∉ q.1.bytes) (hform : Form pairs e)
    (hquery : Holds m p (e ++ [0])) (hsize : p + e.length < size) (name : CStr) :
    getCgi size (initCgi size junk ⟨m, none⟩ (some p)) name = lastValue pairs name := by
  obtain ⟨segments, hsegs, hjoin⟩ := hform
  have hclean : ∀ s ∈ segments, (0 : UInt8) ∉ s ∧ ∀ y ∈ s, y ∉ bytes "&;" := by
    clear hjoin
    induction hsegs with
    | nil => simp
    | cons h _ ih =>
      rw [List.forall_mem_cons]
      exact ⟨h.notMem, ih fun q hq => hnames q (List.mem_cons_of_mem _ hq)⟩
  have hnul := hjoin.nul_notMem fun s hs => (hclean s hs).1
  have hstands : Stands m p e := ⟨hquery, hnul⟩
  have hlen : strlen size m p = e.length := by rw [strlen, hstands.scan (by omega)]
  by_cases hne : segments = []
  · subst hne
    cases hsegs
    rcases hjoin.length_laid with ⟨-, rfl⟩ | hlaid
    · rw [initCgi]
      simp only [hlen, List.length_nil, Nat.add_zero, Option.getD_none, assignments_done (le_refl p)]
      rfl
    · simp [laid] at hlaid
  · have hlaid := hjoin.length_laid.resolve_left fun h => hne h.1
    have hcount := length_le_laid segments
    obtain ⟨hsplit, -⟩ := separate_spec hjoin hne (fun s hs => (hclean s hs).2) hstands hsize
      (show segments.length ≤ e.length + 2 by omega)
    obtain ⟨m', b, table, hrun, hb, htbl⟩ := @assignments_spec size pairs segments (p + e.length) junk hsegs
      (e.length + 1) p 0 _ [] [] hnames hsplit (.inr (by omega)) (by omega) (by omega) .nil
      (Nat.zero_le _) fun _ => Nat.zero_le _
    rw [initCgi]
    simp only [hlen, Option.getD_none, hrun]
    rw [htbl.getCgi hb, valueOf_assigned]
    simp [valueOf]

theorem getCgi_initCgi_blank :
    getCgi 20 (initCgi 20 (fun _ => 0) ⟨write (fun _ => 0) 0 (bytes "a=b+%63" ++ [0]), none⟩ (some 0)) (.lit "a") =
      some (.lit "b c") := by
  have hname : Encodes (Plain (bytes "%+&;= ")) (bytes "a") (CStr.lit "a").bytes := .plain (.inl ⟨rfl, by decide⟩) .nil
  have hvalue : Encodes (Plain (bytes "%+&; ")) (bytes "b+%63") (CStr.lit "b c").bytes :=
    .plain (.inl ⟨rfl, by decide⟩) (.plain (.inr ⟨rfl, rfl⟩)
      (@Encodes.escape _ 54 51 6 3 [] [] (by decide) (by decide) .nil))
  exact getCgi_initCgi 20 (fun _ => 0) _ 0 [(.lit "a", .lit "b c")] (bytes "a=b+%63") (by decide)
    ⟨_, .cons ⟨_, _, hname, hvalue, rfl⟩ .nil, .one _⟩ (holds_write_same _ _ _) (by decide) (.lit "a")

end Cgi
end Httpd
end Router
