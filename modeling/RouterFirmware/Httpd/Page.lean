/-
# Pages with calls

`router/httpd/ej.c`: `do_ej` reads a page byte by byte. What it has not put out yet is in `pattern`: nothing, the '<' of
a tag that may begin, or a segment `<% ... %>` whose calls are made when it ends.

A page is text and segments (`Page`). A '<' is held back until the next byte, and is put out with it if that is no '%';
so of an odd number of them in front of a segment the tag is missed, and at the end of the file the last one is lost
(`doEj_iff`).

No dictionary is loaded, so text is not translated. The array `pattern` has 1000 bytes.
-/
import RouterFirmware.Httpd.Call

namespace Router
namespace Httpd
namespace Ej

open CMem CText

variable {σ : Type}

/-- The variables of `do_ej`; `asp` points behind the tag or is `NULL`, and `out` is the rest of the system and what
has been put out. -/
structure State (σ : Type) where
  pattern : Mem
  len : ℕ
  asp : Bool
  out : σ × Bytes

/-- The loop over the calls of a segment, of `n` turns at most. -/
def segmentLoop (ejHandlers : List (Handler σ)) (len : ℕ) : ℕ → Mem → ℕ → σ × Bytes → Mem × σ × Bytes
  | 0, m, _, st => (m, st)
  | n + 1, m, func, st =>
    if func < len then
      let func := func + ((scan m func (1000 - func)).takeWhile isSpace).length
      match unqstrstr (bytes ";") false (scan m func (1000 - func)) with
      | none => (m, st)
      | some k =>
        let r := call ejHandlers 1000 (write m (func + k) [0]) func st
        segmentLoop ejHandlers len n r.1 (func + k + 1) r.2
    else (m, st)

/-- The body of the loop over the bytes of the file. -/
def step (ejHandlers : List (Handler σ)) (s : State σ) (c : UInt8) : State σ :=
  let pattern := write (write s.pattern s.len [c]) (s.len + 1) [0]
  let len := s.len + 1
  let release : State σ := ⟨pattern, 0, s.asp, (s.out.1, s.out.2 ++ scan pattern 0 1000)⟩
  if len = 999 then release
  else if !s.asp && (scan pattern 0 1000).take len = (bytes "<%").take len then
    ⟨pattern, len, len = 2, s.out⟩
  else if s.asp then
    if (unqstrstr (bytes "%>") false (scan pattern 2 998)).isSome then
      let r := segmentLoop ejHandlers len len pattern 2 s.out
      ⟨r.1, 0, false, r.2⟩
    else ⟨pattern, len, true, s.out⟩
  else release

/-- `do_ej`, of the bytes of the file: the rest of the system and what has been put out. -/
def doEj (ejHandlers : List (Handler σ)) (pattern : Mem) (file : Bytes) (st : σ) : σ × Bytes :=
  (file.foldl (step ejHandlers) ⟨pattern, 0, false, (st, [])⟩).out

/-! ### Pages -/

/-- The calls of a segment, each with the blanks in front of it, and the blanks at the end. -/
structure Segment where
  calls : List (Bytes × Bytes)
  blanks : Bytes

def Segment.body (s : Segment) : Bytes := (s.calls.flatMap fun c => c.1 ++ c.2 ++ [59]) ++ s.blanks ++ bytes "%>"

def Segment.text (s : Segment) : Bytes := bytes "<%" ++ s.body

/-- `f(..)`: it ends neither the segment nor itself. -/
structure CallOk (c : Bytes) : Prop where
  nul : (0 : UInt8) ∉ c
  head : ∀ x ∈ c.head?, isSpace x = false
  quotes : quoteAfter false c = false
  semicolon : unqstrstr (bytes ";") false c = none
  tag : unqstrstr (bytes "%>") false c = none
  call : (callOf c).isSome

structure Segment.Ok (s : Segment) : Prop where
  calls_ne : s.calls ≠ []
  calls : ∀ c ∈ s.calls, (∀ x ∈ c.1, isSpace x = true) ∧ CallOk c.2
  blanks : ∀ x ∈ s.blanks, isSpace x = true
  length : s.text.length < 998

/-- Literal text and segments. -/
structure Page where
  parts : List (Bytes × Segment)
  last : Bytes

def Page.text (p : Page) : Bytes := (p.parts.flatMap fun q => q.1 ++ q.2.text) ++ p.last

/-- Text without a tag. -/
def Literal (l : Bytes) : Prop := (0 : UInt8) ∉ l ∧ ¬ bytes "<%" <:+: l

structure Page.Ok (p : Page) : Prop where
  parts : ∀ q ∈ p.parts, Literal q.1 ∧ q.2.Ok
  last : Literal p.last

/-- What a call puts out by itself. -/
def alone (ejHandlers : List (Handler σ)) (c : Bytes) (st : σ × Bytes) : σ × Bytes :=
  (call ejHandlers 1000 (write (fun _ => 0) 0 (c ++ [0])) 0 st).2

def Segment.output (s : Segment) (ejHandlers : List (Handler σ)) (st : σ × Bytes) : σ × Bytes :=
  s.calls.foldl (fun st c => alone ejHandlers c.2 st) st

/-- The text, and in place of each segment the output of its calls. -/
def Page.output (p : Page) (ejHandlers : List (Handler σ)) (st : σ) : σ × Bytes :=
  let r := p.parts.foldl (fun st q => q.2.output ejHandlers (st.1, st.2 ++ q.1)) (st, [])
  (r.1, r.2 ++ p.last)

/-- The page is rendered, whatever its calls put out. -/
def Page.Rendered (p : Page) : Prop :=
  ∀ (σ : Type) (ejHandlers : List (Handler σ)) (pattern : Mem) (st : σ),
    doEj ejHandlers pattern p.text st = p.output ejHandlers st

/-- How many '<' a text ends with. -/
def openings (l : Bytes) : ℕ := (l.reverse.takeWhile (· = 60)).length

/-! ### A call in place -/

theorem argv_eq {size : ℕ} {m : Mem} {turns : List Turn} {l : List Bytes} (h : (argv size m turns).map CStr.bytes = l) :
    argv size m turns = l.map cstr := by
  rw [← h, List.map_map]
  conv_lhs => rw [← List.map_id (argv size m turns)]
  apply List.map_congr_left
  intro s _
  exact CStr.ext_bytes (cstr_bytes s.nul_notMem).symm

/-- What a call makes of its text. -/
def called (ejHandlers : List (Handler σ)) (text : Bytes) (st : σ × Bytes) : σ × Bytes :=
  match callOf text with
  | none => st
  | some (name, args) => ejHandlers.foldl (Handler.run name ((argsOf args).map cstr)) st

/-- A call depends on its text, and changes nothing behind it. -/
theorem call_spec (ejHandlers : List (Handler σ)) {size func : ℕ} {m : Mem} {text : Bytes} (h : Stands m func text)
    (hsize : func + text.length < size) (st : σ × Bytes) :
    (call ejHandlers size m func st).2 = called ejHandlers text st ∧
      ∀ i, func + text.length < i → (call ejHandlers size m func st).1 i = m i := by
  unfold call called
  cases hcall : callOf text with
  | none =>
    rw [parse_eq_none h hsize hcall]
    exact ⟨rfl, fun _ _ => rfl⟩
  | some r =>
    obtain ⟨m', turns, hparse, hname, hargv, hframe, -⟩ := parse_spec h hsize hcall
    rw [hparse]
    simp only [hname, argv_eq hargv, true_and]
    exact hframe

theorem alone_eq (ejHandlers : List (Handler σ)) {text : Bytes} (hz : (0 : UInt8) ∉ text) (hlen : text.length < 1000)
    (st : σ × Bytes) : alone ejHandlers text st = called ejHandlers text st :=
  (call_spec ejHandlers ⟨holds_write_same _ 0 _, hz⟩ (by omega) st).1

/-! ### A segment -/

/-- The text of the calls and of what is behind them. -/
def callsText (calls : List (Bytes × Bytes)) (blanks : Bytes) : Bytes :=
  (calls.flatMap fun c => c.1 ++ c.2 ++ [59]) ++ blanks ++ bytes "%>"

theorem callsText_cons (c : Bytes × Bytes) (calls : List (Bytes × Bytes)) (blanks : Bytes) :
    callsText (c :: calls) blanks = c.1 ++ (c.2 ++ 59 :: callsText calls blanks) := by
  simp [callsText]

theorem takeWhile_blanks {w rest : Bytes} (hw : ∀ x ∈ w, isSpace x = true) (hrest : ∀ x ∈ rest.head?, isSpace x = false) :
    (w ++ rest).takeWhile isSpace = w := by
  have hnil : rest.takeWhile isSpace = [] := by
    cases rest with
    | nil => rfl
    | cons x rest => exact List.takeWhile_cons_of_neg (by simp [hrest x rfl])
  rw [List.takeWhile_append_of_pos hw, hnil, List.append_nil]

theorem CallOk.ne_nil {c : Bytes} (h : CallOk c) : c ≠ [] := by
  rintro rfl
  exact absurd h.call (by decide)

/-- The loop makes the calls of a segment, in order. -/
theorem segmentLoop_spec (ejHandlers : List (Handler σ)) {len : ℕ} (hlen : len < 1000) {blanks : Bytes}
    (hblanks : ∀ x ∈ blanks, isSpace x = true) {calls : List (Bytes × Bytes)}
    (hcalls : ∀ c ∈ calls, (∀ x ∈ c.1, isSpace x = true) ∧ CallOk c.2) :
    ∀ {n func : ℕ} {m : Mem} (st : σ × Bytes), Stands m func (callsText calls blanks) →
      func + (callsText calls blanks).length = len → calls.length < n →
      (segmentLoop ejHandlers len n m func st).2 = calls.foldl (fun st c => alone ejHandlers c.2 st) st := by
  induction calls with
  | nil =>
    intro n func m st h hfunc hn
    obtain ⟨n, rfl⟩ : ∃ k, n = k + 1 := ⟨n - 1, by simp at hn; omega⟩
    have htext : callsText [] blanks = blanks ++ [37, 62] := rfl
    rw [htext] at h hfunc
    rw [List.length_append, List.length_cons, List.length_singleton] at hfunc
    have hread : scan m func (1000 - func) = blanks ++ [37, 62] := h.scan (by simp; omega)
    have htag : scan m (func + blanks.length) (1000 - (func + blanks.length)) = [37, 62] := h.drop.scan (by simp; omega)
    rw [segmentLoop, if_pos (by omega)]
    simp only [hread, takeWhile_blanks hblanks (show ∀ x ∈ ([37, 62] : Bytes).head?, isSpace x = false by decide), htag]
    rfl
  | cons c calls ih =>
    intro n func m st h hfunc hn
    rw [List.forall_mem_cons] at hcalls
    obtain ⟨⟨hw, hc⟩, hcalls⟩ := hcalls
    obtain ⟨n, rfl⟩ : ∃ k, n = k + 1 := ⟨n - 1, by simp at hn; omega⟩
    rw [callsText_cons] at h hfunc
    simp only [List.length_append, List.length_cons] at hfunc
    have hhead : ∀ x ∈ (c.2 ++ 59 :: callsText calls blanks).head?, isSpace x = false := by
      have hne := hc.ne_nil
      have hhead := hc.head
      cases hcase : c.2 with
      | nil => exact absurd hcase hne
      | cons y l =>
        rw [hcase] at hhead
        exact hhead
    have hread : scan m func (1000 - func) = c.1 ++ (c.2 ++ 59 :: callsText calls blanks) :=
      h.scan (by simp; omega)
    have hcall : scan m (func + c.1.length) (1000 - (func + c.1.length)) = c.2 ++ 59 :: callsText calls blanks :=
      h.drop.scan (by simp; omega)
    have hend : unqstrstr (bytes ";") false (c.2 ++ 59 :: callsText calls blanks) = some c.2.length := by
      have hnone : unqstrstr [59] false c.2 = none := hc.semicolon
      rw [show bytes ";" = [59] from rfl, unqstrstr_append _ hnone, hc.quotes, unqstrstr,
        if_pos (by simp [List.isPrefixOf])]
      simp
    obtain ⟨hfirst, hrest⟩ := h.drop.cut
    obtain ⟨hout, hframe⟩ := call_spec ejHandlers hfirst (show _ < 1000 by omega) st
    have hnext := ih hcalls (call ejHandlers 1000 (write m (func + c.1.length + c.2.length) [0]) (func + c.1.length) st).2
      (hrest.congr fun i hi _ => hframe i (by omega)) (by omega) (Nat.lt_of_succ_lt_succ hn)
    rw [segmentLoop, if_pos (by omega)]
    simp only [hread, takeWhile_blanks hw hhead, hcall, hend]
    rw [hnext, hout, List.foldl_cons, alone_eq ejHandlers hc.nul (by omega)]

/-! ### The end of a segment -/

/-- The tag that ends a segment is not found, and quotation marks are closed. -/
def Untagged (a : Bytes) : Prop := unqstrstr (bytes "%>") false a = none ∧ quoteAfter false a = false

theorem unqstrstr_tag_append {b : Bytes} : ∀ {q : Bool} {a : Bytes}, unqstrstr [37, 62] q a = none →
    (a.getLast? ≠ some 37 ∨ b.head? ≠ some 62) →
      unqstrstr [37, 62] q (a ++ b) = (unqstrstr [37, 62] (quoteAfter q a) b).map (· + a.length)
  | q, [], _, _ => by simp [quoteAfter]
  | q, c :: a, h, hjoin => by
    have hpre : [37, 62].isPrefixOf (c :: (a ++ b)) = [37, 62].isPrefixOf (c :: a) := by
      cases a with
      | cons d a => simp [List.isPrefixOf]
      | nil =>
        cases b with
        | nil => rfl
        | cons d b =>
          have : ¬(c = 37 ∧ d = 62) := by
            rintro ⟨rfl, rfl⟩
            rcases hjoin with hj | hj <;> exact hj rfl
          simp only [List.nil_append, List.isPrefixOf, Bool.and_false, Bool.and_true]
          rw [Bool.and_eq_false_iff, beq_eq_false_iff_ne, beq_eq_false_iff_ne]
          by_cases hc : (37 : UInt8) = c
          · exact .inr fun hd => this ⟨hc.symm, hd.symm⟩
          · exact .inl hc
    have hjoin' : a.getLast? ≠ some 37 ∨ b.head? ≠ some 62 ∨ a = [] := by
      cases a with
      | nil => exact .inr (.inr rfl)
      | cons d a => exact hjoin.imp (fun hj => by simpa using hj) .inl
    rw [unqstrstr] at h
    rw [List.cons_append, unqstrstr, hpre]
    by_cases hc : (!q && [37, 62].isPrefixOf (c :: a)) = true
    · rw [if_pos hc] at h
      cases h
    · rw [if_neg hc] at h ⊢
      have hrest : a.getLast? ≠ some 37 ∨ b.head? ≠ some 62 := by
        rcases hjoin' with hj | hj | rfl
        · exact .inl hj
        · exact .inr hj
        · exact .inl (by simp)
      rw [unqstrstr_tag_append (Option.map_eq_none_iff.mp h) hrest, Option.map_map]
      rfl

theorem Untagged.append {a b : Bytes} (ha : Untagged a) (hb : Untagged b)
    (hjoin : a.getLast? ≠ some 37 ∨ b.head? ≠ some 62) : Untagged (a ++ b) := by
  have h := unqstrstr_tag_append (show unqstrstr [37, 62] false a = none from ha.1) hjoin
  rw [ha.2, show unqstrstr [37, 62] false b = none from hb.1] at h
  exact ⟨h, by rw [quoteAfter_append, ha.2, hb.2]⟩

theorem unqstrstr_tag_of_notMem : ∀ {q : Bool} {a : Bytes}, (37 : UInt8) ∉ a → unqstrstr [37, 62] q a = none
  | _, [], _ => rfl
  | q, c :: a, h => by
    rw [List.mem_cons, not_or] at h
    have hpre : [37, 62].isPrefixOf (c :: a) = false := by
      rw [List.isPrefixOf, beq_false_of_ne h.1, Bool.false_and]
    rw [unqstrstr, hpre, Bool.and_false, unqstrstr_tag_of_notMem h.2]
    rfl

theorem untagged_blanks {w : Bytes} (hw : ∀ x ∈ w, isSpace x = true) : Untagged w ∧ w.getLast? ≠ some 37 := by
  have h37 : (37 : UInt8) ∉ w := fun hmem => absurd (hw 37 hmem) (by decide)
  have h34 : (34 : UInt8) ∉ w := fun hmem => absurd (hw 34 hmem) (by decide)
  exact ⟨⟨unqstrstr_tag_of_notMem h37, quoteAfter_of_notMem h34⟩, fun hlast => h37 (List.mem_of_getLast? hlast)⟩

/-- The tag is not found before the end of the segment. -/
theorem untagged_calls {blanks : Bytes} (hblanks : ∀ x ∈ blanks, isSpace x = true) {calls : List (Bytes × Bytes)}
    (hcalls : ∀ c ∈ calls, (∀ x ∈ c.1, isSpace x = true) ∧ CallOk c.2) :
    Untagged ((calls.flatMap fun c => c.1 ++ c.2 ++ [59]) ++ blanks) := by
  induction calls with
  | nil => exact (untagged_blanks hblanks).1
  | cons c calls ih =>
    rw [List.forall_mem_cons] at hcalls
    obtain ⟨⟨hw, hc⟩, hcalls⟩ := hcalls
    obtain ⟨hw1, hw2⟩ := untagged_blanks hw
    have hend : Untagged [59] := ⟨by decide, by decide⟩
    have hcall : Untagged (c.2 ++ [59]) := Untagged.append ⟨hc.tag, hc.quotes⟩ hend (.inr (by decide))
    rw [List.flatMap_cons, List.append_assoc]
    refine Untagged.append ?_ (ih hcalls) (.inl (by simp))
    rw [List.append_assoc]
    exact hw1.append hcall (.inl hw2)

theorem unqstrstr_mono {needle rest : Bytes} : ∀ {q : Bool} {a : Bytes} {k : ℕ}, unqstrstr needle q a = some k →
    unqstrstr needle q (a ++ rest) = some k
  | q, c :: a, k, h => by
    rw [unqstrstr] at h
    rw [List.cons_append, unqstrstr]
    by_cases hc : (!q && needle.isPrefixOf (c :: a)) = true
    · rw [if_pos hc] at h
      rw [if_pos, h]
      simp only [Bool.and_eq_true, List.isPrefixOf_iff_prefix] at hc ⊢
      exact ⟨hc.1, hc.2.trans (List.prefix_append _ _)⟩
    · rw [if_neg hc] at h
      obtain ⟨j, hj, rfl⟩ := Option.map_eq_some_iff.mp h
      by_cases hc' : (!q && needle.isPrefixOf (c :: (a ++ rest))) = true
      · -- it would be found at the start of the shorter text
        simp only [Bool.and_eq_true, List.isPrefixOf_iff_prefix] at hc hc'
        have hlen : needle.length ≤ (c :: a).length := by
          have h1 := (unqstrstr_some hj).2.length_le
          rw [List.length_drop] at h1
          rw [List.length_cons]
          omega
        exact absurd ⟨hc'.1, List.prefix_of_prefix_length_le hc'.2 (List.prefix_append (c :: a) rest) hlen⟩ hc
      · rw [if_neg hc', unqstrstr_mono hj]
        rfl

theorem Segment.Ok.body_eq {s : Segment} (h : s.Ok) : ∃ a, s.body = a ++ [62] ∧ unqstrstr (bytes "%>") false a = none ∧
    (unqstrstr (bytes "%>") false s.body).isSome = true ∧ (0 : UInt8) ∉ s.body := by
  have hcalls := untagged_calls h.blanks h.calls
  have hfirst := hcalls.append (show Untagged [37] from ⟨by decide, by decide⟩) (.inr (by decide))
  have hbody : s.body = (s.calls.flatMap fun c => c.1 ++ c.2 ++ [59]) ++ s.blanks ++ [37, 62] := rfl
  refine ⟨(s.calls.flatMap fun c => c.1 ++ c.2 ++ [59]) ++ s.blanks ++ [37], by simp [hbody], hfirst.1, ?_, ?_⟩
  · rw [hbody, show bytes "%>" = [37, 62] from rfl,
      unqstrstr_tag_append (show unqstrstr [37, 62] false _ = none from hcalls.1) (.inr (by decide)), hcalls.2]
    rfl
  · have hspace : ∀ w : Bytes, (∀ x ∈ w, isSpace x = true) → (0 : UInt8) ∉ w := fun w hw hmem =>
      absurd (hw 0 hmem) (by decide)
    rw [hbody, List.mem_append, List.mem_append, not_or, not_or, List.mem_flatMap]
    refine ⟨⟨?_, hspace _ h.blanks⟩, by decide⟩
    rintro ⟨c, hc, hmem⟩
    obtain ⟨hw, hcall⟩ := h.calls c hc
    rw [List.mem_append, List.mem_append] at hmem
    rcases hmem with (hmem | hmem) | hmem
    · exact hspace _ hw hmem
    · exact hcall.nul hmem
    · exact absurd hmem (by decide)

/-! ### Steps -/

variable (ejHandlers : List (Handler σ))

/-- The array with a byte more. -/
theorem pattern_append {m : Mem} {l : Bytes} (h : Holds m 0 l) (hz : (0 : UInt8) ∉ l) {c : UInt8} (hc : c ≠ 0) :
    Stands (write (write m l.length [c]) (l.length + 1) [0]) 0 (l ++ [c]) := by
  rw [Stands, holds_append, holds_append, List.mem_append, not_or, List.mem_singleton, List.length_append,
    List.length_singleton]
  simp only [Nat.zero_add]
  refine ⟨⟨⟨?_, ?_⟩, ?_⟩, hz, Ne.symm hc⟩
  · exact holds_write_of_le (holds_write_of_le h (by omega)) (by omega)
  · exact holds_write_of_le (holds_write_same m l.length [c]) (by simp)
  · exact holds_write_same _ _ _

/-- A '<' that is held back. -/
def held (b : Bool) : Bytes := if b then [60] else []

/-- Outside segments the array has nothing or a '<'. -/
structure Idle (s : State σ) (b : Bool) : Prop where
  asp : s.asp = false
  len : s.len = (held b).length
  pattern : Holds s.pattern 0 (held b)

theorem length_held_le (b : Bool) : (held b).length ≤ 1 := by cases b <;> simp [held]

theorem nul_notMem_held (b : Bool) : (0 : UInt8) ∉ held b := by cases b <;> decide

/-- What the array has when the next byte has come. -/
theorem Idle.scan {s : State σ} {b : Bool} (h : Idle s b) {c : UInt8} (hc : c ≠ 0) :
    Stands (write (write s.pattern s.len [c]) (s.len + 1) [0]) 0 (held b ++ [c]) ∧
      scan (write (write s.pattern s.len [c]) (s.len + 1) [0]) 0 1000 = held b ++ [c] := by
  have hstands := pattern_append h.pattern (nul_notMem_held b) hc
  rw [← h.len] at hstands
  refine ⟨hstands, hstands.scan ?_⟩
  have := length_held_le b
  rw [List.length_append, List.length_singleton]
  omega

/-- Text: a '<' is held back, and another byte is put out with it. -/
theorem step_idle {s : State σ} {b : Bool} (h : Idle s b) {c : UInt8} (hc : c ≠ 0) (htag : ¬(b = true ∧ c = 37)) :
    Idle (step ejHandlers s c) (!b && c = 60) ∧
      (step ejHandlers s c).out = if b = false ∧ c = 60 then s.out else (s.out.1, s.out.2 ++ (held b ++ [c])) := by
  obtain ⟨hstands, hscan⟩ := h.scan hc
  have hlen := h.len
  have hle := length_held_le b
  unfold step
  simp only [h.asp, hscan, Bool.not_false, Bool.true_and, Bool.false_eq_true, if_false]
  rw [if_neg (by omega), hlen]
  cases b with
  | true =>
    have hne : c ≠ 37 := fun he => htag ⟨rfl, he⟩
    have hcond : ¬ (held true ++ [c]).take 2 = (bytes "<%").take 2 := by
      simp [held, bytes, hne]
    simp only [held, if_true, List.length_singleton, Nat.reduceAdd] at hcond ⊢
    rw [if_neg (by simpa using hcond)]
    exact ⟨⟨rfl, rfl, trivial⟩, by simp⟩
  | false =>
    by_cases h60 : c = 60
    · subst h60
      rw [hlen] at hstands
      simp only [held, Bool.false_eq_true, if_false, List.length_nil, Nat.reduceAdd, List.nil_append] at hstands ⊢
      rw [if_pos (by decide)]
      exact ⟨⟨rfl, rfl, hstands.1.1, trivial⟩, by simp⟩
    · have hcond : ¬ ([] ++ [c]).take 1 = (bytes "<%").take 1 := by
        simp [bytes, h60]
      simp only [held, Bool.false_eq_true, if_false, List.length_nil, Nat.reduceAdd] at hcond ⊢
      rw [if_neg (by simpa using hcond)]
      refine ⟨⟨rfl, by simp [held, h60], by simp [held, h60, Holds]⟩, by simp [h60]⟩

/-- The tag that begins a segment. -/
theorem step_tag {s : State σ} (h : Idle s true) :
    Stands (step ejHandlers s 37).pattern 0 (bytes "<%") ∧ (step ejHandlers s 37).len = 2 ∧
      (step ejHandlers s 37).asp = true ∧ (step ejHandlers s 37).out = s.out := by
  obtain ⟨hstands, hscan⟩ := h.scan (show (37 : UInt8) ≠ 0 by decide)
  have hlen : s.len = 1 := h.len
  rw [hlen] at hstands hscan
  unfold step
  simp only [h.asp, hlen, Nat.reduceAdd, hscan, Bool.not_false, Bool.true_and]
  rw [if_neg (by decide), if_pos (by decide)]
  exact ⟨hstands, rfl, by simp, rfl⟩

/-- In a segment, before its end. -/
structure Inside (s : State σ) (a : Bytes) (out : σ × Bytes) : Prop where
  asp : s.asp = true
  len : s.len = (bytes "<%" ++ a).length
  pattern : Stands s.pattern 0 (bytes "<%" ++ a)
  out : s.out = out

theorem Inside.scan {s : State σ} {a : Bytes} {out : σ × Bytes} (h : Inside s a out) {c : UInt8} (hc : c ≠ 0)
    (hlen : a.length < 996) :
    Stands (write (write s.pattern s.len [c]) (s.len + 1) [0]) 0 (bytes "<%" ++ (a ++ [c])) ∧
      scan (write (write s.pattern s.len [c]) (s.len + 1) [0]) 2 998 = a ++ [c] := by
  have hstands := pattern_append (holds_append.mp h.pattern.1).1 h.pattern.2 hc
  rw [← h.len, List.append_assoc] at hstands
  refine ⟨hstands, hstands.drop.scan ?_⟩
  rw [List.length_append, List.length_singleton]
  omega

theorem length_tag_append (a : Bytes) : (bytes "<%" ++ a).length = a.length + 2 := by
  rw [List.length_append]
  exact Nat.add_comm _ _

theorem step_inside {s : State σ} {a : Bytes} {out : σ × Bytes} (h : Inside s a out) {c : UInt8} (hc : c ≠ 0)
    (hlen : a.length < 996) (hnone : unqstrstr (bytes "%>") false (a ++ [c]) = none) :
    Inside (step ejHandlers s c) (a ++ [c]) out := by
  obtain ⟨hstands, hscan⟩ := h.scan hc hlen
  have hl := h.len
  rw [length_tag_append] at hl
  unfold step
  simp only [h.asp, hscan, hnone, Bool.not_true, Bool.false_and, Bool.false_eq_true, if_false, if_true,
    Option.isSome_none]
  rw [if_neg (by omega)]
  refine ⟨rfl, ?_, hstands, h.out⟩
  rw [length_tag_append, List.length_append, List.length_singleton, hl]

/-- At the end of a segment its calls are made. -/
theorem step_end {s : State σ} {seg : Segment} (hseg : seg.Ok) {a : Bytes} (hbody : seg.body = a ++ [62])
    {out : σ × Bytes} (h : Inside s a out) :
    Idle (step ejHandlers s 62) false ∧ (step ejHandlers s 62).out = seg.output ejHandlers out := by
  have htext := hseg.length
  rw [Segment.text, length_tag_append, hbody, List.length_append, List.length_singleton] at htext
  obtain ⟨hstands, hscan⟩ := h.scan (show (62 : UInt8) ≠ 0 by decide) (by omega)
  obtain ⟨-, -, -, hfound, -⟩ := hseg.body_eq
  have hl := h.len
  rw [length_tag_append] at hl
  rw [← hbody] at hstands hscan
  have hloop := @segmentLoop_spec σ ejHandlers (s.len + 1) (by omega) seg.blanks hseg.blanks seg.calls hseg.calls
    (s.len + 1) 2 _ out hstands.drop ?_ ?_
  · unfold step
    simp only [h.asp, hscan, hfound, Bool.not_true, Bool.false_and, Bool.false_eq_true, if_false, if_true]
    rw [if_neg (by omega)]
    rw [h.out, hloop]
    exact ⟨⟨rfl, rfl, trivial⟩, rfl⟩
  · show 2 + seg.body.length = s.len + 1
    rw [hbody, List.length_append, List.length_singleton]
    omega
  · have hcount : seg.calls.length ≤ seg.body.length := by
      rw [Segment.body, List.length_append, List.length_append, List.length_flatMap]
      have := @List.length_le_sum_of_one_le (seg.calls.map fun c => (c.1 ++ c.2 ++ [59]).length) ?_
      · rw [List.length_map] at this
        omega
      · intro n hn
        obtain ⟨c, -, rfl⟩ := List.mem_map.mp hn
        rw [List.length_append]
        exact Nat.le_add_left _ _
    rw [hbody, List.length_append, List.length_singleton] at hcount
    omega

/-- A segment behind text that ends in an even number of '<'. -/
theorem run_segment {s : State σ} (h : Idle s false) {seg : Segment} (hseg : seg.Ok) :
    Idle (seg.text.foldl (step ejHandlers) s) false ∧
      (seg.text.foldl (step ejHandlers) s).out = seg.output ejHandlers s.out := by
  obtain ⟨a, hbody, hnone, -, hz⟩ := hseg.body_eq
  have htext := hseg.length
  rw [Segment.text, length_tag_append, hbody, List.length_append, List.length_singleton] at htext
  rw [hbody, List.mem_append, not_or] at hz
  -- the tag
  obtain ⟨h1, hout1⟩ := step_idle ejHandlers h (c := 60) (by decide) (by simp)
  obtain ⟨h2, hlen2, hasp2, hout2⟩ := step_tag ejHandlers h1
  have hstart : Inside (step ejHandlers (step ejHandlers s 60) 37) [] s.out :=
    ⟨hasp2, hlen2, by rwa [List.append_nil], by rw [hout2, hout1]; simp⟩
  -- the bytes up to the last one
  have hrun : ∀ b, b <+: a → Inside (b.foldl (step ejHandlers) (step ejHandlers (step ejHandlers s 60) 37)) b s.out := by
    intro b
    induction b using List.reverseRecOn with
    | nil => exact fun _ => hstart
    | append_singleton b c ih =>
      intro hb
      have hb' : b <+: a := (List.prefix_append b [c]).trans hb
      have hle := hb.length_le
      rw [List.length_append, List.length_singleton] at hle
      have hc : c ≠ 0 := by
        rintro rfl
        exact hz.1 (hb.subset (by simp))
      rw [List.foldl_append]
      refine step_inside ejHandlers (ih hb') hc (by omega) ?_
      cases hfound : unqstrstr (bytes "%>") false (b ++ [c]) with
      | none => rfl
      | some k =>
        obtain ⟨rest, hrest⟩ := hb
        have := @unqstrstr_mono _ rest _ _ _ hfound
        rw [hrest, hnone] at this
        cases this
  obtain ⟨hidle, hout⟩ := step_end ejHandlers hseg hbody (hrun a (List.prefix_refl a))
  have hfold : seg.text.foldl (step ejHandlers) s =
      step ejHandlers (a.foldl (step ejHandlers) (step ejHandlers (step ejHandlers s 60) 37)) 62 := by
    rw [Segment.text, hbody, List.foldl_append, List.foldl_append]
    rfl
  rw [hfold]
  exact ⟨hidle, hout⟩

/-! ### Text -/

/-- Whether a '<' is held back behind a text. -/
def hangs (b : Bool) (l : Bytes) : Bool := l.foldl (fun b c => !b && c = 60) b

theorem hangs_append (l : Bytes) (c : UInt8) : hangs false (l ++ [c]) = (!hangs false l && c = 60) := by
  simp [hangs]

theorem openings_append (l : Bytes) (c : UInt8) : openings (l ++ [c]) = if c = 60 then openings l + 1 else 0 := by
  rw [openings, List.reverse_append, List.reverse_singleton, List.singleton_append, List.takeWhile_cons]
  by_cases h : c = 60 <;> simp [h, openings]

/-- Pairs of '<' are put out. -/
theorem hangs_eq_false_iff (l : Bytes) : hangs false l = false ↔ Even (openings l) := by
  induction l using List.reverseRecOn with
  | nil => simp [hangs, openings]
  | append_singleton l c ih =>
    rw [hangs_append, openings_append]
    by_cases h : c = 60
    · rw [if_pos h, Nat.even_add_one, ← ih]
      simp [h]
    · simp [h]

/-- Text is put out, but for a '<' that is held back. -/
theorem run_literal : ∀ {l : Bytes} {s : State σ} {b : Bool}, Idle s b → (0 : UInt8) ∉ l →
    ¬ bytes "<%" <:+: held b ++ l → ∃ settled, settled ++ held (hangs b l) = held b ++ l ∧
      Idle (l.foldl (step ejHandlers) s) (hangs b l) ∧
      (l.foldl (step ejHandlers) s).out = (s.out.1, s.out.2 ++ settled) := by
  intro l
  induction l with
  | nil =>
    intro s b h _ _
    exact ⟨[], by simp [hangs], h, by simp⟩
  | cons c l ih =>
    intro s b h hz htag
    rw [List.mem_cons, not_or] at hz
    have hnot : ¬(b = true ∧ c = 37) := by
      rintro ⟨rfl, rfl⟩
      exact htag ⟨[], l, rfl⟩
    obtain ⟨h1, hout1⟩ := step_idle ejHandlers h (Ne.symm hz.1) hnot
    by_cases hcase : b = false ∧ c = 60
    · obtain ⟨rfl, rfl⟩ := hcase
      obtain ⟨settled, hs1, hs2, hs3⟩ := ih h1 hz.2 htag
      refine ⟨settled, hs1, hs2, ?_⟩
      rw [List.foldl_cons, hs3, hout1]
      simp
    · have hb : (!b && decide (c = 60)) = false := by
        cases b <;> simp at hcase ⊢
        exact hcase
      have htag' : ¬ bytes "<%" <:+: held false ++ l := by
        intro hin
        apply htag
        exact hin.trans ((List.suffix_cons c l).isInfix.trans (List.suffix_append _ _).isInfix)
      rw [hb] at h1
      obtain ⟨settled, hs1, hs2, hs3⟩ := ih h1 hz.2 htag'
      have hhangs : hangs b (c :: l) = hangs false l := by rw [hangs, List.foldl_cons, hb, hangs]
      rw [hhangs]
      refine ⟨held b ++ [c] ++ settled, ?_, hs2, ?_⟩
      · rw [List.append_assoc, hs1]
        simp [held]
      · rw [List.foldl_cons, hs3, hout1, if_neg hcase]
        simp

theorem Idle.literal {s : State σ} (h : Idle s false) {l : Bytes} (hl : Literal l) :
    ∃ settled, settled ++ held (hangs false l) = l ∧ Idle (l.foldl (step ejHandlers) s) (hangs false l) ∧
      (l.foldl (step ejHandlers) s).out = (s.out.1, s.out.2 ++ settled) :=
  run_literal ejHandlers h hl.1 hl.2

/-! ### Pages -/

def partsText (parts : List (Bytes × Segment)) : Bytes := parts.flatMap fun q => q.1 ++ q.2.text

/-- The text and the output of the calls, behind what has been put out. -/
def rendering (parts : List (Bytes × Segment)) (st : σ × Bytes) : σ × Bytes :=
  parts.foldl (fun st q => q.2.output ejHandlers (st.1, st.2 ++ q.1)) st

/-- Where no '<' hangs, text and segments are rendered. -/
theorem run_parts {parts : List (Bytes × Segment)} (hok : ∀ q ∈ parts, Literal q.1 ∧ q.2.Ok)
    (heven : ∀ q ∈ parts, Even (openings q.1)) : ∀ {s : State σ}, Idle s false →
      Idle ((partsText parts).foldl (step ejHandlers) s) false ∧
        ((partsText parts).foldl (step ejHandlers) s).out = rendering ejHandlers parts s.out := by
  induction parts with
  | nil => exact fun h => ⟨h, rfl⟩
  | cons q parts ih =>
    intro s h
    rw [List.forall_mem_cons] at hok heven
    obtain ⟨settled, hsettled, hidle, hout⟩ := h.literal ejHandlers hok.1.1
    rw [(hangs_eq_false_iff q.1).mpr heven.1] at hsettled hidle
    obtain ⟨hidle, hseg⟩ := run_segment ejHandlers hidle hok.1.2
    obtain ⟨ih1, ih2⟩ := ih hok.2 heven.2 hidle
    rw [partsText, List.flatMap_cons, List.foldl_append, List.foldl_append]
    refine ⟨ih1, ?_⟩
    have hsettled' : settled = q.1 := by rw [← hsettled]; exact (List.append_nil _).symm
    show ((partsText parts).foldl (step ejHandlers) _).out = _
    rw [ih2, hseg, hout, hsettled', rendering, rendering, List.foldl_cons]

/-! ### Where a '<' hangs -/

theorem grows_handlers (name : Bytes) (args : List CStr) : ∀ (l : List (Handler σ)) (st : σ × Bytes),
    st.2 <+: (l.foldl (Handler.run name args) st).2
  | [], _ => List.prefix_refl _
  | h :: l, st => by
    have hstep : st.2 <+: (Handler.run name args st h).2 := by
      unfold Handler.run
      split_ifs
      · exact List.prefix_append _ _
      · exact List.prefix_refl _
    exact hstep.trans (grows_handlers name args l _)

theorem grows_call (size : ℕ) (m : Mem) (func : ℕ) (st : σ × Bytes) :
    st.2 <+: (call ejHandlers size m func st).2.2 := by
  unfold call
  cases parse size m func with
  | none => exact List.prefix_refl _
  | some r => exact grows_handlers _ _ ejHandlers st

theorem grows_segmentLoop (len : ℕ) : ∀ (n : ℕ) (m : Mem) (func : ℕ) (st : σ × Bytes),
    st.2 <+: (segmentLoop ejHandlers len n m func st).2.2
  | 0, _, _, _ => List.prefix_refl _
  | n + 1, m, func, st => by
    rw [segmentLoop]
    split_ifs
    · dsimp only
      cases unqstrstr (bytes ";") false _ with
      | none => exact List.prefix_refl _
      | some k => exact (grows_call ejHandlers _ _ _ st).trans (grows_segmentLoop len n _ _ _)
    · exact List.prefix_refl _

/-- What has been put out stays. -/
theorem grows_step (s : State σ) (c : UInt8) : s.out.2 <+: (step ejHandlers s c).out.2 := by
  unfold step
  dsimp only
  split_ifs
  · exact List.prefix_append _ _
  · exact List.prefix_refl _
  · exact grows_segmentLoop ejHandlers _ _ _ _ _
  · exact List.prefix_refl _
  · exact List.prefix_append _ _

theorem grows_run : ∀ (file : Bytes) (s : State σ), s.out.2 <+: (file.foldl (step ejHandlers) s).out.2
  | [], _ => List.prefix_refl _
  | c :: file, s => (grows_step ejHandlers s c).trans (grows_run file _)

theorem grows_output (seg : Segment) (st : σ × Bytes) : st.2 <+: (seg.output ejHandlers st).2 := by
  unfold Segment.output
  induction seg.calls generalizing st with
  | nil => exact List.prefix_refl _
  | cons c calls ih => exact (grows_call ejHandlers _ _ _ st).trans (ih _)

theorem grows_rendering : ∀ (parts : List (Bytes × Segment)) (st : σ × Bytes),
    st.2 <+: (rendering ejHandlers parts st).2
  | [], _ => List.prefix_refl _
  | q :: parts, st =>
    ((List.prefix_append st.2 q.1).trans (grows_output ejHandlers q.2 (st.1, st.2 ++ q.1))).trans
      (grows_rendering parts _)

/-- A handler of every call, which puts out a NUL. -/
def marker : Handler Unit := ⟨⟨[], List.not_mem_nil⟩, fun _ _ => ((), [0])⟩

theorem called_marker {c : Bytes} (hc : (callOf c).isSome = true) (st : Unit × Bytes) :
    called [marker] c st = ((), st.2 ++ [0]) := by
  unfold called
  obtain ⟨r, hr⟩ := Option.isSome_iff_exists.mp hc
  rw [hr]
  rfl

/-- The output of a segment starts with the first call's. -/
theorem marker_output {seg : Segment} (h : seg.Ok) (st : Unit × Bytes) :
    st.2 ++ [0] <+: (seg.output [marker] st).2 := by
  have hlen := h.length
  cases hcalls : seg.calls with
  | nil => exact absurd hcalls h.calls_ne
  | cons c calls =>
    obtain ⟨-, hc⟩ := h.calls c (by rw [hcalls]; exact List.mem_cons_self)
    have hle : c.2.length < 1000 := by
      rw [Segment.text, length_tag_append, Segment.body, hcalls, List.flatMap_cons] at hlen
      simp only [List.length_append] at hlen
      omega
    have hfirst : alone [marker] c.2 st = ((), st.2 ++ [0]) := by
      rw [alone_eq [marker] hc.nul hle, called_marker hc.call]
    have hrest : ∀ (l : List (Bytes × Bytes)) (st : Unit × Bytes),
        st.2 <+: (l.foldl (fun st c => alone [marker] c.2 st) st).2 := by
      intro l
      induction l with
      | nil => exact fun _ => List.prefix_refl _
      | cons d l ih => exact fun st => (grows_call [marker] _ _ _ st).trans (ih _)
    unfold Segment.output
    rw [hcalls, List.foldl_cons, hfirst]
    exact hrest calls ((), st.2 ++ [0])

/-- Two texts that go on differently. -/
theorem not_prefix_both {l r : Bytes} {x y : UInt8} (hne : x ≠ y) (hx : l ++ [x] <+: r) : ¬ l ++ [y] <+: r := by
  intro hy
  have hlen : (l ++ [x]).length = (l ++ [y]).length := by simp
  have heq := (List.prefix_of_prefix_length_le hx hy hlen.le).eq_of_length hlen
  have := List.append_cancel_left heq
  exact hne (List.singleton_inj.mp this)

/-- If the output with markers is right, no '<' hangs. -/
theorem even_of_rendered {parts : List (Bytes × Segment)} {last : Bytes}
    (hok : ∀ q ∈ parts, Literal q.1 ∧ q.2.Ok) (hlast : Literal last) : ∀ {s : State Unit}, Idle s false →
      ((partsText parts ++ last).foldl (step [marker]) s).out.2 = (rendering [marker] parts s.out).2 ++ last →
      (∀ q ∈ parts, Even (openings q.1)) ∧ Even (openings last) := by
  induction parts with
  | nil =>
    intro s h hout
    refine ⟨by simp, ?_⟩
    obtain ⟨settled, hsettled, -, hrun⟩ := h.literal [marker] hlast
    rw [← hangs_eq_false_iff]
    show hangs false last = false
    rw [partsText, List.flatMap_nil, List.nil_append, hrun] at hout
    have hsame : settled = last := List.append_cancel_left hout
    cases hh : hangs false last with
    | false => rfl
    | true =>
      rw [hh, hsame] at hsettled
      simp [held] at hsettled
  | cons q parts ih =>
    intro s h hout
    rw [List.forall_mem_cons] at hok
    obtain ⟨settled, hsettled, hidle, hrun⟩ := h.literal [marker] hok.1.1
    have htext : partsText (q :: parts) ++ last = q.1 ++ (q.2.text ++ (partsText parts ++ last)) := by
      simp [partsText]
    rw [htext, List.foldl_append, List.foldl_append] at hout
    set s₁ := q.1.foldl (step [marker]) s with hs₁
    cases hh : hangs false q.1 with
    | true =>
      -- the tag is put out as text, but a call has been made where it stands
      exfalso
      rw [hh] at hsettled hidle
      obtain ⟨-, hnext⟩ := step_idle [marker] hidle (c := 60) (by decide) (by decide)
      rw [if_neg (by simp), hrun] at hnext
      have hactual : s.out.2 ++ q.1 ++ [60] <+: (rendering [marker] (q :: parts) s.out).2 ++ last := by
        rw [← hout]
        have hgrow := grows_run [marker] (37 :: q.2.body ++ (partsText parts ++ last)) (step [marker] s₁ 60)
        rw [hnext] at hgrow
        have heq : s.out.2 ++ settled ++ (held true ++ [60]) = s.out.2 ++ q.1 ++ [60] := by
          rw [← hsettled]
          simp
        rw [← heq, ← List.foldl_append]
        exact hgrow
      have hexpected : s.out.2 ++ q.1 ++ [0] <+: (rendering [marker] (q :: parts) s.out).2 ++ last :=
        ((marker_output hok.1.2 (s.out.1, s.out.2 ++ q.1)).trans (grows_rendering [marker] parts _)).trans
          (List.prefix_append _ _)
      exact not_prefix_both (by decide) hactual hexpected
    | false =>
      rw [hh] at hsettled hidle
      obtain ⟨hidle₂, hseg⟩ := run_segment [marker] hidle hok.1.2
      have hsettled' : settled = q.1 := by rw [← hsettled]; exact (List.append_nil _).symm
      have hgoal := ih hok.2 hidle₂ (by rw [hout, hseg, hrun, hsettled']; rfl)
      rw [List.forall_mem_cons]
      exact ⟨⟨(hangs_eq_false_iff q.1).mp hh, hgoal.1⟩, hgoal.2⟩

/-- A page is rendered if an even number of '<' is in front of each segment and at the end of the file. -/
theorem doEj_iff (page : Page) (hok : page.Ok) :
    page.Rendered ↔ (∀ q ∈ page.parts, Even (openings q.1)) ∧ Even (openings page.last) := by
  constructor
  · intro h
    have hrun := congrArg Prod.snd (h Unit [marker] (fun _ => 0) ())
    exact even_of_rendered hok.parts hok.last (s := ⟨fun _ => 0, 0, false, ((), [])⟩) ⟨rfl, rfl, trivial⟩ hrun
  · rintro ⟨hparts, hlast⟩ σ ejHandlers pattern st
    obtain ⟨hidle, hout⟩ := run_parts ejHandlers hok.parts hparts
      (s := ⟨pattern, 0, false, (st, [])⟩) ⟨rfl, rfl, trivial⟩
    obtain ⟨settled, hsettled, -, hend⟩ := hidle.literal ejHandlers hok.last
    rw [(hangs_eq_false_iff page.last).mpr hlast] at hsettled
    have hsettled' : settled = page.last := by rw [← hsettled]; exact (List.append_nil _).symm
    rw [doEj, Page.text, List.foldl_append]
    show (page.last.foldl (step ejHandlers) ((partsText page.parts).foldl _ _)).out = _
    rw [hend, hout, hsettled']
    rfl

/-- `<% f(); %>`. -/
def oneCall : Segment := ⟨[(bytes " ", bytes "f()")], bytes " "⟩

theorem oneCall_ok : oneCall.Ok where
  calls_ne := List.cons_ne_nil _ _
  calls := by
    rw [oneCall, List.forall_mem_singleton]
    exact ⟨by decide, ⟨by decide, by simp [bytes, isSpace], by decide, by decide, by decide, by decide⟩⟩
  blanks := by decide
  length := by decide

theorem doEj_comparison : Page.Rendered ⟨[(bytes "a<<", oneCall)], bytes "1 << 2"⟩ := by
  refine (doEj_iff _ ⟨?_, by decide, by decide⟩).mpr ⟨?_, by decide⟩
  · rw [List.forall_mem_singleton]
    exact ⟨⟨by decide, by decide⟩, oneCall_ok⟩
  · rw [List.forall_mem_singleton]
    decide

/-- In `a<<% f(); %>` the tag is missed. -/
theorem doEj_misses_tag : ¬ ∀ page : Page, page.Ok → page.Rendered := by
  intro h
  have hok : ∀ q ∈ [(bytes "a<", oneCall)], Literal q.1 ∧ q.2.Ok := by
    rw [List.forall_mem_singleton]
    exact ⟨⟨by decide, by decide⟩, oneCall_ok⟩
  have hlast : Literal [] := ⟨by decide, by decide⟩
  have hrun := congrArg Prod.snd (h ⟨_, []⟩ ⟨hok, hlast⟩ Unit [marker] (fun _ => 0) ())
  obtain ⟨heven, -⟩ := even_of_rendered hok hlast (s := ⟨fun _ => 0, 0, false, ((), [])⟩) ⟨rfl, rfl, trivial⟩ hrun
  exact absurd (heven _ List.mem_cons_self) (by decide)

end Ej
end Httpd
end Router
