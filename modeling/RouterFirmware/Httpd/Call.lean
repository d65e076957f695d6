/-
# Calls in pages

`router/httpd/ej.c`: `call` finds the argument list of a call, splits it at the commas that are not quoted, and calls
the handlers of the page whose pattern the name starts with. Each argument is cut out in place by `get_arg`, which
takes blanks and quotation marks away on either end.

What the handlers are called with is a function of the text of the call (`argsOf`, `parse_spec`), and it is what stands
between the quotation marks unless that begins or ends with a blank (`call_args_iff`). The positions that `get_arg`
comes to stay within the argument unless nothing is left of it.

A position is counted from the start of the buffer, of `size` bytes; the byte in front of an argument list is in
the buffer, as the name of the call is in front of it.
-/
import RouterFirmware.Lib.InPlace
import Mathlib.Data.List.DropRight

namespace Router
namespace Httpd
namespace Ej

open CMem CText

/-- `unqstrstr(haystack, needle)`: how far in `haystack` it is. The flag says whether a quotation mark is open. -/
def unqstrstr (needle : Bytes) : Bool → Bytes → Option ℕ
  | _, [] => none
  | q, c :: s =>
    if !q && needle.isPrefixOf (c :: s) then some 0
    else (unqstrstr needle (if c = 34 then !q else q) s).map (· + 1)

/-- `isspace((int)*arg) || *arg == '"'`. -/
def blank (c : UInt8) : Bool := isSpace c || c == 34

/-- The second loop of `get_arg`, with `end` at `e`: NULs over what is blank, and where `end` stops. -/
def trimEnd (m : Mem) : ℕ → Mem × ℕ
  | 0 => (m, 0)
  | e + 1 => if blank (m (e + 1)) then trimEnd (write m (e + 1) [0]) e else (m, e + 1)

/-- A call of `get_arg`: where it starts, what it returns, and where `end` stops. -/
structure Turn where
  args : ℕ
  arg : ℕ
  last : ℕ

/-- `get_arg(args, &next)`: the buffer, what it does, and `next`. -/
def getArg (size : ℕ) (m : Mem) (args : ℕ) : Mem × Turn × Option ℕ :=
  let text := scan m args (size - args)
  let comma := unqstrstr (bytes ",") false text
  let e := args + comma.getD text.length
  let r := trimEnd (write m e [0]) (e - 1)
  (r.1, ⟨args, args + (text.takeWhile blank).length, r.2⟩, comma.map fun _ => e + 1)

/-- The loop that sets up `argv`, with room for `n` more. -/
def setArgv (size : ℕ) : ℕ → Mem → Option ℕ → Mem × List Turn
  | n + 1, m, some args =>
    if m args = 0 then (m, [])
    else
      let r := getArg size m args
      let rest := setArgv size n r.1 r.2.2
      (rest.1, r.2.1 :: rest.2)
  | _, m, _ => (m, [])

/-- The part of `call(func, stream)` before the handlers: the buffer and what `get_arg` has done. -/
def parse (size : ℕ) (m : Mem) (func : ℕ) : Option (Mem × List Turn) := do
  let text := scan m func (size - func)
  let args ← text.findIdx? (· = 40)
  let close ← unqstrstr (bytes ")") false text
  some (setArgv size 16 (write (write m (func + close) [0]) (func + args) [0]) (some (func + args + 1)))

/-- `argv[0..argc]`. -/
def argv (size : ℕ) (m : Mem) (turns : List Turn) : List CStr := turns.map fun t => readStr m t.arg (size - t.arg)

/-- A row of `ej_handlers`; what it puts out depends on the rest of the system. -/
structure Handler (σ : Type) where
  pattern : CStr
  output : List CStr → σ → σ × Bytes

/-- A handler is called if the name starts with its pattern. -/
def Handler.run {σ : Type} (name : Bytes) (args : List CStr) (st : σ × Bytes) (h : Handler σ) : σ × Bytes :=
  if h.pattern.bytes.isPrefixOf name then
    let r := h.output args st.1
    (r.1, st.2 ++ r.2)
  else st

/-- `call(func, stream)`: the buffer, the system and what has been put out. -/
def call {σ : Type} (ejHandlers : List (Handler σ)) (size : ℕ) (m : Mem) (func : ℕ) (st : σ × Bytes) :
    Mem × σ × Bytes :=
  match parse size m func with
  | none => (m, st)
  | some (m, turns) =>
    (m, ejHandlers.foldl (Handler.run (scan m func (size - func)) (argv size m turns)) st)

/-! ### What it comes to -/

/-- What is left of an argument. -/
def trimmed (l : Bytes) : Bytes := (l.dropWhile blank).rdropWhile blank

/-- The arguments as they stand in the list, at most `n`. -/
def piecesOf : ℕ → Bytes → List Bytes
  | n + 1, c :: text =>
    match unqstrstr (bytes ",") false (c :: text) with
    | none => [c :: text]
    | some k => (c :: text).take k :: piecesOf n ((c :: text).drop (k + 1))
  | _, _ => []

def argsOf (text : Bytes) : List Bytes := (piecesOf 16 text).map trimmed

/-- The name and the argument list of a call. -/
def callOf (text : Bytes) : Option (Bytes × Bytes) := do
  let args ← text.findIdx? (· = 40)
  let close ← unqstrstr (bytes ")") false text
  some (text.take (min args close),
    if args < close then (text.drop (args + 1)).take (close - args - 1) else text.drop (args + 1))

/-! ### Searching and trimming -/

/-- What is found stands there. -/
theorem unqstrstr_some {needle : Bytes} : ∀ {q : Bool} {s : Bytes} {k : ℕ}, unqstrstr needle q s = some k →
    k < s.length ∧ needle <+: s.drop k
  | q, c :: s, k, h => by
    rw [unqstrstr] at h
    by_cases hc : (!q && needle.isPrefixOf (c :: s)) = true
    · rw [if_pos hc] at h
      cases h
      simp only [Bool.and_eq_true, Bool.not_eq_true'] at hc
      exact ⟨by simp, List.isPrefixOf_iff_prefix.mp hc.2⟩
    · rw [if_neg hc] at h
      obtain ⟨j, hj, rfl⟩ := Option.map_eq_some_iff.mp h
      obtain ⟨h1, h2⟩ := unqstrstr_some hj
      exact ⟨by simpa using h1, h2⟩

/-- A character that is found, in the text. -/
theorem split_of_unqstrstr {x : UInt8} {q : Bool} {s : Bytes} {k : ℕ} (h : unqstrstr [x] q s = some k) :
    s = s.take k ++ x :: s.drop (k + 1) ∧ (s.take k).length = k := by
  obtain ⟨hk, rest, hrest⟩ := unqstrstr_some h
  refine ⟨?_, by simp; omega⟩
  rw [← List.drop_drop, ← hrest]
  simp only [List.singleton_append, List.drop_succ_cons, List.drop_zero]
  rw [← List.singleton_append, hrest, List.take_append_drop]

theorem trimmed_eq_nil {l : Bytes} : trimmed l = [] ↔ ∀ c ∈ l, blank c = true := by
  unfold trimmed
  rw [List.rdropWhile_eq_nil_iff]
  constructor
  · intro h c hc
    rw [← List.takeWhile_append_dropWhile (p := blank) (l := l), List.mem_append] at hc
    rcases hc with hc | hc
    · exact List.mem_takeWhile_imp hc
    · exact h c hc
  · intro h c hc
    exact h c (List.dropWhile_sublist blank |>.subset hc)

theorem rdropWhile_append (a b : Bytes) : (a ++ b).rdropWhile blank =
    if b.rdropWhile blank = [] then a.rdropWhile blank else a ++ b.rdropWhile blank := by
  unfold List.rdropWhile
  rw [List.reverse_append, List.dropWhile_append]
  by_cases h : b.reverse.dropWhile blank = []
  · simp [h]
  · simp [h]

variable {size n p : ℕ} {m : Mem}

/-- Trimming keeps the text up to the last byte that is not blank. -/
theorem trimEnd_spec (hp : 1 ≤ p) : ∀ {l : Bytes} {m : Mem}, Holds m p l → blank (m (p - 1)) = false →
    Holds (trimEnd m (p + l.length - 1)).1 p
        (l.rdropWhile blank ++ List.replicate (l.length - (l.rdropWhile blank).length) 0) ∧
      (∀ i, i < p ∨ p + l.length ≤ i → (trimEnd m (p + l.length - 1)).1 i = m i) ∧
      (trimEnd m (p + l.length - 1)).2 = p + (l.rdropWhile blank).length - 1 := by
  intro l
  induction l using List.reverseRecOn with
  | nil =>
    intro m _ hb
    have hstop : trimEnd m (p - 1) = (m, p - 1) := by
      cases hq : p - 1 with
      | zero => rfl
      | succ q => rw [trimEnd, if_neg (by rw [← hq, hb]; exact Bool.false_ne_true)]
    simp [hstop, Holds]
  | append_singleton l x ih =>
    intro m hm hb
    rw [holds_append] at hm
    have hx : m (p + l.length) = x := hm.2.1
    have he : p + (l ++ [x]).length - 1 = p + l.length - 1 + 1 := by
      rw [List.length_append, List.length_singleton]
      omega
    have he' : p + l.length - 1 + 1 = p + l.length := by omega
    rw [he, trimEnd, he', hx, List.rdropWhile_concat]
    split_ifs with hblank
    · have hb' : blank (write m (p + l.length) [0] (p - 1)) = false := by
        rw [write_of_lt (by omega)]
        exact hb
      obtain ⟨ih1, ih2, ih3⟩ := ih (@holds_write_of_le _ p (p + l.length) l [0] hm.1 (le_refl _)) hb'
      refine ⟨?_, fun i hi => ?_, ih3⟩
      · have hle : (l.rdropWhile blank).length ≤ l.length := ( List.rdropWhile_prefix blank l).length_le
        have hmore : l.length + 1 - (l.rdropWhile blank).length = l.length - (l.rdropWhile blank).length + 1 := by omega
        rw [List.length_append, List.length_singleton, hmore, List.replicate_succ', ← List.append_assoc, holds_append]
        refine ⟨ih1, ?_, trivial⟩
        rw [List.length_append, List.length_replicate, Nat.add_sub_cancel' hle, ih2 _ (by omega)]
        exact (holds_write_same m (p + l.length) [0]).1
      · rw [List.length_append, List.length_singleton] at hi
        rw [ih2 i (by omega)]
        rcases hi with hi | hi
        · exact write_of_lt (by omega)
        · exact write_of_ge (by simp; omega)
    · refine ⟨?_, fun i _ => rfl, ?_⟩
      · simp only [Nat.sub_self, List.replicate_zero, List.append_nil]
        exact holds_append.mpr hm
      · rw [List.length_append, List.length_singleton]
        omega

/-- The argument list up to its first comma. -/
def firstOf (text : Bytes) : Bytes := text.take ((unqstrstr (bytes ",") false text).getD text.length)

theorem firstOf_split (text : Bytes) : ∃ rest, text = firstOf text ++ rest ∧ rest.takeWhile blank = [] ∧
    (firstOf text).length = (unqstrstr (bytes ",") false text).getD text.length := by
  unfold firstOf
  cases h : unqstrstr (bytes ",") false text with
  | none => exact ⟨[], by simp, rfl, by simp⟩
  | some k =>
    obtain ⟨hsplit, hlen⟩ := @split_of_unqstrstr 44 false text k h
    exact ⟨44 :: text.drop (k + 1), hsplit, List.takeWhile_cons_of_neg (by decide), hlen⟩

theorem takeWhile_firstOf (text : Bytes) : text.takeWhile blank = (firstOf text).takeWhile blank := by
  obtain ⟨rest, hsplit, hrest, -⟩ := firstOf_split text
  conv_lhs => rw [hsplit, List.takeWhile_append, hrest, List.append_nil]
  split_ifs with h
  · exact ( List.takeWhile_prefix blank |>.eq_of_length h).symm
  · rfl

/-- `get_arg` returns the trimmed argument, and changes nothing but the argument and what ends it. -/
theorem getArg_spec {text : Bytes} {args : ℕ} (h : Stands m args text) (hargs : 1 ≤ args)
    (hb : blank (m (args - 1)) = false) (hsize : args + text.length < size) :
    let r := getArg size m args
    let piece := firstOf text
    Stands r.1 r.2.1.arg (trimmed piece) ∧ args ≤ r.2.1.arg ∧
      r.2.1.arg + (trimmed piece).length ≤ args + piece.length ∧
      (∀ i, i < args ∨ args + piece.length < i → r.1 i = m i) ∧ r.1 (args + piece.length) = 0 ∧
      (r.2.1.args ≤ r.2.1.last ↔ trimmed piece ≠ []) := by
  intro r piece
  obtain ⟨rest, hsplit, -, hlen⟩ := firstOf_split text
  have hr : r = ((trimEnd (write m (args + piece.length) [0]) (args + piece.length - 1)).1,
      ⟨args, args + (piece.takeWhile blank).length,
        (trimEnd (write m (args + piece.length) [0]) (args + piece.length - 1)).2⟩,
      (unqstrstr (bytes ",") false text).map fun _ => args + piece.length + 1) := by
    show getArg size m args = _
    unfold getArg
    simp only [h.scan (show text.length < size - args by omega), takeWhile_firstOf text, ← hlen]
    rfl
  have hholds : Holds m args piece := by
    have hall := h.1
    rw [hsplit, List.append_assoc, holds_append] at hall
    exact hall.1
  set m₀ := write m (args + piece.length) [0] with hm₀
  have hnul : m₀ (args + piece.length) = 0 := (holds_write_same m (args + piece.length) [0]).1
  obtain ⟨ht1, ht2, ht3⟩ := @trimEnd_spec args hargs piece m₀ (holds_write_of_le hholds (le_refl _))
    (by rw [hm₀, write_of_lt (by omega)]; exact hb)
  set m' := (trimEnd m₀ (args + piece.length - 1)).1 with hm'
  have hend : m' (args + piece.length) = 0 := by rw [ht2 _ (by omega), hnul]
  have hframe : ∀ i, i < args ∨ args + piece.length < i → m' i = m i := by
    intro i hi
    rw [ht2 i (by omega)]
    rcases hi with hi | hi
    · exact write_of_lt (by omega)
    · exact write_of_ge (by simp; omega)
  have hparts : piece.takeWhile blank ++ piece.dropWhile blank = piece := List.takeWhile_append_dropWhile
  have hcount : (piece.takeWhile blank).length + (piece.dropWhile blank).length = piece.length := by
    rw [← List.length_append, hparts]
  have hle : (trimmed piece).length ≤ (piece.dropWhile blank).length := ( List.rdropWhile_prefix blank _).length_le
  have hnotMem : (0 : UInt8) ∉ trimmed piece := by
    intro hmem
    apply h.2
    rw [hsplit]
    exact List.mem_append_left _ ((List.dropWhile_sublist blank).subset (( List.rdropWhile_prefix blank _).subset hmem))
  rw [hr]
  refine ⟨?_, Nat.le_add_right _ _, by dsimp only; omega, hframe, hend, ?_⟩
  · by_cases hnil : trimmed piece = []
    · have htw : piece.takeWhile blank = piece := List.takeWhile_eq_self_iff.mpr (trimmed_eq_nil.mp hnil)
      rw [hnil, htw]
      exact ⟨⟨hend, trivial⟩, by simp⟩
    · refine ⟨?_, hnotMem⟩
      have hrd : piece.rdropWhile blank = piece.takeWhile blank ++ trimmed piece := by
        conv_lhs => rw [← hparts, rdropWhile_append]
        exact if_neg hnil
      have hall : Holds m' args (piece.rdropWhile blank ++
          (List.replicate (piece.length - (piece.rdropWhile blank).length) 0 ++ [0])) := by
        have hrdle := ( List.rdropWhile_prefix blank piece).length_le
        rw [← List.append_assoc, holds_append]
        refine ⟨ht1, ?_, trivial⟩
        rw [List.length_append, List.length_replicate, Nat.add_sub_cancel' hrdle]
        exact hend
      rw [← List.replicate_succ', List.replicate_succ, hrd, List.append_assoc, holds_append] at hall
      rw [holds_append] at hall ⊢
      exact ⟨hall.2.1, hall.2.2.1, trivial⟩
  · show args ≤ (trimEnd m₀ (args + piece.length - 1)).2 ↔ _
    rw [ht3]
    have hiff : piece.rdropWhile blank = [] ↔ trimmed piece = [] := by
      rw [trimmed_eq_nil, List.rdropWhile_eq_nil_iff]
    rw [ne_eq, ← hiff, ← ne_eq, ← List.length_pos_iff]
    omega

theorem piecesOf_cons (n : ℕ) {c : UInt8} {text : Bytes} : piecesOf (n + 1) (c :: text) =
    firstOf (c :: text) :: ((unqstrstr (bytes ",") false (c :: text)).map fun k =>
      piecesOf n ((c :: text).drop (k + 1))).getD [] := by
  rw [piecesOf, firstOf]
  cases unqstrstr (bytes ",") false (c :: text) with
  | none => simp
  | some k => rfl

/-- `argv` gets the trimmed arguments. -/
theorem setArgv_spec : ∀ {n : ℕ} {text : Bytes} {m : Mem} {args : ℕ} {r : Mem × List Turn}, Stands m args text →
    1 ≤ args → blank (m (args - 1)) = false → args + text.length < size → setArgv size n m (some args) = r →
    (argv size r.1 r.2).map CStr.bytes = (piecesOf n text).map trimmed ∧
      (∀ i, i < args ∨ args + text.length < i → r.1 i = m i) ∧
      ((∀ t ∈ r.2, t.args ≤ t.last) ↔ ∀ piece ∈ piecesOf n text, trimmed piece ≠ [])
  | 0, _, _, _, _, _, _, _, _, hr => by
    subst hr
    exact ⟨rfl, fun _ _ => rfl, by simp [setArgv, piecesOf]⟩
  | n + 1, [], m, args, _, h, _, _, _, hr => by
    rw [setArgv, if_pos h.1.1] at hr
    subst hr
    exact ⟨rfl, fun _ _ => rfl, by simp [piecesOf]⟩
  | n + 1, c :: text, m, args, _, h, hargs, hb, hsize, hr => by
    have hc : m args ≠ 0 := by
      rw [h.1.1]
      rintro rfl
      exact h.2 List.mem_cons_self
    obtain ⟨hstands, harg, harg', hframe, hnul, hlast⟩ := getArg_spec h hargs hb hsize
    obtain ⟨rest, hsplit, -, hlen⟩ := firstOf_split (c :: text)
    have hle : (firstOf (c :: text)).length ≤ (c :: text).length := by
      conv_rhs => rw [hsplit, List.length_append]
      omega
    rw [setArgv, if_neg hc] at hr
    rw [piecesOf_cons]
    have hnext : (getArg size m args).2.2 =
        (unqstrstr (bytes ",") false (c :: text)).map fun _ => args + (firstOf (c :: text)).length + 1 := by
      unfold getArg
      simp only [h.scan (show (c :: text).length < size - args by omega), ← hlen]
    simp only [hnext] at hr
    set a := getArg size m args with ha
    have hread : ∀ m', (∀ i ≤ args + (firstOf (c :: text)).length, m' i = a.1 i) →
        (readStr m' a.2.1.arg (size - a.2.1.arg)).bytes = trimmed (firstOf (c :: text)) := fun m' hm' =>
      (hstands.congr fun i _ hi => hm' i (by omega)).scan (by omega)
    cases hcomma : unqstrstr (bytes ",") false (c :: text) with
    | none =>
      have hdone : setArgv size n a.1 none = (a.1, []) := by cases n <;> rfl
      simp only [hcomma, Option.map_none, hdone] at hr
      subst hr
      refine ⟨?_, fun i hi => hframe i (by omega), ?_⟩
      · simp [argv, hread a.1 fun _ _ => rfl]
      · simpa using hlast
    | some k =>
      rw [hcomma, Option.getD_some] at hlen
      obtain ⟨htext, -⟩ := @split_of_unqstrstr 44 false (c :: text) k hcomma
      have hk : k < (c :: text).length := (unqstrstr_some hcomma).1
      have hrest : Stands a.1 (args + k + 1) ((c :: text).drop (k + 1)) := by
        rw [htext] at h
        have := h.drop.tail
        rw [List.length_take, min_eq_left hk.le] at this
        refine this.congr fun i hi _ => hframe i (by omega)
      have hb' : blank (a.1 (args + k + 1 - 1)) = false := by
        rw [Nat.add_sub_cancel, ← hlen, hnul]
        decide
      simp only [hcomma, Option.map_some, hlen] at hr
      obtain ⟨ih1, ih2, ih3⟩ := setArgv_spec hrest (by omega) hb' (by rw [List.length_drop]; omega)
        (rfl : setArgv size n a.1 (some (args + k + 1)) = _)
      subst hr
      rw [List.length_drop] at ih2
      refine ⟨?_, fun i hi => ?_, ?_⟩
      · simp only [Option.map_some, Option.getD_some, List.map_cons]
        rw [← ih1, argv, List.map_cons, List.map_cons, hread _ fun i hi => ih2 i (by omega)]
        rfl
      · rw [ih2 i (by omega), hframe i (by omega)]
      · simp only [Option.map_some, Option.getD_some, List.forall_mem_cons]
        rw [ih3, hlast]

theorem split_of_findIdx {x : UInt8} {s : Bytes} {k : ℕ} (h : s.findIdx? (· = x) = some k) :
    s = s.take k ++ x :: s.drop (k + 1) ∧ (s.take k).length = k := by
  obtain ⟨hk, hx, -⟩ := List.findIdx?_eq_some_iff_getElem.mp h
  rw [decide_eq_true_eq] at hx
  refine ⟨?_, by simp; omega⟩
  rw [← hx, List.getElem_cons_drop, List.take_append_drop]

theorem parse_eq_none {text : Bytes} {func : ℕ} (h : Stands m func text) (hsize : func + text.length < size)
    (hcall : callOf text = none) : parse size m func = none := by
  have hread : scan m func (size - func) = text := h.scan (by omega)
  cases hopen : text.findIdx? (· = 40) with
  | none => simp [parse, hread, hopen]
  | some i =>
    cases hclose : unqstrstr (bytes ")") false text with
    | none => simp [parse, hread, hopen, hclose]
    | some j => simp [callOf, hopen, hclose] at hcall

/-- `call` finds the name, and sets up `argv` from the argument list. -/
theorem parse_spec {text name args : Bytes} {func : ℕ} (h : Stands m func text) (hsize : func + text.length < size)
    (hcall : callOf text = some (name, args)) :
    ∃ m' turns, parse size m func = some (m', turns) ∧ scan m' func (size - func) = name ∧
      (argv size m' turns).map CStr.bytes = argsOf args ∧ (∀ i, func + text.length < i → m' i = m i) ∧
      ((∀ t ∈ turns, t.args ≤ t.last) ↔ ∀ piece ∈ piecesOf 16 args, trimmed piece ≠ []) := by
  have hread : scan m func (size - func) = text := h.scan (by omega)
  unfold callOf at hcall
  cases hopen : text.findIdx? (· = 40) with
  | none =>
    rw [hopen] at hcall
    cases hcall
  | some i =>
    cases hclose : unqstrstr (bytes ")") false text with
    | none =>
      rw [hopen, hclose] at hcall
      cases hcall
    | some j =>
      rw [hopen, hclose] at hcall
      simp only [Option.bind_eq_bind, Option.bind_some, Option.some.injEq, Prod.mk.injEq] at hcall
      obtain ⟨rfl, rfl⟩ := hcall
      obtain ⟨hi, hilen⟩ := split_of_findIdx hopen
      obtain ⟨hj, hjlen⟩ := @split_of_unqstrstr 41 false text j hclose
      have hjlt : j < text.length := (unqstrstr_some hclose).1
      have hilt : i < text.length := (List.findIdx?_eq_some_iff_getElem.mp hopen).1
      set m₁ := write m (func + j) [0] with hm₁
      set m₂ := write m₁ (func + i) [0] with hm₂
      -- the name and the argument list, in front of the two NULs
      have hparts : Stands m₂ func (text.take (min i j)) ∧
          Stands m₂ (func + i + 1) (if i < j then (text.drop (i + 1)).take (j - i - 1) else text.drop (i + 1)) := by
        rw [hj] at h
        obtain ⟨hbefore, hbehind⟩ := h.cut
        rw [hjlen] at hbefore hbehind
        rcases lt_trichotomy i j with hlt | rfl | hlt
        · rw [min_eq_left hlt.le, if_pos hlt]
          have htake : text.take j = text.take i ++ 40 :: (text.drop (i + 1)).take (j - i - 1) := by
            conv_lhs => rw [hi, List.take_append, hilen]
            obtain ⟨d, hd⟩ : ∃ d, j - i = d + 1 := ⟨j - i - 1, by omega⟩
            rw [List.take_of_length_le (by omega), hd, List.take_succ_cons]
            rfl
          rw [htake] at hbefore
          have := hbefore.cut
          rwa [hilen] at this
        · have hcons := List.append_cancel_left (hi.symm.trans hj)
          cases hcons
        · rw [min_eq_right hlt.le, if_neg (by omega)]
          have hdrop : text.drop (j + 1) = (text.take i).drop (j + 1) ++ 40 :: text.drop (i + 1) := by
            conv_lhs => rw [hi, List.drop_append, hilen]
            rw [show j + 1 - i = 0 by omega]
            rfl
          rw [hdrop] at hbehind
          have hlen : ((text.take i).drop (j + 1)).length = i - (j + 1) := by rw [List.length_drop, hilen]
          have hcut := hbehind.cut.2
          rw [hlen, show func + j + 1 + (i - (j + 1)) = func + i by omega] at hcut
          exact ⟨hbefore.congr fun k _ hk => write_of_lt (by omega), hcut⟩
      obtain ⟨hname, hargs⟩ := hparts
      set args := if i < j then (text.drop (i + 1)).take (j - i - 1) else text.drop (i + 1) with hargsDef
      have hargsLen : i + 1 + args.length ≤ text.length := by
        rw [hargsDef]
        split_ifs
        · rw [List.length_take, List.length_drop]
          omega
        · rw [List.length_drop]
          omega
      have hopenNul : blank (m₂ (func + i + 1 - 1)) = false := by
        rw [Nat.add_sub_cancel, hm₂, (holds_write_same m₁ (func + i) [0]).1]
        decide
      obtain ⟨hargv, hframe, hlast⟩ := setArgv_spec hargs (by omega) hopenNul (by omega)
        (rfl : setArgv size 16 m₂ (some (func + i + 1)) = _)
      refine ⟨_, _, ?_, ?_, hargv, fun k hk => ?_, hlast⟩
      · simp [parse, hread, hopen, hclose, m₁, m₂]
      · have hlen : (text.take (min i j)).length ≤ i := by
          rw [List.length_take]
          omega
        exact (hname.congr fun k _ hk => hframe k (by omega)).scan (by omega)
      · rw [hframe k (by omega), hm₂, hm₁, write_of_ge (by simp; omega), write_of_ge (by simp; omega)]

/-! ### Well-formed calls -/

/-- An argument: what is between two quotation marks, or a word. -/
inductive Arg where
  | quoted (content : Bytes)
  | word (text : Bytes)

def Arg.content : Arg → Bytes
  | quoted c => c
  | word w => w

def Arg.text : Arg → Bytes
  | quoted c => 34 :: c ++ [34]
  | word w => w

/-- No quotation mark is within quotation marks, and a word has neither one nor a comma or a parenthesis, and no
blanks around it. -/
def Arg.Ok : Arg → Prop
  | quoted c => (0 : UInt8) ∉ c ∧ (34 : UInt8) ∉ c
  | word w => w ≠ [] ∧ (∀ c ∈ w, c ≠ 0 ∧ c ∉ bytes "\",()") ∧ trimmed w = w

/-- Blanks, an argument and blanks. -/
structure Padded where
  before : Bytes
  arg : Arg
  after : Bytes

def Padded.text (a : Padded) : Bytes := a.before ++ a.arg.text ++ a.after

structure Padded.Ok (a : Padded) : Prop where
  before : ∀ c ∈ a.before, isSpace c = true
  arg : a.arg.Ok
  after : ∀ c ∈ a.after, isSpace c = true

/-- The arguments with commas between them. -/
def listText : List Padded → Bytes
  | [] => []
  | [a] => a.text
  | a :: b :: args => a.text ++ 44 :: listText (b :: args)

/-- `name(a1, ..., an)`. -/
def callText (name : Bytes) (args : List Padded) : Bytes := name ++ 40 :: listText args ++ [41]

/-- A name has no quotation mark or parenthesis. -/
def NameOk (name : Bytes) : Prop := ∀ c ∈ name, c ≠ 0 ∧ c ∉ bytes "\"()"

instance (name : Bytes) : Decidable (NameOk name) :=
  inferInstanceAs (Decidable (∀ c ∈ name, c ≠ 0 ∧ c ∉ bytes "\"()"))

/-- `call` passes what the arguments are, and `get_arg` does not come to a byte in front of its argument. -/
def PassedAs (size : ℕ) (m : Mem) (func : ℕ) (name : Bytes) (args : List Padded) : Prop :=
  ∃ m' turns, parse size m func = some (m', turns) ∧ scan m' func (size - func) = name ∧
    (argv size m' turns).map CStr.bytes = args.map (·.arg.content) ∧ ∀ t ∈ turns, t.args ≤ t.last

/-- What stands between quotation marks is not empty and has no blank at its ends. -/
def Arg.Tight : Arg → Prop
  | quoted c => c ≠ [] ∧ (∀ x ∈ c.head?, isSpace x = false) ∧ ∀ x ∈ c.getLast?, isSpace x = false
  | word _ => True

/-! ### What becomes of an argument -/

/-- Whether a quotation mark is open behind a text. -/
def quoteAfter (q : Bool) (l : Bytes) : Bool := l.foldl (fun q c => if c = 34 then !q else q) q

/-- A single character is not found in a text that has it in quotation marks only. -/
theorem unqstrstr_append {x : UInt8} (b : Bytes) : ∀ {q : Bool} {a : Bytes}, unqstrstr [x] q a = none →
    unqstrstr [x] q (a ++ b) = (unqstrstr [x] (quoteAfter q a) b).map (· + a.length)
  | q, [], _ => by simp [quoteAfter]
  | q, c :: a, h => by
    rw [unqstrstr] at h
    rw [List.cons_append, unqstrstr]
    have hpre : [x].isPrefixOf (c :: (a ++ b)) = [x].isPrefixOf (c :: a) := by simp [List.isPrefixOf]
    rw [hpre]
    by_cases hc : (!q && [x].isPrefixOf (c :: a)) = true
    · rw [if_pos hc] at h
      cases h
    · rw [if_neg hc] at h ⊢
      rw [unqstrstr_append b (Option.map_eq_none_iff.mp h), Option.map_map]
      rfl

theorem unqstrstr_of_notMem {x : UInt8} : ∀ {q : Bool} {a : Bytes}, x ∉ a → unqstrstr [x] q a = none
  | q, [], _ => rfl
  | q, c :: a, h => by
    rw [List.mem_cons, not_or] at h
    have hpre : [x].isPrefixOf (c :: a) = false := by simp [List.isPrefixOf, h.1]
    rw [unqstrstr, hpre, Bool.and_false, unqstrstr_of_notMem h.2]
    rfl

theorem unqstrstr_open {x : UInt8} : ∀ {a : Bytes}, (34 : UInt8) ∉ a → unqstrstr [x] true a = none
  | [], _ => rfl
  | c :: a, h => by
    rw [List.mem_cons, not_or] at h
    rw [unqstrstr, if_neg (by simp), if_neg (Ne.symm h.1), unqstrstr_open h.2]
    rfl

theorem quoteAfter_of_notMem : ∀ {q : Bool} {a : Bytes}, (34 : UInt8) ∉ a → quoteAfter q a = q
  | _, [], _ => rfl
  | q, c :: a, h => by
    rw [List.mem_cons, not_or] at h
    rw [quoteAfter, List.foldl_cons, if_neg (Ne.symm h.1)]
    exact quoteAfter_of_notMem h.2

theorem quoteAfter_append (q : Bool) (a b : Bytes) : quoteAfter q (a ++ b) = quoteAfter (quoteAfter q a) b :=
  List.foldl_append

theorem trimmed_before {a : Bytes} (h : ∀ c ∈ a, blank c = true) (l : Bytes) : trimmed (a ++ l) = trimmed l := by
  rw [trimmed, List.dropWhile_append_of_pos h, trimmed]

theorem trimmed_after {b : Bytes} (h : ∀ c ∈ b, blank c = true) (l : Bytes) : trimmed (l ++ b) = trimmed l := by
  have hb : b.rdropWhile blank = [] := List.rdropWhile_eq_nil_iff.mpr h
  by_cases hl : ∀ c ∈ l, blank c = true
  · rw [trimmed_before hl, trimmed_eq_nil.mpr h, trimmed_eq_nil.mpr hl]
  · have hne : (l.dropWhile blank).isEmpty = false := by
      rw [List.isEmpty_eq_false_iff]
      exact fun hnil => hl (List.dropWhile_eq_nil_iff.mp hnil)
    rw [trimmed, List.dropWhile_append, hne, if_neg Bool.false_ne_true, rdropWhile_append, if_pos hb, trimmed]

theorem blank_of_isSpace {c : UInt8} (h : isSpace c = true) : blank c = true := by simp [blank, h]

theorem Padded.Ok.trimmed {a : Padded} (h : a.Ok) : trimmed a.text = trimmed a.arg.content := by
  rw [Padded.text, trimmed_after fun c hc => blank_of_isSpace (h.after c hc),
    trimmed_before fun c hc => blank_of_isSpace (h.before c hc)]
  cases a.arg with
  | word w => rfl
  | quoted c =>
    show Ej.trimmed (34 :: c ++ [34]) = _
    rw [trimmed_after (by decide)]
    exact @trimmed_before [34] (by decide) c

theorem dropWhile_eq_self {c : Bytes} : c.dropWhile blank = c ↔ ∀ x ∈ c.head?, blank x = false := by
  rw [List.dropWhile_eq_self_iff]
  cases c <;> simp

theorem rdropWhile_eq_self {c : Bytes} : c.rdropWhile blank = c ↔ ∀ x ∈ c.getLast?, blank x = false := by
  rw [List.rdropWhile_eq_self_iff]
  rcases List.eq_nil_or_concat c with rfl | ⟨l, x, rfl⟩ <;> simp

theorem trimmed_eq_self {c : Bytes} : trimmed c = c ↔
    (∀ x ∈ c.head?, blank x = false) ∧ ∀ x ∈ c.getLast?, blank x = false := by
  rw [← dropWhile_eq_self, ← rdropWhile_eq_self]
  constructor
  · intro h
    have h1 := ( List.rdropWhile_prefix blank (c.dropWhile blank)).length_le
    have h2 := (List.dropWhile_sublist blank (l := c)).length_le
    have hlen : (trimmed c).length = c.length := by rw [h]
    have hdrop : c.dropWhile blank = c := (List.dropWhile_sublist blank).eq_of_length (by unfold trimmed at hlen; omega)
    rw [trimmed, hdrop] at h
    exact ⟨hdrop, h⟩
  · rintro ⟨h1, h2⟩
    rw [trimmed, h1, h2]

/-- The argument is passed as it is, and something is left of it, if it is tight. -/
theorem Arg.Ok.tight_iff {a : Arg} (h : a.Ok) : a.Tight ↔ Ej.trimmed a.content = a.content ∧ Ej.trimmed a.content ≠ [] := by
  cases a with
  | word w => exact ⟨fun _ => ⟨h.2.2, by rw [Arg.content, h.2.2]; exact h.1⟩, fun _ => trivial⟩
  | quoted c =>
    obtain ⟨-, hquote⟩ := h
    have hblank : ∀ x ∈ c, (blank x = false ↔ isSpace x = false) := by
      intro x hx
      have hne : x ≠ 34 := by
        rintro rfl
        exact hquote hx
      simp [blank, hne]
    have hends : Ej.trimmed c = c ↔ (∀ x ∈ c.head?, isSpace x = false) ∧ ∀ x ∈ c.getLast?, isSpace x = false := by
      rw [trimmed_eq_self]
      refine and_congr (forall₂_congr fun x hx => hblank x (List.mem_of_mem_head? hx))
        (forall₂_congr fun x hx => hblank x (List.mem_of_mem_getLast? hx))
    show c ≠ [] ∧ _ ∧ _ ↔ Ej.trimmed c = c ∧ Ej.trimmed c ≠ []
    rw [← hends]
    constructor
    · rintro ⟨hne, htrim⟩
      exact ⟨htrim, by rwa [htrim]⟩
    · rintro ⟨htrim, hne⟩
      exact ⟨by rwa [htrim] at hne, htrim⟩

/-! ### The calls of a page -/

/-- A comma or a closing parenthesis is not found in an argument. -/
theorem Padded.Ok.quiet {a : Padded} (h : a.Ok) {x : UInt8} (hx : x ∈ bytes ",)") :
    unqstrstr [x] false a.text = none ∧ quoteAfter false a.text = false := by
  have hspace : ∀ c : UInt8, isSpace c = true → c ≠ 34 ∧ c ∉ bytes ",)" := forall_byte.mpr (by decide +kernel)
  have hpad : ∀ l : Bytes, (∀ c ∈ l, isSpace c = true) → x ∉ l ∧ (34 : UInt8) ∉ l := by
    intro l hl
    refine ⟨fun hmem => (hspace x (hl x hmem)).2 hx, fun hmem => (hspace 34 (hl 34 hmem)).1 rfl⟩
  obtain ⟨hb, hbq⟩ := hpad a.before h.before
  obtain ⟨ha, haq⟩ := hpad a.after h.after
  have harg : unqstrstr [x] false a.arg.text = none ∧ quoteAfter false a.arg.text = false := by
    have hok := h.arg
    cases harg : a.arg with
    | word w =>
      rw [harg] at hok
      obtain ⟨-, hw, -⟩ := hok
      refine ⟨unqstrstr_of_notMem fun hmem => (hw x hmem).2 ?_, quoteAfter_of_notMem fun hmem => (hw 34 hmem).2 (by decide)⟩
      have hall : ∀ y ∈ bytes ",)", y ∈ bytes "\",()" := by decide
      exact hall x hx
    | quoted c =>
      rw [harg] at hok
      obtain ⟨-, hc⟩ := hok
      have hne : x ≠ 34 := by
        rintro rfl
        exact absurd hx (by decide)
      have hopen : quoteAfter false (34 :: c) = true := by
        rw [quoteAfter, List.foldl_cons, if_pos rfl]
        exact quoteAfter_of_notMem hc
      have hfirst : unqstrstr [x] false (34 :: c) = none := by
        rw [unqstrstr, if_neg (by simp [List.isPrefixOf, hne]), if_pos rfl, Bool.not_false, unqstrstr_open hc]
        rfl
      show unqstrstr [x] false (34 :: c ++ [34]) = none ∧ quoteAfter false (34 :: c ++ [34]) = false
      refine ⟨?_, by rw [quoteAfter_append, hopen]; rfl⟩
      rw [unqstrstr_append _ hfirst, hopen]
      rfl
  constructor
  · rw [Padded.text, List.append_assoc, unqstrstr_append _ (unqstrstr_of_notMem hb), quoteAfter_of_notMem hbq,
      unqstrstr_append _ harg.1, harg.2, unqstrstr_of_notMem ha]
    rfl
  · rw [Padded.text, quoteAfter_append, quoteAfter_append, quoteAfter_of_notMem hbq, harg.2, quoteAfter_of_notMem haq]

theorem Padded.Ok.text_ne_nil {a : Padded} (h : a.Ok) : a.text ≠ [] := by
  have harg : a.arg.text ≠ [] := by
    have hok := h.arg
    cases harg : a.arg with
    | word w =>
      rw [harg] at hok
      exact hok.1
    | quoted c => simp [Arg.text]
  simp [Padded.text, harg]

theorem listText_quiet : ∀ {args : List Padded}, (∀ a ∈ args, a.Ok) →
    unqstrstr (bytes ")") false (listText args) = none ∧ quoteAfter false (listText args) = false
  | [], _ => ⟨rfl, rfl⟩
  | [a], h => (h a List.mem_cons_self).quiet (by decide)
  | a :: b :: args, h => by
    rw [List.forall_mem_cons] at h
    obtain ⟨h1, h2⟩ := h.1.quiet (show 41 ∈ bytes ",)" by decide)
    obtain ⟨ih1, ih2⟩ := listText_quiet h.2
    constructor
    · rw [listText, show bytes ")" = [41] from rfl, unqstrstr_append _ h1, h2, unqstrstr,
        if_neg (by simp [List.isPrefixOf]), if_neg (by decide),
        show unqstrstr [41] false (listText (b :: args)) = none from ih1]
      rfl
    · rw [listText, quoteAfter_append, h2]
      exact ih2

/-- The list is split at its commas. -/
theorem piecesOf_listText : ∀ {n : ℕ} {args : List Padded}, (∀ a ∈ args, a.Ok) → args.length ≤ n →
    piecesOf n (listText args) = args.map Padded.text
  | n, [], _, _ => by cases n <;> rfl
  | n + 1, [a], h, _ => by
    have hok := h a List.mem_cons_self
    obtain ⟨h1, -⟩ := hok.quiet (show 44 ∈ bytes ",)" by decide)
    show piecesOf (n + 1) a.text = [a.text]
    cases htext : a.text with
    | nil => exact absurd htext hok.text_ne_nil
    | cons c text =>
      rw [htext] at h1
      rw [piecesOf, show bytes "," = [44] from rfl, h1]
  | n + 1, a :: b :: args, h, hn => by
    rw [List.forall_mem_cons] at h
    obtain ⟨h1, h2⟩ := h.1.quiet (show 44 ∈ bytes ",)" by decide)
    have hcomma : unqstrstr (bytes ",") false (a.text ++ 44 :: listText (b :: args)) = some a.text.length := by
      rw [show bytes "," = [44] from rfl, unqstrstr_append _ h1, h2, unqstrstr, if_pos (by simp [List.isPrefixOf])]
      simp
    have ih := piecesOf_listText (n := n) h.2 (by simpa using hn)
    rw [listText, List.map_cons, ← ih]
    cases htext : a.text with
    | nil => exact absurd htext h.1.text_ne_nil
    | cons c text =>
      rw [htext, List.cons_append] at hcomma
      rw [List.cons_append, piecesOf, hcomma]
      simp

theorem callOf_callText {name : Bytes} {args : List Padded} (hname : NameOk name) (hargs : ∀ a ∈ args, a.Ok) :
    callOf (callText name args) = some (name, listText args) := by
  obtain ⟨hlist, hlistq⟩ := listText_quiet hargs
  have hn : ∀ x ∈ bytes "\"()", x ∉ name := fun x hx hmem => (hname x hmem).2 hx
  have hopen : (callText name args).findIdx? (· = 40) = some name.length := by
    rw [callText, List.append_assoc, List.cons_append, List.findIdx?_append,
      List.findIdx?_eq_none_iff.mpr fun x hx => by
        rw [decide_eq_false_iff_not]
        rintro rfl
        exact hn 40 (by decide) hx]
    simp [List.findIdx?_cons]
  have hfront : unqstrstr [41] false (name ++ 40 :: listText args) = none := by
    rw [unqstrstr_append _ (unqstrstr_of_notMem (hn 41 (by decide))), quoteAfter_of_notMem (hn 34 (by decide)),
      unqstrstr, if_neg (by simp [List.isPrefixOf]), if_neg (by decide),
      show unqstrstr [41] false (listText args) = none from hlist]
    rfl
  have hfrontq : quoteAfter false (name ++ 40 :: listText args) = false := by
    rw [quoteAfter_append, quoteAfter_of_notMem (hn 34 (by decide))]
    exact hlistq
  have hclose : unqstrstr (bytes ")") false (callText name args) = some (name.length + 1 + (listText args).length) := by
    rw [show bytes ")" = [41] from rfl, callText, unqstrstr_append _ hfront, hfrontq]
    simp [unqstrstr, List.isPrefixOf]
    omega
  simp only [callOf, hopen, hclose, Option.bind_eq_bind, Option.bind_some]
  rw [min_eq_left (by omega), if_pos (by omega)]
  have hdrop : (callText name args).drop (name.length + 1) = listText args ++ [41] := by
    rw [callText, List.append_assoc, List.cons_append, List.drop_append]
    simp
  rw [hdrop, show name.length + 1 + (listText args).length - name.length - 1 = (listText args).length by omega,
    List.take_left, callText, List.append_assoc, List.take_left]

theorem Padded.Ok.nul_notMem {a : Padded} (h : a.Ok) : (0 : UInt8) ∉ a.text := by
  have hspace : isSpace 0 = false := by decide
  have hpad : ∀ l : Bytes, (∀ c ∈ l, isSpace c = true) → (0 : UInt8) ∉ l := by
    intro l hl hmem
    rw [hl 0 hmem] at hspace
    cases hspace
  have hok := h.arg
  rw [Padded.text, List.mem_append, List.mem_append, not_or, not_or]
  refine ⟨⟨hpad _ h.before, ?_⟩, hpad _ h.after⟩
  cases harg : a.arg with
  | word w =>
    rw [harg] at hok
    exact fun hmem => (hok.2.1 0 hmem).1 rfl
  | quoted c =>
    rw [harg] at hok
    simp [Arg.text, hok.1]

theorem nul_notMem_listText : ∀ {args : List Padded}, (∀ a ∈ args, a.Ok) → (0 : UInt8) ∉ listText args
  | [], _ => List.not_mem_nil
  | [a], h => (h a List.mem_cons_self).nul_notMem
  | a :: b :: args, h => by
    rw [List.forall_mem_cons] at h
    have ih := nul_notMem_listText h.2
    rw [listText, List.mem_append, List.mem_cons, not_or, not_or]
    exact ⟨h.1.nul_notMem, by decide, ih⟩

theorem nul_notMem_callText {name : Bytes} {args : List Padded} (hname : NameOk name) (hargs : ∀ a ∈ args, a.Ok) :
    (0 : UInt8) ∉ callText name args := by
  have hn : (0 : UInt8) ∉ name := fun hmem => (hname 0 hmem).1 rfl
  simp [callText, hn, nul_notMem_listText hargs]

/-- A call passes its arguments as they are if none of those in quotation marks is empty, or has a blank at an end. -/
theorem call_args_iff (size : ℕ) (m : Mem) (func : ℕ) (name : Bytes) (args : List Padded) (hname : NameOk name)
    (hargs : ∀ a ∈ args, a.Ok) (hn : args.length ≤ 16) (hcall : Holds m func (callText name args ++ [0]))
    (hsize : func + (callText name args).length < size) :
    PassedAs size m func name args ↔ ∀ a ∈ args, a.arg.Tight := by
  have hstands : Stands m func (callText name args) := ⟨hcall, nul_notMem_callText hname hargs⟩
  obtain ⟨m', turns, hparse, hread, hargv, -, hlast⟩ := parse_spec hstands hsize (callOf_callText hname hargs)
  have hpieces := piecesOf_listText hargs hn
  rw [argsOf, hpieces, List.map_map] at hargv
  rw [hpieces, List.forall_mem_map] at hlast
  have hpassed : PassedAs size m func name args ↔
      args.map (trimmed ∘ Padded.text) = args.map (·.arg.content) ∧ ∀ a ∈ args, trimmed a.text ≠ [] := by
    rw [← hargv, ← hlast]
    constructor
    · rintro ⟨m'', turns', hparse', -, hcontents, hend⟩
      cases Option.some.inj (hparse.symm.trans hparse')
      exact ⟨hcontents, hend⟩
    · rintro ⟨hcontents, hend⟩
      exact ⟨m', turns, hparse, hread, hcontents, hend⟩
  rw [hpassed, List.map_inj_left, ← forall₂_and]
  refine forall₂_congr fun a ha => ?_
  have hok := hargs a ha
  rw [hok.arg.tight_iff, Function.comp_apply, hok.trimmed]

/-- `f("a b", c)`. -/
def twoArgs : List Padded := [⟨[], .quoted (bytes "a b"), []⟩, ⟨bytes " ", .word (bytes "c"), []⟩]

theorem twoArgs_ok : ∀ a ∈ twoArgs, a.Ok := by
  rw [twoArgs, List.forall_mem_cons, List.forall_mem_singleton]
  exact ⟨⟨by decide, ⟨by decide, by decide⟩, by decide⟩, ⟨by decide, ⟨by decide, by decide, by decide⟩, by decide⟩⟩

theorem call_args_two :
    PassedAs 20 (write (fun _ => 0) 0 (callText (bytes "f") twoArgs ++ [0])) 0 (bytes "f") twoArgs := by
  refine (call_args_iff 20 _ 0 (bytes "f") twoArgs (by decide) twoArgs_ok (by decide) (holds_write_same _ _ _)
    (by decide)).mpr ?_
  rw [twoArgs, List.forall_mem_cons, List.forall_mem_singleton]
  exact ⟨⟨by decide, by decide, by decide⟩, trivial⟩

/-- `f(" a")` passes `a`. -/
theorem call_drops_blank : ¬ ∀ (size : ℕ) (m : Mem) (func : ℕ) (name : Bytes) (args : List Padded), NameOk name →
    (∀ a ∈ args, a.Ok) → args.length ≤ 16 → Holds m func (callText name args ++ [0]) →
    func + (callText name args).length < size → PassedAs size m func name args := by
  intro h
  let args : List Padded := [⟨[], .quoted (bytes " a"), []⟩]
  have hok : ∀ a ∈ args, a.Ok := by
    rw [List.forall_mem_singleton]
    exact ⟨by decide, ⟨by decide, by decide⟩, by decide⟩
  have hstands : Stands (write (fun _ => 0) 0 (callText (bytes "f") args ++ [0])) 0 (callText (bytes "f") args) :=
    ⟨holds_write_same _ _ _, by decide⟩
  obtain ⟨m', turns, hparse, -, hcontents, -⟩ :=
    h 20 _ 0 (bytes "f") args (by decide) hok (by decide) (holds_write_same (fun _ => 0) 0 _) (by decide)
  obtain ⟨m'', turns', hparse', -, hargv, -⟩ :=
    @parse_spec 20 _ _ _ _ 0 hstands (by decide) (callOf_callText (by decide) hok)
  cases Option.some.inj (hparse.symm.trans hparse')
  rw [hargv] at hcontents
  exact absurd hcontents (by decide)

end Ej
end Httpd
end Router
