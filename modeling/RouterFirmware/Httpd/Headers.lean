/-
# The headers of a request

`router/httpd/httpd.c`: `handle_request` reads the request line and the headers into one array, `line`. A header of which
something is kept (the credentials, the boundary) stays where it is, and `cur` goes behind it; the others are read over.
The value of Accept-Language is copied into an array of its own, `lang_buf`, whatever its length.

The model keeps a list of what is written into the two arrays, and of the sizes that `fgets` is called with. `headers_iff`
says for which streams they stay inside, and that what has been kept is not changed.

For a buffer of one byte C libraries differ: `fgets` returns it, empty, or `NULL` (`empty`). What lies behind `lang_buf`
up to the end of the stack is an input of each header. `Accept_Language` is a text; the NVRAM variable
that it may be copied to is left out.
-/
import RouterFirmware.Lib.InPlace
import RouterFirmware.Lib.Parse

namespace Router
namespace Httpd
namespace Headers

open CMem CText

/-! ### What is written -/

/-- The two arrays. -/
inductive Buf where
  | line
  | langBuf
deriving DecidableEq

def Buf.size : Buf → ℕ
  | line => 10000
  | langBuf => 256

/-- Bytes written into an array, from `pos` on. -/
structure Write where
  buf : Buf
  pos : ℕ
  len : ℕ

def Write.Inside (w : Write) : Prop := w.pos + w.len ≤ w.buf.size

instance (w : Write) : Decidable w.Inside := inferInstanceAs (Decidable (_ ≤ _))

/-! ### Reading a line -/

/-- A line with its newline, if it has one. -/
def firstLine (stream : Bytes) : Bytes := stream.takeWhile (· ≠ 10) ++ (stream.dropWhile (· ≠ 10)).take 1

/-- `fgets(s, n, stream)`: what is put in front of the NUL, and what is left of the stream. -/
def fgets (empty : Bool) (n : ℤ) (stream : Bytes) : Option (Bytes × Bytes) :=
  if n ≤ 0 then none
  else if n = 1 then if empty then some ([], stream) else none
  else if stream = [] then none
  else
    let got := (firstLine stream).take (n - 1).toNat
    some (got, stream.drop got.length)

/-! ### Accept-Language -/

def languageTables : List (String × String) :=
  [("en-us", "EN"), ("en", "EN"), ("zh-tw", "TW"), ("zh-cn", "CN"), ("ko-kr", "EN"), ("de-at", "DE"), ("de-de", "DE"),
    ("de-li", "DE"), ("de-lu", "DE"), ("de-ch", "DE"), ("de", "DE"), ("ja", "JP"), ("ja-jp", "JP"), ("tr", "TR")]

/-- The `Target_Lang` of a language. -/
def targetLang (p : Bytes) : Option Bytes := (languageTables.find? fun l => imatch p l.1).map fun l => bytes l.2

/-- A byte of `"\r\n ,;"`. -/
def isDelim (c : UInt8) : Bool := c ∈ bytes "\r\n ,;"

/-- The loop over the languages, of `n` turns at most, with `p` at a place of `lang_buf` and what stands from there to
the end of the stack: what is written, and `Accept_Language` unless the process dies. -/
def langLoop : ℕ → ℕ → Bytes → Bytes → List Write × Option Bytes
  | 0, _, _, lang => ([], some lang)
  | n + 1, p, s, lang =>
    -- `strtok`: the token, and a NUL over the byte that ends it
    let p := p + (s.takeWhile isDelim).length
    let s := s.dropWhile isDelim
    let token := s.takeWhile fun c => !isDelim c && c ≠ 0
    match s with
    | [] => ([], none)
    | c :: _ =>
      if c = 0 then ([], some lang)
      else
        match s.drop token.length with
        | [] => ([], none)
        | d :: rest =>
          let writes : List Write := if d = 0 then [] else [⟨.langBuf, p + token.length, 1⟩]
          let lang := (targetLang token).getD lang
          if lang ≠ [] then (writes, some lang)
          else
            let r := langLoop n (p + token.length + 1) rest lang
            (writes ++ r.1, r.2)

/-- `lang_buf` with `alang` copied into it, and the stack behind it. -/
def langStack (alang behind : Bytes) : Bytes :=
  alang ++ 0 :: (List.replicate 256 0 ++ behind).drop (alang.length + 1)

/-! ### The headers -/

/-- The variables, and what has been written and asked for. -/
structure State where
  line : Mem
  cur : ℕ
  authorization : Option ℕ
  boundary : Option ℕ
  cl : ℕ
  lang : Bytes
  stream : Bytes
  done : Bool
  writes : List Write
  sizes : List ℤ

/-- `while (*p == ' ') p++`. -/
def skipBlanks (m : Mem) (p : ℕ) : ℕ := p + ((scan m p (10000 - p)).takeWhile (· = 32)).length

/-- The NUL that `strsep` has written in front of `next`. -/
def sepWrites (next : Option ℕ) : List Write := next.toList.map fun q => ⟨.line, q - 1, 1⟩

/-- The request line is split: the array, `protocol` unless the request is rejected, and what is written. -/
def splitLine (m : Mem) : Mem × Option ℕ × List Write :=
  let r := strsepAt 10000 (bytes " ") m 0
  match r.2 with
  | none => (r.1, none, [])
  | some path =>
    let s := strsepAt 10000 (bytes " ") r.1 (skipBlanks r.1 path)
    match s.2 with
    | none => (s.1, none, sepWrites r.2)
    | some protocol =>
      let t := strsepAt 10000 (bytes " ") s.1 (skipBlanks s.1 protocol)
      (t.1, some (skipBlanks s.1 protocol), sepWrites r.2 ++ sepWrites s.2 ++ sepWrites t.2)

/-- Up to the loop over the headers. -/
def start (empty : Bool) (stream : Bytes) : State :=
  let s : State := ⟨fun _ => 0, 0, none, none, 0, [], stream, true, [⟨.line, 0, 10000⟩], [10000]⟩
  match fgets empty 10000 stream with
  | none => s
  | some (got, rest) =>
    let r := splitLine (write s.line 0 (got ++ [0]))
    let s := { s with line := r.1, stream := rest, writes := s.writes ++ [Write.mk .line 0 (got.length + 1)] ++ r.2.2 }
    match r.2.1 with
    | none => s
    | some protocol => { s with cur := protocol + strlen 10000 r.1 protocol + 1, done := false }

/-- The header that stands at `cur`. -/
def header (behind : Bytes) (s : State) : State :=
  let text := scan s.line s.cur (10000 - s.cur)
  if text = bytes "\n" ∨ text = bytes "\r\n" then { s with done := true }
  else if imatchPrefix text "Accept-Language:" then
    let alang := text.drop 16
    let r := langLoop ((langStack alang behind).length + 1) 0 (langStack alang behind) s.lang
    let s := { s with writes := s.writes ++ [Write.mk .langBuf 0 256, Write.mk .langBuf 0 (alang.length + 1)] ++ r.1 }
    match r.2 with
    | none => { s with done := true }
    | some lang => { s with lang := if lang = [] then bytes "EN" else lang }
  else if imatchPrefix text "Authorization:" then
    let cp := s.cur + 14 + ((text.drop 14).takeWhile fun c => c = 32 || c = 9).length
    { s with authorization := some cp, cur := cp + strlen 10000 s.line cp + 1 }
  else if imatchPrefix text "Content-Length:" then
    { s with cl := strtoul ((text.drop 15).dropWhile fun c => c = 32 || c = 9) }
  else
    match strstr (bytes "boundary=") text with
    | none => s
    | some k =>
      let cp := s.cur + k + 9 + ((text.drop (k + 9)).takeWhile fun c => c ≠ 13 && c ≠ 10).length
      { s with
        line := write s.line cp [0], boundary := some (s.cur + k + 9), cur := cp + 1,
        writes := s.writes ++ [⟨.line, cp, 1⟩] }

/-- The next line is read to `cur`. -/
def readLine (empty : Bool) (s : State) : State :=
  let n : ℤ := 10000 - s.cur
  let s := { s with sizes := s.sizes ++ [n] }
  match fgets empty n s.stream with
  | none => { s with done := true }
  | some (got, rest) =>
    { s with
      line := write s.line s.cur (got ++ [0]), stream := rest,
      writes := s.writes ++ [⟨.line, s.cur, got.length + 1⟩] }

/-- A turn of the loop. -/
def turn (empty : Bool) (behind : Bytes) (s : State) : State :=
  if s.done then s
  else
    let s := readLine empty s
    if s.done then s else header behind s

/-- After `n` turns. -/
def turns (empty : Bool) (behind : ℕ → Bytes) (stream : Bytes) : ℕ → State
  | 0 => start empty stream
  | n + 1 => turn empty (behind n) (turns empty behind stream n)

/-! ### What is to hold -/

/-- The strings that have been kept in `s` are the same in `s'`. -/
def Keeps (s s' : State) : Prop :=
  ∀ p, s.authorization = some p ∨ s.boundary = some p → readStr s'.line p (10000 - p) = readStr s.line p (10000 - p)

/-- Whatever lies behind `lang_buf`: nothing is written outside the arrays, no size is negative, and what has been kept
stays. -/
def ReadsSafely (stream : Bytes) : Prop :=
  ∀ empty behind n, (∀ w ∈ (turns empty behind stream n).writes, w.Inside) ∧
    (∀ z ∈ (turns empty behind stream n).sizes, 0 ≤ z) ∧
    ∀ k, Keeps (turns empty behind stream n) (turns empty behind stream (n + k))

/-- The value of the next header, if that is Accept-Language. -/
def nextLanguages (empty : Bool) (s : State) : Option Bytes :=
  let s' := readLine empty s
  let text := scan s'.line s'.cur (10000 - s'.cur)
  if s.done = false ∧ s'.done = false ∧ imatchPrefix text "Accept-Language:" = true then some (text.drop 16) else none

/-- The search for a language ends within the value: one has been found before or is in it, or no token ends it. -/
def Stops (lang v : Bytes) : Prop :=
  lang ≠ [] ∨ (∀ c ∈ v.getLast?, isDelim c = true) ∨ ∃ t ∈ v.splitOnP isDelim, (targetLang t).isSome = true

/-- A value that fits into `lang_buf`, and of which nothing behind `lang_buf` is taken for a part. -/
def Fits (lang v : Bytes) : Prop := v.length < 255 ∨ v.length = 255 ∧ Stops lang v

/-! ### The search for a language -/

/-- One of the languages of the value is in the table. -/
def Knows (v : Bytes) : Prop := ∃ t ∈ v.splitOnP isDelim, (targetLang t).isSome = true

theorem knows_delim {d : UInt8} (hd : isDelim d = true) (v : Bytes) : Knows (d :: v) ↔ Knows v := by
  have hnil : (targetLang []).isSome = false := by decide
  unfold Knows
  rw [List.splitOnP_cons_eq_if_modifyHead, if_pos hd]
  simp [hnil]

theorem knows_skip {l v : Bytes} (hl : ∀ c ∈ l, isDelim c = true) : Knows (l ++ v) ↔ Knows v := by
  induction l with
  | nil => rfl
  | cons d l ih =>
    rw [List.forall_mem_cons] at hl
    rw [List.cons_append, knows_delim hl.1, ih hl.2]

theorem knows_token {t : Bytes} (ht : ∀ c ∈ t, isDelim c = false) : Knows t ↔ (targetLang t).isSome = true := by
  unfold Knows
  rw [List.splitOnP_eq_singleton ht]
  simp

theorem knows_append {t v : Bytes} {d : UInt8} (ht : ∀ c ∈ t, isDelim c = false) (hd : isDelim d = true) :
    Knows (t ++ d :: v) ↔ (targetLang t).isSome = true ∨ Knows v := by
  unfold Knows
  rw [List.splitOnP_append_cons_of_forall_mem ht d hd]
  simp

theorem stops_iff {lang v : Bytes} : Stops lang v ↔ lang ≠ [] ∨ (∀ c ∈ v.getLast?, isDelim c = true) ∨ Knows v := Iff.rfl

/-- Within `len` bytes of `lang_buf` from `p` on. -/
def Within (ws : List Write) (p len : ℕ) : Prop := ∀ w ∈ ws, w.buf = .langBuf ∧ p ≤ w.pos ∧ w.pos + w.len ≤ p + len

theorem Within.mono {ws : List Write} {p len p' len' : ℕ} (h : Within ws p len) (hp : p' ≤ p)
    (hlen : p + len ≤ p' + len') : Within ws p' len' := by
  intro w hw
  obtain ⟨h1, h2, h3⟩ := h w hw
  exact ⟨h1, by omega, by omega⟩

theorem Within.append {ws ws' : List Write} {p len : ℕ} (h : Within ws p len) (h' : Within ws' p len) :
    Within (ws ++ ws') p len := by
  intro w hw
  rcases List.mem_append.mp hw with hw | hw
  · exact h w hw
  · exact h' w hw

/-- Delimiters, a token, and a delimiter with what is behind it. -/
theorem token_cases (v : Bytes) : ∃ l, (∀ c ∈ l, isDelim c = true) ∧ (v = l ∨ ∃ t, t ≠ [] ∧
    (∀ c ∈ t, isDelim c = false) ∧ (v = l ++ t ∨ ∃ d v', isDelim d = true ∧ v = l ++ (t ++ d :: v'))) := by
  induction v with
  | nil => exact ⟨[], by simp, .inl rfl⟩
  | cons c v ih =>
    obtain ⟨l, hl, hv⟩ := ih
    cases hc : isDelim c with
    | true =>
      refine ⟨c :: l, by simpa [hc] using hl, ?_⟩
      rcases hv with rfl | ⟨t, hne, ht, rfl | ⟨d, v', hd, rfl⟩⟩
      · exact .inl rfl
      · exact .inr ⟨t, hne, ht, .inl rfl⟩
      · exact .inr ⟨t, hne, ht, .inr ⟨d, v', hd, rfl⟩⟩
    | false =>
      have hcons : ∀ t : Bytes, (∀ x ∈ t, isDelim x = false) → ∀ x ∈ c :: t, isDelim x = false := fun t ht =>
        List.forall_mem_cons.mpr ⟨hc, ht⟩
      refine ⟨[], by simp, .inr ?_⟩
      cases l with
      | nil =>
        rcases hv with rfl | ⟨t, hne, ht, hv | ⟨d, v', hd, hv⟩⟩
        · exact ⟨[c], by simp, hcons [] (by simp), .inl rfl⟩
        · exact ⟨c :: t, by simp, hcons t ht, .inl (by rw [hv]; rfl)⟩
        · exact ⟨c :: t, by simp, hcons t ht, .inr ⟨d, v', hd, by rw [hv]; rfl⟩⟩
      | cons d l =>
        refine ⟨[c], by simp, hcons [] (by simp), .inr ?_⟩
        rw [List.forall_mem_cons] at hl
        rcases hv with rfl | ⟨t, hne, ht, rfl | ⟨d', v', hd, rfl⟩⟩
        · exact ⟨d, l, hl.1, rfl⟩
        · exact ⟨d, l ++ t, hl.1, rfl⟩
        · exact ⟨d, l ++ (t ++ d' :: v'), hl.1, rfl⟩

theorem takeWhile_delims {l s : Bytes} (hl : ∀ c ∈ l, isDelim c = true) (hs : ∀ c ∈ s.head?, isDelim c = false) :
    (l ++ s).takeWhile isDelim = l ∧ (l ++ s).dropWhile isDelim = s := by
  have hnil : s.takeWhile isDelim = [] ∧ s.dropWhile isDelim = s := by
    cases s with
    | nil => exact ⟨rfl, rfl⟩
    | cons c s =>
      have hc : isDelim c = false := hs c rfl
      exact ⟨List.takeWhile_cons_of_neg (by simp [hc]), List.dropWhile_cons_of_neg (by simp [hc])⟩
  rw [List.takeWhile_append_of_pos hl, List.dropWhile_append_of_pos hl, hnil.1, hnil.2, List.append_nil]
  exact ⟨rfl, rfl⟩

variable {n p : ℕ} {rest lang : Bytes}

theorem langLoop_end {l : Bytes} (hl : ∀ c ∈ l, isDelim c = true) :
    langLoop (n + 1) p (l ++ 0 :: rest) lang = ([], some lang) := by
  obtain ⟨-, hdrop⟩ := takeWhile_delims hl (show ∀ c ∈ (0 :: rest).head?, isDelim c = false by
    intro c hc
    cases hc
    decide)
  rw [langLoop]
  simp only [hdrop]
  rw [if_pos trivial]

/-- A turn with a token. -/
theorem langLoop_token {l t : Bytes} {d : UInt8} (hl : ∀ c ∈ l, isDelim c = true) (hne : t ≠ [])
    (ht : ∀ c ∈ t, isDelim c = false) (hz : (0 : UInt8) ∉ t) (hd : isDelim d = true ∨ d = 0) :
    langLoop (n + 1) p (l ++ (t ++ d :: rest)) lang =
      let writes : List Write := if d = 0 then [] else [⟨.langBuf, p + l.length + t.length, 1⟩]
      if (targetLang t).getD lang ≠ [] then (writes, some ((targetLang t).getD lang))
      else
        (writes ++ (langLoop n (p + l.length + t.length + 1) rest ((targetLang t).getD lang)).1,
          (langLoop n (p + l.length + t.length + 1) rest ((targetLang t).getD lang)).2) := by
  obtain ⟨x, t', rfl⟩ := List.exists_cons_of_ne_nil hne
  have hx : x ≠ 0 := by
    rintro rfl
    exact hz List.mem_cons_self
  obtain ⟨htake, hdrop⟩ := takeWhile_delims hl (show ∀ c ∈ (x :: t' ++ d :: rest).head?, isDelim c = false by
    intro c hc
    cases hc
    exact ht x List.mem_cons_self)
  have htoken : (x :: t' ++ d :: rest).takeWhile (fun c => !isDelim c && c ≠ 0) = x :: t' := by
    rw [List.takeWhile_append_of_pos, List.takeWhile_cons_of_neg, List.append_nil]
    · rcases hd with hd | rfl <;> simp [*]
    · intro c hc
      have hc0 : c ≠ 0 := by
        rintro rfl
        exact hz hc
      simp [ht c hc, hc0]
  rw [langLoop, htake, hdrop]
  simp only [htoken, List.drop_left]
  rw [List.cons_append]
  simp only [if_neg hx]

theorem targetLang_ne_nil {t x : Bytes} (h : targetLang t = some x) : x ≠ [] := by
  obtain ⟨r, hr, rfl⟩ := Option.map_eq_some_iff.mp h
  have hall : ∀ r ∈ languageTables, bytes r.2 ≠ [] := by decide
  exact hall r (List.mem_of_find?_eq_some hr)

/-- A value is searched to its last byte, or to a language that is known; or the search goes on behind its NUL. -/
theorem langLoop_spec : ∀ {n p : ℕ} {v rest lang : Bytes}, (0 : UInt8) ∉ v → v.length < n →
    (Stops lang v → ∃ ws lang', langLoop n p (v ++ 0 :: rest) lang = (ws, some lang') ∧ Within ws p v.length) ∧
      (¬Stops lang v → ∃ ws n', langLoop n p (v ++ 0 :: rest) lang =
        (ws ++ (langLoop n' (p + v.length + 1) rest []).1, (langLoop n' (p + v.length + 1) rest []).2) ∧
          Within ws p v.length ∧ n ≤ n' + v.length + 1) := by
  intro n
  induction n with
  | zero => exact fun _ h => absurd h (Nat.not_lt_zero _)
  | succ n ih =>
    intro p v rest lang hz hn
    obtain ⟨l, hl, rfl | ⟨t, hne, ht, hv⟩⟩ := token_cases v
    · -- no token
      have hstop : Stops lang v := .inr (.inl fun c hc => hl c (List.mem_of_getLast? hc))
      exact ⟨fun _ => ⟨[], lang, langLoop_end hl, by simp [Within]⟩, fun h => absurd hstop h⟩
    · have hlast : ∀ c ∈ t.getLast?, isDelim c = false := fun c hc => ht c (List.mem_of_getLast? hc)
      rcases hv with rfl | ⟨d, v', hd, rfl⟩
      · -- the token ends the value
        rw [List.mem_append, not_or] at hz
        have hturn := @langLoop_token n p rest lang l t 0 hl hne ht hz.2 (.inr rfl)
        have hknows : Knows (l ++ t) ↔ (targetLang t).isSome = true := by rw [knows_skip hl, knows_token ht]
        have hends : ¬ ∀ c ∈ (l ++ t).getLast?, isDelim c = true := by
          intro hall
          obtain ⟨x, hx⟩ := Option.isSome_iff_exists.mp (List.getLast?_isSome.mpr hne)
          have h1 := hall x (by rw [List.getLast?_append_of_ne_nil _ hne]; exact hx)
          rw [hlast x hx] at h1
          cases h1
        rw [stops_iff, hknows, or_iff_right hends, List.append_assoc, hturn]
        cases hlang : targetLang t with
        | some x =>
          simp only [Option.getD_some, if_pos (targetLang_ne_nil hlang), if_true]
          exact ⟨fun _ => ⟨_, _, rfl, by simp [Within]⟩, fun h => absurd (.inr rfl) h⟩
        | none =>
          simp only [Option.getD_none, if_true, Option.isSome_none, Bool.false_eq_true, or_false]
          refine ⟨fun h => ?_, fun h => ?_⟩
          · rw [if_pos h]
            exact ⟨_, _, rfl, by simp [Within]⟩
          · rw [not_not] at h
            rw [if_neg (not_not.mpr h), h]
            refine ⟨[], n, ?_, by simp [Within], by omega⟩
            rw [List.length_append, Nat.add_assoc p]
      · -- a delimiter ends the token
        have hz' := hz
        rw [List.mem_append, List.mem_append, List.mem_cons, not_or, not_or, not_or] at hz'
        have hd0 : d ≠ 0 := Ne.symm hz'.2.2.1
        simp only [List.length_append, List.length_cons] at hn
        have hturn := @langLoop_token n p (v' ++ 0 :: rest) lang l t d hl hne ht hz'.2.1 (.inl hd)
        have hknows : Knows (l ++ (t ++ d :: v')) ↔ (targetLang t).isSome = true ∨ Knows v' := by
          rw [knows_skip hl, knows_append ht hd]
        have hends : (∀ c ∈ (l ++ (t ++ d :: v')).getLast?, isDelim c = true) ↔ ∀ c ∈ v'.getLast?, isDelim c = true := by
          rw [List.getLast?_append_of_ne_nil _ (by simp), List.getLast?_append_of_ne_nil _ (by simp)]
          cases v' with
          | nil => simp [hd]
          | cons x v' => rw [List.getLast?_cons_cons]
        have htext : l ++ (t ++ d :: v') ++ 0 :: rest = l ++ (t ++ d :: (v' ++ 0 :: rest)) := by simp
        have hwithin : Within [⟨.langBuf, p + l.length + t.length, 1⟩] p (l ++ (t ++ d :: v')).length := by
          intro w hw
          rw [List.mem_singleton] at hw
          subst hw
          simp only [List.length_append, List.length_cons, true_and]
          omega
        rw [stops_iff, hknows, hends, htext, hturn]
        simp only [if_neg hd0]
        cases hlang : targetLang t with
        | some x =>
          simp only [Option.getD_some, if_pos (targetLang_ne_nil hlang)]
          exact ⟨fun _ => ⟨_, _, rfl, hwithin⟩, fun h => absurd (.inr (.inr (.inl rfl))) h⟩
        | none =>
          simp only [Option.getD_none, Option.isSome_none, Bool.false_eq_true, false_or]
          by_cases hlang' : lang = []
          · subst hlang'
            obtain ⟨ih1, ih2⟩ := @ih (p + l.length + t.length + 1) v' rest [] hz'.2.2.2 (by omega)
            have hlen : p + l.length + t.length + 1 + v'.length = p + (l ++ (t ++ d :: v')).length := by
              simp only [List.length_append, List.length_cons]
              omega
            rw [if_neg (by simp)]
            refine ⟨fun h => ?_, fun h => ?_⟩
            · obtain ⟨ws, lang', heq, hws⟩ := ih1 h
              rw [heq]
              exact ⟨_, _, rfl, hwithin.append (hws.mono (by omega) hlen.le)⟩
            · obtain ⟨ws, n', heq, hws, hn'⟩ := ih2 h
              rw [heq, hlen]
              refine ⟨_, n', by rw [List.append_assoc], hwithin.append (hws.mono (by omega) hlen.le), ?_⟩
              simp only [List.length_append, List.length_cons]
              omega
          · rw [if_pos hlang']
            exact ⟨fun _ => ⟨_, _, rfl, hwithin⟩, fun h => absurd (.inl hlang') h⟩

theorem langStack_eq {v : Bytes} (behind : Bytes) (hv : v.length ≤ 255) :
    langStack v behind = v ++ 0 :: (List.replicate (255 - v.length) 0 ++ behind) := by
  rw [langStack, List.drop_append, List.drop_replicate, List.length_replicate,
    show v.length + 1 - 256 = 0 by omega, List.drop_zero, show 256 - (v.length + 1) = 255 - v.length by omega]

/-- A value that fits is searched within `lang_buf`. -/
theorem Fits.searched {lang v : Bytes} (h : Fits lang v) (hz : (0 : UInt8) ∉ v) (behind : Bytes) :
    ∃ ws lang', langLoop ((langStack v behind).length + 1) 0 (langStack v behind) lang = (ws, some lang') ∧
      ∀ w ∈ ws, w.Inside := by
  have hlen : v.length ≤ 255 := by
    rcases h with h | h
    · exact h.le
    · exact h.1.le
  have hinside : ∀ ws, Within ws 0 v.length → ∀ w ∈ ws, w.Inside := by
    intro ws hws w hw
    obtain ⟨hbuf, -, hend⟩ := hws w hw
    rw [Write.Inside, hbuf]
    show w.pos + w.len ≤ 256
    omega
  rw [langStack_eq behind hlen]
  obtain ⟨h1, h2⟩ := @langLoop_spec ((v ++ 0 :: (List.replicate (255 - v.length) 0 ++ behind)).length + 1) 0 v
    (List.replicate (255 - v.length) 0 ++ behind) lang hz (by simp)
  by_cases hstop : Stops lang v
  · obtain ⟨ws, lang', heq, hws⟩ := h1 hstop
    exact ⟨ws, lang', heq, hinside ws hws⟩
  · -- behind the NUL there is another one
    obtain ⟨ws, n', heq, hws, -⟩ := h2 hstop
    have hlt : v.length < 255 := h.resolve_right fun h => hstop h.2
    obtain ⟨k, hk⟩ : ∃ k, 255 - v.length = k + 1 := ⟨255 - v.length - 1, by omega⟩
    have hend : langLoop n' (0 + v.length + 1) (List.replicate (255 - v.length) 0 ++ behind) [] = ([], some []) := by
      rw [hk, List.replicate_succ, List.cons_append]
      cases n' with
      | zero => rfl
      | succ n' => exact @langLoop_end n' _ _ _ [] (by simp)
    rw [heq, hend]
    exact ⟨ws ++ [], [], rfl, by simpa using hinside ws hws⟩

/-- Where the search goes on behind `lang_buf`, a NUL is written there if a token is found. -/
theorem overruns {lang v : Bytes} (hlen : v.length = 255) (hz : (0 : UInt8) ∉ v) (hstop : ¬Stops lang v) :
    ∃ w ∈ (langLoop ((langStack v (bytes "a,")).length + 1) 0 (langStack v (bytes "a,")) lang).1, ¬w.Inside := by
  rw [langStack_eq _ hlen.le, hlen]
  obtain ⟨-, h2⟩ := @langLoop_spec ((v ++ 0 :: (List.replicate (255 - 255) 0 ++ bytes "a,")).length + 1) 0 v
    (List.replicate (255 - 255) 0 ++ bytes "a,") lang hz (by simp)
  obtain ⟨ws, n', heq, -, hn'⟩ := h2 hstop
  have hturns : v.length + 4 = (v ++ 0 :: (List.replicate (255 - 255) 0 ++ bytes "a,")).length + 1 := by
    rw [List.length_append]
    rfl
  obtain ⟨k, rfl⟩ : ∃ k, n' = k + 1 := ⟨n' - 1, by omega⟩
  have hturn := @langLoop_token k (0 + v.length + 1) [] [] [] [97] 44 (by simp) (by simp) (by decide) (by decide)
    (.inl (by decide))
  rw [heq]
  refine ⟨⟨.langBuf, 257, 1⟩, List.mem_append_right _ ?_, by decide⟩
  rw [show List.replicate (255 - 255) 0 ++ bytes "a," = [] ++ ([97] ++ 44 :: []) by decide, hturn, hlen]
  rw [if_neg (by decide), if_neg (by decide)]
  exact List.mem_append_left _ (List.mem_singleton.mpr rfl)

/-! ### Strings in the line -/

variable {m m' : Mem} {z e : ℕ}

theorem scan_congr (he : m e = 0) : ∀ {n p : ℕ}, p ≤ e → (∀ i, p ≤ i → i ≤ e → m' i = m i) →
    scan m' p n = scan m p n := by
  intro n
  induction n with
  | zero => exact fun _ _ => rfl
  | succ n ih =>
    intro p hp h
    rw [scan, scan, h p (le_refl p) hp]
    by_cases hzero : m p = 0
    · rw [if_pos hzero, if_pos hzero]
    · have hne : p ≠ e := fun heq => hzero (heq ▸ he)
      rw [if_neg hzero, if_neg hzero, ih (by omega) fun i h1 h2 => h i (by omega) h2]

/-- A text ends at a NUL. -/
theorem nul_at_end (hz : m z = 0) : ∀ {n p : ℕ}, p ≤ z → z < p + n → m (p + (scan m p n).length) = 0 := by
  intro n
  induction n with
  | zero => intro p h1 h2; omega
  | succ n ih =>
    intro p hp hn
    unfold scan
    split_ifs with h
    · exact h
    · have hne : p ≠ z := fun heq => h (heq ▸ hz)
      have := ih (p := p + 1) (by omega) (by omega)
      rw [List.length_cons, ← Nat.add_assoc, Nat.add_right_comm]
      exact this

theorem skipBlanks_le (hz : m z = 0) (hp : p ≤ z) : p ≤ skipBlanks m p ∧ skipBlanks m p ≤ z := by
  have h1 := length_scan_le hz (p := p) (n := 10000 - p) hp
  have h2 := (List.takeWhile_sublist (fun c : UInt8 => decide (c = 32)) (l := scan m p (10000 - p))).length_le
  unfold skipBlanks
  omega

/-- `strsep` writes before the end of the text. -/
theorem strsepAt_spec (delim : Bytes) (hz : m z = 0) (hp : p ≤ z) :
    (strsepAt 10000 delim m p).1 z = 0 ∧ ∀ q, (strsepAt 10000 delim m p).2 = some q → p < q ∧ q ≤ z := by
  unfold strsepAt
  cases hk : strpbrk delim (scan m p (10000 - p)) with
  | none => exact ⟨hz, by simp⟩
  | some k =>
    have h1 := length_scan_le hz (p := p) (n := 10000 - p) hp
    have h2 : k < (scan m p (10000 - p)).length := (List.findIdx?_eq_some_iff_getElem.mp hk).1
    refine ⟨?_, fun q hq => ?_⟩
    · show write m (p + k) [0] z = 0
      rw [write_of_ge (by simp; omega), hz]
    · cases hq
      omega

theorem sepWrites_inside {next : Option ℕ} (h : ∀ q, next = some q → q < 10000) : ∀ w ∈ sepWrites next, w.Inside := by
  intro w hw
  obtain ⟨q, hq, rfl⟩ := List.mem_map.mp hw
  have := h q (Option.mem_toList.mp hq)
  show q - 1 + 1 ≤ 10000
  omega

theorem splitLine_spec (hz : m z = 0) (hlt : z < 10000) :
    (∀ w ∈ (splitLine m).2.2, w.Inside) ∧
      ∀ q, (splitLine m).2.1 = some q → q ≤ z ∧ (splitLine m).1 z = 0 := by
  obtain ⟨hz1, hq1⟩ := strsepAt_spec (p := 0) (bytes " ") hz (Nat.zero_le z)
  unfold splitLine
  cases h1 : (strsepAt 10000 (bytes " ") m 0).2 with
  | none => simp [h1]
  | some path =>
    have hpath := skipBlanks_le hz1 (hq1 path h1).2
    obtain ⟨hz2, hq2⟩ := strsepAt_spec (bytes " ") hz1 hpath.2
    have hw1 : ∀ w ∈ sepWrites (some path), w.Inside := sepWrites_inside fun q hq => by
      cases hq
      have := (hq1 _ h1).2
      omega
    simp only [h1]
    cases h2 : (strsepAt 10000 (bytes " ") (strsepAt 10000 (bytes " ") m 0).1
        (skipBlanks (strsepAt 10000 (bytes " ") m 0).1 path)).2 with
    | none => exact ⟨hw1, by simp⟩
    | some protocol =>
      have hprot := skipBlanks_le hz2 (hq2 protocol h2).2
      obtain ⟨hz3, hq3⟩ := strsepAt_spec (bytes " ") hz2 hprot.2
      refine ⟨fun w hw => ?_, fun q hq => ?_⟩
      · rw [List.mem_append, List.mem_append] at hw
        rcases hw with (hw | hw) | hw
        · exact hw1 w hw
        · refine sepWrites_inside (fun q hq => ?_) w hw
          cases hq
          have := (hq2 _ h2).2
          omega
        · refine sepWrites_inside (fun q hq => ?_) w hw
          have := (hq3 q hq).2
          omega
      · cases hq
        exact ⟨hprot.2, hz3⟩

/-! ### Turns -/

/-- A string that ends in front of `cur`. -/
def EndsBefore (s : State) (p : ℕ) : Prop := ∃ e, p ≤ e ∧ e < s.cur ∧ s.line e = 0

/-- `cur` is in the array or behind it, and what is kept lies in front of it. -/
structure Inv (s : State) : Prop where
  cur : s.cur ≤ 10000
  sizes : ∀ z ∈ s.sizes, 0 ≤ z
  kept : ∀ p, s.authorization = some p ∨ s.boundary = some p → EndsBefore s p

/-- `cur` goes on, and what is in front of it stays. -/
structure Advances (s s' : State) : Prop where
  cur : s.cur ≤ s'.cur
  line : ∀ i < s.cur, s'.line i = s.line i

theorem Advances.refl (s : State) : Advances s s := ⟨le_refl _, fun _ _ => rfl⟩

theorem Advances.trans {s s' s'' : State} (h : Advances s s') (h' : Advances s' s'') : Advances s s'' where
  cur := h.cur.trans h'.cur
  line := fun i hi => (h'.line i (lt_of_lt_of_le hi h.cur)).trans (h.line i hi)

theorem EndsBefore.advances {s s' : State} {p : ℕ} (h : EndsBefore s p) (ha : Advances s s') : EndsBefore s' p := by
  obtain ⟨e, hp, he, hz⟩ := h
  exact ⟨e, hp, lt_of_lt_of_le he ha.cur, by rw [ha.line e he, hz]⟩

theorem Inv.keeps {s s' : State} (h : Inv s) (ha : Advances s s') : Keeps s s' := by
  intro p hp
  obtain ⟨e, hle, he, hz⟩ := h.kept p hp
  apply CStr.ext_bytes
  exact scan_congr hz hle fun i _ hi => ha.line i (by omega)

theorem length_fgets {empty : Bool} {n : ℤ} {stream got rest : Bytes} (h : fgets empty n stream = some (got, rest)) :
    (got.length : ℤ) + 1 ≤ n := by
  unfold fgets at h
  split_ifs at h with h0 h1 h2 h3
  · cases h
    simp [h1]
  · cases h
    have : ((firstLine stream).take (n - 1).toNat).length ≤ (n - 1).toNat := List.length_take_le _ _
    omega

theorem readLine_spec {empty : Bool} {s : State} (h : Inv s) :
    Inv (readLine empty s) ∧ Advances s (readLine empty s) ∧ (readLine empty s).cur = s.cur ∧
      (readLine empty s).lang = s.lang ∧
      (∀ w ∈ (readLine empty s).writes, w ∈ s.writes ∨ w.Inside) ∧
      ((readLine empty s).done = false →
        ∃ z, s.cur ≤ z ∧ z < 10000 ∧ (readLine empty s).line z = 0) := by
  have hcur := h.cur
  have hsizes : ∀ z ∈ s.sizes ++ [(10000 : ℤ) - s.cur], 0 ≤ z := by
    intro z hz
    rcases List.mem_append.mp hz with hz | hz
    · exact h.sizes z hz
    · rw [List.mem_singleton.mp hz]
      omega
  unfold readLine
  dsimp only
  cases hgot : fgets empty (10000 - s.cur) s.stream with
  | none => exact ⟨⟨h.cur, hsizes, h.kept⟩, ⟨le_refl _, fun _ _ => rfl⟩, rfl, rfl, fun w hw => .inl hw, by simp⟩
  | some r =>
    obtain ⟨got, rest⟩ := r
    have hlen := length_fgets hgot
    have hline : ∀ i < s.cur, write s.line s.cur (got ++ [0]) i = s.line i := fun i hi => write_of_lt hi
    refine ⟨⟨h.cur, hsizes, fun p hp => ?_⟩, ⟨le_refl _, hline⟩, rfl, rfl, fun w hw => ?_, fun _ => ?_⟩
    · obtain ⟨e, hp, he, hz⟩ := h.kept p hp
      exact ⟨e, hp, he, (hline e he).trans hz⟩
    · rcases List.mem_append.mp hw with hw | hw
      · exact .inl hw
      · rw [List.mem_singleton.mp hw]
        refine .inr ?_
        show s.cur + (got.length + 1) ≤ 10000
        omega
    · refine ⟨s.cur + got.length, by omega, by omega, ?_⟩
      exact (holds_append.mp (holds_write_same s.line s.cur (got ++ [0]))).2.1

/-- The value of the header at `cur`, if that is Accept-Language. -/
def languages (s : State) : Option Bytes :=
  let text := scan s.line s.cur (10000 - s.cur)
  if imatchPrefix text "Accept-Language:" = true then some (text.drop 16) else none

theorem length_of_imatchPrefix {text : Bytes} {b : String} (h : imatchPrefix text b = true) :
    (bytes b).length ≤ text.length := by
  have hlen := congrArg List.length (beq_iff_eq.mp h)
  rw [List.length_map, List.length_map, List.length_take] at hlen
  omega

theorem Inv.of_same {s s' : State} (h : Inv s) (hcur : s'.cur = s.cur) (hline : s'.line = s.line)
    (hsizes : s'.sizes = s.sizes) (ha : s'.authorization = s.authorization) (hb : s'.boundary = s.boundary) :
    Inv s' ∧ Advances s s' := by
  refine ⟨⟨by rw [hcur]; exact h.cur, by rw [hsizes]; exact h.sizes, fun p hp => ?_⟩, ?_⟩
  · rw [ha, hb] at hp
    obtain ⟨e, h1, h2, h3⟩ := h.kept p hp
    exact ⟨e, h1, by rw [hcur]; exact h2, by rw [hline]; exact h3⟩
  · exact ⟨hcur.ge, fun i _ => by rw [hline]⟩

/-- The header is kept up to a NUL, and `cur` goes behind that. -/
theorem Inv.of_kept {s s' : State} (h : Inv s) (ha : Advances s s') (hcur : s'.cur ≤ 10000) (hsizes : s'.sizes = s.sizes)
    {p e : ℕ} (hp : p ≤ e) (he : e < s'.cur) (hz : s'.line e = 0)
    (hkept : ∀ q, s'.authorization = some q ∨ s'.boundary = some q →
      q = p ∨ s.authorization = some q ∨ s.boundary = some q) : Inv s' := by
  refine ⟨hcur, by rw [hsizes]; exact h.sizes, fun q hq => ?_⟩
  rcases hkept q hq with rfl | hq
  · exact ⟨e, hp, he, hz⟩
  · exact (h.kept q hq).advances ha

theorem header_spec (behind : Bytes) {s : State} (h : Inv s) {z : ℕ} (hle : s.cur ≤ z) (hlt : z < 10000)
    (hz : s.line z = 0) :
    Inv (header behind s) ∧ Advances s (header behind s) ∧
      ((∀ v, languages s = some v → Fits s.lang v) → ∀ w ∈ (header behind s).writes, w ∈ s.writes ∨ w.Inside) := by
  have hend := nul_at_end hz hle (show z < s.cur + (10000 - s.cur) by omega)
  have hlen := length_scan_le hz (n := 10000 - s.cur) hle
  have hnul := nul_notMem_scan s.line s.cur (10000 - s.cur)
  unfold header languages
  set text := scan s.line s.cur (10000 - s.cur) with htext
  dsimp only
  by_cases hnewline : text = bytes "\n" ∨ text = bytes "\r\n"
  · rw [if_pos hnewline]
    obtain ⟨h1, h2⟩ := @Inv.of_same s { s with done := true } h rfl rfl rfl rfl rfl
    exact ⟨h1, h2, fun _ w hw => .inl hw⟩
  rw [if_neg hnewline]
  by_cases hlang : imatchPrefix text "Accept-Language:" = true
  · rw [if_pos hlang, if_pos hlang]
    have hv : (0 : UInt8) ∉ text.drop 16 := fun hmem => hnul (List.mem_of_mem_drop hmem)
    set r := langLoop ((langStack (text.drop 16) behind).length + 1) 0 (langStack (text.drop 16) behind) s.lang with hr
    have hsame : ∀ s' : State, s'.cur = s.cur → s'.line = s.line → s'.sizes = s.sizes →
        s'.authorization = s.authorization → s'.boundary = s.boundary →
        s'.writes = s.writes ++ [Write.mk .langBuf 0 256, Write.mk .langBuf 0 ((text.drop 16).length + 1)] ++ r.1 →
        Inv s' ∧ Advances s s' ∧ ((∀ v, some (text.drop 16) = some v → Fits s.lang v) →
          ∀ w ∈ s'.writes, w ∈ s.writes ∨ w.Inside) := by
      intro s' hcur hline hsizes hauth hbound hwrites
      obtain ⟨h1, h2⟩ := h.of_same hcur hline hsizes hauth hbound
      refine ⟨h1, h2, fun hfits w hw => ?_⟩
      have hfit := hfits _ rfl
      obtain ⟨ws, lang', heq, hws⟩ := hfit.searched hv behind
      have hlen255 : (text.drop 16).length ≤ 255 := by
        rcases hfit with hf | hf
        · exact hf.le
        · exact hf.1.le
      rw [hwrites, hr, heq, List.mem_append, List.mem_append, List.mem_pair] at hw
      rcases hw with (hw | hw | hw) | hw
      · exact .inl hw
      · rw [hw]
        exact .inr (by decide)
      · rw [hw]
        refine .inr ?_
        show 0 + ((text.drop 16).length + 1) ≤ 256
        omega
      · exact .inr (hws w hw)
    cases r.2 with
    | none => exact hsame _ rfl rfl rfl rfl rfl rfl
    | some lang => exact hsame _ rfl rfl rfl rfl rfl rfl
  rw [if_neg hlang, if_neg hlang]
  by_cases hauth : imatchPrefix text "Authorization:" = true
  · rw [if_pos hauth]
    have h14 : 14 ≤ text.length := length_of_imatchPrefix hauth
    have hblanks := (List.takeWhile_sublist (fun c : UInt8 => c = 32 || c = 9) (l := text.drop 14)).length_le
    rw [List.length_drop] at hblanks
    set cp := s.cur + 14 + ((text.drop 14).takeWhile fun c => c = 32 || c = 9).length with hcp
    have hcple : cp ≤ s.cur + text.length := by omega
    have hstrlen := length_scan_le hend (n := 10000 - cp) hcple
    have hnulcp := nul_at_end hend (p := cp) (n := 10000 - cp) hcple (by omega)
    have hadv : Advances s { s with authorization := some cp, cur := cp + strlen 10000 s.line cp + 1 } :=
      ⟨by dsimp only; omega, fun _ _ => rfl⟩
    refine ⟨h.of_kept hadv ?_ rfl (Nat.le_add_right cp (strlen 10000 s.line cp)) (Nat.lt_succ_self _) hnulcp ?_, hadv,
      fun _ w hw => .inl hw⟩
    · show cp + strlen 10000 s.line cp + 1 ≤ 10000
      unfold strlen
      omega
    · rintro q (hq | hq)
      · exact .inl (Option.some.inj hq).symm
      · exact .inr (.inr hq)
  rw [if_neg hauth]
  by_cases hlength : imatchPrefix text "Content-Length:" = true
  · rw [if_pos hlength]
    obtain ⟨h1, h2⟩ := @Inv.of_same s { s with cl := strtoul ((text.drop 15).dropWhile fun c => c = 32 || c = 9) } h
      rfl rfl rfl rfl rfl
    exact ⟨h1, h2, fun _ w hw => .inl hw⟩
  rw [if_neg hlength]
  cases hfind : strstr (bytes "boundary=") text with
  | none => exact ⟨h, Advances.refl s, fun _ w hw => .inl hw⟩
  | some k =>
    have hk : k + 9 ≤ text.length := ( strstr_of_prefix (List.prefix_refl text) hfind).1
    have hstop := (List.takeWhile_sublist (fun c : UInt8 => c ≠ 13 && c ≠ 10) (l := text.drop (k + 9))).length_le
    rw [List.length_drop] at hstop
    dsimp only
    set cp := s.cur + k + 9 + ((text.drop (k + 9)).takeWhile fun c => c ≠ 13 && c ≠ 10).length with hcp
    have hadv : Advances s
        { s with
          line := write s.line cp [0], boundary := some (s.cur + k + 9), cur := cp + 1,
          writes := s.writes ++ [⟨.line, cp, 1⟩] } :=
      ⟨by dsimp only; omega, fun i hi => write_of_lt (by omega)⟩
    refine ⟨h.of_kept hadv ?_ rfl (show s.cur + k + 9 ≤ cp by omega) (Nat.lt_succ_self cp)
      (holds_write_same s.line cp [0]).1 ?_, hadv, fun _ w hw => ?_⟩
    · show cp + 1 ≤ 10000
      omega
    · rintro q (hq | hq)
      · exact .inr (.inl hq)
      · exact .inl (Option.some.inj hq).symm
    · rcases List.mem_append.mp hw with hw | hw
      · exact .inl hw
      · rw [List.mem_singleton.mp hw]
        refine .inr ?_
        show cp + 1 ≤ 10000
        omega

theorem header_overruns {s : State} {v : Bytes} (hv : languages s = some v) (hbad : ¬Fits s.lang v) :
    ∃ behind, ∃ w ∈ (header behind s).writes, ¬w.Inside := by
  unfold languages at hv
  dsimp only at hv
  split_ifs at hv with hlang
  cases hv
  have hnul := nul_notMem_scan s.line s.cur (10000 - s.cur)
  set text := scan s.line s.cur (10000 - s.cur) with htext
  have hz : (0 : UInt8) ∉ text.drop 16 := fun hmem => hnul (List.mem_of_mem_drop hmem)
  have hnewline : ¬(text = bytes "\n" ∨ text = bytes "\r\n") := by
    have h16 : 16 ≤ text.length := length_of_imatchPrefix hlang
    rintro (he | he) <;> rw [he] at h16 <;> exact absurd h16 (by decide)
  have hwrites : ∀ behind, (header behind s).writes = s.writes ++
      [Write.mk .langBuf 0 256, Write.mk .langBuf 0 ((text.drop 16).length + 1)] ++
        (langLoop ((langStack (text.drop 16) behind).length + 1) 0 (langStack (text.drop 16) behind) s.lang).1 := by
    intro behind
    unfold header
    rw [← htext]
    dsimp only
    rw [if_neg hnewline, if_pos hlang]
    cases (langLoop ((langStack (text.drop 16) behind).length + 1) 0 (langStack (text.drop 16) behind) s.lang).2 with
    | none => rfl
    | some lang => rfl
  by_cases hlong : 256 ≤ (text.drop 16).length
  · refine ⟨[], Write.mk .langBuf 0 ((text.drop 16).length + 1), ?_, ?_⟩
    · rw [hwrites]
      simp
    · show ¬0 + ((text.drop 16).length + 1) ≤ 256
      omega
  · have hlen : (text.drop 16).length = 255 := by
      by_contra hne
      exact hbad (.inl (by omega))
    obtain ⟨w, hw, hout⟩ := overruns hlen hz fun hstop => hbad (.inr ⟨hlen, hstop⟩)
    refine ⟨bytes "a,", w, ?_, hout⟩
    rw [hwrites]
    exact List.mem_append_right _ hw

theorem nextLanguages_eq {empty : Bool} {s : State} (hdone : s.done = false) (hread : (readLine empty s).done = false) :
    nextLanguages empty s = languages (readLine empty s) := by
  unfold nextLanguages languages
  simp [hdone, hread]

/-- A line without a NUL is what stands in the array. -/
theorem nextLanguages_line {empty : Bool} {s : State} {got rest : Bytes} (hdone : s.done = false)
    (hget : fgets empty (10000 - s.cur) s.stream = some (got, rest)) (hnul : 0 ∉ got) :
    nextLanguages empty s = if imatchPrefix got "Accept-Language:" = true then some (got.drop 16) else none := by
  have hread : readLine empty s = { s with
      sizes := s.sizes ++ [(10000 : ℤ) - s.cur], line := write s.line s.cur (got ++ [0]), stream := rest,
      writes := s.writes ++ [⟨.line, s.cur, got.length + 1⟩] } := by
    unfold readLine
    dsimp only
    rw [hget]
  have hlen := length_fgets hget
  have htext : scan (write s.line s.cur (got ++ [0])) s.cur (10000 - s.cur) = got :=
    scan_of_holds hnul (holds_write_same s.line s.cur (got ++ [0])) (by omega)
  rw [nextLanguages_eq hdone (by rw [hread]; exact hdone), hread, languages]
  dsimp only
  rw [htext]

/-- A turn keeps the invariant, and if the value that it reads fits, it writes inside the arrays. -/
theorem turn_spec {empty : Bool} (behind : Bytes) {s : State} (h : Inv s) :
    Inv (turn empty behind s) ∧ Advances s (turn empty behind s) ∧
      ((∀ v, nextLanguages empty s = some v → Fits s.lang v) →
        ∀ w ∈ (turn empty behind s).writes, w ∈ s.writes ∨ w.Inside) := by
  unfold turn
  cases hdone : s.done with
  | true => exact ⟨h, Advances.refl s, fun _ w hw => .inl hw⟩
  | false =>
    obtain ⟨hinv, hadv, hcur, hlang, hwrites, hline⟩ := @readLine_spec empty s h
    simp only [Bool.false_eq_true, if_false]
    cases hread : (readLine empty s).done with
    | true =>
      rw [if_pos rfl]
      exact ⟨hinv, hadv, fun _ => hwrites⟩
    | false =>
      rw [if_neg Bool.false_ne_true]
      obtain ⟨z, hle, hlt, hz⟩ := hline hread
      obtain ⟨h1, h2, h3⟩ := header_spec behind hinv (hcur.le.trans hle) hlt hz
      refine ⟨h1, hadv.trans h2, fun hfits w hw => ?_⟩
      rw [nextLanguages_eq hdone hread, ← hlang] at hfits
      rcases h3 hfits w hw with hw | hw
      · exact hwrites w hw
      · exact .inr hw

theorem turn_overruns {empty : Bool} {s : State} (h : Inv s) {v : Bytes} (hv : nextLanguages empty s = some v)
    (hbad : ¬Fits s.lang v) : ∃ behind, ∃ w ∈ (turn empty behind s).writes, ¬w.Inside := by
  have hboth : s.done = false ∧ (readLine empty s).done = false := by
    unfold nextLanguages at hv
    dsimp only at hv
    split_ifs at hv with hc
    exact ⟨hc.1, hc.2.1⟩
  obtain ⟨hdone, hread⟩ := hboth
  obtain ⟨-, -, -, hlang, -, -⟩ := @readLine_spec empty s h
  rw [nextLanguages_eq hdone hread] at hv
  rw [← hlang] at hbad
  obtain ⟨behind, hout⟩ := header_overruns hv hbad
  refine ⟨behind, ?_⟩
  unfold turn
  rw [hdone, if_neg Bool.false_ne_true]
  dsimp only
  rw [hread, if_neg Bool.false_ne_true]
  exact hout

theorem start_spec (empty : Bool) (stream : Bytes) :
    Inv (start empty stream) ∧ ∀ w ∈ (start empty stream).writes, w.Inside := by
  have hzero : ∀ w ∈ [Write.mk .line 0 10000], w.Inside := by
    intro w hw
    rw [List.mem_singleton.mp hw]
    exact le_refl _
  have hsizes : ∀ z ∈ [(10000 : ℤ)], 0 ≤ z := by decide
  unfold start
  cases hgot : fgets empty 10000 stream with
  | none => exact ⟨⟨Nat.zero_le _, hsizes, by simp⟩, hzero⟩
  | some r =>
    obtain ⟨got, rest⟩ := r
    have hlen := length_fgets hgot
    have hz : write (fun _ => 0) 0 (got ++ [0]) got.length = 0 := by
      have := (holds_append.mp (holds_write_same (fun _ => (0 : UInt8)) 0 (got ++ [0]))).2.1
      rwa [Nat.zero_add] at this
    obtain ⟨hsplit, hprot⟩ := splitLine_spec hz (by omega)
    have hwrites : ∀ w ∈ [Write.mk .line 0 10000] ++ [Write.mk .line 0 (got.length + 1)] ++
        (splitLine (write (fun _ => 0) 0 (got ++ [0]))).2.2, w.Inside := by
      intro w hw
      rw [List.mem_append, List.mem_append] at hw
      rcases hw with (hw | hw) | hw
      · exact hzero w hw
      · rw [List.mem_singleton.mp hw]
        show 0 + (got.length + 1) ≤ 10000
        omega
      · exact hsplit w hw
    dsimp only
    cases hp : (splitLine (write (fun _ => 0) 0 (got ++ [0]))).2.1 with
    | none => exact ⟨⟨Nat.zero_le _, hsizes, by simp⟩, hwrites⟩
    | some protocol =>
      obtain ⟨hle, hnul⟩ := hprot protocol hp
      have hstrlen := length_scan_le hnul (n := 10000 - protocol) hle
      refine ⟨⟨?_, hsizes, by simp⟩, hwrites⟩
      show protocol + strlen 10000 _ protocol + 1 ≤ 10000
      unfold strlen
      omega

/-! ### Requests -/

theorem turns_inv (empty : Bool) (behind : ℕ → Bytes) (stream : Bytes) (n : ℕ) : Inv (turns empty behind stream n) := by
  induction n with
  | zero => exact (start_spec empty stream).1
  | succ n ih => exact (turn_spec (behind n) ih).1

theorem turns_advance (empty : Bool) (behind : ℕ → Bytes) (stream : Bytes) (n k : ℕ) :
    Advances (turns empty behind stream n) (turns empty behind stream (n + k)) := by
  induction k with
  | zero => exact Advances.refl _
  | succ k ih => exact ih.trans (turn_spec (behind (n + k)) (turns_inv empty behind stream (n + k))).2.1

/-- What lies behind `lang_buf` later on does not matter. -/
theorem turns_congr {empty : Bool} {behind behind' : ℕ → Bytes} (stream : Bytes) {n : ℕ}
    (h : ∀ k < n, behind' k = behind k) : turns empty behind' stream n = turns empty behind stream n := by
  induction n with
  | zero => rfl
  | succ n ih =>
    rw [turns, turns, h n (Nat.lt_succ_self n), ih fun k hk => h k (hk.trans (Nat.lt_succ_self n))]

/-- A value of Accept-Language that does not fit. -/
theorem not_readsSafely {empty : Bool} {behind : ℕ → Bytes} {stream : Bytes} {n : ℕ} {v : Bytes}
    (hv : nextLanguages empty (turns empty behind stream n) = some v) (hbad : ¬Fits (turns empty behind stream n).lang v) :
    ¬ReadsSafely stream := by
  intro h
  obtain ⟨b, w, hw, hout⟩ := turn_overruns (turns_inv empty behind stream n) hv hbad
  obtain ⟨hinside, -, -⟩ := h empty (Function.update behind n b) (n + 1)
  apply hout
  apply hinside
  have hsame : turns empty (Function.update behind n b) stream n = turns empty behind stream n :=
    turns_congr stream fun k hk => Function.update_of_ne (Nat.ne_of_lt hk) b behind
  rwa [turns, hsame, Function.update_self]

/-- A request is read safely if each value of Accept-Language fits. -/
theorem headers_iff (stream : Bytes) : ReadsSafely stream ↔ ∀ empty behind n v,
    nextLanguages empty (turns empty behind stream n) = some v → Fits (turns empty behind stream n).lang v := by
  constructor
  · intro h empty behind n v hv
    by_contra hbad
    exact not_readsSafely hv hbad h
  · intro h empty behind n
    have hinv := turns_inv empty behind stream n
    refine ⟨?_, hinv.sizes, fun k => hinv.keeps (turns_advance empty behind stream n k)⟩
    induction n with
    | zero => exact (start_spec empty stream).2
    | succ n ih =>
      intro w hw
      rcases (turn_spec (behind n) (turns_inv empty behind stream n)).2.2 (h empty behind n) w hw with hw | hw
      · exact ih (turns_inv empty behind stream n) w hw
      · exact hw

/-- A request that names 300 bytes of languages. -/
def longLanguages : Bytes := bytes "GET / HTTP/1.1\nAccept-Language:" ++ List.replicate 300 97 ++ bytes "\r\n\r\n"

theorem languages_overflow : ¬ ∀ stream, ReadsSafely stream := by
  intro h
  have hdone : (turns false (fun _ => []) longLanguages 0).done = false := by decide +kernel
  have hline : (fgets false (10000 - (turns false (fun _ => []) longLanguages 0).cur)
      (turns false (fun _ => []) longLanguages 0).stream).any (fun r => !r.1.contains 0 && r.1.length = 318 &&
        imatchPrefix r.1 "Accept-Language:") = true := by
    decide +kernel
  obtain ⟨⟨got, rest⟩, hget, hgot⟩ := (Option.any_eq_true _ _).mp hline
  simp only [Bool.and_eq_true, Bool.not_eq_true', decide_eq_true_eq] at hgot
  obtain ⟨⟨hnul, hlen⟩, hmatch⟩ := hgot
  have hv := nextLanguages_line hdone hget (by simpa using hnul)
  rw [if_pos hmatch] at hv
  refine not_readsSafely hv ?_ (h longLanguages)
  rintro (hlt | ⟨heq, -⟩)
  · rw [List.length_drop] at hlt
    omega
  · rw [List.length_drop] at heq
    omega

end Headers
end Httpd
end Router
