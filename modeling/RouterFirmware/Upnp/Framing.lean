/-
# Where a request ends

However the bytes of a request are split into reads, it is dispatched once, when the last of them is there
(`serve_eq`). The header ends at its first blank line, which no part of it has, and the length is looked for only
when the whole header is there. So what `process_http_request` decides of a beginning of the request is whether it is
the whole (`requestComplete_iff`).

A request (`Request`) has lines that end in CRLF, no NUL, and a body of as many bytes as its first Content-Length says,
or none. The method, which its first line begins with, has no colon, so the line is no header.
-/
import RouterFirmware.Upnp.Http

namespace Router
namespace Upnp

open CText

/-! ### Requests -/

def crlf : Bytes := [13, 10]

/-- A line of a header: not empty, and without CR, LF and NUL. -/
def IsLine (l : Bytes) : Prop := l ≠ [] ∧ ∀ c ∈ l, c ≠ 13 ∧ c ≠ 10 ∧ c ≠ 0

/-- The value of a Content-Length header: a number, with blanks around it. -/
def IsNumber (value : Bytes) (n : ℕ) : Prop :=
  ∃ before digits after, value = before ++ digits ++ after ∧ (∀ c ∈ before, c = 32 ∨ c = 9) ∧
    (∀ c ∈ after, c = 32 ∨ c = 9) ∧ digits ≠ [] ∧ (∀ c ∈ digits, isDigit c = true) ∧ digitsVal digits = n

/-- The length that the first Content-Length header gives, and 0 if there is none. -/
def HasLength (headers : List Bytes) (n : ℕ) : Prop :=
  match headers.find? (imatchPrefix · "content-length:") with
  | none => n = 0
  | some header => IsNumber (header.drop 15) n

/-- A request. Its first line begins with the method, which has no colon. -/
structure Request where
  start : Bytes
  headers : List Bytes
  body : Bytes
  lines : ∀ l ∈ start :: headers, IsLine l
  method : 58 ∉ start.takeWhile (· ≠ 32)
  nul : 0 ∉ body
  length : HasLength headers body.length

/-- The lines of a header, and the blank line. -/
def headerBytes (lines : List Bytes) : Bytes := lines.flatMap (· ++ crlf) ++ crlf

def Request.header (r : Request) : Bytes := headerBytes (r.start :: r.headers)

def Request.bytes (r : Request) : Bytes := r.header ++ r.body

/-- What a connection dispatches, one `http_receive` after the other. -/
def serve (c : HttpConnection) : List Input → List (Option Bytes)
  | [] => []
  | i :: is => (httpReceive i c).2 :: match (httpReceive i c).1 with
    | none => []
    | some c' => serve c' is

/-- A read that returns some bytes. -/
def Input.HasData (i : Input) : Prop := ∃ data, i.got = some data ∧ data ≠ []

/-- Each read returns no more than it was asked for. -/
def Bounded (c : HttpConnection) : List Input → Prop
  | [] => True
  | i :: is => Reads i c ∧ ∀ c', (httpReceive i c).1 = some c' → Bounded c' is

/-- The bytes of all reads. -/
def arrived (is : List Input) : Bytes := is.flatMap fun i => i.got.getD []

/-! ### The blank line -/

theorem headerBytes_cons (l : Bytes) (lines : List Bytes) (rest : Bytes) :
    headerBytes (l :: lines) ++ rest = l ++ 13 :: 10 :: (headerBytes lines ++ rest) := by
  simp only [headerBytes, crlf, List.flatMap_cons, List.append_assoc, List.cons_append, List.nil_append]

theorem length_headerBytes_cons (l : Bytes) (lines : List Bytes) :
    (headerBytes (l :: lines)).length = l.length + 2 + (headerBytes lines).length := by
  have hcons := congrArg List.length (headerBytes_cons l lines [])
  simp only [List.append_nil, List.length_append, List.length_cons] at hcons
  omega

theorem length_headerBytes_ge {lines : List Bytes} (hne : lines ≠ []) : 4 ≤ (headerBytes lines).length := by
  obtain ⟨l, lines, rfl⟩ := List.exists_cons_of_ne_nil hne
  rw [length_headerBytes_cons]
  simp only [headerBytes, crlf, List.length_append, List.length_cons, List.length_nil]
  omega

theorem IsLine.cr {l : Bytes} (h : IsLine l) : (13 : UInt8) ∉ l := fun hc => (h.2 13 hc).1 rfl

theorem IsLine.lf {l : Bytes} (h : IsLine l) : (10 : UInt8) ∉ l := fun hc => (h.2 10 hc).2.1 rfl

/-- What comes behind a line: the next, or the blank line. -/
theorem head_headerBytes {lines : List Bytes} (h : ∀ l ∈ lines, IsLine l) (rest : Bytes) :
    ∃ c s, headerBytes lines ++ rest = c :: s ∧ c ≠ 10 ∧ (lines ≠ [] → c ≠ 13) := by
  cases lines with
  | nil => exact ⟨13, 10 :: rest, rfl, by decide, fun hne => absurd rfl hne⟩
  | cons l lines =>
    obtain ⟨hne, hl⟩ := h l List.mem_cons_self
    obtain ⟨c, l, rfl⟩ := List.exists_cons_of_ne_nil hne
    have hc := hl c List.mem_cons_self
    exact ⟨c, _, headerBytes_cons (c :: l) lines rest, hc.2.1, fun _ => hc.1⟩

/-- The blank line comes after the lines. -/
theorem strstr_headerBytes (rest : Bytes) : ∀ {lines : List Bytes}, lines ≠ [] → (∀ l ∈ lines, IsLine l) →
    strstr [13, 10, 13, 10] (headerBytes lines ++ rest) = some ((headerBytes lines).length - 4)
  | [], h, _ => absurd rfl h
  | l :: lines, _, h => by
    have hlines : ∀ l ∈ lines, IsLine l := fun l hl => h l (List.mem_cons_of_mem _ hl)
    obtain ⟨c, s, hs, _, hcr⟩ := head_headerBytes hlines rest
    rw [headerBytes_cons, strstr_append _ (h l List.mem_cons_self).cr, length_headerBytes_cons]
    by_cases hnil : lines = []
    · subst hnil
      have hstart : [13, 10, 13, 10] <+: (13 :: 10 :: (headerBytes [] ++ rest) : Bytes) := ⟨rest, rfl⟩
      rw [strstr_eq_zero hstart]
      simp [headerBytes, crlf]
    · have ih := strstr_headerBytes rest hnil hlines
      have hlen : 4 ≤ (headerBytes lines).length := length_headerBytes_ge hnil
      have hnot1 : ¬[13, 10, 13, 10] <+: (13 :: 10 :: (headerBytes lines ++ rest) : Bytes) := by
        rw [hs]
        intro hp
        simp only [List.cons_prefix_cons] at hp
        exact hcr hnil hp.2.2.1.symm
      have hnot2 : ¬[13, 10, 13, 10] <+: (10 :: (headerBytes lines ++ rest) : Bytes) := by
        intro hp
        exact absurd (List.cons_prefix_cons.mp hp).1 (by decide)
      rw [strstr_cons hnot1, strstr_cons hnot2, ih]
      simp only [Option.map_some, Option.some.injEq]
      omega

/-- Two LF do not come at all. -/
theorem strstr_lf : ∀ {lines : List Bytes}, (∀ l ∈ lines, IsLine l) → strstr [10, 10] (headerBytes lines) = none
  | [], _ => by decide
  | l :: lines, h => by
    have hlines : ∀ l ∈ lines, IsLine l := fun l hl => h l (List.mem_cons_of_mem _ hl)
    obtain ⟨c, s, hs, hlf, _⟩ := head_headerBytes hlines []
    rw [List.append_nil] at hs
    have hcons := headerBytes_cons l lines []
    rw [List.append_nil, List.append_nil] at hcons
    rw [hcons, strstr_append _ (h l List.mem_cons_self).lf]
    have hnot1 : ¬[10, 10] <+: (13 :: 10 :: headerBytes lines : Bytes) := by
      intro hp
      exact absurd (List.cons_prefix_cons.mp hp).1 (by decide)
    have hnot2 : ¬[10, 10] <+: (10 :: headerBytes lines : Bytes) := by
      rw [hs]
      intro hp
      simp only [List.cons_prefix_cons] at hp
      exact hlf hp.2.1.symm
    rw [strstr_cons hnot1, strstr_cons hnot2, strstr_lf hlines]
    rfl

/-- **A part of the header has no blank line.** -/
theorem blankLine_of_prefix {lines : List Bytes} {t : Bytes} (hne : lines ≠ []) (h : ∀ l ∈ lines, IsLine l)
    (hpre : t <+: headerBytes lines) (hlt : t.length < (headerBytes lines).length) : blankLine t = none := by
  have hcrlf : strstr [13, 10, 13, 10] t = none := by
    cases hfind : strstr [13, 10, 13, 10] t with
    | none => rfl
    | some i =>
      obtain ⟨hfit, j, hj, hfull⟩ := strstr_of_prefix hpre hfind
      have hend := strstr_headerBytes [] hne h
      rw [List.append_nil, hfull] at hend
      cases hend
      simp only [List.length_cons, List.length_nil] at hfit
      omega
  have hlf : strstr [10, 10] t = none := by
    cases hfind : strstr [10, 10] t with
    | none => rfl
    | some i =>
      obtain ⟨_, j, _, hfull⟩ := strstr_of_prefix hpre hfind
      rw [strstr_lf h] at hfull
      cases hfull
  unfold blankLine
  rw [show CText.bytes "\r\n\r\n" = [13, 10, 13, 10] from rfl, show CText.bytes "\n\n" = [10, 10] from rfl, hcrlf, hlf]
  rfl

theorem blankLine_headerBytes {lines : List Bytes} (hne : lines ≠ []) (h : ∀ l ∈ lines, IsLine l) (rest : Bytes) :
    blankLine (headerBytes lines ++ rest) = some ((headerBytes lines).length - 4) := by
  unfold blankLine
  rw [show CText.bytes "\r\n\r\n" = [13, 10, 13, 10] from rfl, strstr_headerBytes rest hne h]
  rfl

/-! ### The length -/

theorem not_mem_content_length {c : UInt8} (h : c = 13 ∨ c = 32) :
    lower c ∉ (CText.bytes "content-length:").map lower := by
  rcases h with rfl | rfl <;> decide

/-- The loop looks at a line, and goes on behind its CR. -/
theorem contentLength_line {l : Bytes} (h : IsLine l) (s : Bytes) {n : ℕ} (hn : n ≠ 0) :
    contentLength (l ++ 13 :: s) n =
      if imatchPrefix l "content-length:" then atoi ((l ++ 13 :: s).drop 15) else contentLength s (n - (l.length + 1)) := by
  have hstop : strpbrk (CText.bytes "\r\n") (l ++ 13 :: s) = some l.length := by
    apply strpbrk_append (by decide)
    intro x hx hmem
    obtain ⟨hcr, hlf, _⟩ := h.2 x hx
    rcases List.mem_cons.mp hmem with rfl | hmem
    · exact hcr rfl
    · exact hlf (List.mem_singleton.mp hmem)
  have hpos : 0 < l.length := List.length_pos_iff.mpr h.1
  rw [contentLength, if_neg hn]
  simp only [hstop, hpos, true_and, imatchPrefix_append (not_mem_content_length (.inl rfl))]
  have hdrop : (l ++ 13 :: s).drop (l.length + 1) = s := by
    rw [← List.drop_drop, List.drop_left]
    rfl
  rw [hdrop]

/-- And behind its LF. -/
theorem contentLength_lf (s : Bytes) (n : ℕ) : contentLength (10 :: s) (n + 1) = contentLength s n := by
  have hstop : strpbrk (CText.bytes "\r\n") (10 :: s) = some 0 := strpbrk_append (l := []) (by decide) s (by simp)
  rw [contentLength, if_neg n.succ_ne_zero]
  simp [hstop]

theorem atoi_spaces {b : Bytes} (h : ∀ c ∈ b, isSpace c = true) (s : Bytes) : atoi (b ++ s) = atoi s := by
  unfold atoi
  rw [List.dropWhile_append_of_pos h]

/-- A number is read from its header. -/
theorem IsNumber.atoi {value : Bytes} {n : ℕ} (h : IsNumber value n) (hn : n < 2 ^ 31) (s : Bytes) :
    atoi (value ++ 13 :: s) = n := by
  obtain ⟨before, digits, after, rfl, hbefore, hafter, hne, hdigits, rfl⟩ := h
  have hspace : ∀ c ∈ before, isSpace c = true := by
    intro c hc
    rcases hbefore c hc with rfl | rfl <;> rfl
  have hrest : ∀ c ∈ (after ++ 13 :: s).head?, isDigit c = false := by
    intro c hc
    cases after with
    | nil =>
      cases hc
      rfl
    | cons d after =>
      cases hc
      rcases hafter _ List.mem_cons_self with rfl | rfl <;> rfl
  rw [List.append_assoc, List.append_assoc, atoi_spaces hspace]
  exact atoi_digits hne hdigits hn hrest

theorem hasLength_cons {l : Bytes} {lines : List Bytes} {n : ℕ} :
    HasLength (l :: lines) n ↔
      if imatchPrefix l "content-length:" then IsNumber (l.drop 15) n else HasLength lines n := by
  unfold HasLength
  by_cases hmatch : imatchPrefix l "content-length:" = true <;> simp [hmatch]

/-- **The length is found** when the whole header is there. -/
theorem contentLength_headerBytes {n : ℕ} (hn : n < 2 ^ 31) (rest : Bytes) : ∀ {lines : List Bytes}, lines ≠ [] →
    (∀ l ∈ lines, IsLine l) → HasLength lines n →
    contentLength (headerBytes lines ++ rest) ((headerBytes lines).length - 4) = n
  | [], h, _, _ => absurd rfl h
  | l :: lines, _, h, hlen => by
    have hl := h l List.mem_cons_self
    have hlines : ∀ l ∈ lines, IsLine l := fun l hl => h l (List.mem_cons_of_mem _ hl)
    have hpos : 0 < l.length := List.length_pos_iff.mpr hl.1
    have hblank : 2 ≤ (headerBytes lines).length := by
      simp [headerBytes, crlf]
    have hne : (headerBytes (l :: lines)).length - 4 ≠ 0 := by
      rw [length_headerBytes_cons]
      omega
    rw [headerBytes_cons, contentLength_line hl _ hne]
    rw [hasLength_cons] at hlen
    by_cases hmatch : imatchPrefix l "content-length:" = true
    · rw [if_pos hmatch] at hlen
      have hlong : 15 ≤ l.length := by
        have hsame := congrArg List.length (beq_iff_eq.mp hmatch)
        have h15 : (CText.bytes "content-length:").length = 15 := rfl
        simp only [List.length_map, List.length_take, h15] at hsame
        omega
      rw [if_pos hmatch, List.drop_append_of_le_length hlong]
      exact hlen.atoi hn _
    · rw [if_neg hmatch] at hlen
      rw [if_neg hmatch, length_headerBytes_cons]
      by_cases hnil : lines = []
      · subst hnil
        have hzero : l.length + 2 + (headerBytes []).length - 4 - (l.length + 1) = 0 := by
          simp only [headerBytes, crlf, List.flatMap_nil, List.nil_append, List.length_cons, List.length_nil]
          omega
        rw [hzero, contentLength, if_pos rfl, show n = 0 from hlen]
        rfl
      · have hnext : l.length + 2 + (headerBytes lines).length - 4 - (l.length + 1) =
            (headerBytes lines).length - 4 + 1 := by
          have hfour : 4 ≤ (headerBytes lines).length := length_headerBytes_ge hnil
          omega
        rw [hnext, contentLength_lf]
        exact contentLength_headerBytes hn rest hnil hlines hlen

/-- A first line is no header. -/
theorem colon_of_imatchPrefix {s : Bytes} (h : imatchPrefix s "content-length:" = true) :
    58 ∈ s.takeWhile (· ≠ 32) := by
  have hsame : (s.take 15).map lower = (CText.bytes "content-length:").map lower := beq_iff_eq.mp h
  have hspace : ∀ c ∈ s.take 15, decide (c ≠ 32) = true := by
    intro c hc
    rw [decide_eq_true_eq]
    rintro rfl
    apply not_mem_content_length (.inr rfl)
    rw [← hsame]
    exact List.mem_map_of_mem hc
  have hcolon : (58 : UInt8) ∈ (CText.bytes "content-length:").map lower := by decide
  rw [← hsame] at hcolon
  obtain ⟨c, hc, hlower⟩ := List.mem_map.mp hcolon
  have hc58 : c = 58 := by
    unfold lower at hlower
    split_ifs at hlower with hup
    · have hc26 : c = 58 - 32 := by rw [← hlower, UInt8.add_sub_cancel]
      rw [hc26] at hup
      exact absurd hup (by decide)
    · exact hlower
  subst hc58
  rw [← List.take_append_drop 15 s, List.takeWhile_append_of_pos hspace]
  exact List.mem_append_left _ hc

/-! ### A request -/

theorem Request.hasLength (r : Request) : HasLength (r.start :: r.headers) r.body.length := by
  have hstart : ¬imatchPrefix r.start "content-length:" = true := fun h => r.method (colon_of_imatchPrefix h)
  rw [hasLength_cons, if_neg hstart]
  exact r.length

/-- **Of the beginnings of a request, the whole is complete.** -/
theorem requestComplete_iff {r : Request} {t : Bytes} (hsize : r.bytes.length < 60000) (hpre : t <+: r.bytes) :
    requestComplete t t.length = true ↔ t = r.bytes := by
  have hne : r.start :: r.headers ≠ [] := List.cons_ne_nil _ _
  have hbytes : r.bytes = r.header ++ r.body := rfl
  have hlen : r.bytes.length = r.header.length + r.body.length := List.length_append
  rcases Nat.lt_or_ge t.length r.header.length with hlt | hge
  · have hheader : t <+: r.header := List.prefix_of_prefix_length_le hpre (List.prefix_append _ _) hlt.le
    have hnone : blankLine t = none := blankLine_of_prefix hne r.lines hheader hlt
    unfold requestComplete
    rw [hnone]
    apply iff_of_false Bool.false_ne_true
    rintro rfl
    omega
  · obtain ⟨b, rfl⟩ : r.header <+: t := List.prefix_of_prefix_length_le (List.prefix_append _ _) hpre hge
    have hblank : blankLine (r.header ++ b) = some (r.header.length - 4) := blankLine_headerBytes hne r.lines b
    obtain ⟨s, hs⟩ := strstr_spec (strstr_headerBytes b hne r.lines)
    have hcr : (r.header ++ b)[r.header.length - 4]? = some 13 := by
      have hfirst := congrArg (·[0]?) hs
      rw [List.getElem?_drop, Nat.add_zero] at hfirst
      exact hfirst.symm
    have hfour : 4 ≤ r.header.length := length_headerBytes_ge hne
    have hlength : contentLength (r.header ++ b) (r.header.length - 4) = r.body.length :=
      contentLength_headerBytes (by omega) b hne r.lines r.hasLength
    rw [hbytes, List.append_cancel_left_eq]
    unfold requestComplete
    rw [hblank]
    dsimp only
    rw [hcr, if_pos rfl, hlength, decide_eq_true_eq, List.length_append]
    have hb : b <+: r.body := (List.prefix_append_right_inj _).mp hpre
    refine ⟨fun hle => hb.eq_of_length_le (by omega), ?_⟩
    rintro rfl
    omega

theorem Request.nul_bytes (r : Request) : (0 : UInt8) ∉ r.bytes := by
  have hline : ∀ l ∈ r.start :: r.headers, (0 : UInt8) ∉ l := fun l hl hc => ((r.lines l hl).2 0 hc).2.2 rfl
  have hcrlf : (0 : UInt8) ∉ crlf := by decide
  have hheader : (0 : UInt8) ∉ r.header := by
    unfold Request.header headerBytes
    rw [List.mem_append, not_or]
    refine ⟨fun hmem => ?_, hcrlf⟩
    obtain ⟨l, hl, hc⟩ := List.mem_flatMap.mp hmem
    rcases List.mem_append.mp hc with hc | hc
    · exact hline l hl hc
    · exact hcrlf hc
  intro hmem
  rcases List.mem_append.mp hmem with hmem | hmem
  · exact hheader hmem
  · exact r.nul hmem

/-! ### A run -/

/-- What is there is the beginning of a request, and the reads return the rest. -/
theorem serve_of_holds {r : Request} (hsize : r.bytes.length < 60000) : ∀ {is : List Input} {c : HttpConnection}
    {t : Bytes}, Holds t c → t.length < r.bytes.length → (∀ i ∈ is, i.HasData) → Bounded c is →
    t ++ arrived is = r.bytes → serve c is = List.replicate (is.length - 1) none ++ [some r.bytes]
  | [], c, t, _, hlt, _, _, harrived => by
    rw [arrived, List.flatMap_nil, List.append_nil] at harrived
    rw [harrived] at hlt
    exact absurd hlt (lt_irrefl _)
  | i :: is, c, t, hholds, hlt, hdata, hbounded, harrived => by
    obtain ⟨data, hgot, hne⟩ := hdata i List.mem_cons_self
    have hrest : ∀ i ∈ is, i.HasData := fun i hi => hdata i (List.mem_cons_of_mem _ hi)
    have hsplit : t ++ data ++ arrived is = r.bytes := by
      rw [List.append_assoc, ← harrived]
      simp only [arrived, List.flatMap_cons, hgot, Option.getD_some]
    have hpre : t ++ data <+: r.bytes := ⟨_, hsplit⟩
    have hnul : (0 : UInt8) ∉ t ++ data := fun hmem => r.nul_bytes (hpre.subset hmem)
    have hfits : Fits c := by
      intro hlow
      have hrecvd := hholds.length
      omega
    have hstep := hholds.httpReceive hfits hbounded.1 hgot hne hnul
    by_cases hwhole : t ++ data = r.bytes
    · rw [if_pos ((requestComplete_iff hsize hpre).mpr hwhole), hwhole] at hstep
      have hnone : is = [] := by
        cases is with
        | nil => rfl
        | cons j is =>
          obtain ⟨more, hmore, hmorene⟩ := hrest j List.mem_cons_self
          rw [hwhole] at hsplit
          have hnil : arrived (j :: is) = [] := List.append_right_eq_self.mp hsplit
          rw [arrived, List.flatMap_cons, hmore] at hnil
          exact absurd (List.append_eq_nil_iff.mp hnil).1 hmorene
      subst hnone
      rw [serve, hstep]
      cases (httpReceive i c).1 <;> rfl
    · have hpart : ¬requestComplete (t ++ data) (t ++ data).length = true :=
        fun h => hwhole ((requestComplete_iff hsize hpre).mp h)
      rw [if_neg hpart] at hstep
      obtain ⟨hout, c', hc', hholds'⟩ := hstep
      have hlt' : (t ++ data).length < r.bytes.length := by
        refine lt_of_le_of_ne hpre.length_le fun heq => hwhole (hpre.eq_of_length heq)
      have hmore : is ≠ [] := by
        rintro rfl
        rw [arrived, List.flatMap_nil, List.append_nil] at hsplit
        exact hwhole hsplit
      have ih := serve_of_holds hsize hholds' hlt' hrest (hbounded.2 c' hc') hsplit
      obtain ⟨j, is, rfl⟩ := List.exists_cons_of_ne_nil hmore
      rw [serve, hout, hc']
      dsimp only
      rw [ih]
      rfl

/-- **A request is dispatched once**, by the read of its last byte and as a whole, however it is split into reads. -/
theorem serve_eq (r : Request) (hsize : r.bytes.length < 60000) {c : HttpConnection} (hready : Holds [] c)
    {is : List Input} (hdata : ∀ i ∈ is, i.HasData) (hbounded : Bounded c is) (hbytes : arrived is = r.bytes) :
    serve c is = List.replicate (is.length - 1) none ++ [some r.bytes] := by
  apply serve_of_holds hsize hready _ hdata hbounded hbytes
  have hfour : 4 ≤ r.header.length := length_headerBytes_ge (List.cons_ne_nil _ _)
  rw [Request.bytes, List.length_append]
  exact Nat.lt_of_lt_of_le (by decide) (hfour.trans (Nat.le_add_right _ _))

/-- A request with a body of two bytes. -/
def post : Request where
  start := CText.bytes "POST /wan HTTP/1.1"
  headers := [CText.bytes "Content-Length: 2"]
  body := CText.bytes "hi"
  lines := by
    intro l hl
    rcases List.mem_cons.mp hl with rfl | hl
    · exact ⟨by decide, by decide⟩
    · cases List.mem_singleton.mp hl
      exact ⟨by decide, by decide⟩
  method := by decide
  nul := by decide
  length := ⟨[32], [50], [], rfl, by decide, by decide, by decide, by decide, rfl⟩

/-- A read. -/
def gets (data : Bytes) : Input := ⟨some data, fun _ => 0, fun _ => 0, false⟩

/-- It comes in two reads, the first of which ends in the blank line. -/
theorem serve_post :
    serve .accepted [gets (post.bytes.take 41), gets (post.bytes.drop 41)] = [none, some post.bytes] := by
  have hready : Holds [] .accepted := ⟨⟨by decide, List.length_replicate⟩, rfl, rfl⟩
  have hdata : ∀ i ∈ [gets (post.bytes.take 41), gets (post.bytes.drop 41)], i.HasData := by
    intro i hi
    rcases List.mem_cons.mp hi with rfl | hi
    · exact ⟨_, rfl, by decide⟩
    · cases List.mem_singleton.mp hi
      exact ⟨_, rfl, by decide⟩
  have hbounded : Bounded .accepted [gets (post.bytes.take 41), gets (post.bytes.drop 41)] := by
    refine ⟨fun data hgot => ?_, fun c hc => ⟨fun data hgot => ?_, fun _ _ => trivial⟩⟩
    · cases hgot
      decide
    · cases hgot
      rcases httpReceive_cases hc with ⟨hnone, _⟩ | ⟨data, hgot, hmax, _, hrecvd⟩
      · cases hnone
      · cases hgot
        have hmax' : c.maxbytes.toNat = 400 := by
          rw [hmax]
          decide
        have hrecvd' : c.bytesRecvd.toNat ≤ 41 := by
          rcases hrecvd with h | h
          · rw [h]
            decide
          · rw [h]
            decide
        have hroom : ¬(c.maxbytes.toNat : ℤ) - c.bytesRecvd.toNat < 200 := by omega
        have hlen : (post.bytes.drop 41).length = 2 := by decide
        unfold HttpConnection.readCount HttpConnection.grow
        rw [if_neg hroom, hlen]
        omega
  have hsize : post.bytes.length < 60000 := by decide
  exact serve_eq post hsize hready hdata hbounded (by decide)

end Upnp
end Router
