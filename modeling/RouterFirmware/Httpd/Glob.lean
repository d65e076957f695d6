/-
# The web server's file patterns

`match` and `match_one` of `router/httpd/httpd.c`, with their end pointer: the pattern is the text from `pattern` to its
NUL, `patternlen` says how much of it counts, and the byte behind a `*` is looked at even where it does not count. A
string is what `string` points to.

An alternative is at the end of the text or in front of a `|`, so that no `*` stands behind it, and `match_one` is the
matcher of `Request` (`matchOne_eq`); that one decides the pattern `items` (`matchOne_iff`).
-/
import RouterFirmware.Lib.Glob
import RouterFirmware.Httpd.Request

namespace Router
namespace Httpd

open CText CMem Glob

/-! ### The source -/

/-- `match_one(pattern, patternlen, string)`. -/
def matchOneTo (patternlen : ℕ) (pattern string : Bytes) : Bool :=
  match patternlen with
  | 0 => string.isEmpty
  | n + 1 =>
    let p := pattern.headD 0
    if p = 63 ∧ string.headD 0 ≠ 0 then matchOneTo n pattern.tail string.tail
    else if p = 42 then
      if pattern.tail.headD 0 = 42 then
        (List.range (string.length + 1)).reverse.any fun i => matchOneTo (n - 1) pattern.tail.tail (string.drop i)
      else
        (List.range ((string.takeWhile (· ≠ 47)).length + 1)).reverse.any fun i =>
          matchOneTo n pattern.tail (string.drop i)
    else if p ≠ string.headD 0 then false
    else matchOneTo n pattern.tail string.tail
termination_by patternlen

/-- `match(pattern, string)`. -/
def matchAlternatives (pattern string : Bytes) : Bool :=
  match h : pattern.idxOf? 124 with
  | none => matchOneTo pattern.length pattern string
  | some i => if matchOneTo i pattern string then true else matchAlternatives (pattern.drop (i + 1)) string
termination_by pattern.length
decreasing_by
  have hne : pattern ≠ [] := by
    rintro rfl
    simp at h
  have := List.length_pos_iff.mpr hne
  rw [List.length_drop]
  omega

/-! ### The meaning -/

/-- The pattern of an alternative. -/
def items : Bytes → List (Item UInt8)
  | [] => []
  | 42 :: 42 :: p => .any :: items p
  | 42 :: p => .segment :: items p
  | 63 :: p => .one :: items p
  | c :: p => .char c :: items p

theorem any_range {n : ℕ} {q : ℕ → Bool} : (List.range (n + 1)).any q = true ↔ ∃ i ≤ n, q i = true := by
  simp [List.any_eq_true, List.mem_range]

theorem matchOne_star {p : Bytes} (hp : ∀ p', p ≠ 42 :: p') (string : Bytes) : matchOne (42 :: p) string =
    (List.range ((string.takeWhile (· ≠ 47)).length + 1)).any fun i => matchOne p (string.drop i) := by
  rw [matchOne]
  exact hp

theorem matchOne_char {c : UInt8} (h42 : c ≠ 42) (h63 : c ≠ 63) (p : Bytes) (d : UInt8) (string : Bytes) :
    matchOne (c :: p) (d :: string) = (decide (c = d) && matchOne p string) := by
  rw [matchOne]
  · simp [h63]
  · exact fun _ h => absurd h h42
  · exact h42

theorem matchOne_nil {c : UInt8} (h42 : c ≠ 42) (p : Bytes) : matchOne (c :: p) [] = false := by
  rw [matchOne]
  · exact fun _ h => absurd h h42
  · exact h42

theorem matchOne_iff (p string : Bytes) : matchOne p string = true ↔ Matches 47 (items p) string := by
  fun_induction items p generalizing string with
  | case1 => rw [matchOne, List.isEmpty_iff, matches_nil]
  | case2 p ih =>
    rw [matchOne, any_range, matches_any]
    simp only [ih]
  | case3 p hstar ih =>
    rw [matchOne_star hstar, any_range, matches_segment]
    simp only [ih]
  | case4 p ih =>
    cases string with
    | nil => simp [matchOne, not_matches_one_nil]
    | cons d string => simp [matchOne, matches_one, ih]
  | case5 c p _ h42 h63 ih =>
    cases string with
    | nil => simp [matchOne_nil h42, not_matches_char_nil]
    | cons d string => rw [matchOne_char h42 h63, Bool.and_eq_true, decide_eq_true_eq, ih, matches_char]

/-- The matcher with an end pointer, where no `*` stands behind the end. -/
theorem matchOneTo_eq {p rest string : Bytes} (hrest : rest.headD 0 ≠ 42) (hp : 0 ∉ p) (hstring : 0 ∉ string) :
    matchOneTo p.length (p ++ rest) string = matchOne p string := by
  have hdrop (i : ℕ) {s : Bytes} (hs : 0 ∉ s) : 0 ∉ s.drop i := fun h => hs (List.mem_of_mem_drop h)
  fun_induction items p generalizing string with
  | case1 => rw [List.length_nil, matchOneTo, matchOne]
  | case2 p ih =>
    simp only [List.mem_cons, not_or] at hp
    rw [List.length_cons, matchOneTo, matchOne]
    simp [ih hp.2.2 (hdrop _ hstring)]
  | case3 p hstar ih =>
    simp only [List.mem_cons, not_or] at hp
    have hnext : (p ++ rest).headD 0 ≠ 42 := by
      cases p with
      | nil => exact hrest
      | cons c p => exact fun hc => hstar p (by simpa using hc)
    rw [List.length_cons, matchOneTo, matchOne_star hstar]
    simp only [List.cons_append, List.headD_cons, List.tail_cons, hnext]
    simp [ih hp.2 (hdrop _ hstring)]
  | case4 p ih =>
    simp only [List.mem_cons, not_or] at hp
    rw [List.length_cons, matchOneTo]
    cases string with
    | nil => simp [matchOne]
    | cons d string =>
      simp only [List.mem_cons, not_or] at hstring
      simp [matchOne, ih hp.2 hstring.2, Ne.symm hstring.1]
  | case5 c p _ h42 h63 ih =>
    simp only [List.mem_cons, not_or] at hp
    replace h42 : c ≠ 42 := h42
    replace h63 : c ≠ 63 := h63
    rw [List.length_cons, matchOneTo]
    cases string with
    | nil => simp [matchOne_nil h42, h42, Ne.symm hp.1]
    | cons d string =>
      simp only [List.mem_cons, not_or] at hstring
      simp [matchOne_char h42 h63, ih hp.2 hstring.2, h42, h63]

/-- Where `strchr` stops. -/
theorem idxOf?_eq_some {b : UInt8} {s : Bytes} {i : ℕ} (h : s.idxOf? b = some i) :
    ∃ x y, s = x ++ b :: y ∧ b ∉ x ∧ x.length = i := by
  obtain ⟨hi, hb, hbefore⟩ := List.idxOf?_eq_some_iff.mp h
  refine ⟨s.take i, s.drop (i + 1), ?_, ?_, List.length_take_of_le hi.le⟩
  · rw [← hb, ← List.drop_eq_getElem_cons hi, List.take_append_drop]
  · intro hmem
    obtain ⟨j, hj, heq⟩ := List.mem_take_iff_getElem.mp hmem
    exact hbefore j (by omega) heq

/-- `match` tries each alternative. -/
theorem matchAlternatives_eq {pattern string : Bytes} (hpattern : 0 ∉ pattern) (hstring : 0 ∉ string) :
    matchAlternatives pattern string = matchPattern pattern string := by
  fun_induction matchAlternatives pattern string with
  | case1 pattern hor =>
    have hwhole : matchOneTo pattern.length (pattern ++ []) string = matchOne pattern string :=
      matchOneTo_eq (by simp) hpattern hstring
    rw [List.append_nil] at hwhole
    rw [matchPattern, List.splitOn_eq_singleton (List.idxOf?_eq_none_iff.mp hor), List.any_cons, List.any_nil,
      Bool.or_false, hwhole]
  | case2 pattern i hor hmatch =>
    obtain ⟨x, y, rfl, hx, rfl⟩ := idxOf?_eq_some hor
    rw [matchOneTo_eq (by simp) (fun h => hpattern (List.mem_append_left _ h)) hstring] at hmatch
    rw [matchPattern, List.splitOn_append_cons_self_of_not_mem hx, List.any_cons, hmatch, Bool.true_or]
  | case3 pattern i hor hmatch ih =>
    obtain ⟨x, y, rfl, hx, rfl⟩ := idxOf?_eq_some hor
    have hdrop : (x ++ 124 :: y).drop (x.length + 1) = y := by simp
    rw [matchOneTo_eq (by simp) (fun h => hpattern (List.mem_append_left _ h)) hstring, Bool.not_eq_true] at hmatch
    rw [hdrop] at ih ⊢
    rw [ih (fun h => hpattern (by simp [h])), matchPattern, matchPattern, List.splitOn_append_cons_self_of_not_mem hx,
      List.any_cons, hmatch, Bool.false_or]

/-- The pattern of some alternative is the string's. -/
theorem matchAlternatives_iff (pattern string : CStr) : matchAlternatives pattern.bytes string.bytes = true ↔
    ∃ alternative ∈ pattern.bytes.splitOn 124, Matches 47 (items alternative) string.bytes := by
  rw [matchAlternatives_eq pattern.nul_notMem string.nul_notMem, matchPattern, List.any_eq_true]
  simp only [matchOne_iff]

end Httpd
end Router
