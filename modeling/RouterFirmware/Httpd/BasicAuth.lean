/-
# The credentials of a request in their buffer

`b64_decode` and `auth_check` of `router/httpd/httpd.c`, where they read and write. A byte from 0x80 on is a negative
`char`, whose entry would stand in front of `b64_decode_table`: there the run is undefined. Of `auth_check` it is kept
which offsets of `authinfo`, a buffer of 500 bytes, it reads and writes; `b64_decode` may fill the buffer, and then the
NUL is written behind it (`authCheckIn_inside_iff`).
-/
import RouterFirmware.Httpd.Base64

namespace Router
namespace Httpd

open CText CMem Base64 Client

/-! ### The source -/

/-- A byte of the text. -/
def Decoder.stepIn (size : ℕ) (x : Decoder) (cp : UInt8) : Option Decoder :=
  if 128 ≤ cp then none else some (x.step (fun _ => 0) size cp)

/-- `b64_decode(str, space, size)`: what is in `space`, as many bytes as it returns. -/
def b64DecodeIn (str : Bytes) (size : ℕ) : Option Bytes :=
  (str.foldlM (Decoder.stepIn size) ⟨0, 0, []⟩).map (·.space)

/-- How many bytes of the second string `strcmp` reads. -/
def strcmpReads : Bytes → Bytes → ℕ
  | a :: as, b :: bs => if a = b then strcmpReads as bs + 1 else 1
  | _, _ => 1

/-- `auth_check` from the decoded bytes on: what it returns, and the offsets of `authinfo` that are read and written. -/
def authInfo (authUserid authPasswd space : Bytes) : Bool × List ℕ :=
  let l := space.length
  let authinfo := (cstr space).bytes
  let user := authinfo.takeWhile (· ≠ 58)
  let searched := List.range l ++ [l] ++ List.range (user.length + 1)
  if user.length = authinfo.length then (false, searched)
  else
    let authpass := authinfo.drop (user.length + 1)
    let compared := searched ++ [user.length] ++ List.range (strcmpReads authUserid user)
    if authUserid = user then
      (authPasswd = authpass, compared ++ (List.range (strcmpReads authPasswd authpass)).map (user.length + 1 + ·))
    else (false, compared)

/-- `auth_check(dirname, authorization)`. -/
def authCheckIn (authUserid authPasswd : Bytes) (authorization : Option Bytes) : Option (Bool × List ℕ) :=
  if authPasswd = [] then some (true, [])
  else
    match authorization with
    | none => some (false, [])
    | some authorization =>
      if authorization.take 6 ≠ bytes "Basic " then some (false, [])
      else (b64DecodeIn (authorization.drop 6) 500).map (authInfo authUserid authPasswd)

/-! ### The decoder -/

variable {size : ℕ} {t s : Bytes}

theorem foldlM_stepIn : ∀ (t : Bytes) (x : Decoder), t.foldlM (Decoder.stepIn size) x =
    if ∀ c ∈ t, c < 128 then some (t.foldl (Decoder.step (fun _ => 0) size) x) else none
  | [], x => by simp
  | c :: t, x => by
    rw [List.foldlM_cons, Decoder.stepIn]
    by_cases hc : 128 ≤ c
    · rw [if_pos hc, if_neg fun h => UInt8.not_lt.mpr hc (h c List.mem_cons_self)]
      rfl
    · rw [if_neg hc, Option.bind_eq_bind, Option.bind_some, foldlM_stepIn t]
      simp [UInt8.not_le.mp hc]

/-- On a text of ASCII the decoder is that of a request, whatever stands in front of the table. -/
theorem b64DecodeIn_eq (t : Bytes) (size : ℕ) :
    b64DecodeIn t size = if ∀ c ∈ t, c < 128 then some (b64Decode (fun _ => 0) t size) else none := by
  rw [b64DecodeIn, foldlM_stepIn]
  split_ifs <;> rfl

theorem b64Digit_of_notMem (c : UInt8) (hc : c < 128) (hout : c ∉ alphabet) : b64Digit (fun _ => 0) c = -1 := by
  have halphabet : alphabet =
      (List.range' 65 26 ++ (List.range' 97 26 ++ (List.range' 48 10 ++ [43, 47]))).map UInt8.ofNat := by decide +kernel
  have hnot : c.toNat ∉ List.range' 65 26 ++ (List.range' 97 26 ++ (List.range' 48 10 ++ [43, 47])) := by
    intro hmem
    have hchar := List.mem_map_of_mem (f := UInt8.ofNat) hmem
    rw [← halphabet, UInt8.ofNat_toNat] at hchar
    exact hout hchar
  simp only [List.mem_append, List.mem_range'_1, List.mem_cons, List.not_mem_nil, or_false] at hnot
  have hlt : c.toNat < 128 := UInt8.lt_iff_toNat_lt.mp hc
  unfold b64Digit
  simp only [isDigit, Bool.and_eq_true, decide_eq_true_eq, UInt8.le_iff_toNat_le, ← UInt8.toNat_inj, UInt8.reduceToNat]
  rw [if_neg (by omega), if_neg (by omega), if_neg (by omega), if_neg (by omega), if_neg (by omega), if_neg (by omega)]

theorem b64Decode_interspersed (hst : Interspersed (encode s) t) (ht : ∀ c ∈ t, c < 128) (hsize : s.length ≤ size) :
    b64Decode (fun _ => 0) t size = s := by
  have hskip : ∀ c ∈ t, c ∉ alphabet → ∀ x, Decoder.step (fun _ => 0) size x c = x := by
    intro c hc hout x
    rw [Decoder.step, b64Digit_of_notMem c (ht c hc) hout]
    exact if_pos rfl
  rw [b64Decode, hst.foldl_eq hskip]
  exact (b64Decode_encode _ s size).trans (List.take_of_length_le hsize)

/-- The decoder gives back what was encoded, if it looks only into its table. -/
theorem b64DecodeIn_iff (hsize : s.length ≤ size) (hst : Interspersed (encode s) t) :
    b64DecodeIn t size = some s ↔ ∀ c ∈ t, c < 128 := by
  rw [b64DecodeIn_eq]
  by_cases ht : ∀ c ∈ t, c < 128
  · rw [if_pos ht, b64Decode_interspersed hst ht hsize]
    exact iff_of_true rfl ht
  · rw [if_neg ht]
    exact iff_of_false (Option.some_ne_none s).symm ht

/-! ### How much is decoded -/

/-- The characters of the alphabet in a text of ASCII. -/
def digits (t : Bytes) : ℕ := t.countP fun c => b64Digit (fun _ => 0) c ≠ -1

theorem digits_cons (c : UInt8) (t : Bytes) :
    digits (c :: t) = if b64Digit (fun _ => 0) c = -1 then digits t else digits t + 1 := by
  unfold digits
  rw [List.countP_cons]
  split_ifs <;> simp_all

/-- The decoder after `n` characters of the alphabet: three bytes for four of them. -/
structure Decoder.After (size n : ℕ) (x : Decoder) : Prop where
  phase : x.phase = n % 4
  length : x.space.length = min size (3 * n / 4)

theorem length_put_eq {sp : Bytes} {k : ℕ} (h : sp.length = min size k) (c : UInt8) :
    (put size sp c).length = min size (k + 1) := by
  unfold put
  split_ifs with hlt
  · rw [List.length_append, List.length_singleton]
    omega
  · omega

theorem Decoder.After.step {n : ℕ} {x : Decoder} {c : UInt8} (h : x.After size n) (hc : b64Digit (fun _ => 0) c ≠ -1) :
    (x.step (fun _ => 0) size c).After size (n + 1) := by
  obtain ⟨phase, prev, sp⟩ := x
  obtain ⟨hphase, hlength⟩ := h
  simp only at hphase hlength
  have hlt : phase < 4 := by omega
  unfold Decoder.step
  rw [if_neg hc]
  interval_cases phase
  · exact ⟨by simp only; omega, by simp only; omega⟩
  all_goals
    refine ⟨by simp only; omega, ?_⟩
    refine (length_put_eq hlength _).trans ?_
    omega

theorem Decoder.After.foldl {n : ℕ} {x : Decoder} (h : x.After size n) (t : Bytes) :
    (t.foldl (Decoder.step (fun _ => 0) size) x).After size (n + digits t) := by
  induction t generalizing n x with
  | nil => exact h
  | cons c t ih =>
    rw [List.foldl_cons, digits_cons]
    by_cases hc : b64Digit (fun _ => 0) c = -1
    · have hstep : x.step (fun _ => 0) size c = x := by
        rw [Decoder.step, hc]
        exact if_pos rfl
      rw [if_pos hc, hstep]
      exact ih h
    · have hnext := ih (h.step hc)
      rwa [if_neg hc, show n + (digits t + 1) = n + 1 + digits t by omega]

theorem length_b64Decode (t : Bytes) (size : ℕ) :
    (b64Decode (fun _ => 0) t size).length = min size (3 * digits t / 4) := by
  have h : Decoder.After size 0 ⟨0, 0, []⟩ := ⟨rfl, by simp⟩
  have hall := (h.foldl t).length
  rwa [Nat.zero_add] at hall

/-! ### What is returned -/

theorem strsep_colon (info : Bytes) : strsep [58] info =
    if (info.takeWhile (· ≠ 58)).length = info.length then (info, none)
    else (info.takeWhile (· ≠ 58), some (info.drop ((info.takeWhile (· ≠ 58)).length + 1))) := by
  by_cases hcolon : 58 ∈ info
  · obtain ⟨user, pass, rfl, huser⟩ := List.eq_append_cons_of_mem hcolon
    rw [takeWhile_ne_append huser, if_neg (by simp), strsep_append (by simp) _ fun c hc hsep => ?_]
    · simp
    · exact huser (List.mem_singleton.mp hsep ▸ hc)
  · rw [takeWhile_ne_self hcolon, if_pos rfl]
    exact strsep_eq_none fun c hc hsep => hcolon (List.mem_singleton.mp hsep ▸ hc)

/-- Where the table is not left, the answer is that of a request. -/
theorem authCheckIn_ret {authUserid authPasswd : Bytes} {authorization : Option Bytes} {r : Bool × List ℕ}
    (h : authCheckIn authUserid authPasswd authorization = some r) :
    r.1 = authCheck (fun _ => 0) authUserid authPasswd authorization := by
  unfold authCheckIn at h
  unfold authCheck
  split_ifs at h ⊢ with hpasswd
  · cases h
    rfl
  · cases authorization with
    | none =>
      cases h
      rfl
    | some a =>
      simp only at h ⊢
      split_ifs at h ⊢ with hbasic
      · cases h
        rfl
      · obtain ⟨space, hspace, rfl⟩ := Option.map_eq_some_iff.mp h
        rw [b64DecodeIn_eq] at hspace
        split_ifs at hspace
        cases hspace
        rw [strsep_colon]
        unfold authInfo
        dsimp only
        split_ifs with hcolon huser
        · rfl
        · dsimp only
          rw [decide_eq_true huser, Bool.true_and]
        · dsimp only
          rw [decide_eq_false huser, Bool.false_and]

/-! ### The buffer -/

theorem strcmpReads_le (a b : Bytes) : strcmpReads a b ≤ b.length + 1 := by
  fun_induction strcmpReads a b with
  | case1 => simpa using ‹_›
  | case2 => simp
  | case3 => simp

/-- All that is read and written lies before the NUL, and the NUL is written. -/
theorem authInfo_le (authUserid authPasswd space : Bytes) :
    space.length ∈ (authInfo authUserid authPasswd space).2 ∧
      ∀ i ∈ (authInfo authUserid authPasswd space).2, i ≤ space.length := by
  have hinfo : (cstr space).bytes.length ≤ space.length := (List.takeWhile_sublist _).length_le
  have huser : ((cstr space).bytes.takeWhile (· ≠ 58)).length ≤ (cstr space).bytes.length :=
    (List.takeWhile_sublist _).length_le
  have hname := strcmpReads_le authUserid ((cstr space).bytes.takeWhile (· ≠ 58))
  have hpass := strcmpReads_le authPasswd
    ((cstr space).bytes.drop (((cstr space).bytes.takeWhile (· ≠ 58)).length + 1))
  rw [List.length_drop] at hpass
  unfold authInfo
  dsimp only
  split_ifs with hcolon hsame
  all_goals
    refine ⟨by simp, fun i hi => ?_⟩
    simp only [List.mem_append, List.mem_range, List.mem_singleton, List.mem_map] at hi
  · omega
  · omega
  · omega

/-- `auth_check` reads its table, and reads and writes `authinfo`, where they are. -/
def AuthInside (authUserid authPasswd : Bytes) (authorization : Option Bytes) : Prop :=
  ∃ r, authCheckIn authUserid authPasswd authorization = some r ∧ ∀ i ∈ r.2, i < 500

/-- ASCII, with at most 666 characters of the alphabet behind the scheme. -/
def Modest (authorization : Bytes) : Prop :=
  authorization.take 6 = bytes "Basic " →
    (∀ c ∈ authorization.drop 6, c < 128) ∧ digits (authorization.drop 6) ≤ 666

theorem authInside_iff (authUserid authPasswd : Bytes) (authorization : Option Bytes) :
    AuthInside authUserid authPasswd authorization ↔ authPasswd = [] ∨ ∀ a ∈ authorization, Modest a := by
  unfold AuthInside authCheckIn
  by_cases hpasswd : authPasswd = []
  · simp [hpasswd]
  · rw [if_neg hpasswd, or_iff_right hpasswd]
    cases authorization with
    | none => simp
    | some a =>
      simp only [Option.mem_some_iff, forall_eq', Modest]
      by_cases hbasic : a.take 6 = bytes "Basic "
      · rw [if_neg (not_not.mpr hbasic), b64DecodeIn_eq]
        by_cases hascii : ∀ c ∈ a.drop 6, c < 128
        · rw [if_pos hascii]
          have hlength := length_b64Decode (a.drop 6) 500
          obtain ⟨hlast, hle⟩ := authInfo_le authUserid authPasswd (b64Decode (fun _ => 0) (a.drop 6) 500)
          constructor
          · rintro ⟨r, hr, hinside⟩ -
            cases hr
            have := hinside _ hlast
            exact ⟨hascii, by omega⟩
          · intro h
            obtain ⟨-, hdigits⟩ := h hbasic
            refine ⟨_, rfl, fun i hi => ?_⟩
            have := hle i hi
            omega
        · rw [if_neg hascii]
          refine iff_of_false (by simp) fun h => hascii (h hbasic).1
      · simp [hbasic]

/-- **Basic authentication**: what was encoded is decoded just where the text is ASCII, whatever stands between its
characters; and `auth_check` stays inside its buffer just where the header is modest. -/
theorem basicAuth_iff {size : ℕ} {s t : Bytes} (hsize : s.length ≤ size) (hst : Interspersed (encode s) t)
    (authUserid authPasswd : CStr) (authorization : Option CStr) :
    (b64DecodeIn t size = some s ↔ ∀ c ∈ t, c < 128) ∧
      (AuthInside authUserid.bytes authPasswd.bytes (authorization.map CStr.bytes) ↔
        authPasswd.bytes = [] ∨ ∀ a ∈ authorization, Modest a.bytes) := by
  refine ⟨b64DecodeIn_iff hsize hst, ?_⟩
  rw [authInside_iff]
  simp

theorem basicAuth_iff_ab : b64DecodeIn (bytes "YT pi") 3 = some (bytes "a:b") ∧
    AuthInside (bytes "a") (bytes "b") (some (bytes "Basic YTpi")) := by
  have hst : Interspersed (encode (bytes "a:b")) (bytes "YT pi") := by
    have hencode : encode (bytes "a:b") = bytes "YTpi" := by decide
    rw [hencode]
    exact .same (.same (.other (by decide) (by decide) (.same (.same .nil))))
  have hsize : (bytes "a:b").length ≤ 3 := by decide
  obtain ⟨hdecode, hinside⟩ := basicAuth_iff hsize hst (.lit "a") (.lit "b") (some (.lit "Basic YTpi"))
  refine ⟨hdecode.mpr (by decide), hinside.mpr (.inr ?_)⟩
  rintro a ⟨⟩
  exact fun _ => by decide

theorem digits_replicate (n : ℕ) : digits (List.replicate n 65) = n := by
  have hdigit : b64Digit (fun _ => 0) 65 ≠ -1 := by decide
  simp [digits, List.countP_replicate, hdigit]

/-- A byte 0xff between the characters of no bytes; and a header with 667 characters of the alphabet. -/
theorem basicAuth_outside :
    (¬ ∀ s t size, s.length ≤ size → Interspersed (encode s) t → b64DecodeIn t size = some s) ∧
      ¬ ∀ (authUserid authPasswd : CStr) (authorization : Option CStr),
        AuthInside authUserid.bytes authPasswd.bytes (authorization.map CStr.bytes) := by
  constructor
  · intro h
    have hff := h [] [255] 0 le_rfl (.other (by decide) (by decide) .nil)
    exact absurd hff (by decide)
  · intro h
    have hnul : (0 : UInt8) ∉ bytes "Basic " ++ List.replicate 667 65 := by
      rw [List.mem_append, List.mem_replicate]
      decide
    rcases (authInside_iff _ _ _).mp (h (.lit "a") (.lit "b") (some ⟨_, hnul⟩)) with hempty | hmodest
    · exact absurd hempty (by decide)
    · have hdigits := (hmodest _ rfl (by rfl)).2
      have hdrop : (bytes "Basic " ++ List.replicate 667 65).drop 6 = List.replicate 667 65 := rfl
      rw [hdrop, digits_replicate] at hdigits
      exact absurd hdigits (by decide)

end Httpd
end Router
