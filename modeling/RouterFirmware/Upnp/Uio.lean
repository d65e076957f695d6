/-
# Streams on strings

`upnp/upnp/uio.c`: what is printed to a UFILE on a string goes to a buffer. Where the buffer is the stream's own,
`uprintf` makes it larger, 256 bytes at a time, until `vsnprintf` says that the output fits. It takes an output for
fitting that fills the buffer to its end. The NUL then stands over the last byte of it, and the next output behind
that.

`streamed` is what the buffer holds (`run_spec`). It is what was printed unless an output ends where the buffer once
could have ended (`uprintf_concat_iff`).

The sizes are numbers without a limit: no process of the router has the 2 GB of memory at which an `int` overflows.
What an allocation has in it is an input.
-/
import RouterFirmware.Lib.CMem
import RouterFirmware.Lib.Text

namespace Router
namespace Upnp
namespace Uio

open CMem CText

/-! ### The code -/

/-- `UFILE`, on a string. -/
structure UFile where
  dynamic : Bool
  bytesWritten : ℕ
  buffer : Mem
  avail : ℕ

/-- `usopen(str, maxlen)`. A string of a caller has the size it says; another one is allocated, with `junk` in it. -/
def usopen (junk : Mem) (str : Option Mem) (maxlen : ℤ) : UFile :=
  match str with
  | some str => ⟨false, 0, str, maxlen.toNat⟩
  | none => ⟨true, 0, junk, if maxlen ≤ 0 then 1024 else maxlen.toNat⟩

/-- `vsnprintf(m + p, len, …)`, where the formatted output is `out`. -/
def vsnprintf (m : Mem) (p len : ℕ) (out : Bytes) : Mem :=
  if len = 0 then m else write m p (out.take (len - 1) ++ [0])

/-- The buffer, and the stream, after an attempt to print to it. -/
def UFile.attempt (up : UFile) (out : Bytes) : UFile :=
  { up with buffer := vsnprintf up.buffer up.bytesWritten (up.avail - up.bytesWritten) out }

/-- The stream on an allocation of 256 bytes more, with `junk` behind what is kept. -/
def UFile.grow (up : UFile) (junk : Mem) : UFile :=
  { up with buffer := fun i => if i < up.avail then up.buffer i else junk i, avail := up.avail + 256 }

/-- `uprintf(up, fmt, …)`, where the formatted output is `out`, and `realloc` is NULL or has the new bytes. -/
def uprintf (realloc : ℕ → Option Mem) (up : UFile) (out : Bytes) : UFile :=
  if up.avail - up.bytesWritten < out.length then
    -- we tried to overwrite the end of the buffer
    if up.dynamic then
      match realloc (up.avail + 256) with
      | some junk => uprintf realloc ((up.attempt out).grow junk) out
      | none => up.attempt out
    else up.attempt out
  else { up.attempt out with bytesWritten := up.bytesWritten + out.length }
termination_by out.length + up.bytesWritten - up.avail
decreasing_by
  simp only [UFile.grow, UFile.attempt]
  omega

/-- `utell(up)`. -/
def utell (up : UFile) : ℕ := up.bytesWritten

/-- `ubuffer(up)`. -/
def ubuffer (up : UFile) : Mem := up.buffer

/-- The stream that `usopen(NULL, maxlen)` gives, after the outputs. -/
def printed (realloc : ℕ → Option Mem) (junk : Mem) (maxlen : ℤ) (outs : List Bytes) : UFile :=
  outs.foldl (uprintf realloc) (usopen junk none maxlen)

/-! ### What the buffer holds -/

/-- The sizes that a buffer of `size` bytes grows through. -/
def IsSize (size total : ℕ) : Prop := size ≤ total ∧ 256 ∣ total - size

instance (size total : ℕ) : Decidable (IsSize size total) := inferInstanceAs (Decidable (_ ∧ _))

/-- An output behind `before` bytes, as it is left in the buffer. -/
def kept (size before : ℕ) (out : Bytes) : Bytes :=
  if out ≠ [] ∧ IsSize size (before + out.length) then out.dropLast ++ [0] else out

/-- The outputs, as they are left. -/
def streamed (size : ℕ) : ℕ → List Bytes → Bytes
  | _, [] => []
  | before, out :: outs => kept size before out ++ streamed size (before + out.length) outs

@[simp] theorem length_kept (size before : ℕ) (out : Bytes) : (kept size before out).length = out.length := by
  unfold kept
  split_ifs with h
  · have := List.length_pos_of_ne_nil h.1
    simp
    omega
  · rfl

theorem length_streamed (size : ℕ) : ∀ (outs : List Bytes) (before : ℕ),
    (streamed size before outs).length = outs.flatten.length
  | [], _ => rfl
  | out :: outs, before => by
    rw [streamed, List.length_append, length_kept, length_streamed size outs, List.flatten_cons, List.length_append]

/-- A stream of its own with the bytes `s`, no larger than it was made for outputs up to `total` bytes. -/
structure Inv (size total : ℕ) (s : Bytes) (up : UFile) : Prop where
  dynamic : up.dynamic = true
  written : up.bytesWritten = s.length
  holds : CMem.Holds up.buffer 0 s
  fits : s.length ≤ up.avail
  isSize : IsSize size up.avail
  least : up.avail = size ∨ up.avail < total + 256

variable {size total : ℕ} {s : Bytes} {up : UFile} {realloc : ℕ → Option Mem}

theorem Inv.usopen (junk : Mem) (maxlen : ℤ) :
    Inv (usopen junk none maxlen).avail ([] : Bytes).length [] (usopen junk none maxlen) where
  dynamic := rfl
  written := rfl
  holds := trivial
  fits := Nat.zero_le _
  isSize := ⟨le_rfl, by rw [Nat.sub_self]; exact Nat.dvd_zero 256⟩
  least := .inl rfl

theorem usopen_pos (junk : Mem) (maxlen : ℤ) : 0 < (Uio.usopen junk none maxlen).avail := by
  simp only [Uio.usopen]
  split_ifs <;> omega

theorem Inv.mono {total' : ℕ} (h : Inv size total s up) (hle : total ≤ total') : Inv size total' s up :=
  { h with least := h.least.imp_right fun hlt => by omega }

/-- An attempt leaves what was printed before. -/
theorem Inv.attempt (h : Inv size total s up) (out : Bytes) : Inv size total s (up.attempt out) :=
  { h with
    holds := by
      unfold UFile.attempt vsnprintf
      split_ifs
      · exact h.holds
      · exact holds_write_of_le h.holds (by rw [h.written]; omega) }

theorem Inv.grow (h : Inv size total s up) (junk : Mem) (hlt : up.avail < total) :
    Inv size total s (up.grow junk) where
  dynamic := h.dynamic
  written := h.written
  holds := h.holds.congr fun i _ hi => if_pos (by have := h.fits; omega)
  fits := h.fits.trans (Nat.le_add_right _ _)
  isSize := by
    obtain ⟨hle, hdvd⟩ := h.isSize
    refine ⟨hle.trans (Nat.le_add_right _ _), ?_⟩
    rw [UFile.grow, Nat.sub_add_comm hle]
    exact Nat.dvd_add hdvd (Nat.dvd_refl 256)
  least := .inr (Nat.add_lt_add_right hlt 256)

/-- The total is a size that the buffer grows through only when it fills the buffer. -/
theorem Inv.isSize_iff (h : Inv size total s up) (hle : total ≤ up.avail) : IsSize size total ↔ total = up.avail := by
  constructor
  · rintro ⟨hsize, hdvd⟩
    obtain ⟨hsize', hdvd'⟩ := h.isSize
    rcases h.least with heq | hlt
    · omega
    · omega
  · rintro rfl
    exact h.isSize

/-- What an attempt that fits leaves. -/
theorem Inv.done {out : Bytes} (h : Inv size (s.length + out.length) s up) (hfits : s.length + out.length ≤ up.avail) :
    Inv size (s.length + out.length) (s ++ kept size s.length out)
      { up.attempt out with bytesWritten := up.bytesWritten + out.length } where
  dynamic := h.dynamic
  written := by simp [h.written]
  holds := by
    rw [holds_append]
    refine ⟨(h.attempt out).holds, ?_⟩
    have hiff := h.isSize_iff hfits
    simp only [UFile.attempt, vsnprintf, h.written, Nat.zero_add, kept, hiff]
    by_cases hnil : out = []
    · subst hnil
      simp [CMem.Holds]
    · have hpos := List.length_pos_of_ne_nil hnil
      rw [if_neg (by omega)]
      split_ifs with hend
      · rw [List.dropLast_eq_take, show up.avail - s.length = out.length by omega]
        exact holds_write_same _ _ _
      · have hne : s.length + out.length ≠ up.avail := fun h => hend ⟨hnil, h⟩
        rw [List.take_of_length_le (by omega)]
        exact (holds_append.mp (holds_write_same up.buffer s.length (out ++ [0]))).1
  fits := by
    rw [List.length_append, length_kept]
    exact hfits
  isSize := h.isSize
  least := h.least

/-- One output. -/
theorem uprintf_spec (hrealloc : ∀ n, (realloc n).isSome = true) (out : Bytes) :
    ∀ {up : UFile}, Inv size (s.length + out.length) s up →
      Inv size (s.length + out.length) (s ++ kept size s.length out) (uprintf realloc up out) := by
  intro up h
  have hwritten := h.written
  have hfits := h.fits
  rw [uprintf]
  split_ifs with hlt hdyn
  · obtain ⟨junk, hjunk⟩ := Option.isSome_iff_exists.mp (hrealloc (up.avail + 256))
    rw [hjunk]
    exact uprintf_spec hrealloc out ((h.attempt out).grow junk (by show up.avail < _; omega))
  · exact absurd h.dynamic hdyn
  · exact h.done (by omega)
termination_by up => out.length + up.bytesWritten - up.avail
decreasing_by
  simp only [UFile.grow, UFile.attempt]
  omega

/-- All outputs. -/
theorem run_spec (hrealloc : ∀ n, (realloc n).isSome = true) : ∀ {outs : List Bytes} {s : Bytes} {up : UFile},
    Inv size s.length s up →
    Inv size (s ++ streamed size s.length outs).length (s ++ streamed size s.length outs)
      (outs.foldl (uprintf realloc) up)
  | [], s, up, h => by
    rw [streamed, List.append_nil]
    exact h
  | out :: outs, s, up, h => by
    have hone := uprintf_spec hrealloc out (h.mono (Nat.le_add_right s.length out.length))
    have hlen : (s ++ kept size s.length out).length = s.length + out.length := by simp
    rw [← hlen] at hone
    rw [List.foldl_cons, streamed, ← List.append_assoc, ← hlen]
    exact run_spec hrealloc hone

/-! ### When that is what was printed -/

theorem kept_eq_iff {before : ℕ} {out : Bytes} :
    kept size before out = out ↔ (out ≠ [] → IsSize size (before + out.length) → out.getLast? = some 0) := by
  unfold kept
  split_ifs with h
  · constructor
    · intro heq _ _
      rw [← heq, List.getLast?_concat]
    · intro hlast
      exact List.dropLast_append_getLast? 0 (hlast h.1 h.2)
  · exact ⟨fun _ hne hsize => absurd ⟨hne, hsize⟩ h, fun _ => rfl⟩

theorem streamed_eq_iff : ∀ {outs : List Bytes} {before : ℕ}, streamed size before outs = outs.flatten ↔
    ∀ pre, pre <+: outs → pre.flatten ≠ [] → IsSize size (before + pre.flatten.length) → pre.flatten.getLast? = some 0
  | [], before => by
    refine ⟨fun _ pre hpre hne => absurd ?_ hne, fun _ => rfl⟩
    rw [List.prefix_nil.mp hpre, List.flatten_nil]
  | out :: outs, before => by
    have hsplit : streamed size before (out :: outs) = (out :: outs).flatten ↔
        kept size before out = out ∧ streamed size (before + out.length) outs = outs.flatten := by
      rw [streamed, List.flatten_cons]
      exact ⟨fun h => List.append_inj h (length_kept size before out), fun ⟨h1, h2⟩ => by rw [h1, h2]⟩
    rw [hsplit, kept_eq_iff, streamed_eq_iff]
    constructor
    · rintro ⟨hout, houts⟩ pre hpre hne hsize
      cases pre with
      | nil => exact absurd rfl hne
      | cons x pre =>
        obtain ⟨rfl, hpre'⟩ := List.cons_prefix_cons.mp hpre
        rw [List.flatten_cons] at hne hsize ⊢
        by_cases hnil : pre.flatten = []
        · rw [hnil, List.append_nil] at hne hsize ⊢
          exact hout hne hsize
        · rw [List.length_append, ← Nat.add_assoc] at hsize
          rw [List.getLast?_append_of_ne_nil _ hnil]
          exact houts pre hpre' hnil hsize
    · intro h
      constructor
      · intro hne hsize
        have hone := h [out] ⟨outs, rfl⟩
        rw [List.flatten_singleton] at hone
        exact hone hne hsize
      · intro pre hpre hne hsize
        have hcons := h (out :: pre) (List.cons_prefix_cons.mpr ⟨rfl, hpre⟩)
        rw [List.flatten_cons, List.length_append, ← Nat.add_assoc, List.getLast?_append_of_ne_nil _ hne] at hcons
        exact hcons (List.append_ne_nil_of_right_ne_nil _ hne) hsize

/-- The bytes that are there. -/
theorem load_printed (junk : Mem) (maxlen : ℤ) (outs : List Bytes) (hrealloc : ∀ n, (realloc n).isSome = true) :
    load (ubuffer (printed realloc junk maxlen outs)) 0 (utell (printed realloc junk maxlen outs)) =
        streamed (usopen junk none maxlen).avail 0 outs ∧
      utell (printed realloc junk maxlen outs) = outs.flatten.length := by
  have h : Inv _ _ _ (outs.foldl (uprintf realloc) (usopen junk none maxlen)) :=
    run_spec hrealloc (Inv.usopen junk maxlen)
  rw [List.nil_append, List.length_nil] at h
  rw [utell, ubuffer, printed, h.written]
  exact ⟨load_of_holds h.holds, length_streamed _ outs 0⟩

/-- The buffer holds what was printed unless an output ends at one of its sizes, with a byte other than NUL. -/
theorem uprintf_concat_iff (junk : Mem) (maxlen : ℤ) (outs : List Bytes)
    (hrealloc : ∀ n, (realloc n).isSome = true) :
    (load (ubuffer (printed realloc junk maxlen outs)) 0 (utell (printed realloc junk maxlen outs)) = outs.flatten ∧
        utell (printed realloc junk maxlen outs) = outs.flatten.length) ↔
      ∀ pre, pre <+: outs → IsSize (usopen junk none maxlen).avail pre.flatten.length →
        pre.flatten.getLast? = some 0 := by
  have hpos := usopen_pos junk maxlen
  obtain ⟨hload, htell⟩ := load_printed junk maxlen outs hrealloc
  rw [hload, streamed_eq_iff]
  simp only [Nat.zero_add]
  constructor
  · rintro ⟨hall, -⟩ pre hpre hsize
    apply hall pre hpre _ hsize
    rintro hnil
    rw [hnil] at hsize
    exact Nat.not_lt.mpr hsize.1 hpos
  · exact fun hall => ⟨fun pre hpre _ => hall pre hpre, htell⟩

theorem uprintf_concat_four :
    (load (ubuffer (printed (fun _ => some fun _ => 1) (fun _ => 1) 4 [bytes "abc", bytes "d"])) 0
          (utell (printed (fun _ => some fun _ => 1) (fun _ => 1) 4 [bytes "abc", bytes "d"])) =
          [bytes "abc", bytes "d"].flatten ∧
        utell (printed (fun _ => some fun _ => 1) (fun _ => 1) 4 [bytes "abc", bytes "d"]) =
          [bytes "abc", bytes "d"].flatten.length) ↔
      ∀ pre, pre <+: [bytes "abc", bytes "d"] → IsSize (usopen (fun _ => 1) none 4).avail pre.flatten.length →
        pre.flatten.getLast? = some 0 :=
  uprintf_concat_iff _ _ _ fun _ => rfl

/-- The last byte of an output that fills the buffer is lost. -/
theorem load_ne {junk : Mem} {maxlen : ℤ} {out : Bytes} (hrealloc : ∀ n, (realloc n).isSome = true)
    (hsize : IsSize (usopen junk none maxlen).avail out.length) (hlast : out.getLast? ≠ some 0) :
    load (ubuffer (printed realloc junk maxlen [out])) 0 (utell (printed realloc junk maxlen [out])) ≠
      [out].flatten := by
  intro h
  rw [(load_printed junk maxlen [out] hrealloc).1, streamed_eq_iff] at h
  have hone := h [out] (List.prefix_refl _)
  rw [List.flatten_singleton, Nat.zero_add] at hone
  apply hlast
  apply hone _ hsize
  rintro rfl
  exact Nat.not_lt.mpr hsize.1 (usopen_pos junk maxlen)

theorem load_ne_full :
    load (ubuffer (printed (fun _ => some fun _ => 1) (fun _ => 1) 0 [List.replicate 1024 97])) 0
      (utell (printed (fun _ => some fun _ => 1) (fun _ => 1) 0 [List.replicate 1024 97])) ≠
        [List.replicate 1024 97].flatten := by
  apply load_ne fun _ => rfl
  · rw [List.length_replicate]
    decide
  · rw [List.getLast?_replicate]
    decide

end Uio
end Upnp
end Router
