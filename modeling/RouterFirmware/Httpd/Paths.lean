/-
# The names of files that are served

`router/httpd/httpd.c`: `handle_request` serves files below the directory it was started in. It refuses a name that
begins with '/' or has a ".." in one of four places: the whole name, in front, inside, at the end. For the last of them
it compares from three bytes before the end, which for a short name is before its start.

What is accepted has no segment ".." (`dotdot_notMem`), wherever the comparison begins, so that a walk along it stays
below the root (`accepted_stays`). In a path, where a '/' stands before the name, the check is the one on the name
alone (`illegalFilename_eq`), and it refuses nothing else (`illegalFile_iff`).
-/
import RouterFirmware.Httpd.Request
import RouterFirmware.Lib.Path

namespace Router
namespace Httpd

open CMem CText

/-- The check on the name at `file` in `line`. A method that is served has three letters at least, so that `file` is
at 5 or behind it. -/
def illegalFilename (line : Mem) (file : ℕ) : Bool :=
  let name := scan line file (10000 - file)
  name.head? = some 47 || name = bytes ".." || name.take 3 = bytes "../" || (strstr (bytes "/../") name).isSome ||
    scan line (file + name.length - 3) (10000 - (file + name.length - 3)) = bytes "/.."

variable {line : Mem} {file : ℕ} {name : Bytes}

/-- Where a name has a segment "..". -/
theorem dotdot_mem_iff : bytes ".." ∈ name.splitOn 47 ↔
    name = bytes ".." ∨ bytes "../" <+: name ∨ bytes "/../" <:+: name ∨ bytes "/.." <:+ name := by
  rw [mem_splitOn_iff]
  constructor
  · rintro ⟨-, a, b, rfl, rfl | ⟨x, rfl⟩, rfl | ⟨y, rfl⟩⟩
    · exact .inl rfl
    · exact .inr (.inl ⟨y, rfl⟩)
    · exact .inr (.inr (.inr ⟨x, by simp [bytes]⟩))
    · exact .inr (.inr (.inl ⟨x, y, by simp [bytes]⟩))
  · intro h
    refine ⟨by decide, ?_⟩
    rcases h with rfl | ⟨y, rfl⟩ | ⟨x, y, rfl⟩ | ⟨x, rfl⟩
    · exact ⟨[], [], by simp⟩
    · exact ⟨[], 47 :: y, rfl, .inl rfl, .inr ⟨y, rfl⟩⟩
    · exact ⟨x ++ [47], 47 :: y, by simp [bytes], .inr ⟨x, rfl⟩, .inr ⟨y, rfl⟩⟩
    · exact ⟨x ++ [47], [], by simp [bytes], .inr ⟨x, rfl⟩, .inl rfl⟩

theorem take_eq_dotdot_iff : name.take 3 = bytes "../" ↔ bytes "../" <+: name := by
  rw [List.prefix_iff_eq_take]
  exact eq_comm

/-- The comparison at the end of a name that has three bytes. -/
theorem scan_suffix (h : 3 ≤ (scan line file (10000 - file)).length) :
    scan line (file + (scan line file (10000 - file)).length - 3)
        (10000 - (file + (scan line file (10000 - file)).length - 3)) =
      (scan line file (10000 - file)).drop ((scan line file (10000 - file)).length - 3) := by
  rw [← scan_drop (Nat.sub_le _ 3), Nat.add_sub_assoc h, Nat.sub_add_eq]

/-- No segment of a name that is accepted goes up. -/
theorem dotdot_notMem (h : illegalFilename line file = false) :
    bytes ".." ∉ (scan line file (10000 - file)).splitOn 47 := by
  simp only [illegalFilename, Bool.or_eq_false_iff, decide_eq_false_iff_not] at h
  obtain ⟨⟨⟨⟨-, hwhole⟩, hfront⟩, hinside⟩, hend⟩ := h
  rw [dotdot_mem_iff]
  rintro (hw | hf | hi | he)
  · exact hwhole hw
  · exact hfront (take_eq_dotdot_iff.mpr hf)
  · rw [strstr_isSome_iff.mpr hi] at hinside
    exact Bool.noConfusion hinside
  · have hlen : 3 ≤ (scan line file (10000 - file)).length := he.length_le
    rw [scan_suffix hlen] at hend
    exact hend (List.suffix_iff_eq_drop.mp he).symm

/-- No part of the walk along a name that is accepted leads out of the root. -/
theorem accepted_stays (h : illegalFilename line file = false) :
    ∀ walked, walked <+: (scan line file (10000 - file)).splitOn 47 → 0 ≤ level walked := by
  intro walked hwalked
  apply level_nonneg
  intro hmem
  exact dotdot_notMem h (hwalked.subset hmem)

theorem accepted_stays_dots : illegalFilename (write (fun _ => 0) 5 (bytes "a/./..b//")) 5 = false ∧
    ∀ walked, walked <+: (scan (write (fun _ => 0) 5 (bytes "a/./..b//")) 5 (10000 - 5)).splitOn 47 →
      0 ≤ level walked :=
  have h : illegalFilename (write (fun _ => 0) 5 (bytes "a/./..b//")) 5 = false := by decide
  ⟨h, accepted_stays h⟩

/-! ### The name alone -/

/-- All that is refused. -/
theorem illegalFile_iff : illegalFile name = true ↔ name.head? = some 47 ∨ bytes ".." ∈ name.splitOn 47 := by
  have hsuffix : (47 :: name).drop ((47 :: name).length - 3) = bytes "/.." ↔
      name = bytes ".." ∨ bytes "/.." <:+ name := by
    calc (47 :: name).drop ((47 :: name).length - 3) = bytes "/.." ↔ bytes "/.." <:+ 47 :: name := by
          rw [List.suffix_iff_eq_drop]
          exact eq_comm
      _ ↔ name = bytes ".." ∨ bytes "/.." <:+ name := by
          rw [List.suffix_cons_iff]
          exact or_congr_left ⟨fun h => (List.cons.inj h).2.symm, fun h => h ▸ rfl⟩
  rw [illegalFile, dotdot_mem_iff]
  simp only [Bool.or_eq_true, decide_eq_true_eq, strstr_isSome_iff, take_eq_dotdot_iff, hsuffix]
  tauto

/-- The comparison at the end, with the '/' of the path in front of the name. -/
theorem suffix_iff (hfile : 3 ≤ file) (hslash : line (file - 1) = 47) (hpath : line (file - 2) ≠ 47)
    (hname : scan line file (10000 - file) = name) :
    scan line (file + name.length - 3) (10000 - (file + name.length - 3)) = bytes "/.." ↔
      (47 :: name).drop ((47 :: name).length - 3) = bytes "/.." := by
  have hbytes : ∀ {p : ℕ}, scan line p (10000 - p) = bytes "/.." → line p = 47 ∧ line (p + 2) = 46 := by
    intro p h
    obtain ⟨h0, -, h2, -⟩ := h ▸ holds_scan line p (10000 - p)
    exact ⟨h0, h2⟩
  have hshort : (47 :: name).drop ((47 :: name).length - 3) = bytes "/.." → 2 ≤ name.length := by
    intro h
    have hlen := congrArg List.length h
    rw [List.length_drop, List.length_cons] at hlen
    simp [bytes] at hlen
    omega
  rcases Nat.lt_or_ge name.length 2 with hlen | hlen
  · refine ⟨fun h => ?_, fun h => absurd (hshort h) (Nat.not_le.mpr hlen)⟩
    obtain ⟨h0, h2⟩ := hbytes h
    interval_cases hl : name.length
    · rw [show file + 0 - 3 + 2 = file - 1 by omega, hslash] at h2
      exact absurd h2 (by decide)
    · exact absurd h0 (by rwa [show file + 1 - 3 = file - 2 by omega])
  · rcases Nat.eq_or_lt_of_le hlen with htwo | hthree
    · have hfits : 10000 - (file - 1) = 10000 - file + 1 := by
        have hpos : scan line file (10000 - file) ≠ [] := by
          rw [hname]
          exact List.ne_nil_of_length_pos (by omega)
        have : 10000 - file ≠ 0 := fun h => hpos (by rw [h]; rfl)
        omega
      rw [← htwo, show file + 2 - 3 = file - 1 by omega, hfits, scan, hslash, if_neg (by decide),
        Nat.sub_add_cancel (by omega), hname, List.length_cons, ← htwo]
      rfl
    · subst hname
      rw [scan_suffix hthree, List.length_cons, Nat.sub_add_comm hthree, List.drop_succ_cons]

/-- The check of a path is the check of its name. -/
theorem illegalFilename_eq (hfile : 3 ≤ file) (hslash : line (file - 1) = 47) (hpath : line (file - 2) ≠ 47) :
    illegalFilename line file = illegalFile (scan line file (10000 - file)) := by
  rw [illegalFilename, illegalFile, decide_eq_decide.mpr (suffix_iff hfile hslash hpath rfl)]

end Httpd
end Router
