/-
# Information elements

`bcm_next_tlv`, `bcm_parse_tlvs` and `bcm_parse_ordered_tlvs` of `shared/bcmutils.c`. A buffer holds elements of an id, a
length and as many bytes of data, one behind the other. The functions walk over them with bound checks of their own; a
walk comes with the offsets that it reads.

A buffer is cut into its complete elements and a rest that begins with none (`Elements`), in one way. All walks find the
first element with the id among them and read inside the buffer (`bcmParseTlvs_first`), the ordered one if the ids
do not decrease (`bcmParseOrderedTlvs_eq`). The length of a buffer is an `int`, and no less than two bytes are taken off
at a time: as much fuel as the length is enough.
-/
import RouterFirmware.Nvram.Image

namespace Router
namespace Bcm
namespace Tlvs

open CMem Nvram

/-! ### The walks -/

/-- The element that was found, as an offset in the buffer, and the offsets that were read. -/
structure Walk where
  elt : Option ℕ
  reads : List ℕ

/-- A walk that goes on after other reads. -/
def Walk.after (reads : List ℕ) (w : Walk) : Walk := ⟨w.elt, reads ++ w.reads⟩

@[simp] theorem Walk.elt_after (reads : List ℕ) (w : Walk) : (w.after reads).elt = w.elt := rfl

@[simp] theorem Walk.mem_after {reads : List ℕ} {w : Walk} {i : ℕ} :
    i ∈ (w.after reads).reads ↔ i ∈ reads ∨ i ∈ w.reads := List.mem_append

/-- `elt->len`. -/
def lenOf (m : Mem) (elt : ℕ) : ℕ := (m (elt + 1)).toNat

/-- `bcm_valid_tlv(elt, buflen)`. -/
def bcmValidTlv (m : Mem) (elt : ℕ) (buflen : ℤ) : Bool := 2 ≤ buflen && 2 + lenOf m elt ≤ buflen

/-- What `bcm_valid_tlv` reads. -/
def validReads (elt : ℕ) (buflen : ℤ) : List ℕ := if 2 ≤ buflen then [elt + 1] else []

/-- `bcm_next_tlv(elt, buflen)`: the walk, and the length that is left. -/
def bcmNextTlv (m : Mem) (elt : ℕ) (buflen : ℤ) : Walk × ℤ :=
  if bcmValidTlv m elt buflen then
    let len := lenOf m elt
    let elt' := elt + 2 + len
    let buflen' := buflen - (2 + len)
    let reads := validReads elt buflen ++ (elt + 1) :: validReads elt' buflen'
    if bcmValidTlv m elt' buflen' then (⟨some elt', reads⟩, buflen') else (⟨none, reads⟩, buflen')
  else (⟨none, validReads elt buflen⟩, buflen)

/-- The loop of `bcm_parse_tlvs`. -/
def parseLoop (m : Mem) (key : UInt32) : ℕ → ℕ → ℤ → Walk
  | 0, _, _ => ⟨none, []⟩
  | fuel + 1, elt, totlen =>
    if totlen ≥ 2 then
      let len := lenOf m elt
      -- the length is remaining
      if (m elt).toUInt32 = key ∧ totlen ≥ len + 2 then ⟨some elt, [elt + 1, elt]⟩
      else (parseLoop m key fuel (elt + (len + 2)) (totlen - (len + 2))).after [elt + 1, elt]
    else ⟨none, []⟩

/-- `bcm_parse_tlvs(buf, buflen, key)`. -/
def bcmParseTlvs (m : Mem) (buflen : ℤ) (key : UInt32) : Walk := parseLoop m key buflen.toNat 0 buflen

/-- The loop of `bcm_parse_ordered_tlvs`, which gives up at an id greater than the key. -/
def parseOrderedLoop (m : Mem) (key : UInt32) : ℕ → ℕ → ℤ → Walk
  | 0, _, _ => ⟨none, []⟩
  | fuel + 1, elt, totlen =>
    if totlen ≥ 2 then
      let id := (m elt).toUInt32
      let len := lenOf m elt
      if id > key then ⟨none, [elt, elt + 1]⟩
      else if id = key ∧ totlen ≥ len + 2 then ⟨some elt, [elt, elt + 1]⟩
      else (parseOrderedLoop m key fuel (elt + (len + 2)) (totlen - (len + 2))).after [elt, elt + 1]
    else ⟨none, []⟩

/-- `bcm_parse_ordered_tlvs(buf, buflen, key)`. -/
def bcmParseOrderedTlvs (m : Mem) (buflen : ℤ) (key : UInt32) : Walk := parseOrderedLoop m key buflen.toNat 0 buflen

/-- From one element to the next with `bcm_next_tlv`, up to one with the id. -/
def enumerateLoop (m : Mem) (key : UInt32) : ℕ → ℕ → ℤ → Walk
  | 0, _, _ => ⟨none, []⟩
  | fuel + 1, elt, buflen =>
    if (m elt).toUInt32 = key then ⟨some elt, [elt]⟩
    else
      let next := bcmNextTlv m elt buflen
      match next.1.elt with
      | none => ⟨none, elt :: next.1.reads⟩
      | some elt' => (enumerateLoop m key fuel elt' next.2).after (elt :: next.1.reads)

/-- The enumeration of a buffer from its first element, if it has one. -/
def enumerate (m : Mem) (buflen : ℤ) (key : UInt32) : Walk :=
  if bcmValidTlv m 0 buflen then (enumerateLoop m key buflen.toNat 0 buflen).after (validReads 0 buflen)
  else ⟨none, validReads 0 buflen⟩

/-! ### The elements of a buffer -/

/-- An element. -/
structure Tlv where
  id : UInt8
  data : List UInt8
  short : data.length < 256

/-- As it stands in a buffer. -/
def Tlv.bytes (e : Tlv) : List UInt8 := e.id :: UInt8.ofNat e.data.length :: e.data

/-- The bytes of elements, one behind the other. -/
def area (es : List Tlv) : List UInt8 := es.flatMap Tlv.bytes

/-- The complete elements of a buffer: no further one stands behind them. -/
structure Elements (l : List UInt8) (es : List Tlv) (rest : List UInt8) : Prop where
  split : l = area es ++ rest
  last : ∀ e : Tlv, ¬e.bytes <+: rest

/-- The first element with the id, as an offset from the first of all. -/
def first (key : UInt32) (es : List Tlv) : Option ℕ :=
  (es.findIdx? fun e => e.id.toUInt32 = key).map fun k => (area (es.take k)).length

theorem length_bytes (e : Tlv) : e.bytes.length = 2 + e.data.length := by
  simp only [Tlv.bytes, List.length_cons]
  omega

theorem first_cons (key : UInt32) (e : Tlv) (es : List Tlv) :
    first key (e :: es) = if e.id.toUInt32 = key then some 0 else (first key es).map (e.bytes.length + ·) := by
  unfold first
  rw [List.findIdx?_cons]
  by_cases hid : e.id.toUInt32 = key
  · rw [if_pos hid, if_pos (decide_eq_true hid)]
    rfl
  · rw [if_neg hid, if_neg (by simpa using hid), Option.map_map, Option.map_map]
    congr 1
    funext k
    show (area (e :: es.take k)).length = _
    rw [area, List.flatMap_cons, List.length_append]
    rfl

theorem first_eq_none {key : UInt32} {es : List Tlv} (h : ∀ e ∈ es, e.id.toUInt32 ≠ key) : first key es = none := by
  unfold first
  rw [List.findIdx?_eq_none_iff.mpr fun e he => decide_eq_false (h e he)]
  rfl

/-- A buffer that begins with an element, or with none. -/
theorem exists_bytes_or (l : List UInt8) : (∃ e : Tlv, ∃ l', l = e.bytes ++ l') ∨ ∀ e : Tlv, ¬e.bytes <+: l := by
  by_cases h : ∃ e : Tlv, e.bytes <+: l
  · obtain ⟨e, l', rfl⟩ := h
    exact .inl ⟨e, l', rfl⟩
  · exact .inr (not_exists.mp h)

/-- Every buffer is cut into its elements. -/
theorem exists_elements (l : List UInt8) : ∃ es rest, Elements l es rest := by
  rcases exists_bytes_or l with ⟨e, l', rfl⟩ | hnone
  · have hlt : l'.length < (e.bytes ++ l').length := by
      rw [List.length_append, length_bytes]
      omega
    obtain ⟨es, rest, hsplit, hlast⟩ := exists_elements l'
    refine ⟨e :: es, rest, ?_, hlast⟩
    rw [hsplit, area, area, List.flatMap_cons, List.append_assoc]
  · exact ⟨[], l, rfl, hnone⟩
termination_by l.length

/-- The length of an element is in it. -/
theorem bytes_inj {e e' : Tlv} {l l' : List UInt8} (h : e.bytes ++ l = e'.bytes ++ l') : e = e' ∧ l = l' := by
  obtain ⟨id, data, hshort⟩ := e
  obtain ⟨id', data', hshort'⟩ := e'
  simp only [Tlv.bytes, List.cons_append, List.cons.injEq] at h
  obtain ⟨rfl, hlen, hdata⟩ := h
  have hlength : data.length = data'.length := by
    have := congrArg UInt8.toNat hlen
    rwa [UInt8.toNat_ofNat_of_lt' hshort, UInt8.toNat_ofNat_of_lt' hshort'] at this
  obtain ⟨rfl, rfl⟩ := List.append_inj hdata hlength
  exact ⟨rfl, rfl⟩

/-- In one way only. -/
theorem Elements.unique {l rest rest' : List UInt8} {es es' : List Tlv} (h : Elements l es rest)
    (h' : Elements l es' rest') : es = es' ∧ rest = rest' := by
  induction es generalizing l es' with
  | nil =>
    cases es' with
    | nil => exact ⟨rfl, h.split.symm.trans h'.split⟩
    | cons e' es' =>
      refine absurd ⟨area es' ++ rest', ?_⟩ (h.last e')
      rw [← List.append_assoc]
      exact h'.split.symm.trans h.split
  | cons e es ih =>
    cases es' with
    | nil =>
      refine absurd ⟨area es ++ rest, ?_⟩ (h'.last e)
      rw [← List.append_assoc]
      exact h.split.symm.trans h'.split
    | cons e' es' =>
      have heq : e.bytes ++ (area es ++ rest) = e'.bytes ++ (area es' ++ rest') := by
        rw [← List.append_assoc, ← List.append_assoc]
        exact h.split.symm.trans h'.split
      obtain ⟨rfl, htail⟩ := bytes_inj heq
      obtain ⟨rfl, rfl⟩ := ih ⟨rfl, h.last⟩ ⟨htail, h'.last⟩
      exact ⟨rfl, rfl⟩

/-! ### What is read of an element -/

section Reads

variable {m : Mem} {elt : ℕ} {e : Tlv} {l rest : List UInt8}

theorem id_of_holds (h : Holds m elt (e.bytes ++ l)) : m elt = e.id := h.1

theorem lenOf_of_holds (h : Holds m elt (e.bytes ++ l)) : lenOf m elt = e.data.length := by
  rw [lenOf, h.2.1, UInt8.toNat_ofNat_of_lt' e.short]

/-- The length in a rest goes over its end. -/
theorem lenOf_of_last (h : Holds m elt rest) (hlast : ∀ e : Tlv, ¬e.bytes <+: rest) (hlen : 2 ≤ rest.length) :
    rest.length < lenOf m elt + 2 := by
  obtain _ | ⟨id, _ | ⟨len, data⟩⟩ := rest
  · exact absurd hlen (by simp)
  · exact absurd hlen (by simp)
  · have hm : lenOf m elt = len.toNat := congrArg UInt8.toNat h.2.1
    by_contra hfits
    simp only [List.length_cons, not_lt] at hfits
    have htake : (data.take len.toNat).length = len.toNat := List.length_take_of_le (by omega)
    have hlt : (data.take len.toNat).length < 256 := by
      rw [htake]
      exact len.toNat_lt
    refine hlast ⟨id, data.take len.toNat, hlt⟩ ⟨data.drop len.toNat, ?_⟩
    simp only [Tlv.bytes, htake, UInt8.ofNat_toNat, List.cons_append, List.take_append_drop]

theorem valid_of_holds (h : Holds m elt (e.bytes ++ l)) :
    bcmValidTlv m elt ((e.bytes ++ l).length : ℕ) = true := by
  unfold bcmValidTlv
  rw [lenOf_of_holds h, List.length_append, length_bytes, Bool.and_eq_true, decide_eq_true_eq, decide_eq_true_eq]
  omega

theorem not_valid_of_last (h : Holds m elt rest) (hlast : ∀ e : Tlv, ¬e.bytes <+: rest) :
    bcmValidTlv m elt (rest.length : ℕ) = false := by
  unfold bcmValidTlv
  rw [Bool.and_eq_false_iff, decide_eq_false_iff_not, decide_eq_false_iff_not]
  by_cases hlen : 2 ≤ rest.length
  · have := lenOf_of_last h hlast hlen
    omega
  · omega

end Reads

/-! ### Inside the buffer -/

section Inside

variable {m : Mem} {key : UInt32}

theorem validReads_inside {elt : ℕ} {buflen : ℤ} : ∀ i ∈ validReads elt buflen, (i : ℤ) < elt + buflen := by
  intro i hi
  unfold validReads at hi
  split_ifs at hi with hlen
  · rw [List.mem_singleton] at hi
    omega
  · exact absurd hi List.not_mem_nil

theorem bcmNextTlv_inside {elt : ℕ} {buflen : ℤ} : ∀ i ∈ (bcmNextTlv m elt buflen).1.reads, (i : ℤ) < elt + buflen := by
  intro i hi
  have hnext : ∀ i ∈ validReads (elt + 2 + lenOf m elt) (buflen - (2 + lenOf m elt)), (i : ℤ) < elt + buflen := by
    intro i hi
    have := validReads_inside i hi
    push_cast at this
    omega
  unfold bcmNextTlv at hi
  by_cases hvalid : bcmValidTlv m elt buflen = true
  · have hlen : 2 ≤ buflen := by
      rw [bcmValidTlv, Bool.and_eq_true, decide_eq_true_eq] at hvalid
      exact hvalid.1
    rw [if_pos hvalid] at hi
    have hmem : i ∈ validReads elt buflen ++ (elt + 1) :: validReads (elt + 2 + lenOf m elt) (buflen - (2 + lenOf m elt)) := by
      dsimp only at hi
      split_ifs at hi
      · exact hi
      · exact hi
    rw [List.mem_append, List.mem_cons] at hmem
    rcases hmem with hmem | rfl | hmem
    · exact validReads_inside i hmem
    · push_cast
      omega
    · exact hnext i hmem
  · rw [if_neg hvalid] at hi
    exact validReads_inside i hi

/-- A walk is inside if its turn is and the rest of it is. -/
theorem after_inside {reads : List ℕ} {w : Walk} {b : ℤ} (hreads : ∀ i ∈ reads, (i : ℤ) < b)
    (hw : ∀ i ∈ w.reads, (i : ℤ) < b) : ∀ i ∈ (w.after reads).reads, (i : ℤ) < b := by
  intro i hi
  rcases Walk.mem_after.mp hi with hi | hi
  · exact hreads i hi
  · exact hw i hi

theorem pair_inside {elt : ℕ} {totlen : ℤ} (h : totlen ≥ 2) {reads : List ℕ}
    (hreads : ∀ i ∈ reads, i = elt ∨ i = elt + 1) : ∀ i ∈ reads, (i : ℤ) < elt + totlen := by
  intro i hi
  rcases hreads i hi with rfl | rfl
  · omega
  · push_cast
    omega

theorem parseLoop_inside : ∀ (fuel elt : ℕ) (totlen : ℤ),
    ∀ i ∈ (parseLoop m key fuel elt totlen).reads, (i : ℤ) < elt + totlen
  | 0, _, _ => fun i hi => absurd hi List.not_mem_nil
  | fuel + 1, elt, totlen => by
    unfold parseLoop
    by_cases hlen : totlen ≥ 2
    · have hpair : ∀ i ∈ [elt + 1, elt], (i : ℤ) < elt + totlen := pair_inside hlen (by simp)
      rw [if_pos hlen]
      dsimp only
      split_ifs
      · exact hpair
      · refine after_inside hpair fun i hi => ?_
        have := parseLoop_inside fuel _ _ i hi
        push_cast at this
        omega
    · rw [if_neg hlen]
      exact fun i hi => absurd hi List.not_mem_nil

theorem parseOrderedLoop_inside : ∀ (fuel elt : ℕ) (totlen : ℤ),
    ∀ i ∈ (parseOrderedLoop m key fuel elt totlen).reads, (i : ℤ) < elt + totlen
  | 0, _, _ => fun i hi => absurd hi List.not_mem_nil
  | fuel + 1, elt, totlen => by
    unfold parseOrderedLoop
    by_cases hlen : totlen ≥ 2
    · have hpair : ∀ i ∈ [elt, elt + 1], (i : ℤ) < elt + totlen := pair_inside hlen (by simp)
      rw [if_pos hlen]
      dsimp only
      split_ifs
      · exact hpair
      · exact hpair
      · refine after_inside hpair fun i hi => ?_
        have := parseOrderedLoop_inside fuel _ _ i hi
        push_cast at this
        omega
    · rw [if_neg hlen]
      exact fun i hi => absurd hi List.not_mem_nil

theorem bcmNextTlv_elt (m : Mem) (elt : ℕ) (buflen : ℤ) {elt' : ℕ} (h : (bcmNextTlv m elt buflen).1.elt = some elt') :
    elt' = elt + 2 + lenOf m elt ∧ (bcmNextTlv m elt buflen).2 = buflen - (2 + lenOf m elt) ∧
      bcmValidTlv m elt' (bcmNextTlv m elt buflen).2 = true := by
  unfold bcmNextTlv at h ⊢
  by_cases hvalid : bcmValidTlv m elt buflen = true
  · rw [if_pos hvalid] at h ⊢
    dsimp only at h ⊢
    split_ifs at h ⊢ with hnext
    cases h
    exact ⟨rfl, rfl, hnext⟩
  · rw [if_neg hvalid] at h
    cases h

theorem enumerateLoop_inside : ∀ (fuel elt : ℕ) (buflen : ℤ), bcmValidTlv m elt buflen = true →
    ∀ i ∈ (enumerateLoop m key fuel elt buflen).reads, (i : ℤ) < elt + buflen
  | 0, _, _, _ => fun i hi => absurd hi List.not_mem_nil
  | fuel + 1, elt, buflen, hvalid => by
    have hlen : 2 ≤ buflen := by
      rw [bcmValidTlv, Bool.and_eq_true, decide_eq_true_eq] at hvalid
      exact hvalid.1
    have hturn : ∀ i ∈ elt :: (bcmNextTlv m elt buflen).1.reads, (i : ℤ) < elt + buflen := by
      intro i hi
      rcases List.mem_cons.mp hi with rfl | hi
      · omega
      · exact bcmNextTlv_inside i hi
    unfold enumerateLoop
    by_cases hid : (m elt).toUInt32 = key
    · rw [if_pos hid]
      exact pair_inside hlen (by simp)
    · rw [if_neg hid]
      dsimp only
      cases hnext : (bcmNextTlv m elt buflen).1.elt with
      | none => exact hturn
      | some elt' =>
        obtain ⟨rfl, hleft, hvalid'⟩ := bcmNextTlv_elt m elt buflen hnext
        refine after_inside hturn fun i hi => ?_
        have := enumerateLoop_inside fuel _ _ hvalid' i hi
        rw [hleft] at this
        push_cast at this
        omega

end Inside

/-! ### What is found -/

section Found

variable {m : Mem} {key : UInt32} {rest : List UInt8}

/-- Behind an element. -/
theorem holds_behind {elt : ℕ} {e : Tlv} {l : List UInt8} (h : Holds m elt (e.bytes ++ l)) :
    Holds m (elt + (lenOf m elt + 2)) l := by
  have := (holds_append.mp h).2
  rwa [length_bytes, Nat.add_comm 2, ← lenOf_of_holds h] at this

theorem left_behind {elt : ℕ} {e : Tlv} {l : List UInt8} (h : Holds m elt (e.bytes ++ l)) :
    (((e.bytes ++ l).length : ℕ) : ℤ) - (lenOf m elt + 2) = (l.length : ℕ) := by
  rw [List.length_append, length_bytes, lenOf_of_holds h]
  push_cast
  omega

/-- An offset counted from the element in front. -/
theorem map_first {elt : ℕ} {e : Tlv} {l : List UInt8} {es : List Tlv} (h : Holds m elt (e.bytes ++ l)) :
    (first key es).map (elt + (lenOf m elt + 2) + ·) = ((first key es).map (e.bytes.length + ·)).map (elt + ·) := by
  rw [Option.map_map, lenOf_of_holds h]
  congr 1
  funext k
  rw [Function.comp_apply, length_bytes]
  omega

theorem area_cons (e : Tlv) (es : List Tlv) (rest : List UInt8) :
    area (e :: es) ++ rest = e.bytes ++ (area es ++ rest) := by
  rw [area, List.flatMap_cons, List.append_assoc]
  rfl

theorem eq_nil_of_area {es : List Tlv} (h : (area es ++ rest).length ≤ 0) : es = [] := by
  cases es with
  | nil => rfl
  | cons e es =>
    rw [area_cons, List.length_append, length_bytes] at h
    omega

theorem parseLoop_area (hlast : ∀ e : Tlv, ¬e.bytes <+: rest) : ∀ (es : List Tlv) (fuel elt : ℕ),
    Holds m elt (area es ++ rest) → (area es ++ rest).length ≤ fuel →
    (parseLoop m key fuel elt ((area es ++ rest).length : ℕ)).elt = (first key es).map (elt + ·)
  | es, 0, elt, _, hfuel => by
    rw [eq_nil_of_area hfuel]
    rfl
  | [], fuel + 1, elt, h, hfuel => by
    show (parseLoop m key (fuel + 1) elt (rest.length : ℕ)).elt = none
    have h : Holds m elt rest := h
    unfold parseLoop
    by_cases hlen : ((rest.length : ℕ) : ℤ) ≥ 2
    · have hover := lenOf_of_last h hlast (by omega)
      rw [if_pos hlen]
      dsimp only
      rw [if_neg (by omega), Walk.elt_after]
      -- the length is negative now
      cases fuel with
      | zero => rfl
      | succ fuel => rw [parseLoop, if_neg (by omega)]
    · rw [if_neg hlen]
  | e :: es, fuel + 1, elt, h, hfuel => by
    rw [area_cons] at h hfuel ⊢
    have hbehind := holds_behind h
    have hleft := left_behind h
    have hlength := @List.length_append _ e.bytes (area es ++ rest)
    rw [length_bytes] at hlength
    rw [parseLoop, if_pos (by omega), id_of_holds h, first_cons]
    dsimp only
    by_cases hid : e.id.toUInt32 = key
    · rw [if_pos ⟨hid, by omega⟩, if_pos hid]
      rfl
    · rw [if_neg fun hkey => hid hkey.1, if_neg hid, Walk.elt_after, hleft]
      rw [parseLoop_area hlast es fuel _ hbehind (by omega), map_first h]

theorem parseOrderedLoop_area (hlast : ∀ e : Tlv, ¬e.bytes <+: rest) : ∀ (es : List Tlv) (fuel elt : ℕ),
    es.Pairwise (fun e e' => e.id ≤ e'.id) → Holds m elt (area es ++ rest) → (area es ++ rest).length ≤ fuel →
    (parseOrderedLoop m key fuel elt ((area es ++ rest).length : ℕ)).elt = (first key es).map (elt + ·)
  | es, 0, elt, _, _, hfuel => by
    rw [eq_nil_of_area hfuel]
    rfl
  | [], fuel + 1, elt, _, h, hfuel => by
    show (parseOrderedLoop m key (fuel + 1) elt (rest.length : ℕ)).elt = none
    have h : Holds m elt rest := h
    unfold parseOrderedLoop
    by_cases hlen : ((rest.length : ℕ) : ℤ) ≥ 2
    · have hover := lenOf_of_last h hlast (by omega)
      rw [if_pos hlen]
      dsimp only
      split_ifs with hgt hid
      · rfl
      · omega
      · rw [Walk.elt_after]
        cases fuel with
        | zero => rfl
        | succ fuel => rw [parseOrderedLoop, if_neg (by omega)]
    · rw [if_neg hlen]
  | e :: es, fuel + 1, elt, hsorted, h, hfuel => by
    rw [List.pairwise_cons] at hsorted
    rw [area_cons] at h hfuel ⊢
    have hbehind := holds_behind h
    have hleft := left_behind h
    have hlength := @List.length_append _ e.bytes (area es ++ rest)
    rw [length_bytes] at hlength
    rw [parseOrderedLoop, if_pos (by omega), id_of_holds h]
    dsimp only
    by_cases hgt : e.id.toUInt32 > key
    · -- no id behind it is the key
      have hnone : first key (e :: es) = none := by
        refine first_eq_none fun e' he' => ?_
        rcases List.mem_cons.mp he' with rfl | he'
        · exact (UInt32.ne_of_lt hgt).symm
        · have hle : e.id.toNat ≤ e'.id.toNat := UInt8.le_iff_toNat_le.mp (hsorted.1 e' he')
          have hlt : key.toNat < e.id.toUInt32.toNat := UInt32.lt_iff_toNat_lt.mp hgt
          rintro rfl
          rw [UInt8.toNat_toUInt32, UInt8.toNat_toUInt32] at hlt
          omega
      rw [if_pos hgt, hnone]
      rfl
    · rw [if_neg hgt, first_cons]
      by_cases hid : e.id.toUInt32 = key
      · rw [if_pos ⟨hid, by omega⟩, if_pos hid]
        rfl
      · rw [if_neg fun hkey => hid hkey.1, if_neg hid, Walk.elt_after, hleft]
        rw [parseOrderedLoop_area hlast es fuel _ hsorted.2 hbehind (by omega), map_first h]

/-- What `bcm_next_tlv` makes of an element. -/
theorem bcmNextTlv_of_holds {elt : ℕ} {e : Tlv} {l : List UInt8} (h : Holds m elt (e.bytes ++ l)) :
    (bcmNextTlv m elt ((e.bytes ++ l).length : ℕ)).1.elt =
        (if bcmValidTlv m (elt + (lenOf m elt + 2)) (l.length : ℕ) then some (elt + (lenOf m elt + 2)) else none) ∧
      (bcmNextTlv m elt ((e.bytes ++ l).length : ℕ)).2 = (l.length : ℕ) := by
  have hleft := left_behind h
  rw [add_comm (lenOf m elt : ℤ)] at hleft
  have helt : elt + (lenOf m elt + 2) = elt + 2 + lenOf m elt := by omega
  unfold bcmNextTlv
  rw [if_pos (valid_of_holds h), helt]
  dsimp only
  rw [hleft]
  split_ifs
  · exact ⟨rfl, rfl⟩
  · exact ⟨rfl, rfl⟩

theorem enumerateLoop_area (hlast : ∀ e : Tlv, ¬e.bytes <+: rest) : ∀ (e : Tlv) (es : List Tlv) (fuel elt : ℕ),
    Holds m elt (area (e :: es) ++ rest) → (area (e :: es) ++ rest).length ≤ fuel →
    (enumerateLoop m key fuel elt ((area (e :: es) ++ rest).length : ℕ)).elt = (first key (e :: es)).map (elt + ·)
  | e, es, 0, elt, _, hfuel => by
    cases eq_nil_of_area hfuel
  | e, es, fuel + 1, elt, h, hfuel => by
    rw [area_cons] at h hfuel ⊢
    obtain ⟨hnext, hleft⟩ := bcmNextTlv_of_holds h
    have hbehind := holds_behind h
    have hlength := @List.length_append _ e.bytes (area es ++ rest)
    rw [length_bytes] at hlength
    rw [enumerateLoop, id_of_holds h, first_cons]
    dsimp only
    by_cases hid : e.id.toUInt32 = key
    · rw [if_pos hid, if_pos hid]
      rfl
    · rw [if_neg hid, if_neg hid, hnext, hleft]
      cases es with
      | nil =>
        rw [show bcmValidTlv m (elt + (lenOf m elt + 2)) ((area [] ++ rest).length : ℕ) = false from
          not_valid_of_last hbehind hlast]
        rfl
      | cons e' es =>
        have hvalid : bcmValidTlv m (elt + (lenOf m elt + 2)) ((area (e' :: es) ++ rest).length : ℕ) = true := by
          rw [area_cons] at hbehind ⊢
          exact valid_of_holds hbehind
        rw [if_pos hvalid]
        dsimp only
        rw [Walk.elt_after, enumerateLoop_area hlast e' es fuel _ hbehind (by omega), map_first h]

end Found

/-! ### The searches -/

/-- The bytes of a buffer. -/
def buffer (m : Mem) (buflen : ℤ) : List UInt8 := bytesAt m 0 buflen.toNat

section Searches

variable {m : Mem} {buflen : ℤ} {key : UInt32} {es : List Tlv} {rest : List UInt8}

theorem Elements.holds (h : Elements (buffer m buflen) es rest) : Holds m 0 (area es ++ rest) := by
  rw [← h.split, holds_iff]
  intro i hi
  simp [buffer, bytesAt]

theorem Elements.length (h : Elements (buffer m buflen) es rest) : (area es ++ rest).length = buflen.toNat := by
  rw [← h.split, buffer, length_bytesAt]

/-- A buffer of a negative length has no elements. -/
theorem Elements.length_or (h : Elements (buffer m buflen) es rest) :
    buflen = ((area es ++ rest).length : ℕ) ∨ buflen < 0 ∧ es = [] := by
  rcases le_or_gt 0 buflen with hle | hlt
  · rw [h.length, Int.toNat_of_nonneg hle]
    exact .inl rfl
  · refine .inr ⟨hlt, @eq_nil_of_area rest es ?_⟩
    rw [h.length]
    omega

theorem map_zero_add (o : Option ℕ) : o.map (0 + ·) = o := by
  rw [show ((0 + ·) : ℕ → ℕ) = id from funext Nat.zero_add, Option.map_id]
  rfl

theorem bcmParseTlvs_elt (h : Elements (buffer m buflen) es rest) : (bcmParseTlvs m buflen key).elt = first key es := by
  unfold bcmParseTlvs
  rcases h.length_or with hlen | ⟨hneg, rfl⟩
  · rw [← h.length, hlen, parseLoop_area h.last es _ 0 h.holds le_rfl, map_zero_add]
  · rw [Int.toNat_of_nonpos hneg.le]
    rfl

theorem bcmParseOrderedTlvs_elt (h : Elements (buffer m buflen) es rest)
    (hsorted : es.Pairwise fun e e' => e.id ≤ e'.id) : (bcmParseOrderedTlvs m buflen key).elt = first key es := by
  unfold bcmParseOrderedTlvs
  rcases h.length_or with hlen | ⟨hneg, rfl⟩
  · rw [← h.length, hlen, parseOrderedLoop_area h.last es _ 0 hsorted h.holds le_rfl, map_zero_add]
  · rw [Int.toNat_of_nonpos hneg.le]
    rfl

theorem enumerate_elt (h : Elements (buffer m buflen) es rest) : (enumerate m buflen key).elt = first key es := by
  unfold enumerate
  rcases h.length_or with hlen | ⟨hneg, rfl⟩
  · rw [← h.length, hlen]
    have hholds := h.holds
    cases es with
    | nil =>
      rw [if_neg (Bool.eq_false_iff.mp (not_valid_of_last hholds h.last))]
      rfl
    | cons e es =>
      have hvalid : bcmValidTlv m 0 ((area (e :: es) ++ rest).length : ℕ) = true := by
        rw [area_cons] at hholds ⊢
        exact valid_of_holds hholds
      rw [if_pos hvalid, Walk.elt_after, enumerateLoop_area h.last e es _ 0 hholds le_rfl, map_zero_add]
  · rw [if_neg]
    · rfl
    · rw [bcmValidTlv, Bool.and_eq_true, decide_eq_true_eq]
      omega

theorem enumerate_inside : ∀ i ∈ (enumerate m buflen key).reads, (i : ℤ) < buflen := by
  have hfirst : ∀ i ∈ validReads 0 buflen, (i : ℤ) < buflen := fun i hi => by
    have := validReads_inside i hi
    omega
  unfold enumerate
  split_ifs with hvalid
  · refine after_inside hfirst fun i hi => ?_
    have := enumerateLoop_inside _ _ _ hvalid i hi
    omega
  · exact hfirst

/-- **The first element with the id** is found, by the search and by the enumeration, and neither reads outside. -/
theorem bcmParseTlvs_first (m : Mem) (buflen : ℤ) (key : UInt32) : ∃ es rest, Elements (buffer m buflen) es rest ∧
    (bcmParseTlvs m buflen key).elt = first key es ∧ (enumerate m buflen key).elt = (bcmParseTlvs m buflen key).elt ∧
    (∀ i ∈ (bcmParseTlvs m buflen key).reads, (i : ℤ) < buflen) ∧ ∀ i ∈ (enumerate m buflen key).reads, (i : ℤ) < buflen := by
  obtain ⟨es, rest, h⟩ := exists_elements (buffer m buflen)
  refine ⟨es, rest, h, bcmParseTlvs_elt h, ?_, fun i hi => ?_, enumerate_inside⟩
  · rw [enumerate_elt h, bcmParseTlvs_elt h]
  · have := parseLoop_inside _ _ _ i hi
    omega

/-- The ordered search finds the same, where the ids do not decrease. -/
theorem bcmParseOrderedTlvs_eq (h : Elements (buffer m buflen) es rest)
    (hsorted : es.Pairwise fun e e' => e.id ≤ e'.id) (key : UInt32) :
    (bcmParseOrderedTlvs m buflen key).elt = (bcmParseTlvs m buflen key).elt := by
  rw [bcmParseOrderedTlvs_elt h hsorted, bcmParseTlvs_elt h]

/-- Two elements, and a third one that is cut off. -/
theorem bcmParseOrderedTlvs_two :
    (bcmParseOrderedTlvs (fun i => [1, 1, 7, 3, 0, 5, 9].getD i 0) 7 3).elt =
      (bcmParseTlvs (fun i => [1, 1, 7, 3, 0, 5, 9].getD i 0) 7 3).elt := by
  refine @bcmParseOrderedTlvs_eq _ 7 [⟨1, [7], by decide⟩, ⟨3, [], by decide⟩] [5, 9] ⟨rfl, ?_⟩ (by decide) 3
  rintro ⟨id, data, hshort⟩ ⟨l, hl⟩
  simp only [Tlv.bytes, List.cons_append, List.cons.injEq, List.append_eq_nil_iff] at hl
  obtain ⟨-, hlen, rfl, -⟩ := hl
  exact absurd hlen (by decide)

end Searches

end Tlvs
end Bcm
end Router
