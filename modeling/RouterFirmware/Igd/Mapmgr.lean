/-
# The port mapping manager

`upnp/igd/mapmgr.c`: the port forwards in NVRAM as a compact list. Two bit sets say which of the slots hold a
single port and which a range, and each has a counter beside it. The `n`-th mapping is looked up by counting
through the bits.

An add takes the first free slot and sets its bit whether or not the record could be stored, so a bit may stand for
nothing, and then no later mapping is found. `compact_of_run` says which adds and deletes leave the list compact.

The rules that are put into the kernel and taken out of it along with a mapping (`add_nat_entry`,
`delete_nat_entry`) and the generation counter are left out: nothing here reads them. A word of an `fd_set` has
32 bits.
-/
import RouterFirmware.Lib.Run
import RouterFirmware.Lib.Slots
import RouterFirmware.Nvparse.RoundTrip
import RouterFirmware.Nvparse.Convert

namespace Router
namespace Igd

open CMem CText Nvparse
open Nvram (VarMap)

variable (L : Libc) (u : Undef)

/-! ### The sets -/

/-- `NFDBITS`. -/
def nfdbits : ℕ := 32

/-- `map_set_t`. -/
structure MapSet where
  map : Finset ℕ
  count : ℤ
deriving DecidableEq

/-- `FD_SET` and `count++`. -/
def MapSet.set (i : ℕ) (m : MapSet) : MapSet := ⟨insert i m.map, m.count + 1⟩

/-- `FD_CLR` and `count--`. -/
def MapSet.clr (i : ℕ) (m : MapSet) : MapSet := ⟨m.map.erase i, m.count - 1⟩

/-- `ports`, `ranges` and NVRAM. -/
structure Mapmgr where
  ports : MapSet
  ranges : MapSet
  nv : VarMap

/-- Which of the two sets is meant. -/
inductive Pset where
  | ports
  | ranges
deriving DecidableEq

def Mapmgr.pset (s : Mapmgr) : Pset → MapSet
  | .ports => s.ports
  | .ranges => s.ranges

/-- One of the sets changed. -/
def Mapmgr.modify (s : Mapmgr) (f : MapSet → MapSet) : Pset → Mapmgr
  | .ports => { s with ports := f s.ports }
  | .ranges => { s with ranges := f s.ranges }

/-- `m.match.dst.ports[0] == m.match.dst.ports[1]`. -/
def single (m : NetconfNat) : Bool := m.m.dst.ports.1 == m.m.dst.ports.2

/-! ### The operations -/

/-- A turn of the loop of `mapmgr_update`. -/
def updateSlot (s : Mapmgr) (i : ℕ) : Mapmgr :=
  match getForwardPort L u s.nv i with
  | none => s
  | some m => s.modify (.set i) (if single m then .ports else .ranges)

/-- `mapmgr_update()`. -/
def mapmgrUpdate (s : Mapmgr) : Mapmgr :=
  (List.range nfdbits).foldl (updateSlot L u) { s with ports := ⟨∅, 0⟩, ranges := ⟨∅, 0⟩ }

/-- The slot of the `n`-th mapping of a set. -/
def slot (s : Mapmgr) (pset : Pset) (n : ℤ) : Option ℕ := Slots.nth (· ∈ (s.pset pset).map) (List.range nfdbits) n

/-- `mapmgr_get_map(pset, n, m)`. -/
def mapmgrGetMap (s : Mapmgr) (pset : Pset) (n : ℤ) : Option NetconfNat :=
  (slot s pset n).bind (getForwardPort L u s.nv)

/-- `mapmgr_get_port_map(n, m)`. -/
def mapmgrGetPortMap (s : Mapmgr) (n : ℤ) : Option NetconfNat := mapmgrGetMap L u s .ports n

/-- The slot an add takes. -/
def freeSlot (s : Mapmgr) : Option ℕ :=
  (List.range nfdbits).find? fun i => i ∉ s.ports.map ∧ i ∉ s.ranges.map

/-- `mapmgr_add_map(pset, m)`, where `nvram_set` succeeds if `ok`. -/
def mapmgrAddMap (pset : Pset) (m : NetconfNat) (ok : Bool) (s : Mapmgr) : Bool × Mapmgr :=
  match freeSlot s with
  | none => (false, s)
  | some i =>
    let (foundit, nv) := setForwardPort u ok s.nv i m
    (foundit, { s with nv := nv }.modify (.set i) pset)

/-- `del_forward_port(which)`, where `nvram_unset` succeeds if `ok`. -/
def delForwardPort (ok : Bool) (nv : VarMap) (which : ℕ) : Bool × VarMap :=
  if ok then (true, nv.erase (numbered "forward_port" which)) else (false, nv)

/-- `mapmgr_delete_map(pset, n)`. -/
def mapmgrDeleteMap (pset : Pset) (n : ℤ) (ok : Bool) (s : Mapmgr) : Bool × Mapmgr :=
  match slot s pset n with
  | none => (false, s)
  | some i =>
    let (foundit, nv) := delForwardPort ok s.nv i
    (foundit, { s with nv := nv }.modify (.clr i) pset)

/-- `mapmgr_add_port_map(m)`. -/
def mapmgrAddPortMap (m : NetconfNat) (ok : Bool) (s : Mapmgr) : Bool × Mapmgr := mapmgrAddMap u .ports m ok s

/-- `mapmgr_add_range_map(m)`. -/
def mapmgrAddRangeMap (m : NetconfNat) (ok : Bool) (s : Mapmgr) : Bool × Mapmgr := mapmgrAddMap u .ranges m ok s

/-- `mapmgr_delete_port_map(n)`. -/
def mapmgrDeletePortMap (n : ℤ) (ok : Bool) (s : Mapmgr) : Bool × Mapmgr :=
  match mapmgrGetPortMap L u s n with
  | none => (false, s)
  | some _ => mapmgrDeleteMap .ports n ok s

/-- `mapmgr_delete_range_map(n)`. -/
def mapmgrDeleteRangeMap (n : ℤ) (ok : Bool) (s : Mapmgr) : Bool × Mapmgr := mapmgrDeleteMap .ranges n ok s

/-- A call, and whether NVRAM can be changed. -/
inductive Call where
  | update
  | addPort (m : NetconfNat) (ok : Bool)
  | addRange (m : NetconfNat) (ok : Bool)
  | deletePort (n : ℤ) (ok : Bool)
  | deleteRange (n : ℤ) (ok : Bool)

/-- What a call returns and leaves; an update returns nothing. -/
def Call.run (s : Mapmgr) : Call → Bool × Mapmgr
  | update => (true, mapmgrUpdate L u s)
  | addPort m ok => mapmgrAddPortMap u m ok s
  | addRange m ok => mapmgrAddRangeMap u m ok s
  | deletePort n ok => mapmgrDeletePortMap L u n ok s
  | deleteRange n ok => mapmgrDeleteRangeMap n ok s

/-! ### What the list is for -/

/-- The mappings look like a compact list: the sets share no slot, the counters count them, each bit stands for a
record that is read, the `n`-th port mapping is found for each `n` below the counter, and each single-port mapping
in the slots has one number. -/
structure Compact (s : Mapmgr) : Prop where
  disjoint : Disjoint s.ports.map s.ranges.map
  count : ∀ pset, (s.pset pset).count = (s.pset pset).map.card
  accepted : ∀ pset, ∀ i ∈ (s.pset pset).map, (getForwardPort L u s.nv i).isSome
  get_iff : ∀ n, (mapmgrGetPortMap L u s n).isSome ↔ 0 ≤ n ∧ n < s.ports.count
  once : ∀ i < nfdbits, ∀ m, getForwardPort L u s.nv i = some m → single m →
    ∃! n, slot s .ports n = some i ∧ mapmgrGetPortMap L u s n = some m

/-- Which calls keep it so: an add with a slot to take has a record that is stored, of one port only if it is to be
one of the port mappings, and a single-port mapping that is deleted is deleted from NVRAM. -/
def Meets (s : Mapmgr) : Call → Prop
  | .update => True
  | .addPort m ok => (freeSlot s).isSome → validForwardPort m ∧ ok
  | .addRange m ok => (freeSlot s).isSome → validForwardPort m ∧ ok ∧ single m = false
  | .deletePort n ok => ok ∨ ∀ m, mapmgrGetPortMap L u s n = some m → single m = false
  | .deleteRange _ _ => True

/-- A call that adds. -/
def Call.adds : Call → Bool
  | addPort .. | addRange .. => true
  | _ => false

/-! ### The sets -/

variable {L u} {s : Mapmgr} {pset q : Pset} {i j : ℕ} {nv : VarMap}

@[simp] theorem nv_modify (f : MapSet → MapSet) : (s.modify f pset).nv = s.nv := by cases pset <;> rfl

@[simp] theorem pset_nv : ({ s with nv := nv } : Mapmgr).pset q = s.pset q := by cases q <;> rfl

theorem pset_modify (f : MapSet → MapSet) :
    (s.modify f pset).pset q = if q = pset then f (s.pset q) else s.pset q := by
  cases pset <;> cases q <;> rfl

theorem mem_set : j ∈ ((s.modify (.set i) pset).pset q).map ↔ q = pset ∧ j = i ∨ j ∈ (s.pset q).map := by
  rw [pset_modify]
  split_ifs with h <;> simp [h, MapSet.set]

theorem mem_clr : j ∈ ((s.modify (.clr i) pset).pset q).map ↔ ¬(q = pset ∧ j = i) ∧ j ∈ (s.pset q).map := by
  rw [pset_modify]
  split_ifs with h <;> simp [h, MapSet.clr]

/-- What holds of the sets and NVRAM, where only the slots below `k` have been looked at. -/
structure Inv (L : Libc) (u : Undef) (k : ℕ) (s : Mapmgr) : Prop where
  disjoint : ∀ i, i ∈ (s.pset .ports).map → i ∉ (s.pset .ranges).map
  lt : ∀ pset, ∀ i ∈ (s.pset pset).map, i < k
  count : ∀ pset, (s.pset pset).count = (s.pset pset).map.card
  accepted : ∀ pset, ∀ i ∈ (s.pset pset).map, (getForwardPort L u s.nv i).isSome
  stored : ∀ i < k, ∀ m, getForwardPort L u s.nv i = some m → single m → i ∈ (s.pset .ports).map

/-- No bit of either set. -/
def Free (s : Mapmgr) (i : ℕ) : Prop := ∀ pset, i ∉ (s.pset pset).map

/-- A free slot is taken, with a record in it that is read. -/
theorem Inv.take {k k' : ℕ} {m : NetconfNat} (h : Inv L u k s) (hfree : Free s i) (hi : i < k') (hle : k ≤ k')
    (hnew : ∀ j < k', j = i ∨ j < k) (hget : getForwardPort L u nv i = some m)
    (hother : ∀ j ≠ i, getForwardPort L u nv j = getForwardPort L u s.nv j)
    (hkind : single m → pset = .ports) : Inv L u k' ({ s with nv := nv }.modify (.set i) pset) := by
  constructor
  · intro j hports hranges
    rw [mem_set, pset_nv] at hports hranges
    rcases hports with ⟨hp, rfl⟩ | hports
    · rcases hranges with ⟨hr, -⟩ | hranges
      · rw [← hp] at hr
        cases hr
      · exact hfree .ranges hranges
    · rcases hranges with ⟨-, rfl⟩ | hranges
      · exact hfree .ports hports
      · exact h.disjoint j hports hranges
  · intro q j hj
    rw [mem_set, pset_nv] at hj
    rcases hj with ⟨-, rfl⟩ | hj
    · exact hi
    · exact (h.lt q j hj).trans_le hle
  · intro q
    rw [pset_modify, pset_nv]
    split_ifs with hq
    · simp only [MapSet.set]
      rw [Finset.card_insert_of_notMem (hfree q), h.count q]
      push_cast
      rfl
    · exact h.count q
  · intro q j hj
    rw [mem_set, pset_nv] at hj
    rw [nv_modify]
    by_cases hji : j = i
    · rw [hji, hget]
      rfl
    · rw [hother j hji]
      exact h.accepted q j (hj.resolve_left fun hc => hji hc.2)
  · intro j hj m' hm' hsingle
    rw [mem_set, pset_nv]
    rw [nv_modify] at hm'
    by_cases hji : j = i
    · rw [hji, hget] at hm'
      cases hm'
      exact .inl ⟨(hkind hsingle).symm, hji⟩
    · rw [hother j hji] at hm'
      exact .inr (h.stored j ((hnew j hj).resolve_left hji) m' hm' hsingle)

/-- A taken slot is given up, with nothing left in it that is read as a single port. -/
theorem Inv.give {k : ℕ} (h : Inv L u k s) (hi : i ∈ (s.pset pset).map)
    (hget : ∀ m, getForwardPort L u nv i = some m → single m = false)
    (hother : ∀ j ≠ i, getForwardPort L u nv j = getForwardPort L u s.nv j) :
    Inv L u k ({ s with nv := nv }.modify (.clr i) pset) := by
  have hne : ∀ q j, j ∈ (({ s with nv := nv }.modify (.clr i) pset).pset q).map → j ≠ i := by
    rintro q j hj rfl
    rw [mem_clr, pset_nv] at hj
    have hq : q ≠ pset := fun hq => hj.1 ⟨hq, rfl⟩
    cases q <;> cases pset
    · exact hq rfl
    · exact h.disjoint j hj.2 hi
    · exact h.disjoint j hi hj.2
    · exact hq rfl
  constructor
  · intro j hports hranges
    rw [mem_clr, pset_nv] at hports hranges
    exact h.disjoint j hports.2 hranges.2
  · intro q j hj
    rw [mem_clr, pset_nv] at hj
    exact h.lt q j hj.2
  · intro q
    rw [pset_modify, pset_nv]
    split_ifs with hq
    · subst hq
      simp only [MapSet.clr]
      rw [Finset.card_erase_of_mem hi, h.count q, Nat.cast_sub (Finset.card_pos.mpr ⟨i, hi⟩)]
      rfl
    · exact h.count q
  · intro q j hj
    rw [nv_modify, hother j (hne q j hj)]
    rw [mem_clr, pset_nv] at hj
    exact h.accepted q j hj.2
  · intro j hj m hm hsingle
    rw [nv_modify] at hm
    by_cases hji : j = i
    · rw [hji] at hm
      rw [hget m hm] at hsingle
      cases hsingle
    · rw [hother j hji] at hm
      rw [mem_clr, pset_nv]
      exact ⟨fun hc => hji hc.2, h.stored j hj m hm hsingle⟩

/-! ### The calls -/

theorem getForwardPort_insert_ne (value : CStr) (h : j ≠ i) :
    getForwardPort L u (nv.insert (numbered "forward_port" i) value) j = getForwardPort L u nv j := by
  unfold getForwardPort value?
  rw [Finmap.lookup_insert_of_ne _ fun he => h (numbered_inj (by decide) he)]

theorem getForwardPort_erase_ne (h : j ≠ i) :
    getForwardPort L u (nv.erase (numbered "forward_port" i)) j = getForwardPort L u nv j := by
  unfold getForwardPort value?
  rw [Finmap.lookup_erase_ne fun he => h (numbered_inj (by decide) he)]

theorem getForwardPort_erase_same : getForwardPort L u (nv.erase (numbered "forward_port" i)) i = none := by
  unfold getForwardPort value?
  rw [Finmap.lookup_erase]
  rfl

/-- An update looks at one slot after the other. -/
theorem updateSlot_inv {k : ℕ} (h : Inv L u k s) : Inv L u (k + 1) (updateSlot L u s k) := by
  have hfree : Free s k := fun pset hk => absurd (h.lt pset k hk) (lt_irrefl k)
  have hnew : ∀ j < k + 1, j = k ∨ j < k := fun j hj => (Nat.lt_succ_iff_lt_or_eq.mp hj).symm
  unfold updateSlot
  cases hget : getForwardPort L u s.nv k with
  | none =>
    refine ⟨h.disjoint, fun pset j hj => (h.lt pset j hj).trans k.lt_succ_self, h.count, h.accepted, ?_⟩
    intro j hj m hm hsingle
    rcases hnew j hj with rfl | hlt
    · rw [hget] at hm
      cases hm
    · exact h.stored j hlt m hm hsingle
  | some m =>
    apply @Inv.take _ _ _ _ _ s.nv _ _ _ h hfree k.lt_succ_self k.le_succ hnew hget (fun _ _ => rfl)
    intro hsingle
    rw [hsingle]
    rfl

theorem mapmgrUpdate_inv (s : Mapmgr) : Inv L u nfdbits (mapmgrUpdate L u s) := by
  have hrun : ∀ k, Inv L u k
      ((List.range k).foldl (updateSlot L u) { s with ports := ⟨∅, 0⟩, ranges := ⟨∅, 0⟩ }) := by
    intro k
    induction k with
    | zero =>
      refine ⟨fun i hi => ?_, fun pset i hi => ?_, fun pset => ?_, fun pset i hi => ?_, fun i hi => absurd hi i.not_lt_zero⟩
      · exact absurd hi (Finset.notMem_empty i)
      · cases pset <;> exact absurd hi (Finset.notMem_empty i)
      · cases pset <;> rfl
      · cases pset <;> exact absurd hi (Finset.notMem_empty i)
    | succ k ih =>
      rw [List.range_succ, List.foldl_append]
      exact updateSlot_inv ih
  exact hrun nfdbits

theorem freeSlot_eq_some (h : freeSlot s = some i) : i < nfdbits ∧ Free s i := by
  have hmem := List.mem_of_find?_eq_some h
  have hfree := List.find?_some h
  rw [decide_eq_true_eq] at hfree
  refine ⟨List.mem_range.mp hmem, fun pset => ?_⟩
  cases pset
  · exact hfree.1
  · exact hfree.2

/-- An add of a record that can be stored, with a slot to take. -/
theorem mapmgrAddMap_eq {m : NetconfNat} {ok : Bool} (hstored : validForwardPort m ∧ ok)
    (hslot : freeSlot s = some i) :
    mapmgrAddMap u pset m ok s =
      (true, { s with nv := s.nv.insert (numbered "forward_port" i) (cstr (putAll 1000 (forwardPieces u m))) }.modify
        (.set i) pset) := by
  have hset : setIfValid (validForwardPort m) ok s.nv (numbered "forward_port" i) (forwardPieces u m) = (true, _) :=
    setIfValid_eq_true.mpr ⟨hstored.1, hstored.2, rfl⟩
  unfold mapmgrAddMap
  rw [hslot]
  dsimp only
  rw [setForwardPort, hset]

theorem mapmgrAddMap_inv {m : NetconfNat} {ok : Bool} (h : Inv L u nfdbits s)
    (hstored : (freeSlot s).isSome → validForwardPort m ∧ ok) (hkind : (freeSlot s).isSome → single m → pset = .ports) :
    Inv L u nfdbits (mapmgrAddMap u pset m ok s).2 := by
  cases hslot : freeSlot s with
  | none =>
    rw [mapmgrAddMap, hslot]
    exact h
  | some i =>
    rw [hslot] at hstored hkind
    obtain ⟨hi, hfree⟩ := freeSlot_eq_some hslot
    obtain ⟨-, r, -, hget, -, halike⟩ := getForwardPort_set (L := L) (u := u) (hstored rfl).1 s.nv i
    rw [mapmgrAddMap_eq (hstored rfl) hslot]
    apply h.take hfree hi le_rfl (fun j hj => .inr hj) hget (fun j hj => getForwardPort_insert_ne _ hj)
    intro hsingle
    apply hkind rfl
    unfold single at hsingle ⊢
    rwa [halike.2.1] at hsingle

/-- It returns TRUE then, if it had a slot to take. -/
theorem mapmgrAddMap_unchanged {m : NetconfNat} {ok : Bool}
    (hstored : (freeSlot s).isSome → validForwardPort m ∧ ok) (hret : (mapmgrAddMap u pset m ok s).1 = false) :
    (mapmgrAddMap u pset m ok s).2 = s := by
  cases hslot : freeSlot s with
  | none => rw [mapmgrAddMap, hslot]
  | some i =>
    rw [hslot] at hstored
    rw [mapmgrAddMap_eq (hstored rfl) hslot] at hret
    cases hret

theorem slot_eq_some {n : ℤ} (h : slot s pset n = some i) : i ∈ (s.pset pset).map := (Slots.mem_of_nth h).2

theorem mapmgrDeleteMap_inv {n : ℤ} {ok : Bool} (h : Inv L u nfdbits s)
    (hstored : ok ∨ ∀ m, mapmgrGetMap L u s pset n = some m → single m = false) :
    Inv L u nfdbits (mapmgrDeleteMap pset n ok s).2 := by
  unfold mapmgrDeleteMap
  cases hslot : slot s pset n with
  | none => exact h
  | some i =>
    unfold delForwardPort
    cases ok with
    | true =>
      apply h.give (slot_eq_some hslot)
      · intro m hm
        rw [if_pos rfl, getForwardPort_erase_same] at hm
        cases hm
      · intro j hj
        exact getForwardPort_erase_ne hj
    | false =>
      apply h.give (slot_eq_some hslot) _ (fun _ _ => rfl)
      intro m hm
      apply hstored.resolve_left (by decide) m
      rw [mapmgrGetMap, hslot]
      exact hm

/-- Ranges are not single ports. -/
theorem Inv.single_range {n : ℤ} {m : NetconfNat} (h : Inv L u nfdbits s) (hm : mapmgrGetMap L u s .ranges n = some m) :
    single m = false := by
  obtain ⟨i, hslot, hget⟩ := Option.bind_eq_some_iff.mp hm
  have hi := slot_eq_some hslot
  by_contra hsingle
  exact h.disjoint i (h.stored i (h.lt _ i hi) m hget (Bool.eq_true_of_not_eq_false hsingle)) hi

/-- A call that meets the condition. -/
theorem Inv.run {c : Call} (h : Inv L u nfdbits s) (hc : Meets L u s c) : Inv L u nfdbits (c.run L u s).2 := by
  cases c with
  | update =>
    simp only [Call.run]
    exact mapmgrUpdate_inv s
  | addPort m ok => exact mapmgrAddMap_inv h hc fun _ _ => rfl
  | addRange m ok =>
    apply mapmgrAddMap_inv h fun hslot => ⟨(hc hslot).1, (hc hslot).2.1⟩
    intro hslot hsingle
    rw [(hc hslot).2.2] at hsingle
    cases hsingle
  | deletePort n ok =>
    show Inv L u nfdbits (mapmgrDeletePortMap L u n ok s).2
    unfold mapmgrDeletePortMap
    cases hget : mapmgrGetPortMap L u s n with
    | none => exact h
    | some m => exact mapmgrDeleteMap_inv h hc
  | deleteRange n ok => exact mapmgrDeleteMap_inv h (.inr fun m hm => h.single_range hm)

/-- The invariant says that the list is compact. -/
theorem Inv.compact (h : Inv L u nfdbits s) : Compact L u s where
  disjoint := Finset.disjoint_left.mpr fun i hi => h.disjoint i hi
  count := h.count
  accepted := h.accepted
  get_iff n := by
    have hslots : (slot s .ports n).isSome ↔ 0 ≤ n ∧ n < s.ports.count := by
      rw [show s.ports.count = _ from h.count .ports, ← Slots.length_filter_mem (h.lt .ports)]
      exact Slots.nth_isSome_iff
    rw [← hslots, mapmgrGetPortMap, mapmgrGetMap]
    cases hslot : slot s .ports n with
    | none => simp
    | some i => exact iff_of_true (h.accepted .ports i (slot_eq_some hslot)) rfl
  once i hi m hm hsingle := by
    obtain ⟨n, hn, huniq⟩ := Slots.existsUnique_nth (p := (· ∈ (s.pset .ports).map)) List.nodup_range
      (List.mem_range.mpr hi) (h.stored i hi m hm hsingle)
    refine ⟨n, ⟨hn, ?_⟩, fun k hk => huniq k hk.1⟩
    rw [mapmgrGetPortMap, mapmgrGetMap, show slot s .ports n = some i from hn]
    exact hm

/-- The sets are those of what NVRAM holds. -/
structure Held (L : Libc) (u : Undef) (s : Mapmgr) : Prop where
  inv : Inv L u nfdbits s
  free : ∀ i < nfdbits, Free s i → getForwardPort L u s.nv i = none

/-- They are after an update. -/
theorem mapmgrUpdate_held (s : Mapmgr) : Held L u (mapmgrUpdate L u s) := by
  have hrun : ∀ k, ∃ s', s' = (List.range k).foldl (updateSlot L u) { s with ports := ⟨∅, 0⟩, ranges := ⟨∅, 0⟩ } ∧
      s'.nv = s.nv ∧ ∀ i < k, Free s' i → getForwardPort L u s.nv i = none := by
    intro k
    induction k with
    | zero => exact ⟨_, rfl, rfl, fun i hi => absurd hi i.not_lt_zero⟩
    | succ k ih =>
      obtain ⟨s', hs', hnv, hfree⟩ := ih
      rw [List.range_succ, List.foldl_append, ← hs']
      refine ⟨_, rfl, ?_⟩
      show (updateSlot L u s' k).nv = s.nv ∧ ∀ i < k + 1, Free (updateSlot L u s' k) i → _
      unfold updateSlot
      rw [hnv]
      cases hget : getForwardPort L u s.nv k with
      | none =>
        refine ⟨hnv, fun i hi hif => ?_⟩
        rcases Nat.lt_succ_iff_lt_or_eq.mp hi with hlt | rfl
        · exact hfree i hlt hif
        · exact hget
      | some m =>
        refine ⟨(nv_modify _).trans hnv, fun i hi hif => ?_⟩
        rcases Nat.lt_succ_iff_lt_or_eq.mp hi with hlt | rfl
        · exact hfree i hlt fun pset hmem => hif pset (mem_set.mpr (.inr hmem))
        · exact absurd (mem_set.mpr (.inl ⟨rfl, rfl⟩)) (hif _)
  obtain ⟨s', hs', hnv, hfree⟩ := hrun nfdbits
  refine ⟨mapmgrUpdate_inv s, fun i hi hif => ?_⟩
  unfold mapmgrUpdate at hif ⊢
  rw [← hs'] at hif ⊢
  rw [hnv]
  exact hfree i hi hif

/-- **The mappings look like a compact list after every run whose calls meet the condition**, and an add that
returns FALSE changes nothing. The run starts with an update, whatever NVRAM holds. -/
theorem compact_of_run {s₀ s : Mapmgr} {cs : List Call}
    (hrun : Run.Trace (fun s c s' => Meets L u s c ∧ (c.run L u s).2 = s') (mapmgrUpdate L u s₀) cs s) :
    Compact L u s ∧
      ∀ c, Meets L u s c → c.adds → (c.run L u s).1 = false → (c.run L u s).2 = s := by
  have hinv : Inv L u nfdbits s := by
    apply Run.Trace.inv (I := fun _ s => Inv L u nfdbits s) (mapmgrUpdate_inv s₀) _ hrun
    rintro _ s c _ h ⟨hc, rfl⟩
    exact h.run hc
  refine ⟨hinv.compact, fun c hc hadds hret => ?_⟩
  cases c with
  | addPort m ok => exact mapmgrAddMap_unchanged hc hret
  | addRange m ok => exact mapmgrAddMap_unchanged (fun hslot => ⟨(hc hslot).1, (hc hslot).2.1⟩) hret
  | update => cases hadds
  | deletePort n ok => cases hadds
  | deleteRange n ok => cases hadds

/-- No mappings. -/
def noMappings : Mapmgr := ⟨⟨∅, 0⟩, ⟨∅, 0⟩, ∅⟩

theorem mapmgrUpdate_noMappings : mapmgrUpdate L u noMappings = noMappings := by
  have hrun : ∀ is, List.foldl (updateSlot L u) noMappings is = noMappings := by
    intro is
    induction is with
    | nil => rfl
    | cons i is ih => exact ih
  exact hrun _

/-- One is added. -/
theorem compact_of_run_web :
    Compact dottedLibc .nothing
      ((Call.addPort (webNat "web" (by decide)) true).run dottedLibc .nothing
        (mapmgrUpdate dottedLibc .nothing noMappings)).2 := by
  have hmeets : Meets dottedLibc .nothing (mapmgrUpdate dottedLibc .nothing noMappings)
      (.addPort (webNat "web" (by decide)) true) := fun _ => ⟨by decide, rfl⟩
  exact (compact_of_run (Run.Trace.nil.snoc ⟨hmeets, rfl⟩)).1

/-- A mapping to no client is not stored, but takes a slot, and the list has a mapping that is not found. -/
theorem rejected_takes_slot :
    let call := Call.addPort { webNat "web" (by decide) with ipaddr := 0 } true
    let s := mapmgrUpdate dottedLibc .nothing noMappings
    (call.run dottedLibc .nothing s).1 = false ∧ (call.run dottedLibc .nothing s).2.ports = ⟨{0}, 1⟩ ∧
      (call.run dottedLibc .nothing s).2.ports ≠ s.ports ∧ ¬Compact dottedLibc .nothing (call.run dottedLibc .nothing s).2 := by
  intro call s
  have hslot : freeSlot noMappings = some 0 := by decide
  have hvalid : validForwardPort { webNat "web" (by decide) with ipaddr := 0 } = false := by decide
  have hrun : call.run dottedLibc .nothing s = (false, ⟨⟨{0}, 1⟩, ⟨∅, 0⟩, ∅⟩) := by
    simp only [call, s, Call.run, mapmgrAddPortMap, mapmgrUpdate_noMappings, mapmgrAddMap, hslot, setForwardPort,
      setIfValid, hvalid]
    rfl
  rw [hrun, show s = noMappings from mapmgrUpdate_noMappings]
  refine ⟨rfl, rfl, by decide, fun h => ?_⟩
  have hget := h.accepted .ports 0 (Finset.mem_singleton_self 0)
  cases hget

end Igd
end Router
