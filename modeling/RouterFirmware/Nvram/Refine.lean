/-
# The store refines a finite map

A run of the store is a sequence of calls, each with what it returned
(`Call`), `kmalloc` answering as it likes. The abstract component is a finite
map from names to values: a set that returned 0 inserts, an unset erases
(`VarMap.run`). After every run from the empty store the values `_nvram_get`
reads are the map's (`run_getStr`), and the map holds for a name the value
of its last successful set that no unset follows (`lookup_run_iff`).
-/
import Mathlib.Data.Finmap
import RouterFirmware.Lib.Run
import RouterFirmware.Nvram.Store

namespace Router
namespace Nvram

open CMem Run

/-- A call of one of the three operations and what it returned. -/
inductive Call
  | set (name value : CStr) (ret : ℤ)
  | unset (name : Option CStr) (ret : ℤ)
  | get (name : Option CStr) (ret : Option CStr)
deriving DecidableEq

/-- One call on the store. -/
inductive Step : Store → Call → Store → Prop
  | set (st : Store) (name value : CStr) (kmalloc : Bool) :
      Step st (.set name value (_nvramSet kmalloc st name value).2)
        (_nvramSet kmalloc st name value).1
  | unset (st : Store) (name : Option CStr) :
      Step st (.unset name (_nvramUnset st name).2) (_nvramUnset st name).1
  | get (st : Store) (name : Option CStr) :
      Step st (.get name ((_nvramGet st name).map st.str)) st

/-! ### The abstract map -/

/-- The variables: a finite map from names to values. -/
abbrev VarMap := Finmap fun _ : CStr => CStr

/-- What a call does to the variables, by what it returned. -/
def VarMap.step (m : VarMap) : Call → VarMap
  | .set name value ret => if ret = 0 then m.insert name value else m
  | .unset (some name) ret => if ret = 0 then m.erase name else m
  | .unset none _ => m
  | .get _ _ => m

/-- The variables after the calls `cs`. -/
def VarMap.run (cs : List Call) : VarMap := cs.foldl VarMap.step ∅

theorem run_snoc (cs : List Call) (c : Call) :
    VarMap.run (cs ++ [c]) = (VarMap.run cs).step c := by
  simp [VarMap.run]

/-- The call gave the name a value or took it away. -/
def Call.Touches (name : CStr) : Call → Prop
  | .set n _ ret => n = name ∧ ret = 0
  | .unset n ret => n = some name ∧ ret = 0
  | .get _ _ => False

theorem lookup_step_of_not_touches {m : VarMap} {name : CStr} {c : Call} (h : ¬ c.Touches name) :
    (m.step c).lookup name = m.lookup name := by
  rcases c with ⟨n, v, r⟩ | ⟨n, r⟩ | ⟨n, r⟩
  · simp only [VarMap.step]
    split_ifs with hr
    · exact Finmap.lookup_insert_of_ne m fun he => h ⟨he.symm, hr⟩
    · rfl
  · cases n with
    | none => rfl
    | some n =>
      simp only [VarMap.step]
      split_ifs with hr
      · exact Finmap.lookup_erase_ne fun he => h ⟨congrArg some he.symm, hr⟩
      · rfl
  · rfl

theorem lookup_step_of_touches {m : VarMap} {name v : CStr} {c : Call} (h : c.Touches name) :
    (m.step c).lookup name = some v ↔ c = .set name v 0 := by
  rcases c with ⟨n, v', r⟩ | ⟨n, r⟩ | ⟨n, r⟩
  · obtain ⟨rfl, rfl⟩ := h
    simp [VarMap.step]
  · obtain ⟨rfl, rfl⟩ := h
    simp [VarMap.step]
  · exact h.elim

/-- The map holds the value of the last successful set that nothing undid. -/
theorem lookup_run_iff (cs : List Call) (name v : CStr) : (VarMap.run cs).lookup name = some v ↔
    ∃ pre post, cs = pre ++ .set name v 0 :: post ∧ ∀ c ∈ post, ¬ c.Touches name := by
  induction cs using List.reverseRecOn with
  | nil => simp [VarMap.run]
  | append_singleton cs c ih =>
    rw [run_snoc]
    by_cases hc : c.Touches name
    · rw [lookup_step_of_touches hc]
      constructor
      · rintro rfl
        exact ⟨cs, [], rfl, by simp⟩
      · rintro ⟨pre, post, he, hp⟩
        rcases eq_of_snoc he with ⟨-, h, -⟩ | ⟨post', rfl, -⟩
        · exact h.symm
        · exact absurd hc (hp c (by simp))
    · rw [lookup_step_of_not_touches hc, ih]
      constructor
      · rintro ⟨pre, post, rfl, hp⟩
        refine ⟨pre, post ++ [c], by simp, fun c' hc' => ?_⟩
        rcases List.mem_append.mp hc' with h | h
        · exact hp c' h
        · rw [List.mem_singleton.mp h]; exact hc
      · rintro ⟨pre, post, he, hp⟩
        rcases eq_of_snoc he with ⟨-, rfl, -⟩ | ⟨post', rfl, he'⟩
        · exact absurd ⟨rfl, rfl⟩ hc
        · exact ⟨pre, post', he', fun c' h => hp c' (by simp [h])⟩

/-! ### The refinement -/

theorem step_refines {st st' : Store} {c : Call} {m : VarMap} (h : Step st c st') (hi : Inv st)
    (hm : ∀ name, st.getStr name = m.lookup name) :
    Inv st' ∧ ∀ name, st'.getStr name = (m.step c).lookup name := by
  cases h with
  | set name value kmalloc =>
    obtain ⟨hi', h | h⟩ := _nvramSet_spec kmalloc hi name value
    · refine ⟨hi', fun n => ?_⟩
      rw [h.2 n, VarMap.step, if_pos h.1]
      split_ifs with hn
      · rw [hn, Finmap.lookup_insert]
      · rw [Finmap.lookup_insert_of_ne _ hn, hm]
    · rw [h]
      exact ⟨hi, fun n => by simp [VarMap.step, hm]⟩
  | unset name =>
    cases name with
    | none => exact ⟨hi, hm⟩
    | some name =>
      obtain ⟨hi', h⟩ := _nvramUnset_spec hi name
      refine ⟨hi', fun n => ?_⟩
      rw [h n]
      change _ = (m.erase name).lookup n
      split_ifs with hn
      · rw [hn, Finmap.lookup_erase]
      · rw [Finmap.lookup_erase_ne hn, hm]
  | get name => exact ⟨hi, hm⟩

/-- After every run the store's values are the map's. -/
theorem run_getStr {buf : Mem} {cs : List Call} {st : Store}
    (h : Trace Step (Store.empty buf) cs st) :
    Inv st ∧ ∀ name, st.getStr name = (VarMap.run cs).lookup name := by
  refine h.inv (I := fun cs st => Inv st ∧ ∀ name, st.getStr name = (VarMap.run cs).lookup name)
    ⟨empty_inv buf, fun name => by simp [getStr_eq, Store.find, Store.empty, VarMap.run]⟩ ?_
  intro cs st c st' hI hs
  rw [run_snoc]
  exact step_refines hs hI.1 hI.2

/-- All tuples of the table, chain by chain. -/
def Store.tuples (st : Store) : List Tuple := (List.finRange hashSize).flatMap st.nvramHash

theorem mem_tuples {st : Store} {t : Tuple} : t ∈ st.tuples ↔ st.Live t := by
  simp [Store.tuples, Store.Live]

theorem Inv.nodup_names {st : Store} (h : Inv st) : (st.tuples.map (·.name)).Nodup := by
  unfold Store.tuples
  rw [List.map_flatMap, List.nodup_flatMap]
  refine ⟨fun i _ => h.nodup i, ?_⟩
  refine (List.nodup_finRange _).imp fun {i j} hij => ?_
  simp only [Function.onFun, List.disjoint_left, List.mem_map]
  rintro n ⟨t, ht, rfl⟩ ⟨u, hu, he⟩
  refine hij ?_
  rw [← h.hashed i t ht, ← h.hashed j u hu, he]

/-- **The store is a map, its buffer never shared.** After every run of the
three operations: each name has the value of its last successful set that no
unset followed, each get in the run returned that value, a set that returns
-12 changes no value, and the table and `nvram_buf` are as `Inv` says. -/
theorem store_refines_map {buf : Mem} {cs : List Call} {st : Store}
    (h : Trace Step (Store.empty buf) cs st) :
    (∀ name, st.getStr name = (VarMap.run cs).lookup name) ∧
    (∀ name v, st.getStr name = some v ↔
      ∃ pre post, cs = pre ++ .set name v 0 :: post ∧ ∀ c ∈ post, ¬ c.Touches name) ∧
    (∀ pre post name ret, cs = pre ++ .get name ret :: post →
      ret = name.bind fun n => (VarMap.run pre).lookup n) ∧
    (∀ kmalloc name value,
      ((_nvramSet kmalloc st name value).2 = 0 ∨ (_nvramSet kmalloc st name value).2 = -12) ∧
      ((_nvramSet kmalloc st name value).2 = -12 →
        ∀ n, (_nvramSet kmalloc st name value).1.getStr n = st.getStr n)) ∧
    (∀ i, ∀ t ∈ st.nvramHash i, (hash t.name).toNat % 257 = i) ∧
    (st.tuples.map (·.name)).Nodup ∧
    (∀ t u, st.Live t → st.Live u → t ≠ u → Disjoint (st.region t) (st.region u)) ∧
    (∀ t, st.Live t → ∀ x ∈ st.region t, x < st.nvramOffset) ∧
    st.nvramOffset ≤ nvramSpace := by
  obtain ⟨hi, hg⟩ := run_getStr h
  refine ⟨hg, fun name v => ?_, fun pre post name ret he => ?_, fun kmalloc name value => ?_,
    fun i t ht => ?_, hi.nodup_names, hi.disjoint, fun t ht x hx => ?_, hi.offset_le⟩
  · rw [hg, lookup_run_iff]
  · obtain ⟨s₁, s₂, h1, h2, -⟩ := h.split he
    obtain ⟨-, hg1⟩ := run_getStr h1
    cases h2
    cases name with
    | none => rfl
    | some name => exact hg1 name
  · obtain ⟨-, h | h⟩ := _nvramSet_spec kmalloc hi name value
    · exact ⟨Or.inl h.1, fun h' => by rw [h.1] at h'; cases h'⟩
    · rw [h]
      exact ⟨Or.inr rfl, fun _ _ => rfl⟩
  · rw [← hi.hashed i t ht]; rfl
  · obtain ⟨i, ht⟩ := ht
    have := (hi.held i t ht).2
    rw [Store.region, Finset.mem_Ico] at hx
    omega

/-- A name set twice, unset and set again, and a read of it. -/
theorem store_refines_map_lan : ∃ cs st,
    Trace Step (Store.empty fun _ => 0) cs st ∧
    cs = [.set (.lit "lan") (.lit "1") 0, .set (.lit "wan") (.lit "2") 0,
      .unset (some (.lit "lan")) 0, .set (.lit "lan") (.lit "3") 0,
      .get (some (.lit "lan")) (some (.lit "3"))] ∧
    st.getStr (.lit "lan") = (VarMap.run cs).lookup (.lit "lan") := by
  have h := ((((Trace.nil.snoc (Step.set (Store.empty fun _ => 0) (.lit "lan") (.lit "1") true)).snoc
    (Step.set _ (.lit "wan") (.lit "2") true)).snoc (Step.unset _ (some (.lit "lan")))).snoc
    (Step.set _ (.lit "lan") (.lit "3") true)).snoc (Step.get _ (some (.lit "lan")))
  exact ⟨_, _, h, by decide +kernel, (store_refines_map h).1 _⟩

end Nvram
end Router
