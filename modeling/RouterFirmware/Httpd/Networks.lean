/-
# Each network keeps its credentials

`profiles_of_run`: in a run of the actions of `Httpd.Profile` that all meet `Meets`, the table stays in order, and each
network that an action is not about keeps its credentials. A deletion from the middle does not meet it unless there is
no password to lose (`password_lost`).
-/
import RouterFirmware.Httpd.Profile

namespace Router
namespace Httpd

open CMem CText
open Nvram (VarMap)

/-! ### What the table is for -/

/-- The SSIDs differ, and the slots without one come first. -/
structure InOrder (T : Table) : Prop where
  distinct : ∀ i ∈ Finset.Icc 1 4, ∀ j ∈ Finset.Icc 1 4, T i .ssid ≠ noText → T i .ssid = T j .ssid → i = j
  upward : ∀ i ∈ Finset.Icc 1 3, T i .ssid ≠ noText → T (i + 1) .ssid ≠ noText

theorem InOrder.congr {T T' : Table} (h : InOrder T) (he : ∀ j ∈ Finset.Icc 1 4, T' j = T j) : InOrder T' := by
  refine ⟨fun i hi j hj => ?_, fun i hi => ?_⟩
  · rw [he i hi, he j hj]
    exact h.distinct i hi j hj
  · have hi' := Finset.mem_Icc.mp hi
    rw [he i (Finset.mem_Icc.mpr (by omega)), he _ (Finset.mem_Icc.mpr (by omega))]
    exact h.upward i hi

/-- What a network is joined with. -/
def credentials : List Field := compressed ++ [.passwd]

/-- The SSIDs but `target` are as before, each with its credentials. -/
structure KeepsBut (target : CStr) (T T' : Table) : Prop where
  kept : ∀ i ∈ Finset.Icc 1 4, T i .ssid ≠ noText → T i .ssid ≠ target →
    ∃ j ∈ Finset.Icc 1 4, T' j .ssid = T i .ssid ∧ ∀ f ∈ credentials, T' j f = T i f
  none_new : ∀ j ∈ Finset.Icc 1 4, T' j .ssid ≠ noText → T' j .ssid ≠ target →
    ∃ i ∈ Finset.Icc 1 4, T i .ssid = T' j .ssid

/-! ### Variables -/

theorem mem_allFields (f : Field) : f ∈ allFields := by cases f <;> decide

theorem name_inj {f g : Field} (h : bytes f.name = bytes g.name) : f = g := by
  revert h
  cases f <;> cases g <;> first | exact fun _ => rfl | exact fun h => absurd h (by decide)

theorem decimal_of_lt_ten {n : ℕ} (h : n < 10) : decimal n = [UInt8.ofNat (48 + n)] := by
  rw [decimal_eq, if_pos h, Nat.mod_eq_of_lt h, List.nil_append]

theorem pfName_bytes (f : Field) (i : ℕ) :
    (pfName f i).bytes = bytes "pf" ++ decimal i ++ bytes "_" ++ bytes f.name := by
  apply cstr_bytes
  have hname : (0 : UInt8) ∉ bytes f.name := by cases f <;> decide
  have hnum : (0 : UInt8) ∉ decimal i := notMem_decimal (by decide) i
  simp only [List.mem_append, not_or]
  exact ⟨⟨⟨by decide, hnum⟩, by decide⟩, hname⟩

theorem pfName_inj {f g : Field} {i j : ℕ} (hi : i ∈ Finset.Icc 1 4) (hj : j ∈ Finset.Icc 1 4)
    (h : pfName f i = pfName g j) : f = g ∧ i = j := by
  rw [Finset.mem_Icc] at hi hj
  have hbytes := congrArg CStr.bytes h
  rw [pfName_bytes, pfName_bytes, decimal_of_lt_ten (by omega), decimal_of_lt_ten (by omega), List.append_assoc,
    List.append_assoc, List.append_assoc, List.append_assoc] at hbytes
  obtain ⟨hdigit, htail⟩ := List.cons.inj (List.append_cancel_left hbytes)
  refine ⟨name_inj (List.cons.inj htail).2, ?_⟩
  have hnat := congrArg UInt8.toNat hdigit
  rw [UInt8.toNat_ofNat', UInt8.toNat_ofNat'] at hnat
  omega

/-! ### What the sets leave -/

section Sets

variable {room : Room} (hroom : ∀ nv name value, room nv name value = true) {nv : VarMap} {i j : ℕ}

theorem nvramGetX_set_other {name other : CStr} (h : other ≠ name) (value : Option CStr) :
    nvramGetX (nvramSet room nv name value) other = nvramGetX nv other := by
  cases value with
  | none => rw [nvramSet, nvramGetX, nvramGetX, Finmap.lookup_erase_ne h]
  | some value =>
    simp only [nvramSet]
    split_ifs
    · rw [nvramGetX, nvramGetX, Finmap.lookup_insert_of_ne nv h]
    · rfl

/-- A variable that is not of the slots is set. -/
theorem table_set_other {name : CStr} (h : ∀ f, ∀ j ∈ Finset.Icc 1 4, pfName f j ≠ name) (value : Option CStr)
    (hj : j ∈ Finset.Icc 1 4) (f : Field) : table (nvramSet room nv name value) j f = table nv j f :=
  nvramGetX_set_other (h f j hj) value

include hroom in
theorem table_setI3 (hi : i ∈ Finset.Icc 1 4) (hj : j ∈ Finset.Icc 1 4) (f g : Field) (value : Option CStr) :
    table (nvramSetI3 room nv f i value) j g = if j = i ∧ g = f then value.getD noText else table nv j g := by
  unfold nvramSetI3
  rw [if_pos (Finset.mem_Icc.mp hi)]
  split_ifs with h
  · obtain ⟨rfl, rfl⟩ := h
    cases value with
    | none =>
      simp [table, nvramGetI3, nvramGetX, nvramSet, Finmap.lookup_erase]
    | some value =>
      simp [table, nvramGetI3, nvramGetX, nvramSet, hroom, Finmap.lookup_insert]
  · refine nvramGetX_set_other (fun he => h ?_) value
    obtain ⟨hg, hji⟩ := pfName_inj hj hi he
    exact ⟨hji, hg⟩

include hroom in
theorem table_copyFields {src dst : ℕ} (hsrc : src ∈ Finset.Icc 1 4) (hdst : dst ∈ Finset.Icc 1 4) (hne : src ≠ dst)
    (hj : j ∈ Finset.Icc 1 4) (g : Field) : ∀ (fs : List Field) (nv : VarMap),
    table (copyFields room src dst fs nv) j g = if j = dst ∧ g ∈ fs then table nv src g else table nv j g
  | [], nv => by simp [copyFields]
  | f :: fs, nv => by
    have ih := table_copyFields hsrc hdst hne hj g fs (nvramSetI3 room nv f dst (some (nvramGetI3 nv f src)))
    rw [copyFields, List.foldl_cons]
    rw [copyFields] at ih
    rw [ih, table_setI3 hroom hdst hsrc, table_setI3 hroom hdst hj]
    by_cases hg : g = f
    · subst hg
      by_cases hjd : j = dst
      · simp [hjd, hne, table]
      · simp [hjd]
    · simp [hg]

include hroom in
theorem table_setFields_other (hi : i ∈ Finset.Icc 1 4) (hj : j ∈ Finset.Icc 1 4) (hne : j ≠ i) (g : Field) :
    ∀ (sets : List (Field × Option CStr)) (nv : VarMap), table (setFields room i sets nv) j g = table nv j g
  | [], _ => rfl
  | s :: sets, nv => by
    rw [setFields, List.foldl_cons]
    refine (table_setFields_other hi hj hne g sets _).trans ?_
    rw [table_setI3 hroom hi hj, if_neg fun h => hne h.1]

include hroom in
theorem table_setFields_notMem (hi : i ∈ Finset.Icc 1 4) {g : Field} :
    ∀ (sets : List (Field × Option CStr)) (nv : VarMap), g ∉ sets.map Prod.fst →
      table (setFields room i sets nv) i g = table nv i g
  | [], _, _ => rfl
  | s :: sets, nv, hg => by
    rw [List.map_cons, List.mem_cons, not_or] at hg
    rw [setFields, List.foldl_cons]
    refine (table_setFields_notMem hi sets _ hg.2).trans ?_
    rw [table_setI3 hroom hi hi, if_neg fun h => hg.1 h.2]

include hroom in
/-- What each variable is set to, when none is set twice. -/
theorem table_setFields_mem (hi : i ∈ Finset.Icc 1 4) {g : Field} {value : Option CStr} :
    ∀ (sets : List (Field × Option CStr)) (nv : VarMap), (sets.map Prod.fst).Nodup → (g, value) ∈ sets →
      table (setFields room i sets nv) i g = value.getD noText
  | s :: sets, nv, hnd, hmem => by
    rw [List.map_cons, List.nodup_cons] at hnd
    rw [setFields, List.foldl_cons]
    rcases List.mem_cons.mp hmem with rfl | hmem
    · refine (table_setFields_notMem hroom hi sets _ hnd.1).trans ?_
      rw [table_setI3 hroom hi hi, if_pos ⟨rfl, rfl⟩]
    · exact table_setFields_mem hi sets _ hnd.2 hmem

end Sets

/-! ### Compressing -/

/-- The network of slot `i` moves to the slot behind it, which has none. Its password does not. -/
structure Moved (i : ℕ) (T T' : Table) : Prop where
  moved : ∀ f, f ≠ .ssid2 → f ≠ .passwd → T' (i + 1) f = T i f
  left : T' i .ssid = noText
  passwd : ∀ j ∈ Finset.Icc 1 4, T' j .passwd = T j .passwd
  other : ∀ j ∈ Finset.Icc 1 4, j ≠ i → j ≠ i + 1 → ∀ f, T' j f = T j f

theorem compressStep_idle {room : Room} {nv : VarMap} {i : ℕ}
    (h : table nv i .ssid ≠ noText → table nv (i + 1) .ssid ≠ noText) : compressStep room nv i = some nv := by
  rw [compressStep, if_neg]
  exact fun hc => h hc.1 hc.2

theorem compressStep_moved {room : Room} (hroom : ∀ nv name value, room nv name value = true) {nv : VarMap}
    {i : ℕ} (hi : i ∈ Finset.Icc 1 3) (hused : table nv i .ssid ≠ noText) (hfree : table nv (i + 1) .ssid = noText)
    (hfits : (charToAscii 128 (table nv i .ssid)).isSome) :
    ∃ nv', compressStep room nv i = some nv' ∧ Moved i (table nv) (table nv') := by
  rw [Finset.mem_Icc] at hi
  have hsrc : i ∈ Finset.Icc 1 4 := Finset.mem_Icc.mpr (by omega)
  have hdst : i + 1 ∈ Finset.Icc 1 4 := Finset.mem_Icc.mpr (by omega)
  have hne : i ≠ i + 1 := by omega
  obtain ⟨ssidStr, hstr⟩ := Option.isSome_iff_exists.mp hfits
  have hread : nvramGetI3 (copyFields room i (i + 1) [.ssid] nv) .ssid i = table nv i .ssid :=
    (table_copyFields hroom hsrc hdst hne hsrc ..).trans (if_neg fun h => hne h.1)
  rw [compressStep, if_pos ⟨hused, hfree⟩]
  simp only [hread, hstr]
  refine ⟨_, rfl, ?_⟩
  -- the slot behind is written first, then the slot itself is emptied
  have hdstT : ∀ g, table (setFields room i ((.ssid :: .ssid2 :: compressed).map fun f => (f, some noText))
      (copyFields room i (i + 1) compressed (nvramSetI3 room (copyFields room i (i + 1) [.ssid] nv) .ssid2 (i + 1)
        (some ssidStr)))) (i + 1) g =
      if g ∈ compressed then table nv i g else if g = .ssid2 then ssidStr
      else if g = .ssid then table nv i g else table nv (i + 1) g := by
    intro g
    rw [table_setFields_other hroom hsrc hdst hne.symm, table_copyFields hroom hsrc hdst hne hdst,
      table_setI3 hroom hdst hsrc, table_setI3 hroom hdst hdst, table_copyFields hroom hsrc hdst hne hsrc,
      table_copyFields hroom hsrc hdst hne hdst]
    simp
  have hother : ∀ j ∈ Finset.Icc 1 4, j ≠ i + 1 → ∀ g,
      table (copyFields room i (i + 1) compressed (nvramSetI3 room (copyFields room i (i + 1) [.ssid] nv) .ssid2 (i + 1)
        (some ssidStr))) j g = table nv j g := by
    intro j hj hji g
    rw [table_copyFields hroom hsrc hdst hne hj, if_neg fun h => hji h.1, table_setI3 hroom hdst hj,
      if_neg fun h => hji h.1, table_copyFields hroom hsrc hdst hne hj, if_neg fun h => hji h.1]
  have hnodup : (((Field.ssid :: .ssid2 :: compressed).map fun f => (f, some noText)).map Prod.fst).Nodup := by
    simp only [List.map_map, Function.comp_def, List.map_id']
    decide
  have hpasswd : Field.passwd ∉
      ((Field.ssid :: .ssid2 :: compressed).map fun f => (f, some noText)).map Prod.fst := by
    simp only [List.map_map, Function.comp_def, List.map_id']
    decide
  refine ⟨fun f h1 h2 => ?_, ?_, fun j hj => ?_, fun j hj hji hji' f => ?_⟩
  · rw [hdstT]
    cases f <;> simp [compressed] at h1 h2 ⊢
  · exact (table_setFields_mem hroom hsrc _ _ hnodup (List.mem_cons_self ..)).trans rfl
  · by_cases hji' : j = i + 1
    · rw [hji', hdstT, if_neg (by decide), if_neg (by decide), if_neg (by decide)]
    · by_cases hji : j = i
      · rw [hji, table_setFields_notMem hroom hsrc _ _ hpasswd, hother i hsrc hne]
      · rw [table_setFields_other hroom hsrc hj hji, hother j hj hji']
  · rw [table_setFields_other hroom hsrc hj hji, hother j hj hji']

/-! ### Slots swapped -/

/-- Two slots swap their networks. -/
structure Swapped (a b : ℕ) (T T' : Table) : Prop where
  ssid : ∀ j ∈ Finset.Icc 1 4, T' (Equiv.swap a b j) .ssid = T j .ssid
  kept : ∀ j ∈ Finset.Icc 1 4, T j .ssid ≠ noText → ∀ f ∈ credentials, T' (Equiv.swap a b j) f = T j f

section Swaps

variable {a b : ℕ} (ha : a ∈ Finset.Icc 1 4) (hb : b ∈ Finset.Icc 1 4) {T T' : Table} (h : Swapped a b T T')

include ha hb in
theorem swap_mem {j : ℕ} (hj : j ∈ Finset.Icc 1 4) : Equiv.swap a b j ∈ Finset.Icc 1 4 := by
  rw [Equiv.swap_apply_def]
  split_ifs <;> assumption

include ha hb h

theorem Swapped.ssid_eq {j : ℕ} (hj : j ∈ Finset.Icc 1 4) : T' j .ssid = T (Equiv.swap a b j) .ssid := by
  rw [← h.ssid _ (swap_mem ha hb hj), Equiv.swap_apply_self]

theorem Swapped.distinct
    (hdistinct : ∀ i ∈ Finset.Icc 1 4, ∀ j ∈ Finset.Icc 1 4, T i .ssid ≠ noText → T i .ssid = T j .ssid → i = j) :
    ∀ i ∈ Finset.Icc 1 4, ∀ j ∈ Finset.Icc 1 4, T' i .ssid ≠ noText → T' i .ssid = T' j .ssid → i = j := by
  intro i hi j hj hne he
  rw [h.ssid_eq ha hb hi] at hne he
  rw [h.ssid_eq ha hb hj] at he
  exact (Equiv.swap a b).injective (hdistinct _ (swap_mem ha hb hi) _ (swap_mem ha hb hj) hne he)

theorem Swapped.inOrder (hin : InOrder T) (hua : T a .ssid ≠ noText) (hub : T b .ssid ≠ noText) : InOrder T' := by
  have hused : ∀ j ∈ Finset.Icc 1 4, T' j .ssid ≠ noText ↔ T j .ssid ≠ noText := by
    intro j hj
    rw [h.ssid_eq ha hb hj, Equiv.swap_apply_def]
    split_ifs with hja hjb
    · simp [hja, hua, hub]
    · simp [hjb, hua, hub]
    · rfl
  refine ⟨h.distinct ha hb hin.distinct, fun i hi hne => ?_⟩
  have hi' := Finset.mem_Icc.mp hi
  rw [hused _ (Finset.mem_Icc.mpr (by omega))] at hne ⊢
  exact hin.upward i hi hne

theorem Swapped.keeps (target : CStr) : KeepsBut target T T' where
  kept i hi hne _ := ⟨_, swap_mem ha hb hi, h.ssid i hi, h.kept i hi hne⟩
  none_new _ hj _ _ := ⟨_, swap_mem ha hb hj, (h.ssid_eq ha hb hj).symm⟩

end Swaps

theorem KeepsBut.trans {target : CStr} {T T' T'' : Table} (h : KeepsBut target T T') (h' : KeepsBut target T' T'') :
    KeepsBut target T T'' := by
  refine ⟨fun i hi hne ht => ?_, fun j hj hne ht => ?_⟩
  · obtain ⟨j, hj, hssid, hcred⟩ := h.kept i hi hne ht
    obtain ⟨k, hk, hssid', hcred'⟩ := h'.kept j hj (hssid ▸ hne) (hssid ▸ ht)
    exact ⟨k, hk, hssid'.trans hssid, fun f hf => (hcred' f hf).trans (hcred f hf)⟩
  · obtain ⟨i, hi, hssid⟩ := h'.none_new j hj hne ht
    obtain ⟨k, hk, hssid'⟩ := h.none_new i hi (hssid ▸ hne) (hssid ▸ ht)
    exact ⟨k, hk, hssid'.trans hssid⟩

theorem KeepsBut.of_eq {target : CStr} {T T' : Table}
    (h : ∀ j ∈ Finset.Icc 1 4, T j .ssid ≠ target → T' j = T j)
    (hnew : ∀ j ∈ Finset.Icc 1 4, T j .ssid = target → T' j .ssid = target ∨ T' j .ssid = noText) :
    KeepsBut target T T' := by
  refine ⟨fun i hi _ ht => ⟨i, hi, ?_, fun f _ => ?_⟩, fun j hj hne ht => ⟨j, hj, ?_⟩⟩
  · rw [h i hi ht]
  · rw [h i hi ht]
  · by_cases hj' : T j .ssid = target
    · exact ((hnew j hj hj').elim ht hne).elim
    · rw [h j hj hj']

theorem KeepsBut.refl (target : CStr) (T : Table) : KeepsBut target T T :=
  .of_eq (fun _ _ _ => rfl) fun _ _ hj => Or.inl hj

/-- Without passwords, a network that moves leaves nothing behind. -/
theorem Moved.swapped {T T' : Table} {i : ℕ} (h : Moved i T T') (hi : i ∈ Finset.Icc 1 3)
    (hfree : T (i + 1) .ssid = noText) (hp : T i .passwd = T (i + 1) .passwd) : Swapped i (i + 1) T T' := by
  rw [Finset.mem_Icc] at hi
  have hother : ∀ j ∈ Finset.Icc 1 4, j ≠ i → j ≠ i + 1 → ∀ f, T' (Equiv.swap i (i + 1) j) f = T j f := by
    intro j hj hji hji' f
    rw [Equiv.swap_apply_of_ne_of_ne hji hji', h.other j hj hji hji']
  refine ⟨fun j hj => ?_, fun j hj hne f hf => ?_⟩
  · by_cases hji : j = i
    · rw [hji, Equiv.swap_apply_left, h.moved _ (by decide) (by decide)]
    · by_cases hji' : j = i + 1
      · rw [hji', Equiv.swap_apply_right, h.left, hfree]
      · exact hother j hj hji hji' _
  · by_cases hji : j = i
    · rw [hji, Equiv.swap_apply_left]
      by_cases hfp : f = .passwd
      · rw [hfp, h.passwd _ (Finset.mem_Icc.mpr (by omega)), hp]
      · exact h.moved f (fun e => absurd hf (by rw [e]; decide)) hfp
    · exact hother j hj hji (fun e => hne (e ▸ hfree)) f

/-! ### Gaps -/

/-- `InOrder`, but for slot `g`, which has no network. -/
structure Gap (g : ℕ) (T : Table) : Prop where
  distinct : ∀ i ∈ Finset.Icc 1 4, ∀ j ∈ Finset.Icc 1 4, T i .ssid ≠ noText → T i .ssid = T j .ssid → i = j
  empty : T g .ssid = noText
  upward : ∀ i ∈ Finset.Icc 1 4, ∀ j ∈ Finset.Icc 1 4, i < j → j ≠ g → T i .ssid ≠ noText → T j .ssid ≠ noText

theorem InOrder.used {T : Table} (h : InOrder T) {i : ℕ} (hi : 1 ≤ i) (hne : T i .ssid ≠ noText) :
    ∀ {j : ℕ}, i ≤ j → j ≤ 4 → T j .ssid ≠ noText := by
  intro j hij
  induction j, hij using Nat.le_induction with
  | base => exact fun _ => hne
  | succ j hij ih => exact fun hj => h.upward j (Finset.mem_Icc.mpr (by omega)) (ih (by omega))

theorem InOrder.gap {T T' : Table} {d : ℕ} (h : InOrder T) (hd : T' d .ssid = noText)
    (hother : ∀ j ∈ Finset.Icc 1 4, j ≠ d → T' j .ssid = T j .ssid) : Gap d T' := by
  refine ⟨fun i hi j hj hne he => ?_, hd, fun i hi j hj hij hjd hne => ?_⟩
  · have hid : i ≠ d := fun e => hne (e ▸ hd)
    have hjd : j ≠ d := fun e => hne (he.trans (e ▸ hd))
    rw [hother i hi hid] at hne he
    rw [hother j hj hjd] at he
    exact h.distinct i hi j hj hne he
  · have hid : i ≠ d := fun e => hne (e ▸ hd)
    rw [hother j hj hjd]
    rw [hother i hi hid] at hne
    exact h.used (Finset.mem_Icc.mp hi).1 hne hij.le (Finset.mem_Icc.mp hj).2

/-- A gap with nothing before it. -/
theorem Gap.inOrder {T : Table} {g : ℕ} (h : Gap g T) (hbelow : 2 ≤ g → T (g - 1) .ssid = noText) : InOrder T := by
  refine ⟨h.distinct, fun i hi hne => ?_⟩
  rw [Finset.mem_Icc] at hi
  refine h.upward i (Finset.mem_Icc.mpr (by omega)) _ (Finset.mem_Icc.mpr (by omega)) i.lt_succ_self (fun hig => ?_) hne
  have hbelow := hbelow (by omega)
  rw [← hig, Nat.add_sub_cancel] at hbelow
  exact hne hbelow

theorem Gap.idle {room : Room} {nv : VarMap} {g i : ℕ} (h : Gap g (table nv)) (hi : i ∈ Finset.Icc 1 3)
    (hg : i + 1 ≠ g) : compressStep room nv i = some nv := by
  rw [Finset.mem_Icc] at hi
  exact compressStep_idle (h.upward i (Finset.mem_Icc.mpr (by omega)) _ (Finset.mem_Icc.mpr (by omega))
    i.lt_succ_self hg)

theorem InOrder.idle {room : Room} {nv : VarMap} (h : InOrder (table nv)) : ∀ is : List ℕ,
    (∀ i ∈ is, i ∈ Finset.Icc 1 3) → is.foldlM (compressStep room) nv = some nv
  | [], _ => rfl
  | i :: is, his => by
    rw [List.foldlM_cons, compressStep_idle (h.upward i (his i (List.mem_cons_self ..)))]
    exact h.idle is fun j hj => his j (List.mem_cons_of_mem _ hj)

/-- The network before the gap moves into it; the gap is where it was. -/
theorem Moved.gap {T T' : Table} {i : ℕ} (h : Moved i T T') (hi : i ∈ Finset.Icc 1 3) (hgap : Gap (i + 1) T)
    (hused : T i .ssid ≠ noText) (hp : T i .passwd = T (i + 1) .passwd) : Gap i T' := by
  have hsw := h.swapped hi hgap.empty hp
  rw [Finset.mem_Icc] at hi
  have hi' : i ∈ Finset.Icc 1 4 := Finset.mem_Icc.mpr (by omega)
  refine ⟨hsw.distinct hi' (Finset.mem_Icc.mpr (by omega)) hgap.distinct, h.left, fun j hj k hk hjk hki hne => ?_⟩
  have hji : j ≠ i := fun e => hne (e ▸ h.left)
  by_cases hk' : k = i + 1
  · rwa [hk', h.moved _ (by decide) (by decide)]
  · rw [h.other k hk hki hk']
    by_cases hj' : j = i + 1
    · exact hgap.upward i hi' k hk (by omega) hk' hused
    · rw [h.other j hj hji hj'] at hne
      exact hgap.upward j hj k hk hjk hk' hne

/-! ### The actions -/

inductive Action where
  | save (url : CStr)
  | saveUre
  | del
  | moveup
  | movedown

/-- An action of the page, with its form, and which variables there is room for. -/
structure Turn where
  action : Action
  form : Form
  room : Room

def Turn.run (t : Turn) (nv : VarMap) : Option VarMap :=
  match t.action with
  | .save url => saveProfileGroup url t.room t.form nv
  | .saveUre => saveProfileGroupUre t.room t.form nv
  | .del => delProfileGroup t.room t.form nv
  | .moveup => moveupProfileGroup t.room t.form nv
  | .movedown => movedownProfileGroup t.room t.form nv

/-- Behind a text that does not fit, anything may be. -/
def Turn.Step (nv : VarMap) (t : Turn) (nv' : VarMap) : Prop := ∀ r, t.run nv = some r → nv' = r

/-- The SSID that a form saves. -/
def Turn.saved (t : Turn) (nv : VarMap) : Option CStr :=
  match t.action with
  | .save url => t.form ("wl_ssid" ++ saveSfx url nv)
  | .saveUre => t.form "wl_ssid_ure"
  | _ => none

/-- A profile is saved under an SSID. -/
def Turn.Given (t : Turn) (nv : VarMap) : Prop :=
  match t.action with
  | .save _ | .saveUre => ∃ ssid, t.saved nv = some ssid ∧ ssid ≠ noText
  | _ => True

/-- The network that is saved or deleted. -/
def Turn.target (t : Turn) (nv : VarMap) : CStr :=
  match t.action with
  | .save _ | .saveUre => (t.saved nv).getD noText
  | .del => if chosenSlot t.form = 0 then noText else table nv (chosenSlot t.form) .ssid
  | _ => noText

/-- The networks before the one that is deleted have no password; that of the first slot moves by one only. -/
def DelMeets (T : Table) (d : ℕ) : Prop :=
  1 ≤ d → T d .ssid ≠ noText → ∀ i, 1 ≤ i → i < d → T i .ssid ≠ noText →
    (i = 1 → d = 2) ∧ T i .passwd = noText ∧ (charToAscii 128 (T i .ssid)).isSome

/-- A network moves over one that is there, and its variables fit. -/
def SwapMeets (T : Table) (kept other : ℕ) : Prop :=
  T kept .ssid ≠ noText → T other .ssid ≠ noText ∧ ∀ f, (T kept f).length < bufSize f

/-- Every set succeeds, the texts fit, and no deletion loses a password or leaves a gap. -/
def Turn.Meets (t : Turn) (nv : VarMap) : Prop :=
  (∀ nv' name value, t.room nv' name value = true) ∧
    match t.action with
    | .save _ | .saveUre => ∀ ssid ∈ t.saved nv, (saveSlot nv ssid).isSome → (charToAscii 256 ssid).isSome
    | .del => DelMeets (table nv) (chosenSlot t.form)
    | .moveup => 2 ≤ chosenSlot t.form → SwapMeets (table nv) (chosenSlot t.form - 1) (chosenSlot t.form)
    | .movedown =>
      1 ≤ chosenSlot t.form → chosenSlot t.form ≤ 3 →
        SwapMeets (table nv) (chosenSlot t.form + 1) (chosenSlot t.form)

theorem chosenSlot_le (form : Form) : chosenSlot form ≤ 4 := by
  unfold chosenSlot
  split_ifs <;> omega

section Actions

variable {room : Room} (hroom : ∀ nv name value, room nv name value = true) {nv nv' : VarMap} {T : Table}

theorem InOrder.compressing (h : InOrder (table nv)) : profileCompressing room nv = some nv := by
  unfold profileCompressing
  split_ifs
  · rfl
  · exact h.idle _ (by decide)

theorem compressing_of_used {i : ℕ} (hi : i ∈ [1, 2, 3, 4]) (h : table nv i .ssid ≠ noText) :
    profileCompressing room nv = passes.foldlM (compressStep room) nv := by
  unfold profileCompressing
  rw [if_neg]
  intro hall
  exact h (of_decide_eq_true (List.all_eq_true.mp hall i hi))

theorem savedFields_notMem (form : Form) (sfx : String) : Field.ssid ∉ (savedFields form sfx).1.map Prod.fst := by
  have hkey : ∀ key, ∀ k ∈ keyField key, k.1 ≠ .ssid := by
    intro key k hk
    unfold keyField at hk
    split_ifs at hk <;> simp at hk <;> subst hk <;> decide
  have hchosen : ∀ key, Field.ssid ∉ ((keyField key).map fun k => (k.1, form (k.2 ++ sfx))).toList.map Prod.fst := by
    intro key hmem
    cases hk : keyField key with
    | none => simp [hk] at hmem
    | some k =>
      rw [hk] at hmem
      exact hkey key k hk (List.mem_singleton.mp hmem).symm
  unfold savedFields
  simp only
  split
  · simp
  · split
    · simp
    · rename_i key _
      split
      · simpa using hchosen key
      · split
        · simp only [List.map_append, List.mem_append, not_or]
          refine ⟨⟨⟨by simp, hchosen key⟩, by simp⟩, ?_⟩
          cases keyField key <;> simp
        · simpa using hchosen key

theorem pfName_ne_ap (f : Field) (j : ℕ) : pfName f j ≠ .lit "wl_ap_ssid" := by
  intro h
  have hbytes := congrArg CStr.bytes h
  rw [pfName_bytes] at hbytes
  exact absurd (List.cons.inj hbytes).1 (by decide)

theorem table_chooseAp {j : ℕ} (hj : j ∈ Finset.Icc 1 4) : table (chooseAp room nv) j = table nv j := by
  funext f
  unfold chooseAp
  split_ifs
  · split
    · exact table_set_other (fun f j _ => pfName_ne_ap f j) _ hj f
    · rfl
  · rfl

theorem table_replaceAp {j : ℕ} (hj : j ∈ Finset.Icc 1 4) : table (replaceAp room nv) j = table nv j := by
  funext f
  unfold replaceAp
  split_ifs
  · exact table_set_other (fun f j _ => pfName_ne_ap f j) _ hj f
  · rfl
  · rfl

/-- The slot with the SSID, or else the one before the first that is used. -/
theorem saveSlot_cases {ssid : CStr} {idx : ℕ} (hslot : saveSlot nv ssid = some idx) :
    idx ∈ Finset.Icc 1 4 ∧ (table nv idx .ssid = ssid ∨
      (∀ j ∈ Finset.Icc 1 4, table nv j .ssid ≠ ssid) ∧ table nv idx .ssid = noText ∧
        ∀ j ∈ Finset.Icc 1 4, idx < j → table nv j .ssid ≠ noText) := by
  have hmem : ∀ j, j ∈ [4, 3, 2, 1] ↔ j ∈ Finset.Icc 1 4 := by
    intro j
    rw [Finset.mem_Icc]
    simp only [List.mem_cons, List.not_mem_nil, or_false]
    omega
  unfold saveSlot at hslot
  cases hfound : [4, 3, 2, 1].find? fun i => decide (nvramGetI3 nv .ssid i = ssid) with
  | some i =>
    rw [hfound] at hslot
    obtain rfl := Option.some.inj hslot
    exact ⟨(hmem i).mp (List.mem_of_find?_eq_some hfound),
      Or.inl (of_decide_eq_true (List.find?_some hfound :))⟩
  | none =>
    rw [hfound] at hslot
    obtain ⟨hempty, as, bs, hlist, has⟩ := List.find?_eq_some_iff_append.mp hslot
    have hidx : idx ∈ [4, 3, 2, 1] := hlist ▸ List.mem_append_right _ (List.mem_cons_self ..)
    have hdown : (as ++ idx :: bs).Pairwise (· > ·) := hlist ▸ (by decide)
    refine ⟨(hmem idx).mp hidx, Or.inr ⟨fun j hj he => ?_, of_decide_eq_true hempty, fun j hj hlt he => ?_⟩⟩
    · exact List.find?_eq_none.mp hfound j ((hmem j).mpr hj) (decide_eq_true he)
    · have hj : j ∈ as ++ idx :: bs := hlist ▸ (hmem j).mpr hj
      obtain ⟨-, htail, -⟩ := List.pairwise_append.mp hdown
      rcases List.mem_append.mp hj with hj | hj
      · simpa [show nvramGetI3 nv .ssid j = noText from he] using has j hj
      · rcases List.mem_cons.mp hj with rfl | hj
        · exact lt_irrefl _ hlt
        · exact absurd (List.rel_of_pairwise_cons htail hj) (by omega)

theorem saveFields_eq {idx : ℕ} (h : ∀ f, (table nv idx f).length < bufSize f) :
    saveFields nv idx = some (allFields.map fun f => (f, some (table nv idx f))) := by
  have hstep : (fun f => let value := nvramGetI3 nv f idx
      if value.length < bufSize f then some (f, some value) else none) = fun f => some (f, some (table nv idx f)) :=
    funext fun f => if_pos (h f)
  rw [saveFields, hstep]
  exact List.mapM_pure

/-- There is no slot 0. -/
theorem setFields_zero : ∀ sets : List (Field × Option CStr), setFields room 0 sets nv = nv
  | [] => rfl
  | _ :: sets => setFields_zero sets

/-- The action leaves the table in order, and only the target is another. -/
def KeepsOthers (nv : VarMap) (target : CStr) (run : Option VarMap) : Prop :=
  ∃ nv', run = some nv' ∧ InOrder (table nv') ∧ KeepsBut target (table nv) (table nv')

theorem KeepsOthers.refl (h : InOrder (table nv)) (target : CStr) : KeepsOthers nv target (some nv) :=
  ⟨nv, rfl, h, .refl target _⟩

include hroom

theorem Gap.compressStep {i : ℕ} (h : Gap (i + 1) (table nv)) (hi : i ∈ Finset.Icc 1 3)
    (hused : table nv i .ssid ≠ noText) (hp : table nv i .passwd = table nv (i + 1) .passwd)
    (hfits : (charToAscii 128 (table nv i .ssid)).isSome) (target : CStr) :
    ∃ nv', Httpd.compressStep room nv i = some nv' ∧ Moved i (table nv) (table nv') ∧ Gap i (table nv') ∧
      KeepsBut target (table nv) (table nv') := by
  obtain ⟨nv', hrun, hmoved⟩ := compressStep_moved hroom hi hused h.empty hfits
  have hi' := Finset.mem_Icc.mp hi
  exact ⟨nv', hrun, hmoved, hmoved.gap hi h hused hp, (hmoved.swapped hi h.empty hp).keeps
    (Finset.mem_Icc.mpr (by omega)) (Finset.mem_Icc.mpr (by omega)) target⟩

/-- What the compressing makes of a gap. -/
theorem Gap.compressing {d : ℕ} (h : Gap d (table nv)) (hd : d ≤ 4) (hpd : table nv d .passwd = noText)
    (hbelow : ∀ i, 1 ≤ i → i < d → table nv i .ssid ≠ noText →
      (i = 1 → d = 2) ∧ table nv i .passwd = noText ∧ (charToAscii 128 (table nv i .ssid)).isSome) (target : CStr) :
    ∃ nv', profileCompressing room nv = some nv' ∧ InOrder (table nv') ∧ KeepsBut target (table nv) (table nv') := by
  by_cases hin : 2 ≤ d → table nv (d - 1) .ssid = noText
  · have hin := h.inOrder hin
    exact ⟨nv, hin.compressing, hin, .refl target _⟩
  · push Not at hin
    obtain ⟨hd2, hused⟩ := hin
    obtain ⟨h1, hp, hfits⟩ := hbelow (d - 1) (by omega) (by omega) hused
    rw [compressing_of_used (by simp only [List.mem_cons, List.not_mem_nil]; omega) hused]
    -- the gap's slot: `d` is 2, 3 or 4
    obtain rfl | rfl | rfl : d = 2 ∨ d = 3 ∨ d = 4 := by omega
    · obtain ⟨nv₁, hrun, -, hgap, hkeep⟩ := h.compressStep hroom (by decide) hused (hp.trans hpd.symm) hfits target
      have hin := hgap.inOrder (by omega)
      refine ⟨nv₁, ?_, hin, hkeep⟩
      rw [show passes = 1 :: [2, 3, 2, 3, 3] from rfl, List.foldlM_cons, hrun]
      exact hin.idle _ (by decide)
    · have hfirst : table nv 1 .ssid = noText := by
        by_contra hne
        exact absurd ((hbelow 1 (by omega) (by omega) hne).1 rfl) (by omega)
      obtain ⟨nv₁, hrun, hmoved, hgap, hkeep⟩ :=
        h.compressStep hroom (by decide) hused (hp.trans hpd.symm) hfits target
      have hin := hgap.inOrder fun _ => (hmoved.other 1 (by decide) (by omega) (by omega) _).trans hfirst
      refine ⟨nv₁, ?_, hin, hkeep⟩
      rw [show passes = 1 :: 2 :: [3, 2, 3, 3] from rfl, List.foldlM_cons, h.idle (by decide) (by omega)]
      refine (congrArg (· >>= _) hrun).trans ?_
      exact hin.idle _ (by decide)
    · have hfirst : table nv 1 .ssid = noText := by
        by_contra hne
        exact absurd ((hbelow 1 (by omega) (by omega) hne).1 rfl) (by omega)
      obtain ⟨nv₁, hrun, hmoved, hgap, hkeep⟩ :=
        h.compressStep hroom (by decide) hused (hp.trans hpd.symm) hfits target
      have hfirst₁ := (hmoved.other 1 (by decide) (by omega) (by omega) .ssid).trans hfirst
      have hsecond := hmoved.other 2 (by decide) (by omega) (by omega)
      have hpass : passes.foldlM (Httpd.compressStep room) nv = [2, 3, 3].foldlM (Httpd.compressStep room) nv₁ := by
        rw [show passes = 1 :: 2 :: 3 :: [2, 3, 3] from rfl, List.foldlM_cons, h.idle (by decide) (by omega)]
        refine (congrArg (· >>= _) (h.idle (by decide) (by omega))).trans ?_
        exact congrArg (· >>= _) hrun
      rw [hpass]
      by_cases hused₁ : table nv₁ 2 .ssid = noText
      · have hin := hgap.inOrder fun _ => hused₁
        exact ⟨nv₁, hin.idle _ (by decide), hin, hkeep⟩
      · have hused₂ : table nv 2 .ssid ≠ noText := hsecond .ssid ▸ hused₁
        obtain ⟨-, hp₂, hfits₂⟩ := hbelow 2 (by omega) (by omega) hused₂
        have hp₁ : table nv₁ 2 .passwd = table nv₁ 3 .passwd := by
          rw [hsecond, hmoved.passwd 3 (by decide), hp₂, hp]
        obtain ⟨nv₂, hrun₂, hmoved₂, hgap₂, hkeep₂⟩ :=
          hgap.compressStep hroom (by decide) hused₁ hp₁ ((hsecond .ssid).symm ▸ hfits₂) target
        have hin := hgap₂.inOrder fun _ => (hmoved₂.other 1 (by decide) (by omega) (by omega) _).trans hfirst₁
        refine ⟨nv₂, ?_, hin, hkeep.trans hkeep₂⟩
        rw [List.foldlM_cons, hrun₂]
        exact hin.idle _ (by decide)

/-- What a saving leaves. -/
theorem saveProfile_spec (h : InOrder (table nv)) {sfx : String} {form : Form} {ssid : CStr} {idx : ℕ}
    (hform : form ("wl_ssid" ++ sfx) = some ssid) (hslot : saveSlot nv ssid = some idx) (hidx : idx ∈ Finset.Icc 1 4)
    (hfits : (charToAscii 256 ssid).isSome) :
    ∃ nv', saveProfile sfx room form nv = some nv' ∧ table nv' idx .ssid = ssid ∧
      ∀ j ∈ Finset.Icc 1 4, j ≠ idx → table nv' j = table nv j := by
  obtain ⟨ssidStr, hstr⟩ := Option.isSome_iff_exists.mp hfits
  unfold saveProfile
  simp only [h.compressing, hform, hslot, hstr, Option.bind_eq_bind, Option.bind_some]
  refine ⟨_, rfl, ?_, fun j hj hne => ?_⟩
  · split
    · rw [table_chooseAp hidx, table_setFields_notMem hroom hidx _ _ (savedFields_notMem form sfx),
        table_setI3 hroom hidx hidx, if_neg (by simp), table_setI3 hroom hidx hidx, if_pos ⟨rfl, rfl⟩]
      rfl
    · rw [table_setFields_notMem hroom hidx _ _ (savedFields_notMem form sfx),
        table_setI3 hroom hidx hidx, if_neg (by simp), table_setI3 hroom hidx hidx, if_pos ⟨rfl, rfl⟩]
      rfl
  · have hset : ∀ sets, table (setFields room idx sets (nvramSetI3 room (nvramSetI3 room nv .ssid idx (some ssid)) .ssid2
        idx (some ssidStr))) j = table nv j := by
      intro sets
      funext f
      rw [table_setFields_other hroom hidx hj hne, table_setI3 hroom hidx hj, if_neg fun h => hne h.1,
        table_setI3 hroom hidx hj, if_neg fun h => hne h.1]
    split
    · rw [table_chooseAp hj, hset]
    · rw [hset]

theorem saveProfile_keeps (h : InOrder (table nv)) {sfx : String} {form : Form} {ssid : CStr} (hne : ssid ≠ noText)
    (hform : form ("wl_ssid" ++ sfx) = some ssid)
    (hfits : (saveSlot nv ssid).isSome → (charToAscii 256 ssid).isSome) :
    KeepsOthers nv ssid (saveProfile sfx room form nv) := by
  cases hslot : saveSlot nv ssid with
  | none =>
    refine ⟨nv, ?_, h, .refl ssid _⟩
    unfold saveProfile
    simp only [h.compressing, hform, hslot, Option.bind_eq_bind, Option.bind_some]
  | some idx =>
    obtain ⟨hidx, hcase⟩ := saveSlot_cases hslot
    obtain ⟨nv', hrun, hssid, hother⟩ := saveProfile_spec hroom h hform hslot hidx (hfits (by simp [hslot]))
    have hidx' := Finset.mem_Icc.mp hidx
    have hnew : ∀ j ∈ Finset.Icc 1 4, j ≠ idx → table nv j .ssid ≠ ssid := by
      intro j hj hji he
      rcases hcase with hfound | ⟨hnone, -⟩
      · exact hji (h.distinct j hj idx hidx (he ▸ hne) (he.trans hfound.symm))
      · exact hnone j hj he
    have hold : table nv idx .ssid ≠ noText → table nv idx .ssid = ssid :=
      fun hused => hcase.elim id fun hempty => absurd hempty.2.1 hused
    refine ⟨nv', hrun, ⟨fun i hi j hj hi0 he => ?_, fun i hi hi0 => ?_⟩,
      ⟨fun i hi hi0 ht => ⟨i, hi, ?_⟩, fun j hj _ ht => ⟨j, hj, ?_⟩⟩⟩
    · by_contra hij
      by_cases hii : i = idx
      · rw [hii, hssid, hother j hj fun e => hij (hii.trans e.symm)] at he
        exact hnew j hj (fun e => hij (hii.trans e.symm)) he.symm
      · rw [hother i hi hii] at hi0 he
        by_cases hjj : j = idx
        · exact hnew i hi hii (he.trans (hjj ▸ hssid))
        · exact hij (h.distinct i hi j hj hi0 (he.trans (by rw [hother j hj hjj])))
    · rw [Finset.mem_Icc] at hi
      have hi1 : i + 1 ∈ Finset.Icc 1 4 := Finset.mem_Icc.mpr (by omega)
      by_cases hnext : i + 1 = idx
      · rwa [hnext, hssid]
      · rw [hother _ hi1 hnext]
        by_cases hii : i = idx
        · rcases hcase with hfound | ⟨-, -, habove⟩
          · exact h.upward i (Finset.mem_Icc.mpr hi) (by rwa [hii, hfound])
          · exact habove _ hi1 (by omega)
        · rw [hother i (Finset.mem_Icc.mpr (by omega)) hii] at hi0
          exact h.upward i (Finset.mem_Icc.mpr hi) hi0
    · have hii : i ≠ idx := fun e => ht (e ▸ hold (e ▸ hi0))
      exact ⟨congrFun (hother i hi hii) _, fun f _ => congrFun (hother i hi hii) f⟩
    · rw [hother j hj fun e => ht (e ▸ hssid)]

/-! #### Deleting -/

theorem delProfileGroup_keeps (h : InOrder (table nv)) {form : Form} (hmeets : DelMeets (table nv) (chosenSlot form)) :
    KeepsOthers nv (if chosenSlot form = 0 then noText else table nv (chosenSlot form) .ssid)
      (delProfileGroup room form nv) := by
  have hd4 := chosenSlot_le form
  unfold delProfileGroup
  generalize chosenSlot form = d at hmeets hd4 ⊢
  by_cases hd0 : d = 0
  · subst hd0
    rw [if_pos rfl, setFields_zero, h.compressing]
    exact ⟨_, rfl, h.congr fun j hj => table_replaceAp hj, .of_eq (fun j hj _ => table_replaceAp hj)
      fun j hj he => Or.inl ((congrFun (table_replaceAp hj) _).trans he)⟩
  · rw [if_neg hd0]
    have hd : d ∈ Finset.Icc 1 4 := Finset.mem_Icc.mpr (by omega)
    have hother : ∀ j ∈ Finset.Icc 1 4, j ≠ d → table (setFields room d cleared nv) j = table nv j :=
      fun j hj hne => funext fun f => table_setFields_other hroom hd hj hne f _ _
    have hclear : ∀ f, (f, some noText) ∈ cleared → table (setFields room d cleared nv) d f = noText :=
      fun f hf => table_setFields_mem hroom hd _ _ (by decide) hf
    have hempty := hclear .ssid (by decide)
    have hgap := h.gap hempty fun j hj hne => congrFun (hother j hj hne) .ssid
    have hkeep : KeepsBut (table nv d .ssid) (table nv) (table (setFields room d cleared nv)) := by
      refine .of_eq (fun j hj ht => hother j hj fun e => ht (e ▸ rfl)) fun j hj ht => ?_
      by_cases hjd : j = d
      · exact Or.inr (hjd ▸ hempty)
      · exact Or.inl (by rw [hother j hj hjd, ht])
    have hbelow : ∀ i, 1 ≤ i → i < d → table (setFields room d cleared nv) i .ssid ≠ noText → (i = 1 → d = 2) ∧
        table (setFields room d cleared nv) i .passwd = noText ∧
        (charToAscii 128 (table (setFields room d cleared nv) i .ssid)).isSome := by
      intro i hi hid hused
      have hi' : i ∈ Finset.Icc 1 4 := Finset.mem_Icc.mpr (by omega)
      rw [hother i hi' hid.ne] at hused ⊢
      exact hmeets (by omega) (h.used hi hused hid.le hd4) i hi hid hused
    obtain ⟨nv', hrun, hin, hkeep'⟩ := hgap.compressing hroom hd4 (hclear .passwd (by decide)) hbelow _
    rw [hrun]
    exact ⟨_, rfl, hin.congr fun j hj => table_replaceAp hj, (hkeep.trans hkeep').trans
      (.of_eq (fun j hj _ => table_replaceAp hj) fun j hj he => Or.inl ((congrFun (table_replaceAp hj) _).trans he))⟩

/-! #### Moving -/

theorem swapSlots_keeps (h : InOrder (table nv)) {kept other : ℕ} (hkept : kept ∈ Finset.Icc 1 4)
    (hother : other ∈ Finset.Icc 1 4) (hne : kept ≠ other) (hused : table nv kept .ssid ≠ noText)
    (hmeets : SwapMeets (table nv) kept other) (target : CStr) : KeepsOthers nv target (swapSlots room kept other nv) := by
  obtain ⟨hused', hfits⟩ := hmeets hused
  have hrun : swapSlots room kept other nv = some (setFields room other
      (allFields.map fun f => (f, some (table nv kept f))) (copyFields room other kept allFields nv)) := by
    unfold swapSlots
    rw [saveFields_eq hfits]
    rfl
  have hall : ∀ j ∈ Finset.Icc 1 4, ∀ f, table (setFields room other
      (allFields.map fun f => (f, some (table nv kept f))) (copyFields room other kept allFields nv))
      (Equiv.swap kept other j) f = table nv j f := by
    intro j hj f
    have hswap := swap_mem hkept hother hj
    by_cases hjk : j = kept
    · rw [hjk, Equiv.swap_apply_left]
      have hmem : (f, some (table nv kept f)) ∈ allFields.map fun f => (f, some (table nv kept f)) :=
        List.mem_map.mpr ⟨f, mem_allFields f, rfl⟩
      have hnodup : ((allFields.map fun f => (f, some (table nv kept f))).map Prod.fst).Nodup := by
        simp only [List.map_map, Function.comp_def, List.map_id']
        decide
      have hset := table_setFields_mem hroom hother _ (copyFields room other kept allFields nv) hnodup hmem
      exact hset
    · rw [Equiv.swap_apply_def] at hswap ⊢
      rw [if_neg hjk] at hswap ⊢
      by_cases hjo : j = other
      · rw [if_pos hjo] at hswap ⊢
        rw [table_setFields_other hroom hother hkept hne, table_copyFields hroom hother hkept hne.symm hkept,
          if_pos ⟨rfl, mem_allFields f⟩, hjo]
      · rw [if_neg hjo, table_setFields_other hroom hother hj hjo,
          table_copyFields hroom hother hkept hne.symm hj, if_neg fun e => hjk e.1]
  have hsw : Swapped kept other (table nv) (table (setFields room other
      (allFields.map fun f => (f, some (table nv kept f))) (copyFields room other kept allFields nv))) :=
    ⟨fun j hj => hall j hj _, fun j hj _ f _ => hall j hj f⟩
  exact ⟨_, hrun, hsw.inOrder hkept hother h hused hused', hsw.keeps hkept hother target⟩

end Actions

/-! ### Runs -/

theorem Turn.run_keeps {t : Turn} {nv : VarMap} (h : InOrder (table nv)) (hgiven : t.Given nv) (hmeets : t.Meets nv) :
    KeepsOthers nv (t.target nv) (t.run nv) := by
  obtain ⟨hroom, hmeets⟩ := hmeets
  obtain ⟨action, form, room⟩ := t
  cases action with
  | save url =>
    obtain ⟨ssid, hform, hne⟩ := hgiven
    simp only [Turn.target, hform, Option.getD_some]
    exact saveProfile_keeps hroom h hne hform (hmeets ssid hform)
  | saveUre =>
    obtain ⟨ssid, hform, hne⟩ := hgiven
    simp only [Turn.target, hform, Option.getD_some]
    exact saveProfile_keeps hroom h hne hform (hmeets ssid hform)
  | del => exact delProfileGroup_keeps hroom h hmeets
  | moveup =>
    have hd4 := chosenSlot_le form
    have hmeets : 2 ≤ chosenSlot form → SwapMeets (table nv) (chosenSlot form - 1) (chosenSlot form) := hmeets
    simp only [Turn.run, Turn.target, moveupProfileGroup]
    split_ifs with hd hused
    · exact .refl h _
    · push Not at hd
      exact swapSlots_keeps hroom h (Finset.mem_Icc.mpr (by omega)) (Finset.mem_Icc.mpr (by omega)) (by omega) hused
        (hmeets (by omega)) _
    · exact .refl h _
  | movedown =>
    have hd4 := chosenSlot_le form
    have hmeets : 1 ≤ chosenSlot form → chosenSlot form ≤ 3 →
      SwapMeets (table nv) (chosenSlot form + 1) (chosenSlot form) := hmeets
    simp only [Turn.run, Turn.target, movedownProfileGroup]
    split_ifs with hd hused
    · exact .refl h _
    · push Not at hd
      exact swapSlots_keeps hroom h (Finset.mem_Icc.mpr (by omega)) (Finset.mem_Icc.mpr (by omega)) (by omega) hused
        (hmeets (by omega) (by omega)) _
    · exact .refl h _

/-- **Networks and their credentials.** From a table in order, and with actions that meet `Meets`, the table stays in
order, and each network but the one that is saved or deleted keeps its credentials. -/
theorem profiles_of_run {nv nv' : VarMap} {ts : List Turn} (h : InOrder (table nv))
    (hrun : Run.Trace (fun nv (t : Turn) nv' => t.Given nv ∧ t.Meets nv ∧ t.Step nv nv') nv ts nv') :
    InOrder (table nv') ∧ ∀ (t : Turn) nv'', t.Given nv' → t.Meets nv' → t.Step nv' nv'' →
      InOrder (table nv'') ∧ KeepsBut (t.target nv') (table nv') (table nv'') := by
  have hstep : ∀ nv₁ (t : Turn) nv₂, InOrder (table nv₁) → t.Given nv₁ → t.Meets nv₁ → t.Step nv₁ nv₂ →
      InOrder (table nv₂) ∧ KeepsBut (t.target nv₁) (table nv₁) (table nv₂) := by
    intro nv₁ t nv₂ hin hgiven hmeets hstep
    obtain ⟨r, hrun, hkeeps⟩ := t.run_keeps hin hgiven hmeets
    rwa [hstep r hrun]
  have hin : InOrder (table nv') := hrun.inv (I := fun _ nv => InOrder (table nv)) h
    fun _ nv₁ t nv₂ hin hs => (hstep nv₁ t nv₂ hin hs.1 hs.2.1 hs.2.2).1
  exact ⟨hin, fun t nv'' => hstep nv' t nv'' hin⟩

/-! ### Two networks -/

/-- `A` with a password in slot 3, `B` in slot 4. -/
def twoNetworks : VarMap :=
  ((∅ : VarMap).insert (pfName .ssid 3) (.lit "A")).insert (pfName .passwd 3) (.lit "secret")
    |>.insert (pfName .ssid 4) (.lit "B")

/-- An action on slot 4. -/
def onFour (action : Action) : Turn where
  action := action
  form name := if name = "pf4_delete" then some (.lit "1") else none
  room _ _ _ := true

theorem twoNetworks_inOrder : InOrder (table twoNetworks) := ⟨by decide +kernel, by decide +kernel⟩

/-- They are swapped. -/
theorem twoNetworks_swapped : InOrder (table (((onFour .moveup).run twoNetworks).getD twoNetworks)) := by
  have hmeets : (onFour .moveup).Meets twoNetworks :=
    ⟨fun _ _ _ => rfl, fun _ _ => ⟨by decide +kernel, fun f => by cases f <;> decide +kernel⟩⟩
  have hstep : (onFour .moveup).Step twoNetworks (((onFour .moveup).run twoNetworks).getD twoNetworks) := by
    intro r hr
    rw [hr, Option.getD_some]
  exact (profiles_of_run twoNetworks_inOrder
    (Run.Trace.nil.snoc (e := onFour .moveup) ⟨trivial, hmeets, hstep⟩)).1

/-- `B` is deleted, and `A` loses its password. -/
theorem password_lost : ¬∀ (nv nv' : VarMap) (ts : List Turn), InOrder (table nv) →
    Run.Trace (fun nv (t : Turn) nv' => t.Given nv ∧ t.Step nv nv') nv ts nv' →
      InOrder (table nv') ∧ ∀ (t : Turn) nv'', t.Given nv' → t.Step nv' nv'' →
        InOrder (table nv'') ∧ KeepsBut (t.target nv') (table nv') (table nv'') := by
  intro hclaim
  obtain ⟨r, hr⟩ := Option.isSome_iff_exists.mp
    (show ((onFour .del).run twoNetworks).isSome = true by decide +kernel)
  have hlost : ((onFour .del).run twoNetworks).all (fun r =>
      [1, 2, 3, 4].all fun j => table r j .ssid = .lit "A" → table r j .passwd = noText) = true := by decide +kernel
  obtain ⟨-, hstep⟩ := hclaim twoNetworks twoNetworks [] twoNetworks_inOrder .nil
  obtain ⟨-, hkeep⟩ := hstep (onFour .del) r trivial fun r' hr' => Option.some.inj (hr.symm.trans hr')
  obtain ⟨j, hj, hssid, hcred⟩ := hkeep.kept 3 (by decide) (by decide +kernel) (by decide +kernel)
  have hssid : table r j .ssid = .lit "A" := hssid.trans (by decide +kernel)
  rw [hr, Option.all_some, List.all_eq_true] at hlost
  rw [Finset.mem_Icc] at hj
  have hempty := of_decide_eq_true (hlost j (by simp only [List.mem_cons, List.not_mem_nil]; omega)) hssid
  rw [hcred .passwd (by decide)] at hempty
  exact absurd hempty (by decide +kernel)

end Httpd
end Router
