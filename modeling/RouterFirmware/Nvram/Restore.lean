/-
# What a restore gives back

`wsc_set` contains no default's name, so it is never restored: whatever it is by the time of the restore decides
whether a key or a long SSID is rewritten. The saved values come back after any later changes exactly if neither
rewriting touches them and no name has the boot loader's prefix (`restore_iff`). The claim is about the map of the
variables, where no set fails; `restore_refines` carries it to the store, for a run in which every `_nvram_set`
returns 0.
-/
import RouterFirmware.Nvram.Backup

namespace Router
namespace Nvram

open CMem CText

/-! ### The restore over the map of the variables -/

/-- A default of ASCII that none of the texts contains. -/
def Apart (ns : List CStr) (t : String) : Bool :=
  t.toByteArray.data.toList.all (· < 128) && ns.all fun n => (strstr t.toByteArray.data.toList n.bytes).isNone

theorem strstr_of_apart {ns : List CStr} {t : String} (h : Apart ns t = true) {n : CStr} (hn : n ∈ ns) :
    strstr (bytes t) n.bytes = none := by
  rw [Apart, Bool.and_eq_true, List.all_eq_true, List.all_eq_true] at h
  rw [bytes_of_ascii fun b hb => of_decide_eq_true (h.1 b hb)]
  exact Option.isNone_iff_eq_none.mp (h.2 n hn)

/-- A check of a list, `k` of its elements at a time. -/
theorem all_of_chunks {α : Type*} {p : α → Bool} {k : ℕ} : ∀ (n : ℕ) {l : List α},
    (∀ i < n, ((l.drop (i * k)).take k).all p = true) → l.length ≤ n * k → l.all p = true
  | 0, l, _, hlen => by
    have hnil : l = [] := List.length_eq_zero_iff.mp (by omega)
    rw [hnil, List.all_nil]
  | n + 1, l, h, hlen => by
    have hfirst := h 0 (Nat.succ_pos n)
    rw [Nat.zero_mul, List.drop_zero] at hfirst
    rw [← List.take_append_drop k l, List.all_append, hfirst, Bool.true_and]
    refine all_of_chunks (k := k) n (fun i hi => ?_) ?_
    · have hnext := h (i + 1) (Nat.succ_lt_succ hi)
      rwa [Nat.succ_mul, Nat.add_comm, ← List.drop_drop] at hnext
    · rw [Nat.succ_mul] at hlen
      rw [List.length_drop]
      omega

/-- Names that contain no default's name: the one that decides what a restore does, the one it sets itself, and those
that the kernel takes for something else. -/
theorem not_issyspara : ([wscSet, xSetting, cfeNvramCommit, cfeNvramWatchdog,
    cstr (cfeNvramPrefix.bytes ++ xSetting.bytes)].any issyspara) = false := by
  -- a part of the defaults at a time
  have hall : ∀ t ∈ routerDefaults, Apart [wscSet, xSetting, cfeNvramCommit, cfeNvramWatchdog,
      cstr (cfeNvramPrefix.bytes ++ xSetting.bytes)] t = true := by
    refine List.all_eq_true.mp (all_of_chunks (k := 24) 18 (fun i hi => ?_) (by decide +kernel))
    interval_cases i <;> decide +kernel
  rw [List.any_eq_false]
  intro n hn
  unfold issyspara
  rw [List.any_eq_true]
  rintro ⟨t, ht, hs⟩
  rw [strstr_of_apart (hall t ht) hn] at hs
  cases hs

theorem issyspara_of_mem {n : CStr} (h : n ∈ [wscSet, xSetting, cfeNvramCommit, cfeNvramWatchdog,
    cstr (cfeNvramPrefix.bytes ++ xSetting.bytes)]) : issyspara n = false :=
  Bool.eq_false_iff.mpr (List.any_eq_false.mp not_issyspara n h)

theorem issyspara_wscSet : issyspara wscSet = false := issyspara_of_mem (by simp)

theorem issyspara_xSetting : issyspara xSetting = false := issyspara_of_mem (by simp)

/-- What the restore does with one variable, where no set fails. -/
def mapEntry (m : VarMap) (a : (CStr × CStr) × CStr) : VarMap :=
  if issyspara a.1.1 then
    (kernelName a.1.1).elim m fun n => m.insert n (written (wscIsSet mapDevice m) a.1.1 a.1.2 a.2)
  else m

theorem foldlM_restoreEntry (l : List ((CStr × CStr) × CStr)) (m : VarMap) :
    l.foldlM (restoreEntry mapDevice) m = some (l.foldl mapEntry m) := by
  have hstep : restoreEntry mapDevice = fun m a => some (mapEntry m a) := by
    funext m a
    unfold restoreEntry mapEntry
    split_ifs <;> rfl
  rw [hstep]
  exact List.foldlM_pure

section Map

variable {m : VarMap} {l : List ((CStr × CStr) × CStr)} {n : CStr}

/-- A variable that no entry is restored to keeps its value. -/
theorem lookup_foldl_mapEntry (hn : ∀ a ∈ l, issyspara a.1.1 = true → kernelName a.1.1 ≠ some n) :
    (l.foldl mapEntry m).lookup n = m.lookup n := by
  induction l generalizing m with
  | nil => rfl
  | cons a l ih =>
    rw [List.foldl_cons, ih fun b hb => hn b (List.mem_cons_of_mem _ hb)]
    unfold mapEntry
    split_ifs with hsys
    · have hk := hn a List.mem_cons_self hsys
      cases hka : kernelName a.1.1 with
      | none => rfl
      | some k =>
        rw [hka] at hk
        exact Finmap.lookup_insert_of_ne _ fun he => hk (he ▸ rfl)
    · rfl

/-- No restored name has the boot loader's prefix. -/
def NoCfe (l : List ((CStr × CStr) × CStr)) : Prop := ∀ a ∈ l, issyspara a.1.1 = true → isCfeName a.1.1 = false

theorem kernelName_eq (h : isCfeName n = false) : kernelName n = some n := by simp [kernelName, h]

theorem NoCfe.kernelName {a : (CStr × CStr) × CStr} (h : NoCfe l) (ha : a ∈ l) (hsys : issyspara a.1.1 = true) :
    Nvram.kernelName a.1.1 = some a.1.1 := kernelName_eq (h a ha hsys)

/-- What contains no default's name is not restored to. -/
theorem NoCfe.lookup_of_not_sys (h : NoCfe l) (hn : issyspara n = false) :
    (l.foldl mapEntry m).lookup n = m.lookup n := by
  refine lookup_foldl_mapEntry fun a ha hsys hk => ?_
  rw [h.kernelName ha hsys] at hk
  rw [Option.some.inj hk, hn] at hsys
  cases hsys

/-- What is restored is what is written for it while `wsc_set` is as it was before. -/
theorem NoCfe.lookup_of_mem (h : NoCfe l) (hnd : (l.map fun a => a.1.1).Nodup) {a : (CStr × CStr) × CStr} (ha : a ∈ l)
    (hsys : issyspara a.1.1 = true) :
    (l.foldl mapEntry m).lookup a.1.1 = some (written (wscIsSet mapDevice m) a.1.1 a.1.2 a.2) := by
  obtain ⟨pre, post, rfl⟩ := List.append_of_mem ha
  rw [List.map_append, List.map_cons, List.nodup_append, List.nodup_cons] at hnd
  have hpre : NoCfe pre := fun b hb => h b (List.mem_append_left _ hb)
  have hwsc : wscIsSet mapDevice (pre.foldl mapEntry m) = wscIsSet mapDevice m := by
    unfold wscIsSet mapDevice
    dsimp only
    rw [hpre.lookup_of_not_sys issyspara_wscSet]
  have hpost : ∀ b ∈ post, issyspara b.1.1 = true → Nvram.kernelName b.1.1 ≠ some a.1.1 := by
    intro b hb hb' hk
    rw [h.kernelName (List.mem_append_right _ (List.mem_cons_of_mem _ hb)) hb'] at hk
    exact hnd.2.1.1 (List.mem_map.mpr ⟨b, hb, Option.some.inj hk⟩)
  rw [List.foldl_append, List.foldl_cons, lookup_foldl_mapEntry hpost, mapEntry, if_pos hsys, h.kernelName ha hsys,
    Option.elim_some, Finmap.lookup_insert, hwsc]

end Map

/-! ### The values that come back -/

theorem getElem?_pairs {f g : UInt8 → UInt8} : ∀ (l : Bytes) (j : ℕ),
    (l.flatMap fun c => [f c, g c])[2 * j]? = l[j]?.map f ∧ (l.flatMap fun c => [f c, g c])[2 * j + 1]? = l[j]?.map g
  | [], j => by simp
  | c :: l, 0 => by simp
  | c :: l, j + 1 => by
    obtain ⟨h0, h1⟩ := @getElem?_pairs f g l j
    rw [List.flatMap_cons, show 2 * (j + 1) = 2 * j + 1 + 1 by omega]
    exact ⟨by simpa using h0, by simpa using h1⟩

theorem upperHex_fixed : ∀ c : UInt8, upperHex (c.toNat / 16) = c → c = 51 :=
  forall_byte.mpr (by decide +kernel)

/-- The only key that is its own 26 digits. -/
theorem hexKey_eq_iff {buf : Mem} {p : ℕ} {v : CStr} (hv : Holds buf p v.withNul) :
    cstr (hexKey buf p) = v ↔ v.bytes = List.replicate 26 51 := by
  have hdigit : ∀ d, d < 16 → upperHex d ≠ 0 := by decide
  have hnul : (0 : UInt8) ∉ hexKey buf p := by
    unfold hexKey
    rw [List.mem_flatMap]
    rintro ⟨c, -, hc⟩
    have hlt := c.toNat_lt
    rcases List.mem_cons.mp hc with hc | hc
    · exact hdigit (c.toNat / 16) (by omega) hc.symm
    · exact hdigit (c.toNat % 16) (by omega) (List.mem_singleton.mp hc).symm
  have hlen : (hexKey buf p).length = 26 := by simp [hexKey, List.length_flatMap]
  have hbytes : cstr (hexKey buf p) = v ↔ hexKey buf p = v.bytes := by
    constructor
    · intro he
      rw [← he, cstr_bytes hnul]
    · intro he
      exact CStr.ext_bytes ((cstr_bytes hnul).trans he)
  rw [hbytes]
  have hload : ∀ j, j < 13 → (load buf p 13)[j]? = some (buf (p + j)) := fun j hj => by simp [load, hj]
  constructor
  · intro he
    have hval : ∀ j, j < 26 → v.bytes[j]? = some (buf (p + j)) := by
      intro j hj
      have hjl : j < v.bytes.length := by rw [← he, hlen]; exact hj
      have hh := holds_iff.mp (holds_append.mp hv).1 j hjl
      rw [List.getElem?_eq_getElem hjl, hh]
    -- digit `i` is made of byte `i / 2`, so the first byte is fixed and the rest follow
    have hall : ∀ i, i < 26 → buf (p + i) = 51 := by
      intro i
      induction i using Nat.strong_induction_on with
      | _ i ih =>
        intro hi
        obtain ⟨h0, h1⟩ := @getElem?_pairs (fun c => upperHex (c.toNat / 16)) (fun c => upperHex (c.toNat % 16))
          (load buf p 13) (i / 2)
        rw [hload _ (by omega), Option.map_some, ← hexKey, he] at h0 h1
        rcases Nat.eq_zero_or_pos i with rfl | hpos
        · rw [hval 0 (by omega)] at h0
          exact upperHex_fixed _ (Option.some.inj h0).symm
        · have hhalf := ih (i / 2) (by omega) (by omega)
          rcases Nat.even_or_odd' i with ⟨k, rfl | rfl⟩
          · rw [hhalf, show 2 * (2 * k / 2) = 2 * k by omega, hval _ hi] at h0
            exact Option.some.inj h0
          · rw [hhalf, show 2 * ((2 * k + 1) / 2) + 1 = 2 * k + 1 by omega, hval _ hi] at h1
            exact Option.some.inj h1
    apply List.ext_getElem?
    intro i
    by_cases hi : i < 26
    · rw [hval i hi, hall i hi, List.getElem?_replicate, if_pos hi]
    · rw [List.getElem?_eq_none (by rw [← he, hlen]; omega), List.getElem?_eq_none (by simp; omega)]
  · intro hb
    have hbuf : load buf p 13 = List.replicate 13 51 := by
      apply List.ext_getElem (by simp)
      intro j hj _
      have hj : j < 13 := by simpa using hj
      have hh := holds_iff.mp (holds_append.mp hv).1 j (by simp [hb]; omega)
      simp only [hb, List.getElem_replicate] at hh
      rw [List.getElem_replicate]
      simpa [load] using hh
    rw [hexKey, hbuf, hb]
    decide

/-- A value that both rewritings leave alone. -/
def Kept (name value : CStr) : Prop :=
  (name.bytes.take 7 = wlKey1.bytes → value.bytes = List.replicate 26 51) ∧ (name = wlSsid → value.length ≤ 32)

theorem written_eq_iff {n v hex : CStr} (hhex : hex = v ↔ v.bytes = List.replicate 26 51) :
    written true n v hex = v ↔ Kept n v := by
  have hssid : wlSsid.bytes.take 7 ≠ wlKey1.bytes := by decide
  unfold written Kept
  by_cases hkey : n.bytes.take 7 = wlKey1.bytes
  · have hns : n ≠ wlSsid := fun he => hssid (he ▸ hkey)
    simp [hkey, hns, hhex]
  · by_cases hs : n = wlSsid
    · subst hs
      have htake : cstr (v.bytes.take 32) = v ↔ v.length ≤ 32 := by
        have hb : (cstr (v.bytes.take 32)).bytes = v.bytes.take 32 :=
          cstr_bytes fun h0 => v.nul_notMem (List.mem_of_mem_take h0)
        constructor
        · intro he
          have hlen := congrArg List.length (hb.symm.trans (congrArg CStr.bytes he))
          rw [List.length_take] at hlen
          unfold CStr.length
          omega
        · intro hle
          exact CStr.ext_bytes (hb.trans (List.take_of_length_le hle))
      by_cases hlong : 32 < v.length
      · simp [hkey, hlong, htake]
      · simp [hkey, hlong, Nat.le_of_not_lt hlong]
    · simp [hkey, hs]

/-! ### The round trip -/

section RoundTrip

variable {st : Store}

theorem mem_dumped (h : Inv st) {n v : CStr} : (n, v) ∈ st.dumped ↔ st.getStr n = some v := by
  unfold Store.dumped
  rw [List.mem_map]
  constructor
  · rintro ⟨t, ht, he⟩
    obtain ⟨rfl, rfl⟩ := Prod.mk.inj he
    exact h.getStr_name (mem_tuples.mp ht)
  · intro hg
    rw [getStr_eq] at hg
    obtain ⟨t, ht, rfl⟩ := Option.map_eq_some_iff.mp hg
    obtain ⟨hmem, rfl⟩ := find_some ht
    exact ⟨t, mem_tuples.mpr ⟨_, hmem⟩, rfl⟩

/-- Where the value of an annotated variable stands. -/
theorem holds_annotate {buf : Mem} : ∀ {es : List (CStr × CStr)} {p : ℕ}, Holds buf p (area es) →
    ∀ a ∈ annotate buf p es, ∃ q, Holds buf q a.1.2.withNul ∧ a.2 = cstr (hexKey buf q)
  | [], _, _, _, ha => by simp [annotate] at ha
  | e :: es, p, h, a, ha => by
    rw [area_cons] at h
    obtain ⟨hent, hrest⟩ := holds_append.mp h
    rcases List.mem_cons.mp ha with rfl | ha
    · exact ⟨p + e.1.length + 1, (holds_append.mp hent).2.2, rfl⟩
    · exact holds_annotate hrest a ha

/-- After any later changes, here the map `m`, the restore of the saved file gives every variable that contains a
default's name its saved value, and changes none of the others but `x_Setting`. -/
def Restores (st : Store) : Prop :=
  ∀ (buf stack : Mem) (m : VarMap), ∃ m', nvramRestore mapDevice m stack (nvramSave (_nvramGetall st nvramSpace buf)) =
    some m' ∧ (∀ n v, st.getStr n = some v → issyspara n = true → m'.lookup n = some v) ∧
    ∀ n, issyspara n = false → n ≠ xSetting → m'.lookup n = m.lookup n

/-- The restore of a saved file, as a fold over the saved variables. -/
theorem restore_fold (hne : st.NoEq) (hfit : (st.tuples.map st.size).sum < nvramSpace) (buf stack : Mem) :
    ∃ l : List ((CStr × CStr) × CStr), l.map Prod.fst = st.dumped ∧
      (∀ a ∈ l, a.2 = a.1.2 ↔ a.1.2.bytes = List.replicate 26 51) ∧
      ∀ m, nvramRestore mapDevice m stack (nvramSave (_nvramGetall st nvramSpace buf)) =
        some ((l.foldl mapEntry m).insert xSetting one) := by
  have hdump := nvramGetall_holds hfit buf
  have hne' : ∀ e ∈ st.dumped, (61 : UInt8) ∉ e.1.bytes := by
    intro e he
    obtain ⟨t, ht, rfl⟩ := List.mem_map.mp he
    exact hne t (mem_tuples.mp ht)
  have hlt : (area st.dumped).length < nvramSpace := (length_dumped st).trans_lt hfit
  obtain ⟨buf', hbuf', hrestore⟩ := nvramRestore_save mapDevice hne' hdump hlt stack
  refine ⟨annotate buf' 0 st.dumped, map_annotate _ _ _, fun a ha => ?_, fun m => ?_⟩
  · obtain ⟨q, hq, hhex⟩ := holds_annotate (holds_append.mp hbuf').1 a ha
    rw [hhex]
    exact hexKey_eq_iff hq
  · rw [hrestore m, foldlM_restoreEntry]
    have hk : kernelName xSetting = some xSetting := by decide
    simp [mapDevice, hk]

/-- The longest restored name with the boot loader's prefix is not set by the restore. -/
theorem noCfe_of_restores {l : List ((CStr × CStr) × CStr)}
    (hback : ∀ a ∈ l, issyspara a.1.1 = true → (l.foldl mapEntry ∅).lookup a.1.1 = some a.1.2) : NoCfe l := by
  intro a ha hsys
  by_contra hcfe
  have hex : ∃ b ∈ l.toFinset.filter (fun b => issyspara b.1.1 = true ∧ isCfeName b.1.1 = true),
      ∀ b' ∈ l.toFinset.filter (fun b => issyspara b.1.1 = true ∧ isCfeName b.1.1 = true),
        b'.1.1.length ≤ b.1.1.length :=
    Finset.exists_max_image _ _ ⟨a, by simpa [ha, hsys] using hcfe⟩
  obtain ⟨b, hb, hmax⟩ := hex
  simp only [Finset.mem_filter, List.mem_toFinset] at hb hmax
  have hnone : (l.foldl mapEntry ∅).lookup b.1.1 = (∅ : VarMap).lookup b.1.1 := by
    refine lookup_foldl_mapEntry fun b' hb' hsys' hk => ?_
    unfold kernelName at hk
    split_ifs at hk with hcfe' hskip
    · have hle := hmax b' ⟨hb', hsys', hcfe'⟩
      have hlen := congrArg CStr.length (Option.some.inj hk)
      have hpre : cfeNvramPrefix.bytes.length ≤ b'.1.1.bytes.length := by
        have heq : b'.1.1.bytes.take cfeNvramPrefix.length = cfeNvramPrefix.bytes := by simpa [isCfeName] using hcfe'
        rw [← heq]
        exact List.length_take_le' _ _
      have h7 : cfeNvramPrefix.bytes.length = 7 := by decide
      simp only [CStr.length, CStr.skip, List.length_drop] at hlen hle
      omega
    · rw [Option.some.inj hk] at hcfe'
      exact hcfe' hb.2.2
  rw [hback b hb.1 hb.2.1, Finmap.lookup_empty] at hnone
  cases hnone

/-- The names of the dump are those of the tuples. -/
theorem nodup_dumped (h : Inv st) {l : List ((CStr × CStr) × CStr)} (hl : l.map Prod.fst = st.dumped) :
    (l.map fun a => a.1.1).Nodup := by
  have he : (l.map fun a => a.1.1) = st.tuples.map (·.name) := by
    calc (l.map fun a => a.1.1) = (l.map Prod.fst).map Prod.fst := by rw [List.map_map]; rfl
      _ = st.tuples.map (·.name) := by rw [hl, Store.dumped, List.map_map]; rfl
  rw [he]
  exact h.nodup_names

theorem ne_xSetting {n : CStr} (hsys : issyspara n = true) : n ≠ xSetting := by
  rintro rfl
  rw [issyspara_xSetting] at hsys
  cases hsys

/-- What must hold of the saved variables for a restore to give them back, whatever has changed since. -/
theorem kept_of_restores (h : Inv st) (hne : st.NoEq) (hfit : (st.tuples.map st.size).sum < nvramSpace)
    (hr : Restores st) {n v : CStr} (hg : st.getStr n = some v) (hsys : issyspara n = true) :
    isCfeName n = false ∧ Kept n v := by
  obtain ⟨l, hl, hhex, hrestore⟩ := restore_fold hne hfit (fun _ => 0) (fun _ => 0)
  have hback : ∀ m : VarMap, ∀ a ∈ l, issyspara a.1.1 = true → (l.foldl mapEntry m).lookup a.1.1 = some a.1.2 := by
    intro m a ha hsys
    obtain ⟨m', hm', hval, -⟩ := hr (fun _ => 0) (fun _ => 0) m
    have hmem : (a.1.1, a.1.2) ∈ st.dumped := hl ▸ List.mem_map.mpr ⟨a, ha, rfl⟩
    have hv := hval _ _ ((mem_dumped h).mp hmem) hsys
    rw [hrestore m] at hm'
    rwa [← Option.some.inj hm', Finmap.lookup_insert_of_ne _ (ne_xSetting hsys)] at hv
  have hcfe : NoCfe l := noCfe_of_restores (hback ∅)
  obtain ⟨a, ha, hav⟩ := List.mem_map.mp (hl ▸ (mem_dumped h).mpr hg)
  obtain ⟨rfl, rfl⟩ : a.1.1 = n ∧ a.1.2 = v := ⟨congrArg Prod.fst hav, congrArg Prod.snd hav⟩
  -- the later change that brings the rewriting about
  have hw := hback (Finmap.singleton wscSet one) a ha hsys
  have hwsc : wscIsSet mapDevice (Finmap.singleton wscSet one) = true := by
    simp [wscIsSet, mapDevice]
  rw [hcfe.lookup_of_mem (nodup_dumped h hl) ha hsys, hwsc] at hw
  exact ⟨hcfe a ha hsys, (written_eq_iff (hhex a ha)).mp (Option.some.inj hw)⟩

/-- The saved settings come back after any later changes exactly if none of the restored variables has the boot
loader's prefix in its name, and none is a key or an SSID that is rewritten while `wsc_set` is `"1"`. -/
theorem restore_iff {st : Store} (h : Reachable st) (hne : st.NoEq)
    (hfit : (st.tuples.map st.size).sum < nvramSpace) :
    Restores st ↔ ∀ n v, st.getStr n = some v → issyspara n = true → isCfeName n = false ∧ Kept n v := by
  constructor
  · intro hr n v hg hsys
    exact kept_of_restores h.inv hne hfit hr hg hsys
  · intro hkept buf stack m
    obtain ⟨l, hl, hhex, hrestore⟩ := restore_fold hne hfit buf stack
    have hmem : ∀ a ∈ l, st.getStr a.1.1 = some a.1.2 := fun a ha =>
      (mem_dumped h.inv).mp (hl ▸ List.mem_map.mpr ⟨a, ha, rfl⟩)
    have hcfe : NoCfe l := fun a ha hsys => (hkept _ _ (hmem a ha) hsys).1
    refine ⟨_, hrestore m, fun n v hg hsys => ?_, fun n hsys hx => ?_⟩
    · obtain ⟨a, ha, hav⟩ := List.mem_map.mp (hl ▸ (mem_dumped h.inv).mpr hg)
      obtain ⟨rfl, rfl⟩ : a.1.1 = n ∧ a.1.2 = v := ⟨congrArg Prod.fst hav, congrArg Prod.snd hav⟩
      rw [Finmap.lookup_insert_of_ne _ (ne_xSetting hsys), hcfe.lookup_of_mem (nodup_dumped h.inv hl) ha hsys]
      congr 1
      cases wscIsSet mapDevice m with
      | true => exact (written_eq_iff (hhex a ha)).mpr (hkept _ _ hg hsys).2
      | false => simp [written]
    · rw [Finmap.lookup_insert_of_ne _ hx, hcfe.lookup_of_not_sys hsys]

end RoundTrip

/-! ### The restore over the store -/

section Refine

variable {σ τ : Type*} {dev : Device σ} {dev' : Device τ} {R : σ → τ → Prop}

/-- What one device does without failing the other does too. -/
structure Simulates (dev : Device σ) (dev' : Device τ) (R : σ → τ → Prop) : Prop where
  get : ∀ s t, R s t → dev.get s wscSet = dev'.get t wscSet
  write : ∀ s t name value s', R s t → dev.write s name value = some s' → ∃ t', dev'.write t name value = some t' ∧ R s' t'

theorem Simulates.userNvramSet (hs : Simulates dev dev' R) {s s' : σ} {t : τ} {name : CStr} {buf : Mem} {value : ℕ}
    (hr : R s t) (h : Nvram.userNvramSet dev s name buf value = some s') :
    ∃ t', Nvram.userNvramSet dev' t name buf value = some t' ∧ R s' t' := by
  have hwsc : wscIsSet dev s = wscIsSet dev' t := by rw [wscIsSet, wscIsSet, hs.get s t hr]
  unfold Nvram.userNvramSet at h ⊢
  rw [hwsc] at h
  exact hs.write s t _ _ s' hr h

theorem Simulates.restoreLoop (hs : Simulates dev dev' R) : ∀ (fuel : ℕ) (buf : Mem) (p : ℕ) {s s' : σ} {t : τ}, R s t →
    Nvram.restoreLoop dev fuel buf p s = some s' → ∃ t', Nvram.restoreLoop dev' fuel buf p t = some t' ∧ R s' t'
  | 0, _, _, _, _, _, _, h => by simp [Nvram.restoreLoop] at h
  | fuel + 1, buf, p, s, s', t, hr, h => by
    unfold Nvram.restoreLoop at h ⊢
    by_cases h0 : buf p = 0
    · rw [if_pos h0] at h ⊢
      cases h
      exact ⟨t, rfl, hr⟩
    · rw [if_neg h0] at h ⊢
      cases hv : strchr buf 61 p (nvramSpace - p) with
      | none =>
        rw [hv] at h
        obtain ⟨s₁, h1, h2⟩ := Option.bind_eq_some_iff.mp h
        obtain ⟨t₁, ht1, hr1⟩ := hs.write s t _ _ s₁ hr h1
        obtain ⟨t', ht', hr'⟩ := hs.restoreLoop fuel buf (p + 1) hr1 h2
        exact ⟨t', Option.bind_eq_some_iff.mpr ⟨t₁, ht1, ht'⟩, hr'⟩
      | some v =>
        rw [hv] at h
        dsimp only at h ⊢
        obtain ⟨s₁, h1, h2⟩ := Option.bind_eq_some_iff.mp h
        obtain ⟨t₁, ht1, hr1⟩ : ∃ t₁, (if issyspara (readStr (CMem.write buf v [0]) p (nvramSpace - p)) = true then
            Nvram.userNvramSet dev' t (readStr (CMem.write buf v [0]) p (nvramSpace - p)) (CMem.write buf v [0]) (v + 1)
            else some t) = some t₁ ∧ R s₁ t₁ := by
          split_ifs at h1 ⊢
          · exact hs.userNvramSet hr h1
          · cases h1
            exact ⟨t, rfl, hr⟩
        obtain ⟨t', ht', hr'⟩ := hs.restoreLoop fuel _ _ hr1 h2
        exact ⟨t', Option.bind_eq_some_iff.mpr ⟨t₁, ht1, ht'⟩, hr'⟩

theorem Simulates.nvramRestore (hs : Simulates dev dev' R) {s s' : σ} {t : τ} {stack : Mem} {file : Bytes} (hr : R s t)
    (h : Nvram.nvramRestore dev s stack file = some s') :
    ∃ t', Nvram.nvramRestore dev' t stack file = some t' ∧ R s' t' := by
  obtain ⟨s₁, h1, h2⟩ := Option.bind_eq_some_iff.mp h
  obtain ⟨t₁, ht1, hr1⟩ := hs.restoreLoop _ _ _ hr h1
  obtain ⟨t', ht', hr'⟩ := hs.userNvramSet hr1 h2
  exact ⟨t', Option.bind_eq_some_iff.mpr ⟨t₁, ht1, ht'⟩, hr'⟩

/-- The store holds the variables of the map. -/
def Represents (s : Store × ℕ) (m : VarMap) : Prop := Inv s.1 ∧ ∀ n, s.1.getStr n = m.lookup n

theorem storeDevice_simulates (kmalloc : ℕ → Bool) : Simulates (storeDevice kmalloc) mapDevice Represents where
  get s m hr := hr.2 wscSet
  write s m name value s' hr h := by
    cases value with
    | none =>
      cases h
      exact ⟨_, rfl, step_refines (Step.unset s.1 (some name)) hr.1 hr.2⟩
    | some v =>
      refine ⟨_, rfl, ?_⟩
      unfold storeDevice at h
      dsimp only at h
      cases hk : kernelName name with
      | none =>
        rw [hk] at h
        cases h
        exact hr
      | some n =>
        rw [hk] at h
        dsimp only at h
        split_ifs at h with hret
        cases h
        have href := step_refines (Step.set s.1 n v (kmalloc s.2)) hr.1 hr.2
        rw [hret] at href
        exact href

/-- The variables of a store, as a map. -/
theorem exists_varMap {st : Store} (h : Inv st) : ∃ m : VarMap, ∀ n, st.getStr n = m.lookup n := by
  have hkeys : (st.dumped.map fun e => (⟨e.1, e.2⟩ : Sigma fun _ : CStr => CStr)).NodupKeys := by
    have hk : (st.dumped.map fun e => (⟨e.1, e.2⟩ : Sigma fun _ : CStr => CStr)).keys = st.tuples.map (·.name) := by
      simp [List.keys, Store.dumped, Store.pair, Function.comp_def]
    rw [List.NodupKeys, hk]
    exact h.nodup_names
  refine ⟨(st.dumped.map fun e => (⟨e.1, e.2⟩ : Sigma fun _ : CStr => CStr)).toFinmap, fun n => ?_⟩
  rw [Finmap.dlookup_list_toFinmap]
  refine Option.ext fun v => ?_
  rw [← mem_dumped h]
  refine Iff.trans ?_ (List.mem_dlookup_iff hkeys).symm
  rw [List.mem_map]
  constructor
  · intro hm
    exact ⟨_, hm, rfl⟩
  · rintro ⟨e, he, heq⟩
    cases heq
    exact he

/-- On the store, from whatever later store `st₁`: a restore in which every `_nvram_set` returns 0 does what the
restore over the map does. -/
theorem restore_refines {st st₁ : Store} {kmalloc : ℕ → Bool} {buf stack : Mem} {s' : Store × ℕ} (h₁ : Inv st₁)
    (hr : Restores st)
    (hrun : nvramRestore (storeDevice kmalloc) (st₁, 0) stack (nvramSave (_nvramGetall st nvramSpace buf)) = some s') :
    Inv s'.1 ∧ (∀ n v, st.getStr n = some v → issyspara n = true → s'.1.getStr n = some v) ∧
      ∀ n, issyspara n = false → n ≠ xSetting → s'.1.getStr n = st₁.getStr n := by
  obtain ⟨m, hm⟩ := exists_varMap h₁
  obtain ⟨m', hm', hrep⟩ := (storeDevice_simulates kmalloc).nvramRestore (t := m) ⟨h₁, hm⟩ hrun
  obtain ⟨m'', hm'', hval, hother⟩ := hr buf stack m
  rw [hm'] at hm''
  obtain rfl := Option.some.inj hm''
  refine ⟨hrep.1, fun n v hg hsys => (hrep.2 n).trans (hval n v hg hsys), fun n hsys hx => ?_⟩
  rw [hrep.2, hother n hsys hx, hm]

end Refine

/-! ### A key that comes back as other digits -/

theorem issyspara_wlKey1 : issyspara wlKey1 = true := by
  have hmem : routerDefaults[87]? = some "wl_key1" := rfl
  exact List.any_eq_true.mpr ⟨"wl_key1", List.mem_of_getElem? hmem, by decide⟩

/-- A store with one key, of five letters. -/
def keyStore : Store := (_nvramSet true (Store.empty fun _ => 0) wlKey1 (.lit "abcde")).1

theorem keyStore_reachable : Reachable keyStore := (Reachable.empty fun _ => 0).set true _ _

theorem keyStore_noEq : keyStore.NoEq := NoEq.set (empty_inv _) (empty_noEq _) true _ (by decide)

theorem keyStore_fits : (keyStore.tuples.map keyStore.size).sum < nvramSpace := by decide +kernel

/-- A store whose settings come back: the address of the LAN. -/
theorem restore_iff_lan : Restores (_nvramSet true (Store.empty fun _ => 0) (.lit "lan_ipaddr") (.lit "192.168.1.1")).1 := by
  have hr : Reachable (_nvramSet true (Store.empty fun _ => 0) (.lit "lan_ipaddr") (.lit "192.168.1.1")).1 :=
    (Reachable.empty fun _ => 0).set true _ _
  refine (restore_iff hr (NoEq.set (empty_inv _) (empty_noEq _) true _ (by decide)) (by decide +kernel)).mpr ?_
  intro n v hg _
  have hn : n = .lit "lan_ipaddr" := by
    by_contra hn
    obtain ⟨-, hs | hs⟩ := _nvramSet_spec true (empty_inv fun _ => 0) (.lit "lan_ipaddr") (.lit "192.168.1.1")
    · rw [hs.2, if_neg hn] at hg
      simp [getStr_eq, Store.find, Store.empty] at hg
    · rw [hs] at hg
      simp [getStr_eq, Store.find, Store.empty] at hg
  subst hn
  exact ⟨by decide, fun hk => absurd hk (by decide), fun hk => absurd hk (by decide)⟩

/-- `wsc_set` is set to `"1"` after the settings were saved: the key comes back as the digits of its bytes and of those
behind it. -/
theorem key_not_restored : ¬Restores keyStore := by
  intro hr
  have hg : keyStore.getStr wlKey1 = some (.lit "abcde") := by decide +kernel
  have hk := kept_of_restores keyStore_reachable.inv keyStore_noEq keyStore_fits hr hg issyspara_wlKey1
  exact absurd (hk.2.1 (by decide)) (by decide)

end Nvram
end Router
