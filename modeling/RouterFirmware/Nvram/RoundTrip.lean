/-
# The image and its two readers

An image is read in two ways. `early_nvram_get` scans it for a name and takes
the first entry that has it; `nvram_rehash` sets every entry, so that the last
one would win, and writes NULs over the '=' while it does so. For an image a
commit made, the entries are the variables of the store, each name once
(`Inv.nodup_layout`), and both readers come to what the store held
(`image_readers_agree`), except that `nvram_rehash` makes up the SDRAM
parameters that are missing from what stands in the header.
-/
import RouterFirmware.Nvram.Survive

namespace Router
namespace Nvram

open CMem Bcm

/-! ### The early reader -/

/-- The entry at `p` is the one looked for exactly when its name is. -/
theorem entry_matches {m : Mem} {p : ℕ} {n : CStr} (h : Holds m p n.bytes) (name : CStr) :
    (p + n.length - p = name.length ∧ bytesAt m p (p + n.length - p) = name.bytes) ↔ n = name := by
  have hsub : p + n.length - p = n.length := by omega
  have hbytes : bytesAt m p n.length = n.bytes := by
    refine List.ext_getElem (length_bytesAt ..) fun i h1 h2 => ?_
    simp only [bytesAt, List.getElem_map, List.getElem_range]
    exact holds_iff.mp h i h2
  rw [hsub, hbytes]
  constructor
  · rintro ⟨-, hb⟩
    exact CStr.ext_bytes hb
  · rintro rfl
    exact ⟨rfl, rfl⟩

/-- The scan over a string area finds the first variable of that name. -/
theorem earlyScan_area (name : CStr) : ∀ (es : List (CStr × CStr)) (fuel : ℕ) (m : Mem) (p : ℕ),
    (∀ e ∈ es, (61 : UInt8) ∉ e.1.bytes) → Holds m p (area es ++ [0]) →
    p + (area es).length < nvramSpace → es.length < fuel →
    (earlyScan m name fuel p).map (fun q => readStr m q (nvramSpace - q)) =
      (es.find? fun e => e.1 = name).map (·.2)
  | [], fuel + 1, m, p, _, h, _, _ => by
    have h0 : m p = 0 := h.1
    simp [earlyScan, h0]
  | (n, v) :: es, fuel + 1, m, p, hne, h, hle, hf => by
    have hnv := length_entry n v
    rw [area_cons, List.append_assoc] at h
    rw [area_cons, List.length_append] at hle
    simp only at hle
    obtain ⟨hp, hchr, -, hname, -, hread, hrest⟩ :=
      entry_read (hne (n, v) List.mem_cons_self) h (by simp only; omega)
    simp only at hp hchr hname hread hrest
    rw [earlyScan, if_neg hp, hchr]
    simp only [entry_matches hname name]
    by_cases he : n = name
    · rw [if_pos he, Option.map_some, hread]
      simp [he]
    · rw [if_neg he, hread, earlyScan_area name es fuel m _
        (fun e he => hne e (List.mem_cons_of_mem _ he)) hrest (by omega) (by simpa using hf)]
      simp [he]

/-- Looking a name up among the laid-out variables, when all are laid out. -/
theorem find_pairs {st : Store} (h : Inv st) (name : CStr) :
    ((st.tuples.map st.pair).find? fun e => e.1 = name).map (·.2) = st.getStr name := by
  cases hf : (st.tuples.map st.pair).find? fun e => e.1 = name with
  | none =>
    have hno : ∀ t ∈ st.tuples, t.name ≠ name := fun t ht he =>
      List.find?_eq_none.mp hf (st.pair t) (List.mem_map.mpr ⟨t, ht, rfl⟩) (decide_eq_true he)
    cases hg : st.find name with
    | none => exact (getStr_eq_none.mpr hg).symm
    | some t =>
      obtain ⟨hmem, hname⟩ := find_some hg
      exact absurd hname (hno t (mem_tuples.mpr ⟨_, hmem⟩))
  | some e =>
    obtain ⟨t, ht, rfl⟩ := List.mem_map.mp (List.mem_of_find?_eq_some hf)
    have hdec := List.find?_some hf
    have hname : t.name = name := of_decide_eq_true hdec
    rw [← hname, h.getStr_name (mem_tuples.mp ht)]
    rfl

/-- An image in `nvram_buf` keeps `early_nvram_get` from probing the flash. -/
theorem earlyNvramGet_image (flash : Mem) (lim : ℕ) (st : Store) (header : Mem) (name : CStr) :
    earlyGetStr flash lim (commitImage st header) name =
      (earlyScan (commitImage st header) name nvramSpace headerSize).map fun q =>
        readStr (commitImage st header) q (nvramSpace - q) := by
  have h0 : commitImage st header 0 ≠ 0 := by
    have hm := holds_bytes32 (commitImage st header) 0
    rw [commitImage_magic] at hm
    rw [hm.1]
    decide
  unfold earlyGetStr earlyNvramGet
  simp only [not_true_eq_false, if_false, if_neg h0, write_of_holds (commitImage_end st header)]

/-! ### The round trip -/

/-- When all variables fit, all are laid out. -/
theorem layout_eq_tuples {st : Store}
    (hfit : headerSize + (st.tuples.map st.size).sum ≤ imageEnd) : st.layout = st.tuples :=
  layFrom_eq_self st _ _ hfit

theorem early_reads_store {st : Store} (h : Inv st) (hne : st.NoEq)
    (hfit : headerSize + (st.tuples.map st.size).sum ≤ imageEnd) (flash : Mem) (lim : ℕ)
    (header : Mem) (name : CStr) :
    earlyGetStr flash lim (commitImage st header) name = st.getStr name := by
  have hspace : imageEnd + 2 = nvramSpace ∧ 0 < headerSize := ⟨by decide, by decide⟩
  have hlen := length_area_pair st st.tuples
  have hsum := sum_values_le (st.tuples.map st.pair)
  have hholds : Holds (commitImage st header) headerSize (area (st.tuples.map st.pair) ++ [0]) := by
    have hh := commitImage_holds st header
    rw [Store.strings, layout_eq_tuples hfit, show ([0, 0] : List UInt8) = [0] ++ [0] from rfl,
      ← List.append_assoc] at hh
    exact (holds_append.mp hh).1
  have hnames : ∀ e ∈ st.tuples.map st.pair, (61 : UInt8) ∉ e.1.bytes := by
    intro e he
    obtain ⟨t, ht, rfl⟩ := List.mem_map.mp he
    exact hne t (mem_tuples.mp ht)
  calc earlyGetStr flash lim (commitImage st header) name
      = (earlyScan (commitImage st header) name nvramSpace headerSize).map fun q =>
          readStr (commitImage st header) q (nvramSpace - q) :=
        earlyNvramGet_image flash lim st header name
    _ = ((st.tuples.map st.pair).find? fun e => e.1 = name).map (·.2) :=
        earlyScan_area name _ _ _ _ hnames hholds (by omega) (by omega)
    _ = st.getStr name := find_pairs h name

theorem rehash_reads_store {st : Store} (h : Inv st) (hne : st.NoEq)
    (hfit : headerSize + (st.tuples.map st.size).sum ≤ imageEnd) {kmalloc : ℕ → Bool}
    (hk : ∀ k < st.tuples.length, kmalloc k = true) (header : Mem) (st₀ : Store) {name : CStr}
    (hname : name ∉ sdramNames ∨ (st.getStr name).isSome) :
    (nvramRehash kmalloc st₀ (commitImage st header)).1.getStr name = st.getStr name := by
  obtain ⟨hkept, hlost⟩ := rehash_getStr kmalloc h hne header st₀
  rw [layout_eq_tuples hfit] at hkept hlost
  cases hf : st.find name with
  | none =>
    have hnone : st.getStr name = none := getStr_eq_none.mpr hf
    have hsd : name ∉ sdramNames := by
      rcases hname with hn | hn
      · exact hn
      · rw [hnone] at hn
        cases hn
    rw [hnone]
    refine hlost name hsd fun t ht htn => ?_
    have hfind := h.find_eq (mem_tuples.mp ht)
    rw [htn, hf] at hfind
    cases hfind
  | some t =>
    obtain ⟨hmem, rfl⟩ := find_some hf
    have ht : t ∈ st.tuples := mem_tuples.mpr ⟨_, hmem⟩
    rw [hkept t ht (hk _ (List.idxOf_lt_length_iff.mpr ht)), h.getStr_name (mem_tuples.mp ht)]

/-- **The image of a commit and its two readers.** Of a reachable store without
'=' in its names, whose variables all fit: the image is no longer than
`NVRAM_SPACE`, its length a multiple of 4; its string area is that of the
variables in some order, ended by two NULs inside the length; the CRC byte is
that of `nvram_calc_crc`, also after another `nvram_rehash` over the buffer.
For every name `early_nvram_get` finds the value the store held; and so does
`_nvram_get` after an `nvram_rehash` that gets its tuples, unless the name is
an SDRAM parameter that the store did not hold. -/
theorem image_readers_agree {st : Store} (h : Reachable st) (hne : st.NoEq)
    (hfit : headerSize + (st.tuples.map st.size).sum ≤ imageEnd) (kcommit : ℕ → Bool)
    (header : Mem) :
    let img := (_nvramCommit kcommit st header).2.1
    (le32 img lenAt).toNat ≤ nvramSpace ∧ 4 ∣ (le32 img lenAt).toNat ∧
    (∃ es, es.Perm (st.tuples.map st.pair) ∧ Holds img headerSize (area es ++ [0, 0]) ∧
      headerSize + (area es ++ [0, 0]).length ≤ (le32 img lenAt).toNat) ∧
    (le32 img crcVerInitAt).toUInt8 = nvramCalcCrc img ∧
    ∀ (kmalloc : ℕ → Bool) (st₀ : Store),
      (le32 (nvramRehash kmalloc st₀ img).2.1 crcVerInitAt).toUInt8 =
        nvramCalcCrc (nvramRehash kmalloc st₀ img).2.1 ∧
      ∀ name, (∀ flash lim, earlyGetStr flash lim img name = st.getStr name) ∧
        ((∀ k < st.tuples.length, kmalloc k = true) →
          name ∉ sdramNames ∨ (st.getStr name).isSome →
          (nvramRehash kmalloc st₀ img).1.getStr name = st.getStr name) := by
  intro img
  have himg : img = commitImage st header := by
    show (_nvramCommit kcommit st header).2.1 = commitImage st header
    rw [_nvramCommit_mem]
  rw [himg]
  obtain ⟨hlow, hhigh, hdvd⟩ := imageLen_bounds st
  rw [commitImage_len]
  refine ⟨hhigh, hdvd, ?_, commitImage_crc st header, fun kmalloc st₀ => ⟨?_, fun name => ⟨?_, ?_⟩⟩⟩
  · refine ⟨st.layout.map st.pair, ?_, commitImage_holds st header, ?_⟩
    · rw [layout_eq_tuples hfit]
    · rw [List.length_append, ← Nat.add_assoc]
      exact hlow
  · have hmem : (nvramRehash kmalloc st₀ (commitImage st header)).2.1 = commitImage st header := by
      rw [nvramRehash_mem, write_of_holds (commitImage_end st header)]
    rw [hmem]
    exact commitImage_crc st header
  · exact fun flash lim => early_reads_store h.inv hne hfit flash lim header name
  · exact fun hk hname => rehash_reads_store h.inv hne hfit hk header st₀ hname

/-- A small store in which all fits. -/
theorem image_readers_agree_lan :
    let st := (_nvramSet true (Store.empty fun _ => 0) (.lit "lan") (.lit "1=2")).1
    earlyGetStr (fun _ => 0) 0 (_nvramCommit (fun _ => true) st fun _ => 7).2.1 (.lit "lan") =
        some (.lit "1=2") ∧
      (nvramRehash (fun _ => true) st (_nvramCommit (fun _ => true) st fun _ => 7).2.1).1.getStr
        (.lit "lan") = some (.lit "1=2") := by
  intro st
  have hr : Reachable st := (Reachable.empty _).set true _ _
  have hget : st.getStr (.lit "lan") = some (.lit "1=2") := by decide +kernel
  have hfit : headerSize + (st.tuples.map st.size).sum ≤ imageEnd := by decide +kernel
  obtain ⟨-, -, -, -, hread⟩ := image_readers_agree hr
    (NoEq.set (empty_inv _) (empty_noEq _) true _ (by decide)) hfit (fun _ => true) fun _ => 7
  obtain ⟨-, hname⟩ := hread (fun _ => true) st
  obtain ⟨hearly, hrehash⟩ := hname (.lit "lan")
  exact ⟨(hearly _ _).trans hget,
    (hrehash (fun _ _ => rfl) (Or.inr (by rw [hget]; rfl))).trans hget⟩

/-! ### Where the readers differ -/

theorem setDefault_missing {st : Store} (h : Inv st) {name value : CStr}
    (hnone : st.getStr name = none) (hroom : st.nvramOffset + value.length + 1 ≤ nvramSpace) :
    (setDefault true st name value).getStr name = some value := by
  obtain ⟨st', he, -, -, hg⟩ := _nvramSet_ok true h hroom fun (_ : st.find name = none) => rfl
  have hnone' : (_nvramGet st (some name)).isNone := by
    rw [Store.getStr, Option.map_eq_none_iff] at hnone
    rw [hnone]
    rfl
  rw [setDefault, if_pos hnone', he, hg, if_pos rfl]

/-- A missing `sdram_init` is made up from the header. -/
theorem setSdram_init {kmalloc : ℕ → Bool} {k : ℕ} (hk : kmalloc k = true) (m : Mem) {st : Store}
    (h : Inv st) (hnone : st.getStr sdramInit = none) (hroom : st.nvramOffset + 7 ≤ nvramSpace) :
    (setSdram kmalloc k m st).getStr sdramInit =
      some (sprintfHex 4 (le32 m crcVerInitAt >>> 16).toUInt16.toNat) := by
  unfold setSdram
  generalize hv : sprintfHex 4 (le32 m crcVerInitAt >>> 16).toUInt16.toNat = v₁
  generalize sprintfHex 4 (le32 m configRefreshAt &&& 0xffff).toUInt16.toNat = v₂
  generalize sprintfHex 4 (le32 m configRefreshAt >>> 16 &&& 0xffff).toUInt16.toNat = v₃
  generalize sprintfHex 8 (le32 m configNcdlAt).toNat = v₄
  have hlen : v₁.length = 6 := by rw [← hv]; rfl
  obtain ⟨i1, -⟩ := setDefault_spec (kmalloc k) h sdramInit v₁
  obtain ⟨i2, g2⟩ := setDefault_spec (kmalloc (k + 1)) i1 sdramConfig v₂
  obtain ⟨i3, g3⟩ := setDefault_spec (kmalloc (k + 2)) i2 sdramRefresh v₃
  obtain ⟨-, g4⟩ := setDefault_spec (kmalloc (k + 3)) i3 sdramNcdl v₄
  rw [g4 _ (Or.inl (by decide)), g3 _ (Or.inl (by decide)), g2 _ (Or.inl (by decide)), hk]
  exact setDefault_missing h hnone (by omega)

/-- **Two images whose readers differ.** The empty store holds no `sdram_init`,
and `early_nvram_get` finds none in its image; after `nvram_rehash` there is
one. And of a store that holds `lan`, `nvram_rehash` loses it when its tuple
cannot be allocated. -/
theorem image_readers_differ :
    (∀ flash lim header, let st := Store.empty fun _ => 0
      Reachable st ∧ st.NoEq ∧ headerSize + (st.tuples.map st.size).sum ≤ imageEnd ∧
      earlyGetStr flash lim (_nvramCommit (fun _ => true) st header).2.1 sdramInit = none ∧
      ((nvramRehash (fun _ => true) st (_nvramCommit (fun _ => true) st header).2.1).1.getStr
        sdramInit).isSome) ∧
    ∀ header, let st := (_nvramSet true (Store.empty fun _ => 0) (.lit "lan") (.lit "1")).1
      Reachable st ∧ st.NoEq ∧ headerSize + (st.tuples.map st.size).sum ≤ imageEnd ∧
      st.getStr (.lit "lan") = some (.lit "1") ∧
      (nvramRehash (fun _ => false) st (_nvramCommit (fun _ => true) st header).2.1).1.getStr
        (.lit "lan") = none := by
  constructor
  · intro flash lim header st
    have hne : st.NoEq := empty_noEq _
    have hfit : headerSize + (st.tuples.map st.size).sum ≤ imageEnd := by decide +kernel
    have hnone : st.getStr sdramInit = none := by decide +kernel
    have hlay : st.layout = [] := by
      rw [layout_eq_tuples hfit]
      decide +kernel
    have hroom : (nvramFree st).nvramOffset + 7 ≤ nvramSpace := by decide
    refine ⟨.empty _, hne, hfit, ?_, ?_⟩
    · rw [_nvramCommit_mem, early_reads_store (empty_inv _) hne hfit]
      exact hnone
    · rw [_nvramCommit_mem, nvramRehash_commitImage _ hne, hlay, List.map_nil, setAll,
        setSdram_init rfl _ (nvramFree_inv st) (nvramFree_getStr st _) hroom]
      rfl
  · intro header st
    have hr : Reachable st := (Reachable.empty _).set true _ _
    have hne : st.NoEq := NoEq.set (empty_inv _) (empty_noEq _) true _ (by decide)
    refine ⟨hr, hne, by decide +kernel, by decide +kernel, ?_⟩
    rw [_nvramCommit_mem]
    exact (rehash_getStr (fun _ => false) hr.inv hne header st).2 _ (by decide) fun _ _ _ => rfl

end Nvram
end Router
