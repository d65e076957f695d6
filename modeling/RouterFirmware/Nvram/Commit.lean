/-
# What a commit writes and reads back

`_nvram_commit` lays the tuples out chain by chain; a chain is cut at its
first tuple that does not fit any more (`Store.layout`). The string area of
the image is then the area of the layout (`commitImage_holds`), and parsing
it back sets exactly those variables, the `k`-th if `kmalloc k` gives its
tuple (`rehash_getStr`). Which tuples the layout has is arithmetic on the
sizes: `Fits`, and all of them when together they take at most
`imageEnd - headerSize` bytes (`all_fit_iff`).
-/
import Mathlib.Data.List.TakeWhile
import RouterFirmware.Nvram.Image
import RouterFirmware.Nvram.Refine

namespace Router
namespace Nvram

open CMem Bcm

/-! ### The layout -/

/-- The bytes a tuple takes in the image. -/
def Store.size (st : Store) (t : Tuple) : ℕ := t.name.length + 1 + (st.str t.value).length + 1

/-- The tuples of a chain laid out from `p`. -/
def Store.layChain (st : Store) : ℕ → List Tuple → List Tuple
  | _, [] => []
  | p, t :: ts => if p + st.size t > imageEnd then [] else t :: st.layChain (p + st.size t) ts

/-- Where laying out a chain from `p` ends. -/
def Store.fill (st : Store) : ℕ → List Tuple → ℕ
  | p, [] => p
  | p, t :: ts => if p + st.size t > imageEnd then p else st.fill (p + st.size t) ts

/-- The tuples of the chains `is` laid out from `p`. -/
def Store.layFrom (st : Store) : ℕ → List (Fin hashSize) → List Tuple
  | _, [] => []
  | p, i :: is => st.layChain p (st.nvramHash i) ++ st.layFrom (st.fill p (st.nvramHash i)) is

/-- The tuples a commit writes, in their order. -/
def Store.layout (st : Store) : List Tuple := st.layFrom headerSize (List.finRange hashSize)

/-- A tuple with the string its value is. -/
def Store.pair (st : Store) (t : Tuple) : CStr × CStr := (t.name, st.str t.value)

/-- The string area of the variables `es`. -/
def area (es : List (CStr × CStr)) : List UInt8 := es.flatMap fun e => entry e.1 e.2

@[simp] theorem area_nil : area [] = [] := rfl

theorem area_cons (e : CStr × CStr) (es : List (CStr × CStr)) :
    area (e :: es) = entry e.1 e.2 ++ area es := rfl

theorem area_append (es es' : List (CStr × CStr)) : area (es ++ es') = area es ++ area es' := by
  simp [area]

theorem length_entry (n v : CStr) : (entry n v).length = n.length + 1 + v.length + 1 := by
  simp only [entry, List.length_append, List.length_cons, CStr.length_withNul, CStr.length]
  omega

theorem length_area_pair (st : Store) (ts : List Tuple) :
    (area (ts.map st.pair)).length = (ts.map st.size).sum := by
  induction ts with
  | nil => rfl
  | cons t ts ih =>
    rw [List.map_cons, area_cons, List.length_append, ih, length_entry]
    rfl

theorem fill_eq (st : Store) : ∀ (p : ℕ) (ts : List Tuple),
    st.fill p ts = p + ((st.layChain p ts).map st.size).sum
  | p, [] => by simp [Store.fill, Store.layChain]
  | p, t :: ts => by
    unfold Store.fill Store.layChain
    split_ifs with h
    · simp
    · rw [fill_eq st _ ts, List.map_cons, List.sum_cons]
      omega

theorem fill_le (st : Store) : ∀ (p : ℕ) (ts : List Tuple), p ≤ imageEnd → st.fill p ts ≤ imageEnd
  | p, [], h => h
  | p, t :: ts, h => by
    unfold Store.fill
    split_ifs with hf
    · exact h
    · exact fill_le st _ ts (by omega)

/-- The writer's inner loop writes the laid-out prefix of the chain. -/
theorem writeChain_eq (st : Store) : ∀ (ts : List Tuple) (m : Mem) (p : ℕ),
    writeChain st ts (m, p) = (write m p (area ((st.layChain p ts).map st.pair)), st.fill p ts)
  | [], m, p => by
    have hw : write m p [] = m := write_of_holds trivial
    simp [writeChain, Store.layChain, Store.fill, hw]
  | t :: ts, m, p => by
    have hs : p + t.name.length + 1 + (st.str t.value).length + 1 = p + st.size t := by
      unfold Store.size; omega
    have hs' : p + (t.name.length + 1 + (st.str t.value).length) + 1 = p + st.size t := by
      unfold Store.size; omega
    unfold writeChain Store.layChain Store.fill
    simp only [hs, hs']
    split_ifs with h
    · have hw : write m p [] = m := write_of_holds trivial
      simp [hw]
    · rw [writeChain_eq st ts, List.map_cons, area_cons]
      have hl : p + st.size t = p + (entry t.name (st.str t.value)).length := by
        rw [length_entry]; rfl
      rw [hl, write_write]
      rfl

theorem writeTuples_go (st : Store) : ∀ (is : List (Fin hashSize)) (m : Mem) (p : ℕ),
    is.foldl (fun s i => writeChain st (st.nvramHash i) s) (m, p) =
      (write m p (area ((st.layFrom p is).map st.pair)),
        p + ((st.layFrom p is).map st.size).sum)
  | [], m, p => by
    have hw : write m p [] = m := write_of_holds trivial
    simp [Store.layFrom, hw]
  | i :: is, m, p => by
    rw [List.foldl_cons, writeChain_eq, writeTuples_go st is]
    have hl : st.fill p (st.nvramHash i) =
        p + (area ((st.layChain p (st.nvramHash i)).map st.pair)).length := by
      rw [length_area_pair, fill_eq]
    simp only [Store.layFrom, List.map_append, area_append, List.sum_append]
    rw [hl, write_write, length_area_pair]
    simp only [Prod.mk.injEq, true_and]
    omega

theorem writeTuples_eq (st : Store) (m : Mem) : writeTuples st (m, headerSize) =
    (write m headerSize (area (st.layout.map st.pair)),
      headerSize + (st.layout.map st.size).sum) :=
  writeTuples_go st _ m headerSize

theorem layFrom_le (st : Store) : ∀ (is : List (Fin hashSize)) (p : ℕ), p ≤ imageEnd →
    p + ((st.layFrom p is).map st.size).sum ≤ imageEnd
  | [], p, h => by simpa [Store.layFrom] using h
  | i :: is, p, h => by
    have h1 := layFrom_le st is _ (fill_le st p (st.nvramHash i) h)
    have h2 := fill_eq st p (st.nvramHash i)
    simp only [Store.layFrom, List.map_append, List.sum_append]
    omega

/-- The layout ends inside the image, room for the double NUL left. -/
theorem layout_le (st : Store) : headerSize + (st.layout.map st.size).sum ≤ imageEnd :=
  layFrom_le st _ _ (by decide)

/-! ### Which tuples are laid out -/

/-- Where the layout of chain `i` starts: after the chains before it, each
cut at its first tuple that does not fit. -/
def Store.chainStart (st : Store) (i : Fin hashSize) : ℕ :=
  ((List.finRange hashSize).take i).foldl (fun p j => st.fill p (st.nvramHash j)) headerSize

/-- The tuple fits: its own bytes, after those of the chains before its own
and of the tuples before it in its chain, end by `imageEnd`. -/
def Store.Fits (st : Store) (t : Tuple) : Prop :=
  ∃ pre post, st.nvramHash (bucket t.name) = pre ++ t :: post ∧
    st.chainStart (bucket t.name) + (pre.map st.size).sum + st.size t ≤ imageEnd

theorem layChain_prefix_chain (st : Store) : ∀ (p : ℕ) (ts : List Tuple), st.layChain p ts <+: ts
  | _, [] => by simp [Store.layChain]
  | p, t :: ts => by
    unfold Store.layChain
    split_ifs
    · exact List.nil_prefix
    · exact List.cons_prefix_cons.mpr ⟨rfl, layChain_prefix_chain st _ ts⟩

theorem mem_layChain (st : Store) (t : Tuple) : ∀ (ts : List Tuple) (p : ℕ),
    t ∈ st.layChain p ts ↔
      ∃ pre post, ts = pre ++ t :: post ∧ p + (pre.map st.size).sum + st.size t ≤ imageEnd
  | [], p => by simp [Store.layChain]
  | u :: ts, p => by
    unfold Store.layChain
    constructor
    · intro h
      split_ifs at h with hu
      · simp at h
      · rcases List.mem_cons.mp h with rfl | h
        · exact ⟨[], ts, rfl, by simpa using hu⟩
        · obtain ⟨pre, post, rfl, hle⟩ := (mem_layChain st t ts _).mp h
          refine ⟨u :: pre, post, rfl, ?_⟩
          rw [List.map_cons, List.sum_cons]
          omega
    · rintro ⟨pre, post, he, hle⟩
      cases pre with
      | nil =>
        obtain ⟨rfl, rfl⟩ := List.cons.inj he
        rw [if_neg (by simpa using hle)]
        exact List.mem_cons_self
      | cons u' pre =>
        obtain ⟨rfl, rfl⟩ := List.cons.inj he
        rw [List.map_cons, List.sum_cons] at hle
        rw [if_neg (by omega)]
        exact List.mem_cons_of_mem _ ((mem_layChain st t _ _).mpr ⟨pre, post, rfl, by omega⟩)

theorem mem_layFrom (st : Store) (t : Tuple) : ∀ (is : List (Fin hashSize)) (p : ℕ),
    t ∈ st.layFrom p is ↔ ∃ pre i post, is = pre ++ i :: post ∧
      t ∈ st.layChain (pre.foldl (fun p j => st.fill p (st.nvramHash j)) p) (st.nvramHash i)
  | [], p => by simp [Store.layFrom]
  | j :: is, p => by
    rw [Store.layFrom, List.mem_append, mem_layFrom st t is]
    constructor
    · rintro (h | ⟨pre, i, post, rfl, h⟩)
      · exact ⟨[], j, is, rfl, h⟩
      · exact ⟨j :: pre, i, post, rfl, h⟩
    · rintro ⟨pre, i, post, he, h⟩
      cases pre with
      | nil =>
        obtain ⟨rfl, rfl⟩ := List.cons.inj he
        exact Or.inl h
      | cons j' pre =>
        obtain ⟨rfl, rfl⟩ := List.cons.inj he
        exact Or.inr ⟨pre, i, post, rfl, h⟩

theorem finRange_split {n : ℕ} {pre post : List (Fin n)} {i : Fin n}
    (h : List.finRange n = pre ++ i :: post) : pre = (List.finRange n).take i := by
  have hlen : pre.length < (List.finRange n).length := by rw [h]; simp
  have hi : (List.finRange n)[pre.length] = i := by simp [h]
  have hv : pre.length = i := by rw [← hi]; simp
  rw [← hv, h]
  simp

/-- A tuple of the table is written exactly when it fits. -/
theorem mem_layout_iff {st : Store} (h : Inv st) (t : Tuple) : t ∈ st.layout ↔ st.Fits t := by
  unfold Store.layout Store.Fits Store.chainStart
  rw [mem_layFrom]
  constructor
  · rintro ⟨pre, i, post, he, ht⟩
    have hi : bucket t.name = i :=
      h.hashed i t ((layChain_prefix_chain st _ _).subset ht)
    rw [finRange_split he, mem_layChain] at ht
    rw [hi]
    exact ht
  · intro ht
    set i := bucket t.name with hi
    have hmem : i ∈ List.finRange hashSize := List.mem_finRange i
    obtain ⟨pre, post, he⟩ := List.append_of_mem hmem
    refine ⟨pre, i, post, he, ?_⟩
    rw [finRange_split he, mem_layChain]
    exact ht

theorem layFrom_sublist (st : Store) : ∀ (is : List (Fin hashSize)) (p : ℕ),
    (st.layFrom p is).Sublist (is.flatMap st.nvramHash)
  | [], _ => by simp [Store.layFrom]
  | i :: is, p => by
    rw [Store.layFrom, List.flatMap_cons]
    exact (layChain_prefix_chain st _ _).sublist.append (layFrom_sublist st is _)

theorem layout_sublist (st : Store) : st.layout.Sublist st.tuples :=
  layFrom_sublist st _ _

theorem Inv.nodup_layout {st : Store} (h : Inv st) : (st.layout.map (·.name)).Nodup :=
  h.nodup_names.sublist ((layout_sublist st).map _)

theorem layChain_eq_self (st : Store) : ∀ (ts : List Tuple) (p : ℕ),
    p + (ts.map st.size).sum ≤ imageEnd → st.layChain p ts = ts
  | [], _, _ => rfl
  | t :: ts, p, h => by
    rw [List.map_cons, List.sum_cons] at h
    unfold Store.layChain
    rw [if_neg (by omega), layChain_eq_self st ts _ (by omega)]

theorem layFrom_eq_self (st : Store) : ∀ (is : List (Fin hashSize)) (p : ℕ),
    p + ((is.flatMap st.nvramHash).map st.size).sum ≤ imageEnd →
    st.layFrom p is = is.flatMap st.nvramHash
  | [], _, _ => rfl
  | i :: is, p, h => by
    rw [List.flatMap_cons, List.map_append, List.sum_append] at h
    have h1 := layChain_eq_self st (st.nvramHash i) p (by omega)
    have h2 := fill_eq st p (st.nvramHash i)
    rw [h1] at h2
    rw [Store.layFrom, h1, layFrom_eq_self st is _ (by omega), List.flatMap_cons]

/-- Every tuple fits exactly when all together do. -/
theorem all_fit_iff {st : Store} (h : Inv st) : (∀ t, st.Live t → st.Fits t) ↔
    headerSize + (st.tuples.map st.size).sum ≤ imageEnd := by
  constructor
  · intro hall
    have hsub := layout_sublist st
    have hnd : st.tuples.Nodup := h.nodup_names.of_map _
    have hperm : st.layout.Perm st.tuples := by
      refine (hsub.subperm).perm_of_length_le ?_
      refine List.Subperm.length_le (hnd.subperm fun t ht => ?_)
      exact (mem_layout_iff h t).mpr (hall t (mem_tuples.mp ht))
    rw [← (hperm.map st.size).sum_eq]
    exact layout_le st
  · intro hle t ht
    rw [← mem_layout_iff h, Store.layout, layFrom_eq_self st _ _ hle]
    exact mem_tuples.mpr ht

/-! ### The bytes of the image -/

/-- The string area a commit writes. -/
def Store.strings (st : Store) : List UInt8 := area (st.layout.map st.pair)

theorem length_strings (st : Store) : st.strings.length = (st.layout.map st.size).sum :=
  length_area_pair st st.layout

theorem strings_le (st : Store) : headerSize + st.strings.length ≤ imageEnd := by
  rw [length_strings]
  exact layout_le st

/-- The image before `len` and the CRC are filled in. -/
def bodyImage (st : Store) (header : Mem) : Mem :=
  write (write (regenHeader st header) headerSize (List.replicate (nvramSpace - headerSize) 0))
    headerSize st.strings

/-- The length a commit writes into the header. -/
def Store.imageLen (st : Store) : ℕ := roundup (headerSize + st.strings.length + 2) 4

/-- The image with `len`, before the CRC. -/
def lenImage (st : Store) (header : Mem) : Mem :=
  put32 (bodyImage st header) lenAt (UInt32.ofNat st.imageLen)

theorem commitImage_eq (st : Store) (header : Mem) : commitImage st header =
    put32 (lenImage st header) crcVerInitAt
      (le32 (lenImage st header) crcVerInitAt ||| (nvramCalcCrc (lenImage st header)).toUInt32) := by
  unfold commitImage lenImage bodyImage Store.imageLen
  simp only [writeTuples_eq, ← length_strings]
  rfl

theorem imageLen_bounds (st : Store) : headerSize + st.strings.length + 2 ≤ st.imageLen ∧
    st.imageLen ≤ nvramSpace ∧ 4 ∣ st.imageLen := by
  have h := strings_le st
  unfold Store.imageLen roundup
  simp only [imageEnd, nvramSpace, headerSize] at h ⊢
  refine ⟨by omega, by omega, Dvd.intro_left _ rfl⟩

/-- From the header on the image is the string area and then zeros. -/
theorem commitImage_body (st : Store) (header : Mem) {i : ℕ} (hi : headerSize ≤ i)
    (hi' : i < nvramSpace) :
    commitImage st header i = st.strings.getD (i - headerSize) 0 := by
  have h1 : commitImage st header i = bodyImage st header i := by
    rw [commitImage_eq, put32, write_of_ge (by simp [crcVerInitAt, headerSize] at hi ⊢; omega),
      lenImage, put32, write_of_ge (by simp [lenAt, headerSize] at hi ⊢; omega)]
  rw [h1, bodyImage]
  by_cases hs : i < headerSize + st.strings.length
  · simp only [write]
    rw [if_pos ⟨hi, hs⟩]
  · rw [write_of_ge (by omega), List.getD_eq_default _ _ (by omega)]
    simp only [write, List.length_replicate]
    rw [if_pos ⟨hi, by omega⟩]
    exact List.getD_replicate _ (by omega)

/-- The string area stands behind the header, followed by a double NUL. -/
theorem commitImage_holds (st : Store) (header : Mem) :
    Holds (commitImage st header) headerSize (st.strings ++ [0, 0]) := by
  have hle := strings_le st
  rw [holds_iff]
  intro i hi
  simp only [List.length_append, List.length_cons, List.length_nil] at hi
  rw [commitImage_body st header (by omega)
    (by simp only [imageEnd, nvramSpace, headerSize] at hle ⊢; omega), Nat.add_sub_cancel_left]
  rw [← List.getD_eq_getElem (st.strings ++ [0, 0]) 0]
  rcases Nat.lt_or_ge i st.strings.length with h | h
  · rw [List.getD_append _ _ _ _ h]
  · rw [List.getD_append_right _ _ _ _ h, List.getD_eq_default _ _ h]
    have : i - st.strings.length = 0 ∨ i - st.strings.length = 1 := by omega
    rcases this with h | h <;> rw [h] <;> rfl

/-- The last two bytes of the buffer are zero already. -/
theorem commitImage_end (st : Store) (header : Mem) :
    Holds (commitImage st header) imageEnd [0, 0] := by
  have hle := strings_le st
  have hz : ∀ i, imageEnd ≤ i → i < nvramSpace → commitImage st header i = 0 := by
    intro i h1 h2
    rw [commitImage_body st header (by omega) h2, List.getD_eq_default _ _ (by omega)]
  exact ⟨hz _ (by decide) (by decide), hz _ (by decide) (by decide), trivial⟩

theorem commitImage_len (st : Store) (header : Mem) :
    (le32 (commitImage st header) lenAt).toNat = st.imageLen := by
  have hle := (imageLen_bounds st).2.1
  rw [commitImage_eq, le32_put32_of_disjoint (Or.inl (by decide)), lenImage, le32_put32,
    UInt32.toNat_ofNat']
  exact Nat.mod_eq_of_lt (lt_of_le_of_lt hle (by decide))

theorem commitImage_magic (st : Store) (header : Mem) :
    le32 (commitImage st header) 0 = nvramMagic := by
  rw [commitImage_eq, le32_put32_of_disjoint (Or.inl (by decide)), lenImage,
    le32_put32_of_disjoint (Or.inl (by decide)), bodyImage,
    le32_write_of_disjoint (Or.inl (by decide)), le32_write_of_disjoint (Or.inl (by decide))]
  unfold regenHeader
  split <;>
  · simp only
    rw [le32_put32_of_disjoint (Or.inl (by decide)), le32_put32_of_disjoint (Or.inl (by decide)),
      le32_put32_of_disjoint (Or.inl (by decide)), le32_put32]

/-! ### The CRC -/

theorem toUInt8_high16 (x : UInt32) : (high16 x).toUInt8 = 0 := by
  apply UInt8.toNat_inj.mp
  unfold high16
  rw [UInt32.toNat_toUInt8, UInt32.toNat_shiftLeft]
  simp [Nat.shiftLeft_eq]
  omega

/-- The mask hides a byte that was or-ed in. -/
theorem or_byte_mask (v : UInt32) (c : UInt8) :
    (v ||| c.toUInt32) &&& 0xffffff00 = v &&& 0xffffff00 := by
  apply UInt32.toBitVec_inj.mp
  ext i hi
  simp only [UInt32.toBitVec_and, UInt32.toBitVec_or, UInt8.toBitVec_toUInt32,
    UInt32.toBitVec_ofNat, BitVec.getElem_and, BitVec.getElem_or, BitVec.getElem_setWidth]
  rcases Nat.lt_or_ge i 8 with h | h
  · have hlow : ∀ j : Fin 8, (4294967040#32).getLsbD j = false := by decide
    have hi0 : (4294967040#32)[i] = false := by
      rw [← BitVec.getLsbD_eq_getElem hi]
      exact hlow ⟨i, h⟩
    simp [hi0]
  · simp [BitVec.getLsbD_of_ge _ _ h]

theorem or_byte_low {v : UInt32} (c : UInt8) (h : v.toUInt8 = 0) :
    (v ||| c.toUInt32).toUInt8 = c := by
  rw [UInt32.toUInt8_or, h]
  simp

/-- Before the CRC is or-ed in, its byte is zero. -/
theorem lenImage_low (st : Store) (header : Mem) :
    (le32 (lenImage st header) crcVerInitAt).toUInt8 = 0 := by
  rw [lenImage, le32_put32_of_disjoint (Or.inr (by decide)), bodyImage,
    le32_write_of_disjoint (Or.inl (by decide)), le32_write_of_disjoint (Or.inl (by decide))]
  unfold regenHeader
  split <;>
  · simp only
    rw [le32_put32_of_disjoint (Or.inl (by decide)), le32_put32_of_disjoint (Or.inl (by decide)),
      le32_put32, UInt32.toUInt8_or, toUInt8_high16]
    decide

/-- The checksum looks at the words of the header behind `len`, the CRC byte
masked, and at the data up to `len`. -/
theorem nvramCalcCrc_congr {m m' : Mem} (hlen : le32 m' lenAt = le32 m lenAt)
    (hcrc : le32 m' crcVerInitAt &&& 0xffffff00 = le32 m crcVerInitAt &&& 0xffffff00)
    (hconf : le32 m' configRefreshAt = le32 m configRefreshAt)
    (hncdl : le32 m' configNcdlAt = le32 m configNcdlAt)
    (hdata : ∀ i, headerSize ≤ i → i < headerSize + (le32 m lenAt - 20).toNat → m' i = m i) :
    nvramCalcCrc m' = nvramCalcCrc m := by
  unfold nvramCalcCrc
  have hb : bytesAt m' headerSize (le32 m lenAt - 20).toNat =
      bytesAt m headerSize (le32 m lenAt - 20).toNat := by
    refine List.map_congr_left fun i hi => hdata _ (by omega) ?_
    have := List.mem_range.mp hi
    omega
  rw [hlen, hcrc, hconf, hncdl, hb]

/-- The image carries its own checksum. -/
theorem commitImage_crc (st : Store) (header : Mem) :
    (le32 (commitImage st header) crcVerInitAt).toUInt8 = nvramCalcCrc (commitImage st header) := by
  have hcalc : nvramCalcCrc (commitImage st header) = nvramCalcCrc (lenImage st header) := by
    rw [commitImage_eq]
    refine nvramCalcCrc_congr ?_ ?_ ?_ ?_ fun i hi _ => ?_
    · exact le32_put32_of_disjoint (Or.inl (by decide))
    · rw [le32_put32, or_byte_mask]
    · exact le32_put32_of_disjoint (Or.inr (by decide))
    · exact le32_put32_of_disjoint (Or.inr (by decide))
    · exact write_of_ge (by simp [crcVerInitAt, headerSize] at hi ⊢; omega)
  rw [hcalc, commitImage_eq, le32_put32, or_byte_low _ (lenImage_low st header)]

/-! ### Parsing an image back -/

theorem rehashLoop_mem (kmalloc : ℕ → Bool) : ∀ (fuel k : ℕ) (m : Mem) (p : ℕ) (st : Store),
    (rehashLoop kmalloc fuel k m p st).1 = m
  | 0, _, _, _, _ => rfl
  | fuel + 1, k, m, p, st => by
    unfold rehashLoop
    split_ifs with h0
    · rfl
    · cases hq : strchr m 61 p (nvramSpace - p) with
      | none => rfl
      | some eq =>
        -- the '=' that was overwritten is put back
        simp only
        rw [write_restore (strchr_some hq).1]
        exact rehashLoop_mem kmalloc fuel _ m _ _

/-- The variables `es` set in order, the `k`-th with `kmalloc k`. -/
def setAll (kmalloc : ℕ → Bool) : ℕ → Store → List (CStr × CStr) → Store
  | _, st, [] => st
  | k, st, (n, v) :: es => setAll kmalloc (k + 1) (_nvramSet (kmalloc k) st n v).1 es

/-- What a reader finds of the entry at `p`: a byte that is not NUL, the first
'=' behind the name, the value behind the '=', and the rest behind its NUL. -/
theorem entry_read {m : Mem} {p : ℕ} {n v : CStr} {rest : List UInt8}
    (hne : (61 : UInt8) ∉ n.bytes) (h : Holds m p (entry n v ++ rest))
    (hle : p + (entry n v).length ≤ nvramSpace) :
    m p ≠ 0 ∧ strchr m 61 p (nvramSpace - p) = some (p + n.length) ∧ m (p + n.length) = 61 ∧
      Holds m p n.bytes ∧ Holds m (p + n.length + 1) v.withNul ∧
      readStr m (p + n.length + 1) (nvramSpace - (p + n.length + 1)) = v ∧
      Holds m (p + n.length + 1 + v.length + 1) rest := by
  have hnv := length_entry n v
  obtain ⟨hent, hrest⟩ := holds_append.mp h
  obtain ⟨hname, heq, hval⟩ := holds_append.mp hent
  have heq0 : m (p + n.length) = 61 := heq
  have hv : Holds m (p + n.length + 1) v.withNul := hval
  refine ⟨?_, ?_, heq0, hname, hv, readStr_of_holds hv (by omega), ?_⟩
  · cases hb : n.bytes with
    | nil =>
      have hp : p + n.length = p := by simp [CStr.length, hb]
      rw [hp] at heq0
      rw [heq0]
      decide
    | cons b bs =>
      rw [hb] at hname
      rw [hname.1]
      intro hb0
      exact n.nul_notMem (by rw [hb, hb0]; exact List.mem_cons_self)
  · refine strchr_of_holds n.nul_notMem hne (holds_append.mpr ⟨hname, heq0, trivial⟩) ?_
    show n.length < nvramSpace - p
    omega
  · have hnext : p + (entry n v).length = p + n.length + 1 + v.length + 1 := by omega
    rw [← hnext]
    exact hrest

/-- The loop over a string area sets its variables. -/
theorem rehashLoop_area (kmalloc : ℕ → Bool) : ∀ (es : List (CStr × CStr)) (fuel k : ℕ) (m : Mem)
    (p : ℕ) (st : Store), (∀ e ∈ es, (61 : UInt8) ∉ e.1.bytes) → Holds m p (area es ++ [0]) →
    p + (area es).length < nvramSpace → es.length < fuel →
    rehashLoop kmalloc fuel k m p st = (m, setAll kmalloc k st es, k + es.length)
  | [], fuel + 1, k, m, p, st, _, h, _, _ => by
    have h0 : m p = 0 := h.1
    simp [rehashLoop, h0, setAll]
  | (n, v) :: es, fuel + 1, k, m, p, st, hne, h, hle, hf => by
    have hnv := length_entry n v
    rw [area_cons, List.append_assoc] at h
    rw [area_cons, List.length_append] at hle
    simp only at hle
    obtain ⟨hp, hchr, heq, hname, hv, hread, hrest⟩ :=
      entry_read (hne (n, v) List.mem_cons_self) h (by simp only; omega)
    simp only at hp hchr heq hname hv hread hrest
    -- with a NUL in place of the '=' the name and the value are the entry's
    have hn' : readStr (write m (p + n.length) [0]) p (nvramSpace - p) = n := by
      refine readStr_of_holds (holds_append.mpr ⟨holds_write_of_le hname (le_refl _), ?_⟩) (by omega)
      exact holds_write_same _ _ _
    have hv' : readStr (write m (p + n.length) [0]) (p + n.length + 1)
        (nvramSpace - (p + n.length + 1)) = v := by
      refine readStr_of_holds (holds_write_of_ge hv ?_) (by omega)
      simp
    have hstep : rehashLoop kmalloc (fuel + 1) k m p st =
        rehashLoop kmalloc fuel (k + 1) m (p + n.length + 1 + v.length + 1)
          (_nvramSet (kmalloc k) st n v).1 := by
      rw [rehashLoop, if_neg hp, hchr]
      simp only
      rw [write_restore heq, hn', hv', hread]
    rw [hstep, rehashLoop_area kmalloc es fuel (k + 1) m _ _
      (fun e he => hne e (List.mem_cons_of_mem _ he)) hrest (by omega) (by simpa using hf)]
    simp only [setAll, List.length_cons]
    rw [Nat.add_assoc k, Nat.add_comm 1]

/-! ### The loops end

An entry takes at least two bytes and never passes the double NUL at the end
of the buffer, so `nvramSpace` iterations are enough for both readers. -/

/-- Where the readers go from the entry at `p`: behind it, and not past the end. -/
theorem next_entry {m : Mem} (hend : Holds m imageEnd [0, 0]) {p eq : ℕ} (hp : p < nvramSpace)
    (h0 : m p ≠ 0) (hq : strchr m 61 p (nvramSpace - p) = some eq) :
    p < eq + 1 + (readStr m (eq + 1) (nvramSpace - (eq + 1))).length + 1 ∧
      eq + 1 + (readStr m (eq + 1) (nvramSpace - (eq + 1))).length + 1 < nvramSpace := by
  obtain ⟨z0, z1, -⟩ := hend
  have hlast : imageEnd + 1 = nvramSpace - 1 := by decide
  have hpos : 2 < nvramSpace := by decide
  have hp' : p ≤ imageEnd := by
    by_contra hgt
    have : p = imageEnd + 1 := by omega
    exact h0 (this ▸ z1)
  have h1 := strchr_lt_of_nul (by decide) z0 hp' hq
  have h2 := (strchr_some hq).2.1
  have h3 : (readStr m (eq + 1) (nvramSpace - (eq + 1))).length ≤ imageEnd - (eq + 1) :=
    length_scan_le z0 (by omega)
  omega

theorem rehashLoop_fuel (kmalloc : ℕ → Bool) {m : Mem} (hend : Holds m imageEnd [0, 0]) :
    ∀ (fuel k p : ℕ) (st : Store), p < nvramSpace → nvramSpace - p ≤ fuel →
    rehashLoop kmalloc (fuel + 1) k m p st = rehashLoop kmalloc fuel k m p st
  | 0, _, p, _, hp, hf => by omega
  | fuel + 1, k, p, st, hp, hf => by
    rw [rehashLoop, rehashLoop]
    split_ifs with h0
    · rfl
    · cases hq : strchr m 61 p (nvramSpace - p) with
      | none => rfl
      | some eq =>
        obtain ⟨h1, h2⟩ := next_entry hend hp h0 hq
        simp only
        rw [write_restore (strchr_some hq).1]
        exact rehashLoop_fuel kmalloc hend fuel _ _ _ h2 (by omega)

theorem earlyScan_fuel {m : Mem} (hend : Holds m imageEnd [0, 0]) (name : CStr) :
    ∀ (fuel p : ℕ), p < nvramSpace → nvramSpace - p ≤ fuel →
    earlyScan m name (fuel + 1) p = earlyScan m name fuel p
  | 0, p, hp, hf => by omega
  | fuel + 1, p, hp, hf => by
    rw [earlyScan, earlyScan]
    split_ifs with h0
    · rfl
    · cases hq : strchr m 61 p (nvramSpace - p) with
      | none => rfl
      | some eq =>
        obtain ⟨h1, h2⟩ := next_entry hend hp h0 hq
        simp only
        rw [earlyScan_fuel hend name fuel _ h2 (by omega)]

/-! ### What parsing back leaves in the store -/

theorem nvramFree_inv (st : Store) : Inv (nvramFree st) where
  hashed i t h := by simp [nvramFree] at h
  nodup i := by simp [nvramFree]
  held i t h := by simp [nvramFree] at h
  disjoint t u h := by obtain ⟨i, h⟩ := h; simp [nvramFree] at h
  offset_le := by simp [nvramFree]

theorem nvramFree_getStr (st : Store) (n : CStr) : (nvramFree st).getStr n = none := by
  simp [getStr_eq, Store.find, nvramFree]

theorem getStr_eq_none {st : Store} {n : CStr} : st.getStr n = none ↔ st.find n = none := by
  rw [getStr_eq, Option.map_eq_none_iff]

/-- Setting distinct new variables that all have room: each gets its value
if its tuple could be had, and nothing else changes. -/
theorem setAll_spec (kmalloc : ℕ → Bool) : ∀ (es : List (CStr × CStr)) (k : ℕ) (st : Store),
    Inv st → (es.map (·.1)).Nodup → (∀ e ∈ es, st.getStr e.1 = none) →
    st.nvramOffset + (es.map fun e => e.2.length + 1).sum ≤ nvramSpace →
    Inv (setAll kmalloc k st es) ∧
      (∀ i (h : i < es.length), (setAll kmalloc k st es).getStr es[i].1 =
        if kmalloc (k + i) then some es[i].2 else none) ∧
      ∀ n, n ∉ es.map (·.1) → (setAll kmalloc k st es).getStr n = st.getStr n
  | [], k, st, hi, _, _, _ => ⟨hi, by simp, fun _ _ => rfl⟩
  | (n, v) :: es, k, st, hi, hnd, hnone, hroom => by
    simp only [List.map_cons, List.nodup_cons, List.sum_cons] at hnd hroom
    -- what the set of the first variable leaves
    obtain ⟨st', he, hi', hoff, hown, hother⟩ : ∃ st', (_nvramSet (kmalloc k) st n v).1 = st' ∧
        Inv st' ∧ st'.nvramOffset ≤ st.nvramOffset + v.length + 1 ∧
        (st'.getStr n = if kmalloc k then some v else none) ∧
        ∀ x, x ≠ n → st'.getStr x = st.getStr x := by
      have hfind : st.find n = none := getStr_eq_none.mp (hnone (n, v) List.mem_cons_self)
      cases hk : kmalloc k with
      | false =>
        rw [_nvramSet_fail (Or.inr ⟨hfind, rfl⟩)]
        exact ⟨st, rfl, hi, by omega, getStr_eq_none.mpr hfind, fun _ _ => rfl⟩
      | true =>
        obtain ⟨st', he, hi', hoff, hg⟩ := _nvramSet_ok true hi
          (by omega : st.nvramOffset + v.length + 1 ≤ nvramSpace) (fun _ => rfl)
        rw [he]
        refine ⟨st', rfl, hi', hoff, ?_, fun x hx => ?_⟩
        · rw [hg, if_pos rfl]; rfl
        · rw [hg, if_neg hx]
    have hne : ∀ e ∈ es, e.1 ≠ n := fun e h1 h2 => hnd.1 (h2 ▸ List.mem_map.mpr ⟨e, h1, rfl⟩)
    obtain ⟨hI, hgot, hrest⟩ := setAll_spec kmalloc es (k + 1) st' hi' hnd.2
      (fun e h => by rw [hother _ (hne e h)]; exact hnone e (List.mem_cons_of_mem _ h)) (by omega)
    simp only [setAll, he]
    refine ⟨hI, fun i h => ?_, fun x hx => ?_⟩
    · cases i with
      | zero => exact (hrest n hnd.1).trans hown
      | succ i =>
        have := hgot i (by simpa using h)
        rw [Nat.add_assoc, Nat.add_comm 1] at this
        exact this
    · simp only [List.map_cons, List.mem_cons, not_or] at hx
      rw [hrest x hx.2, hother x hx.1]

theorem setDefault_spec (kmalloc : Bool) {st : Store} (h : Inv st) (name value : CStr) :
    Inv (setDefault kmalloc st name value) ∧ ∀ n, n ≠ name ∨ (st.getStr n).isSome →
      (setDefault kmalloc st name value).getStr n = st.getStr n := by
  unfold setDefault
  split_ifs with hg
  · obtain ⟨hi, hs⟩ := _nvramSet_spec kmalloc h name value
    refine ⟨hi, fun n hn => ?_⟩
    have hne : n ≠ name := by
      rcases hn with hn | hn
      · exact hn
      · rintro rfl
        rw [Store.getStr, Option.isSome_map] at hn
        rw [Option.isNone_iff_eq_none] at hg
        simp [hg] at hn
    rcases hs with ⟨-, hs⟩ | hs
    · rw [hs, if_neg hne]
    · rw [hs]
  · exact ⟨h, fun _ _ => rfl⟩

theorem rehashLoop_inv (kmalloc : ℕ → Bool) : ∀ (fuel k : ℕ) (m : Mem) (p : ℕ) (st : Store),
    Inv st → Inv (rehashLoop kmalloc fuel k m p st).2.1
  | 0, _, _, _, _, h => h
  | fuel + 1, k, m, p, st, h => by
    unfold rehashLoop
    split_ifs with h0
    · exact h
    · cases hq : strchr m 61 p (nvramSpace - p) with
      | none => exact h
      | some eq => exact rehashLoop_inv kmalloc fuel _ _ _ _ (_nvramSet_spec _ h _ _).1

/-- The special parameters are set only where they are missing. -/
theorem setSdram_spec (kmalloc : ℕ → Bool) (k : ℕ) (m : Mem) {st : Store} (h : Inv st) :
    Inv (setSdram kmalloc k m st) ∧ ∀ n, n ∉ sdramNames ∨ (st.getStr n).isSome →
      (setSdram kmalloc k m st).getStr n = st.getStr n := by
  unfold setSdram
  generalize sprintfHex 4 (le32 m crcVerInitAt >>> 16).toUInt16.toNat = v₁
  generalize sprintfHex 4 (le32 m configRefreshAt &&& 0xffff).toUInt16.toNat = v₂
  generalize sprintfHex 4 (le32 m configRefreshAt >>> 16 &&& 0xffff).toUInt16.toNat = v₃
  generalize sprintfHex 8 (le32 m configNcdlAt).toNat = v₄
  obtain ⟨i1, g1⟩ := setDefault_spec (kmalloc k) h sdramInit v₁
  obtain ⟨i2, g2⟩ := setDefault_spec (kmalloc (k + 1)) i1 sdramConfig v₂
  obtain ⟨i3, g3⟩ := setDefault_spec (kmalloc (k + 2)) i2 sdramRefresh v₃
  obtain ⟨i4, g4⟩ := setDefault_spec (kmalloc (k + 3)) i3 sdramNcdl v₄
  refine ⟨i4, fun n hn => ?_⟩
  have hn' : ∀ x ∈ sdramNames, n ≠ x ∨ (st.getStr n).isSome := fun x hx =>
    hn.imp (fun h he => h (he ▸ hx)) id
  have e1 := g1 n (hn' _ (by simp [sdramNames]))
  have e2 := g2 n (by rw [e1]; exact hn' _ (by simp [sdramNames]))
  have e3 := g3 n (by rw [e2, e1]; exact hn' _ (by simp [sdramNames]))
  have e4 := g4 n (by rw [e3, e2, e1]; exact hn' _ (by simp [sdramNames]))
  rw [e4, e3, e2, e1]

theorem nvramRehash_inv (kmalloc : ℕ → Bool) (st : Store) (header : Mem) :
    Inv (nvramRehash kmalloc st header).1 := by
  unfold nvramRehash
  have hi := rehashLoop_inv kmalloc nvramSpace 0 (write header imageEnd [0, 0]) headerSize _
    (nvramFree_inv st)
  exact (setSdram_spec kmalloc _ _ hi).1

theorem nvramRehash_mem (kmalloc : ℕ → Bool) (st : Store) (header : Mem) :
    (nvramRehash kmalloc st header).2 = (write header imageEnd [0, 0], 0) := by
  unfold nvramRehash
  simp only [rehashLoop_mem]

/-- The buffer a commit leaves is the image, and it returns 0. -/
theorem _nvramCommit_mem (kmalloc : ℕ → Bool) (st : Store) (header : Mem) :
    (_nvramCommit kmalloc st header).2 = (commitImage st header, 0) := by
  rw [_nvramCommit, nvramRehash_mem, write_of_holds (commitImage_end st header)]

/-- No name of the store has an '='. -/
def Store.NoEq (st : Store) : Prop := ∀ t, st.Live t → (61 : UInt8) ∉ t.name.bytes

theorem sum_values_le (es : List (CStr × CStr)) :
    (es.map fun e => e.2.length + 1).sum + es.length ≤ (area es).length := by
  induction es with
  | nil => simp
  | cons e es ih =>
    simp only [List.map_cons, List.sum_cons, List.length_cons, area_cons, List.length_append,
      length_entry]
    omega

/-- An entry as a parser reads it: the name ends at the first '='. -/
def splitEntry (e : CStr × CStr) : CStr × CStr :=
  if (61 : UInt8) ∈ e.1.bytes then
    (⟨e.1.bytes.takeWhile (· ≠ 61), fun h => e.1.nul_notMem ((List.takeWhile_sublist _).subset h)⟩,
      ⟨(e.1.bytes.dropWhile (· ≠ 61)).tail ++ 61 :: e.2.bytes, by
        simp only [List.mem_append, List.mem_cons, not_or]
        exact ⟨fun h => e.1.nul_notMem ((List.dropWhile_sublist _).subset (List.mem_of_mem_tail h)),
          by decide, e.2.nul_notMem⟩⟩)
  else e

theorem notMem_splitEntry (e : CStr × CStr) : (61 : UInt8) ∉ (splitEntry e).1.bytes := by
  unfold splitEntry
  split_ifs with h
  · intro hm
    simpa using List.mem_takeWhile_imp hm
  · exact h

theorem entry_splitEntry (e : CStr × CStr) :
    entry (splitEntry e).1 (splitEntry e).2 = entry e.1 e.2 := by
  unfold splitEntry
  split_ifs with h
  · have hd : e.1.bytes.dropWhile (· ≠ 61) = 61 :: (e.1.bytes.dropWhile (· ≠ 61)).tail := by
      have hne : e.1.bytes.dropWhile (· ≠ 61) ≠ [] := by
        rw [Ne, List.dropWhile_eq_nil_iff]
        exact fun hall => by simpa using hall 61 h
      have hhead := List.head_dropWhile_not (fun b : UInt8 => decide (b ≠ 61)) hne
      conv_lhs => rw [← List.cons_head_tail hne]
      congr 1
      simpa using hhead
    have hn := List.takeWhile_append_dropWhile (p := fun b : UInt8 => decide (b ≠ 61)) (l := e.1.bytes)
    rw [hd] at hn
    simp only [entry, CStr.withNul]
    conv_rhs => rw [← hn]
    simp
  · rfl

/-- The variables of a commit, as they are read back. -/
def Store.entries (st : Store) : List (CStr × CStr) := st.layout.map fun t => splitEntry (st.pair t)

theorem area_entries (st : Store) : area st.entries = st.strings := by
  simp only [Store.entries, Store.strings, area, List.flatMap_map, entry_splitEntry]

/-- The buffer of a commit parsed back, into whatever store: its entries set in
order, and then the SDRAM parameters that are missing. -/
theorem nvramRehash_entries (kmalloc : ℕ → Bool) (st : Store) (header : Mem) (st₀ : Store) :
    (nvramRehash kmalloc st₀ (commitImage st header)).1 =
      setSdram kmalloc st.layout.length (commitImage st header)
        (setAll kmalloc 0 (nvramFree st₀) st.entries) := by
  have hlen : headerSize + (area st.entries).length ≤ imageEnd := by
    rw [area_entries]
    exact strings_le st
  have hsum := sum_values_le st.entries
  have hspace : headerSize + 2 ≤ nvramSpace ∧ imageEnd = nvramSpace - 2 := ⟨by decide, rfl⟩
  have hnames : ∀ e ∈ st.entries, (61 : UInt8) ∉ e.1.bytes := by
    intro e he
    obtain ⟨t, -, rfl⟩ := List.mem_map.mp he
    exact notMem_splitEntry _
  have hholds : Holds (commitImage st header) headerSize (area st.entries ++ [0]) := by
    have hh := commitImage_holds st header
    rw [← area_entries, show ([0, 0] : List UInt8) = [0] ++ [0] from rfl, ← List.append_assoc] at hh
    exact (holds_append.mp hh).1
  have hcount : st.entries.length = st.layout.length := List.length_map _
  have hloop := rehashLoop_area kmalloc st.entries nvramSpace 0
    (commitImage st header) headerSize (nvramFree st₀) hnames hholds (by omega) (by omega)
  unfold nvramRehash
  simp only [write_of_holds (commitImage_end st header), hloop, hcount, Nat.zero_add]

/-- Without an '=' in a name, the entries are the laid-out variables. -/
theorem nvramRehash_commitImage (kmalloc : ℕ → Bool) {st : Store} (hne : st.NoEq) (header : Mem)
    (st₀ : Store) : (nvramRehash kmalloc st₀ (commitImage st header)).1 =
      setSdram kmalloc st.layout.length (commitImage st header)
        (setAll kmalloc 0 (nvramFree st₀) (st.layout.map st.pair)) := by
  have hpairs : st.entries = st.layout.map st.pair := by
    refine List.map_congr_left fun t ht => ?_
    exact if_neg (hne t (mem_tuples.mp ((layout_sublist st).subset ht)))
  rw [nvramRehash_entries, hpairs]

/-- **An image parsed back.** A laid-out variable has its value again if its
tuple could be had; of the others only an SDRAM parameter can have one. -/
theorem rehash_getStr (kmalloc : ℕ → Bool) {st : Store} (h : Inv st) (hne : st.NoEq)
    (header : Mem) (st₀ : Store) :
    (∀ t ∈ st.layout, kmalloc (st.layout.idxOf t) = true →
      (nvramRehash kmalloc st₀ (commitImage st header)).1.getStr t.name =
        some (st.str t.value)) ∧
    ∀ n, n ∉ sdramNames → (∀ t ∈ st.layout, t.name = n → kmalloc (st.layout.idxOf t) = false) →
      (nvramRehash kmalloc st₀ (commitImage st header)).1.getStr n = none := by
  set es := st.layout.map st.pair with hes
  have hnames : es.map (·.1) = st.layout.map (·.name) := by
    rw [hes, List.map_map]; rfl
  have hlen : headerSize + (area es).length ≤ imageEnd := strings_le st
  have hsum := sum_values_le es
  have hspace : imageEnd ≤ nvramSpace := by decide
  obtain ⟨hI, hgot, hrest⟩ := setAll_spec kmalloc es 0 (nvramFree st₀) (nvramFree_inv st₀)
    (hnames ▸ h.nodup_layout) (fun e _ => nvramFree_getStr st₀ _)
    (by simp only [nvramFree]; omega)
  rw [nvramRehash_commitImage kmalloc hne header st₀]
  obtain ⟨-, hsdram⟩ := setSdram_spec kmalloc st.layout.length (commitImage st header) hI
  have hat : ∀ t ∈ st.layout, (setAll kmalloc 0 (nvramFree st₀) es).getStr t.name =
      if kmalloc (st.layout.idxOf t) then some (st.str t.value) else none := by
    intro t ht
    have hlt := List.idxOf_lt_length_iff.mpr ht
    have hg := hgot (st.layout.idxOf t) (by rw [hes, List.length_map]; exact hlt)
    simp only [hes, List.getElem_map, List.getElem_idxOf hlt, Store.pair, Nat.zero_add] at hg
    exact hg
  refine ⟨fun t ht hk => ?_, fun n hn hk => ?_⟩
  · have ht' := hat t ht
    rw [if_pos hk] at ht'
    rw [hsdram _ (Or.inr (by rw [ht']; rfl)), ht']
  · rw [hsdram n (Or.inl hn)]
    by_cases hmem : n ∈ es.map (·.1)
    · rw [hnames] at hmem
      obtain ⟨t, ht, rfl⟩ := List.mem_map.mp hmem
      rw [hat t ht, hk t ht rfl]
      rfl
    · rw [hrest n hmem, nvramFree_getStr]

end Nvram
end Router
