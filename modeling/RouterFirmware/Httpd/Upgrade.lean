/-
# A new firmware

`router/httpd/web_ex.c`: `do_upgrade_post` looks for the file in the body of a request, pipes it to `/tmp/linux.trx` and
then checks what has been stored: its header, the version block in front of `imagelen` and the profile block behind it,
against the product ids and the running image of the device. The product id is compared over the length of
`productid_odm`, whichever id the device goes by; `upgrade_iff` says for which uploads that is enough.

Before the checks the file is the upload as far as it has come, with 255s for bytes that did not (`receive_stored`).

Arrays that are not initialised are an input (`Stack`), and so is `/dev/mtd/1`, with where `fseek` gets in it. The stream
is ready for a number of turns, then `waitfor` fails. The file starts empty, and what is written to it gets there. An
`imagelen - 64` that overflows is behind the end of the file, where nothing is read either.
-/
import RouterFirmware.Httpd.Headers

namespace Router
namespace Httpd
namespace Upgrade

open CMem CText Headers

/-! ### C library -/

/-- A sum as a `long`. -/
def long (z : ℤ) : ℤ := (z + 2 ^ 31) % 2 ^ 32 - 2 ^ 31

/-- `*(unsigned long *) p`. -/
def ulong (p : Bytes) : ℕ := (p.take 4).foldr (fun c n => c.toNat + 2 ^ 8 * n) 0

/-- An array after `fread` has read `got` into it. -/
def fread (got array : Bytes) : Bytes := got ++ array.drop got.length

/-- `!strncmp(s, t, n)`, with what stands in the array from `t` on. -/
def eqUpTo (s : CStr) (t : Bytes) (n : ℕ) : Bool := s.bytes.take n = (cstr t).bytes.take n

def EINVAL : ℕ := 22

/-! ### The file in the body -/

/-- The next line, in `buf`: its text, and what is left of `len` and the stream. -/
def getLine (len : ℤ) (stream : Bytes) : Option (Bytes × ℤ × Bytes) :=
  (fgets false (min (len + 1) 1024) stream).map fun r =>
    (r.1.takeWhile (· ≠ 0), len - (r.1.takeWhile (· ≠ 0)).length, r.2)

/-- Lines are read to the first that is `wanted`, in `n` turns at most. -/
def readTo (wanted : Bytes → Bool) : ℕ → ℤ → Bytes → Option (ℤ × Bytes)
  | 0, _, _ => none
  | n + 1, len, stream =>
    if len ≤ 0 then some (len, stream)
    else
      match getLine len stream with
      | none => none
      | some (buf, len, stream) => if wanted buf then some (len, stream) else readTo wanted n len stream

/-- "Look for our part". -/
def isOurPart (buf : Bytes) : Bool :=
  imatchPrefix buf "Content-Disposition:" && (strstr (bytes "name=\"file\"") buf).isSome

/-- The end of its headers. -/
def isBlank (buf : Bytes) : Bool := buf = bytes "\n" || buf = bytes "\r\n"

/-- What is left of `len` and the stream behind the headers of the file. -/
def filePart (len : ℤ) (stream : Bytes) : Option (ℤ × Bytes) :=
  (readTo isOurPart (stream.length + 1) len stream).bind fun r => readTo isBlank (r.2.length + 1) r.1 r.2

/-! ### "Pipe the rest to the FIFO" -/

/-- The variables of the loops. -/
structure Store where
  cnt : ℕ
  cmpHeader : Bool
  imagelen : ℤ
  filelen : ℤ
  len : ℤ
  stream : Bytes
  fifo : Bytes

/-- The first block has the header of an image, and the length in it. -/
def compareHeader (buf : Bytes) (s : Store) : Option Store :=
  if s.cnt = 0 ∧ 8 < buf.length then
    if eqUpTo (.lit "HDR0") buf 4 then
      let imagelen := long (ulong (buf.drop 4))
      some { s with cmpHeader := true, imagelen := imagelen, filelen := long (imagelen + 20), cnt := 1 }
    else none
  else some s

/-- `buf` is written to the file. -/
def Store.put (s : Store) (buf : Bytes) : Store :=
  { s with
    filelen := long (s.filelen - buf.length), len := s.len - buf.length, stream := s.stream.drop buf.length,
    fifo := s.fifo ++ buf }

/-- The block that is read next. -/
def Store.block (s : Store) : Bytes := s.stream.take (min s.filelen 1024).toNat

/-- The loop over the blocks; the stream is ready for `n` turns. -/
def pipe : ℕ → Store → Option Store
  | 0, s => some s
  | n + 1, s =>
    if 0 < s.len ∧ 0 < s.filelen then (compareHeader s.block s).bind fun t => pipe n (t.put s.block) else some s

/-- The loop over the bytes, in `n` turns at most. `fgetc` returns -1 at the end of the stream. -/
def pipeBytes : ℕ → Store → Store
  | 0, s => s
  | n + 1, s =>
    if 0 < s.len ∧ 0 < s.filelen then
      pipeBytes n
        { s with
          filelen := s.filelen - 1, len := s.len - 1, stream := s.stream.drop 1,
          fifo := s.fifo ++ [s.stream.headD 255] }
    else s

/-- Up to the checks. `opens` says whether the file can be opened. -/
def receive (opens : Bool) (ready : ℕ) (len : ℤ) (stream : Bytes) : Option Store :=
  match filePart len stream with
  | none => none
  | some (len, stream) =>
    if opens then
      match pipe ready ⟨0, false, 0, len, len, stream, []⟩ with
      | none => none
      | some s => if s.cmpHeader then some (pipeBytes s.len.toNat s) else none
    else none

/-! ### The checks -/

/-- A flash partition. -/
structure Mtd where
  content : Bytes
  fseek : ℤ → Option ℕ

/-- The ids of the device and its running image. -/
structure Device where
  productid_own : CStr
  productid_odm : CStr
  mtd1 : Option Mtd

/-- What is not initialised, and what stands behind `version`. -/
structure Stack where
  behind : Bytes
  dataPtr : Vector UInt8 4
  verPtr : Vector UInt8 64
  profile : Vector UInt8 20

/-- `version` and `profile`, as read from the file. -/
def readBlocks (st : Stack) (imagelen : ℤ) (fifo : Bytes) : Bytes × Bytes :=
  let rest := if imagelen - 64 < 0 then [] else fifo.drop (imagelen - 64).toNat
  (fread (rest.take 64) (List.replicate 64 0), fread ((rest.drop 64).take 20) st.profile.toList)

variable (D : Device) (st : Stack)

def checkProduct (version : Bytes) : Bool :=
  eqUpTo D.productid_own (version.drop 4 ++ st.behind) D.productid_odm.length

/-- "check hardware version". -/
def checkHardware (version : Bytes) : Bool :=
  match D.mtd1 with
  | none => true
  | some fp =>
    match fp.fseek 4 with
    | none => false
    | some p =>
      let dataPtr := fread ((fp.content.drop p).take 4) st.dataPtr.toList
      match fp.fseek (long (ulong dataPtr - 64)) with
      | none => false
      | some q =>
        let got := (fp.content.drop q).take 64
        got ≠ [] && version[16]? = (fread got st.verPtr.toList)[16]?

def hasProfile (profile : Bytes) : Bool := profile.any (· ≠ 0)

def checkProfile (profile : Bytes) : Bool :=
  if hasProfile profile then
    D.productid_odm.length ≠ 0 && eqUpTo D.productid_odm (profile.take 12) D.productid_odm.length
  else D.productid_odm.length = 0

def accepts (imagelen : ℤ) (fifo : Bytes) : Bool :=
  let b := readBlocks st imagelen fifo
  checkProduct D st b.1 && checkHardware D st b.1 && checkProfile D b.2

/-- The file when it is checked, and when it is closed. -/
structure Upload where
  checked : Bytes
  fifo : Bytes

/-- `.ok` for `ret == 0`. -/
def doUpgradePost (opens : Bool) (ready : ℕ) (len : ℤ) (stream : Bytes) : Except ℕ Upload :=
  match receive opens ready len stream with
  | none => .error EINVAL
  | some s =>
    if accepts D st s.imagelen s.fifo then
      let profile := (readBlocks st s.imagelen s.fifo).2
      let filelen :=
        if hasProfile profile then long (s.filelen + ulong (profile.drop 12) + ulong (profile.drop 16)) else s.filelen
      .ok ⟨s.fifo, (pipeBytes s.len.toNat { s with filelen := filelen }).fifo⟩
    else .error EINVAL

/-! ### What is to hold of the file -/

/-- The length in the header of a file. -/
def imageLen (img : Bytes) : ℤ := long (ulong (img.drop 4))

/-- From the version block on. -/
def trailer (img : Bytes) : Bytes := if 64 ≤ imageLen img then img.drop (imageLen img - 64).toNat else []

def versionBlock (img : Bytes) : Bytes := (trailer img).take 64

def profileBlock (img : Bytes) : Bytes := ((trailer img).drop 64).take 20

/-- The hardware version of the running image, if it can be read. -/
def Device.hardware (D : Device) : Option UInt8 := do
  let fp ← D.mtd1
  let p ← fp.fseek 4
  let dataPtr := (fp.content.drop p).take 4
  if dataPtr.length < 4 then none
  else
    let q ← fp.fseek (long (ulong dataPtr - 64))
    ((fp.content.drop q).take 64)[16]?

/-- The file is a firmware for the device. -/
structure Authentic (img : Bytes) : Prop where
  header : bytes "HDR0" <+: img
  product : D.productid_own.bytes <+: (versionBlock img).drop 4
  hardware : ∀ v, D.hardware = some v → (versionBlock img)[16]? = some v
  own : D.productid_odm.bytes = [] → ∀ c ∈ profileBlock img, c = 0
  odm : D.productid_odm.bytes ≠ [] → D.productid_odm.bytes <+: (profileBlock img).take 12

/-- The characters of `version + 4` that are compared. -/
def Device.compared (D : Device) : ℕ := min D.productid_odm.length 60

/-- What the comparisons do not see: the characters of `productid_own` behind the length of `productid_odm`, and whether
the file goes on to the hardware version, if there is one to compare with, and to the end of the id in the profile
block. -/
structure Complete (img : Bytes) : Prop where
  product : D.productid_own.bytes.drop D.compared <+: (versionBlock img).drop (4 + D.compared)
  hardware : D.hardware ≠ none → 16 < (versionBlock img).length
  odm : D.productid_odm.length ≤ (profileBlock img).length

/-! ### Receiving -/

section

variable {wanted : Bytes → Bool} {len : ℤ} {stream : Bytes}

/-- A line takes a byte of the stream. -/
theorem getLine_lt {buf : Bytes} {rest : Bytes} {z : ℤ} (hlen : 0 < len)
    (h : getLine len stream = some (buf, z, rest)) : rest.length < stream.length := by
  obtain ⟨⟨got, rest'⟩, hgot, heq⟩ := Option.map_eq_some_iff.mp h
  cases heq
  unfold fgets at hgot
  rw [if_neg (by omega), if_neg (by omega)] at hgot
  split_ifs at hgot with hnil
  cases hgot
  obtain ⟨c, l, rfl⟩ := List.exists_cons_of_ne_nil hnil
  have hfirst : firstLine (c :: l) ≠ [] := by
    unfold firstLine
    by_cases hc : c = 10 <;> simp [hc]
  have hpos : 0 < ((firstLine (c :: l)).take (min (len + 1) 1024 - 1).toNat).length := by
    rw [List.length_take]
    have := List.length_pos_of_ne_nil hfirst
    omega
  rw [List.length_drop, List.length_cons]
  omega

/-- The loop over the lines ends before the stream does. -/
theorem readTo_stable : ∀ {n k : ℕ} {len : ℤ} {stream : Bytes}, stream.length < n → stream.length < k →
    readTo wanted n len stream = readTo wanted k len stream
  | n + 1, k + 1, len, stream, hn, hk => by
    unfold readTo
    split_ifs with hlen
    · rfl
    · cases hline : getLine len stream with
      | none => rfl
      | some r =>
        obtain ⟨buf, z, rest⟩ := r
        have hlt := getLine_lt (by omega) hline
        dsimp only
        rw [readTo_stable (show rest.length < n by omega) (show rest.length < k by omega)]

end

/-- What holds between the blocks of the part `part`. -/
structure Inv (part : Bytes) (s : Store) : Prop where
  stored : s.fifo ++ s.stream = part
  header : s.cmpHeader = true → bytes "HDR0" <+: s.fifo ∧ 8 < s.fifo.length ∧ s.imagelen = imageLen s.fifo
  fresh : s.cnt = 0 → s.fifo = [] ∨ s.stream = [] ∨ s.filelen ≤ 0

theorem eqUpTo_header {buf : Bytes} (h : eqUpTo (.lit "HDR0") buf 4 = true) : bytes "HDR0" <+: buf := by
  have htake : (bytes "HDR0").take 4 = (cstr buf).bytes.take 4 := of_decide_eq_true h
  have hall : (bytes "HDR0").take 4 = bytes "HDR0" := rfl
  rw [hall] at htake
  rw [htake]
  exact (List.take_prefix 4 _).trans (List.takeWhile_prefix _)

theorem imageLen_append {l : Bytes} (h : 8 < l.length) (l' : Bytes) : imageLen (l ++ l') = imageLen l := by
  unfold imageLen ulong
  rw [List.drop_append_of_le_length (by omega), List.take_append_of_le_length (by rw [List.length_drop]; omega)]

theorem Inv.header_append {part : Bytes} {s : Store} (h : Inv part s) (hc : s.cmpHeader = true) (l : Bytes) :
    bytes "HDR0" <+: s.fifo ++ l ∧ 8 < (s.fifo ++ l).length ∧ s.imagelen = imageLen (s.fifo ++ l) := by
  obtain ⟨h1, h2, h3⟩ := h.header hc
  refine ⟨h1.trans (List.prefix_append _ _), ?_, ?_⟩
  · rw [List.length_append]
    omega
  · rw [imageLen_append h2, h3]

theorem compareHeader_cases {buf : Bytes} {s t : Store} (h : compareHeader buf s = some t) :
    (s.cnt = 0 ∧ 8 < buf.length ∧ bytes "HDR0" <+: buf ∧
      t = { s with cmpHeader := true, imagelen := imageLen buf, filelen := long (imageLen buf + 20), cnt := 1 }) ∨
    ((s.cnt = 0 → buf.length ≤ 8) ∧ t = s) := by
  unfold compareHeader at h
  split_ifs at h with hfirst hheader
  · cases h
    exact .inl ⟨hfirst.1, hfirst.2, eqUpTo_header hheader, rfl⟩
  · cases h
    refine .inr ⟨fun hcnt => ?_, rfl⟩
    by_contra hlong
    exact hfirst ⟨hcnt, by omega⟩

theorem block_append (s : Store) : s.block ++ s.stream.drop s.block.length = s.stream :=
  List.prefix_iff_eq_append.mp (List.take_prefix _ _)

/-- A short block is the last one. -/
theorem last_of_short {s : Store} (hpos : 0 < s.filelen) (h : s.block.length ≤ 8) :
    s.stream.drop s.block.length = [] ∨ long (s.filelen - s.block.length) ≤ 0 := by
  have hlen : s.block.length = min (min s.filelen 1024).toNat s.stream.length := List.length_take
  rcases Nat.le_total s.stream.length (min s.filelen 1024).toNat with hle | hle
  · left
    rw [List.drop_eq_nil_iff]
    omega
  · right
    have hall : s.filelen - s.block.length = 0 := by omega
    rw [hall]
    decide

/-- One block. -/
theorem Inv.put {part : Bytes} {s t : Store} (h : Inv part s) (hpos : 0 < s.filelen)
    (hcmp : compareHeader s.block s = some t) : Inv part (t.put s.block) := by
  rcases compareHeader_cases hcmp with ⟨hcnt, hlong, hheader, rfl⟩ | ⟨hshort, rfl⟩
  · have hempty : s.fifo = [] := by
      rcases h.fresh hcnt with hnil | hnil | hend
      · exact hnil
      · rw [Store.block, hnil, List.take_nil] at hlong
        cases hlong
      · omega
    refine ⟨?_, fun _ => ?_, fun hcnt => absurd hcnt one_ne_zero⟩
    · show s.fifo ++ s.block ++ s.stream.drop s.block.length = part
      rw [List.append_assoc, block_append, h.stored]
    · show bytes "HDR0" <+: s.fifo ++ s.block ∧ 8 < (s.fifo ++ s.block).length ∧ imageLen s.block = _
      rw [hempty]
      exact ⟨hheader, hlong, rfl⟩
  · refine ⟨?_, fun hc => h.header_append hc _, fun hcnt => .inr (last_of_short hpos (hshort hcnt))⟩
    show t.fifo ++ t.block ++ t.stream.drop t.block.length = part
    rw [List.append_assoc, block_append, h.stored]

theorem Inv.pipe {part : Bytes} : ∀ {n : ℕ} {s t : Store}, Inv part s → pipe n s = some t → Inv part t
  | 0, s, t, h, hpipe => by
    cases hpipe
    exact h
  | n + 1, s, t, h, hpipe => by
    unfold Upgrade.pipe at hpipe
    split_ifs at hpipe with hgo
    · obtain ⟨u, hcmp, hrest⟩ := Option.bind_eq_some_iff.mp hpipe
      exact (h.put hgo.2 hcmp).pipe hrest
    · cases hpipe
      exact h

/-- The rest of the part is stored byte by byte, and 255s when it has run out. -/
theorem pipeBytes_spec : ∀ (n : ℕ) (s : Store), (pipeBytes n s).imagelen = s.imagelen ∧
    ∃ k j, (pipeBytes n s).fifo = s.fifo ++ (s.stream.take k ++ List.replicate j 255) ∧ (0 < j → s.stream.length ≤ k)
  | 0, s => ⟨rfl, 0, 0, by simp [pipeBytes], by simp⟩
  | n + 1, s => by
    unfold pipeBytes
    split_ifs with hgo
    · obtain ⟨himage, k, j, hfifo, hj⟩ := pipeBytes_spec n
        { s with
          filelen := s.filelen - 1, len := s.len - 1, stream := s.stream.drop 1,
          fifo := s.fifo ++ [s.stream.headD 255] }
      rw [himage, hfifo]
      cases hs : s.stream with
      | nil => exact ⟨rfl, 0, j + 1, by simp [List.replicate_succ], by simp⟩
      | cons c l =>
        rw [hs] at hj
        exact ⟨rfl, k + 1, j, by simp, by simpa using hj⟩
    · exact ⟨rfl, 0, 0, by simp, by simp⟩

/-- What has been received begins with the header of an image. -/
theorem receive_spec {opens : Bool} {ready : ℕ} {len : ℤ} {stream : Bytes} {s : Store}
    (h : receive opens ready len stream = some s) :
    bytes "HDR0" <+: s.fifo ∧ s.imagelen = imageLen s.fifo ∧ ∃ z part, filePart len stream = some (z, part) ∧
      ∃ k j, s.fifo = part.take k ++ List.replicate j 255 ∧ (0 < j → part.length ≤ k) := by
  unfold receive at h
  cases hpart : filePart len stream with
  | none => simp [hpart] at h
  | some r =>
    obtain ⟨z, part⟩ := r
    rw [hpart] at h
    dsimp only at h
    split_ifs at h with hopens
    cases hpipe : pipe ready ⟨0, false, 0, z, z, part, []⟩ with
    | none => simp [hpipe] at h
    | some t =>
      rw [hpipe] at h
      dsimp only at h
      split_ifs at h with hc
      cases h
      have hinit : Inv part ⟨0, false, 0, z, z, part, []⟩ := ⟨rfl, nofun, fun _ => .inl rfl⟩
      have hinv := hinit.pipe hpipe
      obtain ⟨himage, k, j, hfifo, hj⟩ := pipeBytes_spec t.len.toNat t
      obtain ⟨h1, -, h3⟩ := hinv.header_append hc (t.stream.take k ++ List.replicate j 255)
      rw [← hfifo] at h1 h3
      refine ⟨h1, himage.trans h3, z, part, rfl, t.fifo.length + k, j, ?_, fun hpos => ?_⟩
      · rw [hfifo, ← List.append_assoc, ← hinv.stored, List.take_length_add_append]
      · rw [← hinv.stored, List.length_append]
        exact Nat.add_le_add_left (hj hpos) _

/-! ### Checking -/

theorem mem_odm {D : Device} : D.productid_odm.length = 0 ↔ D.productid_odm.bytes = [] := List.length_eq_zero_iff

/-- What has no NUL is not found among NULs. -/
theorem prefix_of_prefix_nuls {l v : Bytes} {n : ℕ} (hz : (0 : UInt8) ∉ l) (h : l <+: v ++ List.replicate n 0) :
    l <+: v := by
  rcases List.prefix_or_prefix_of_prefix h (List.prefix_append v _) with hv | ⟨t, rfl⟩
  · exact hv
  · rw [List.prefix_append_right_inj] at h
    have hnil : t = [] := by
      rw [List.eq_nil_iff_forall_not_mem]
      intro c hc
      rw [List.eq_of_mem_replicate (h.subset hc)] at hc
      exact hz (List.mem_append_right _ hc)
    rw [hnil, List.append_nil]

/-- A prefix in two parts. -/
theorem prefix_of_take_drop {l v : Bytes} {k : ℕ} (htake : l.take k <+: v) (hdrop : l.drop k <+: v.drop k) : l <+: v := by
  rcases Nat.le_total l.length k with hle | hle
  · rwa [List.take_of_length_le hle] at htake
  · obtain ⟨x, rfl⟩ := htake
    have hlen : (l.take k).length = k := by rw [List.length_take, Nat.min_eq_left hle]
    rw [List.drop_append_of_le_length hlen.ge, List.drop_of_length_le hlen.le, List.nil_append] at hdrop
    calc l = l.take k ++ l.drop k := (List.take_append_drop k l).symm
      _ <+: l.take k ++ x := (List.prefix_append_right_inj _).mpr hdrop

variable {D : Device} {st : Stack} {img : Bytes}

/-- The arrays after the blocks of the file have been read. -/
theorem readBlocks_eq (st : Stack) (img : Bytes) : readBlocks st (imageLen img) img =
    (fread (versionBlock img) (List.replicate 64 0), fread (profileBlock img) st.profile.toList) := by
  have htrailer : (if imageLen img - 64 < 0 then [] else img.drop (imageLen img - 64).toNat) = trailer img := by
    unfold trailer
    by_cases hlen : 64 ≤ imageLen img
    · rw [if_pos hlen, if_neg (by omega)]
    · rw [if_neg hlen, if_pos (by omega)]
  unfold readBlocks
  rw [htrailer]
  rfl

theorem eqUpTo_prefix {s : CStr} {t : Bytes} {n k : ℕ} (h : eqUpTo s t n = true) (hk : k ≤ n) :
    s.bytes.take k <+: t := by
  have heq : s.bytes.take n = (cstr t).bytes.take n := of_decide_eq_true h
  have hpre : s.bytes.take k = (cstr t).bytes.take k := by
    rw [← Nat.min_eq_left hk, ← List.take_take, ← List.take_take, heq]
  rw [hpre]
  exact (List.take_prefix k _).trans (List.takeWhile_prefix _)

/-- The characters that are compared are those of the file. -/
theorem product_of_check (h : checkProduct D st (fread (versionBlock img) (List.replicate 64 0)) = true) :
    D.productid_own.bytes.take D.compared <+: (versionBlock img).drop 4 := by
  have hlen : (versionBlock img).length ≤ 64 := List.length_take_le 64 _
  have hwhole := eqUpTo_prefix h (Nat.min_le_left _ 60)
  have hversion : D.productid_own.bytes.take D.compared <+:
      (fread (versionBlock img) (List.replicate 64 0)).drop 4 := by
    refine List.prefix_of_prefix_length_le hwhole (List.prefix_append _ _) ?_
    calc (D.productid_own.bytes.take D.compared).length ≤ D.compared := List.length_take_le _ _
      _ ≤ 60 := Nat.min_le_right _ _
      _ = ((fread (versionBlock img) (List.replicate 64 0)).drop 4).length := by
        rw [fread, List.length_drop, List.length_append, List.length_drop, List.length_replicate]
        omega
  unfold fread at hversion
  rw [List.drop_replicate, List.drop_append, List.drop_replicate] at hversion
  exact prefix_of_prefix_nuls (fun hz => D.productid_own.nul_notMem (List.mem_of_mem_take hz)) hversion

/-- The hardware version is that of the running image. -/
theorem hardware_of_check {version : Bytes} {v : UInt8} (h : checkHardware D st version = true)
    (hv : D.hardware = some v) : version[16]? = some v := by
  obtain ⟨fp, hfp, hv⟩ := Option.bind_eq_some_iff.mp hv
  obtain ⟨p, hp, hv⟩ := Option.bind_eq_some_iff.mp hv
  dsimp only at hv
  split_ifs at hv with hshort
  obtain ⟨q, hq, hv⟩ := Option.bind_eq_some_iff.mp hv
  have hdata : fread ((fp.content.drop p).take 4) st.dataPtr.toList = (fp.content.drop p).take 4 := by
    have hall : st.dataPtr.toList.drop ((fp.content.drop p).take 4).length = [] := by
      rw [List.drop_eq_nil_iff, Vector.length_toList]
      omega
    rw [fread, hall, List.append_nil]
  unfold checkHardware at h
  simp only [hfp, hp, hdata, hq, Bool.and_eq_true, decide_eq_true_eq] at h
  rw [h.2, fread, List.getElem?_append_left]
  · exact hv
  · exact (List.getElem?_eq_some_iff.mp hv).1

/-- Nothing but NULs is read where there is no profile. -/
theorem own_of_check {profile : Bytes} (h : checkProfile D profile = true) (hodm : D.productid_odm.bytes = []) :
    ∀ c ∈ profile, c = 0 := by
  unfold checkProfile at h
  rw [mem_odm.mpr hodm] at h
  split_ifs at h with hp
  · cases h
  · simpa [hasProfile] using hp

/-- The id in the profile is that of the device. -/
theorem odm_of_check {profile : Bytes} (h : checkProfile D profile = true) (hodm : D.productid_odm.bytes ≠ []) :
    D.productid_odm.bytes <+: profile.take 12 := by
  unfold checkProfile at h
  split_ifs at h with hp
  · rw [Bool.and_eq_true] at h
    have hpre := eqUpTo_prefix h.2 (le_refl _)
    rwa [CStr.length, List.take_length] at hpre
  · exact absurd (mem_odm.mp (of_decide_eq_true h)) hodm

/-- An accepted file is a firmware for the device if what is not compared agrees too. -/
theorem authentic_iff (hheader : bytes "HDR0" <+: img) (h : accepts D st (imageLen img) img = true) :
    Authentic D img ↔ Complete D img := by
  unfold accepts at h
  rw [readBlocks_eq] at h
  simp only [Bool.and_eq_true] at h
  obtain ⟨⟨hproduct, hhardware⟩, hprofile⟩ := h
  constructor
  · intro ha
    refine ⟨?_, fun hv => ?_, ?_⟩
    · rw [← List.drop_drop]
      exact ha.product.drop _
    · obtain ⟨v, hv⟩ := Option.ne_none_iff_exists'.mp hv
      exact (List.getElem?_eq_some_iff.mp (ha.hardware v hv)).1
    · by_cases hodm : D.productid_odm.bytes = []
      · rw [mem_odm.mpr hodm]
        exact Nat.zero_le _
      · exact (ha.odm hodm).length_le.trans (List.length_take_le' _ _)
  · intro hc
    refine ⟨hheader, ?_, fun v hv => ?_, fun hodm c hmem => ?_, fun hodm => ?_⟩
    · apply prefix_of_take_drop (product_of_check hproduct)
      rw [List.drop_drop]
      exact hc.product
    · rw [← hardware_of_check hhardware hv, fread, List.getElem?_append_left]
      apply hc.hardware
      rw [hv]
      exact Option.some_ne_none v
    · exact own_of_check hprofile hodm c (List.mem_append_left _ hmem)
    · obtain ⟨hpre, hlen⟩ := List.prefix_take_iff.mp (odm_of_check hprofile hodm)
      exact List.prefix_take_iff.mpr
        ⟨List.prefix_of_prefix_length_le hpre (List.prefix_append _ _) hc.odm, hlen⟩

/-- A file that has been accepted is a firmware for the device, if the checks reject it or what they do not compare
agrees. -/
theorem upgrade_iff (D : Device) (st : Stack) (opens : Bool) (ready : ℕ) (len : ℤ) (stream : Bytes) :
    (∀ u, doUpgradePost D st opens ready len stream = .ok u → Authentic D u.checked) ↔
      ∀ s, receive opens ready len stream = some s → accepts D st s.imagelen s.fifo = true → Complete D s.fifo := by
  unfold doUpgradePost
  cases hs : receive opens ready len stream with
  | none => simp
  | some s =>
    obtain ⟨hheader, himage, -⟩ := receive_spec hs
    dsimp only
    constructor
    · intro h t ht hacc
      cases ht
      rw [himage] at hacc
      rw [← authentic_iff hheader hacc]
      rw [← himage] at hacc
      rw [if_pos hacc] at h
      exact h _ rfl
    · intro h u hu
      by_cases hacc : accepts D st s.imagelen s.fifo = true
      swap
      · rw [if_neg hacc] at hu
        cases hu
      rw [if_pos hacc] at hu
      cases hu
      have hc := h s rfl hacc
      rw [himage] at hacc
      exact (authentic_iff hheader hacc).mpr hc

/-- An image with this product id, without a profile. -/
def imageOf (id : Bytes) : Bytes :=
  bytes "HDR0" ++ [72, 0, 0, 0] ++ List.replicate 4 0 ++ id ++ List.replicate (80 - id.length) 0

/-- A device of its own brand, and its image. -/
def ownDevice : Device :=
  ⟨.lit "WL330gE", .lit "", some ⟨imageOf (bytes "WL330gE"), fun z => if z < 0 then none else some z.toNat⟩⟩

def otherImage : Bytes := imageOf (bytes "WL500gp")

/-- A body that brings the image of another product. -/
def otherUpload : Bytes :=
  bytes "Content-Disposition: form-data; name=\"file\"\r\n\r\n" ++ otherImage

theorem other_product_accepted : ¬ ∀ D st opens ready len stream u,
    doUpgradePost D st opens ready len stream = .ok u → Authentic D u.checked := by
  intro h
  let st : Stack := ⟨[], Vector.replicate 4 0, Vector.replicate 64 0, Vector.replicate 20 0⟩
  have hok : (doUpgradePost ownDevice st true 1 otherUpload.length otherUpload).toOption.map (·.checked) =
      some otherImage := by
    decide +kernel
  have hproduct : ¬ownDevice.productid_own.bytes <+: (versionBlock otherImage).drop 4 := by decide +kernel
  cases hrun : doUpgradePost ownDevice st true 1 otherUpload.length otherUpload with
  | error e =>
    rw [hrun] at hok
    cases hok
  | ok u =>
    rw [hrun] at hok
    have hchecked : u.checked = otherImage := Option.some.inj hok
    apply hproduct
    rw [← hchecked]
    exact (h _ _ _ _ _ _ u hrun).product

end Upgrade
end Httpd
end Router
