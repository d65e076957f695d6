/-
# Receiving an HTTP request

`upnp/upnp/http.c`: `http_receive` reads into a buffer that grows by 400 bytes when fewer than 200 are left, and
`process_http_request` looks each time whether the request is complete. `bytes_recvd` and `maxbytes` have 16 bits.

The buffer stays right (`BufferSafe`) as long as `maxbytes` does not wrap: 163 times 400 is 65200, and the next growth
leaves 64 (`header_without_end`). `receive_safe_of_run` is for the runs without that (`Fits`).

What the environment decides is an input of `http_receive`: what `read` returns, the bytes that `realloc` adds, and
of `dispatch_http_request` what it leaves in the buffer, where it cuts the lines, and whether it removes the connection.
`malloc` and `realloc` do not fail.
-/
import RouterFirmware.Lib.Run
import RouterFirmware.Lib.Parse
import RouterFirmware.Lib.Search

namespace Router
namespace Upnp

open CText

/-! ### The connection -/

/-- `struct http_connection`. The bytes of `buf` are those that are allocated. -/
structure HttpConnection where
  buf : Bytes
  bytesRecvd : UInt16
  maxbytes : UInt16
deriving DecidableEq

/-- What `accept_http_connection` makes. -/
def HttpConnection.accepted : HttpConnection := ⟨List.replicate 400 0, 0, 400⟩

/-- What happens during an `http_receive`: `read` fails, or returns bytes, none of them at the end. -/
structure Input where
  got : Option Bytes
  fill : ℕ → UInt8
  left : ℕ → UInt8
  removed : Bool

/-- `realloc(buf, n)`. -/
def realloc (fill : ℕ → UInt8) (buf : Bytes) (n : ℕ) : Bytes := (List.range n).map fun i => buf.getD i (fill i)

/-- The buffer grows if few bytes are left. -/
def HttpConnection.grow (fill : ℕ → UInt8) (c : HttpConnection) : HttpConnection :=
  if (c.maxbytes.toNat : ℤ) - c.bytesRecvd.toNat < 200 then
    { c with maxbytes := c.maxbytes + 400, buf := realloc fill c.buf (c.maxbytes + 400).toNat }
  else c

/-- The count that is passed to `read`. -/
def HttpConnection.readCount (c : HttpConnection) : ℤ := (c.maxbytes.toNat : ℤ) - c.bytesRecvd.toNat - 1

/-- The bytes that `read` has put into the buffer. -/
def HttpConnection.receive (data : Bytes) (c : HttpConnection) : HttpConnection :=
  { c with
    buf := c.buf.take c.bytesRecvd.toNat ++ data ++ c.buf.drop (c.bytesRecvd.toNat + data.length)
    bytesRecvd := c.bytesRecvd + UInt16.ofNat data.length }

/-! ### The request -/

/-- The loop over the header lines, from `p` to `body`, which is `n` bytes further and where a line ends. -/
def contentLength (p : Bytes) (n : ℕ) : ℤ :=
  if n = 0 then 0
  else
    match strpbrk (bytes "\r\n") p with
    | none => 0
    | some stop =>
      if 0 < stop ∧ imatchPrefix p "content-length:" then atoi (p.drop 15)
      else contentLength (p.drop (stop + 1)) (n - (stop + 1))
termination_by n

/-- How far the blank line is. -/
def blankLine (s : Bytes) : Option ℕ := strstr (bytes "\r\n\r\n") s <|> strstr (bytes "\n\n") s

/-- `process_http_request`, of what is in the buffer: whether the request is complete. -/
def requestComplete (s : Bytes) (bytesRecvd : ℕ) : Bool :=
  match blankLine s with
  | none => false
  | some body =>
    let headerLength := body + if s[body]? = some 13 then 4 else 2
    contentLength s body ≤ (bytesRecvd : ℤ) - headerLength

/-- `http_receive(CONNECTION_RECV, c)`: the connection, unless it is removed, and the request that is dispatched. -/
def httpReceive (i : Input) (c : HttpConnection) : Option HttpConnection × Option Bytes :=
  let c := c.grow i.fill
  match i.got with
  | none => (some { c with bytesRecvd := 0 }, none)
  | some [] => (none, none)
  | some data =>
    let c := c.receive data
    let c := { c with buf := c.buf.set c.bytesRecvd.toNat 0 }
    if requestComplete (cstr c.buf).bytes c.bytesRecvd.toNat then
      (if i.removed then none
        else some { c with buf := (List.range c.buf.length).map i.left, bytesRecvd := 0 },
        some (c.buf.take c.bytesRecvd.toNat))
    else (some c, none)

/-! ### The buffer -/

/-- What is received is inside the buffer, with a byte to spare for the NUL. -/
structure BufferSafe (c : HttpConnection) : Prop where
  recvd : c.bytesRecvd < c.maxbytes
  size : c.buf.length = c.maxbytes.toNat

/-- `maxbytes` does not wrap when the buffer grows. -/
def Fits (c : HttpConnection) : Prop :=
  (c.maxbytes.toNat : ℤ) - c.bytesRecvd.toNat < 200 → c.maxbytes.toNat + 400 < 2 ^ 16

/-- `read` returns no more than it was asked for. -/
def Reads (i : Input) (c : HttpConnection) : Prop :=
  ∀ data ∈ i.got, (data.length : ℤ) ≤ (c.grow i.fill).readCount

variable {c c' : HttpConnection} {i : Input} {fill : ℕ → UInt8} {data : Bytes}

theorem length_realloc (fill : ℕ → UInt8) (buf : Bytes) (n : ℕ) : (realloc fill buf n).length = n := by
  simp [realloc]

/-- The buffer grows as it should. -/
theorem BufferSafe.grow (h : BufferSafe c) (hfits : Fits c) (fill : ℕ → UInt8) : BufferSafe (c.grow fill) := by
  have hlt := UInt16.lt_iff_toNat_lt.mp h.recvd
  unfold HttpConnection.grow
  split_ifs with hlow
  · have hmax : (c.maxbytes + 400).toNat = c.maxbytes.toNat + 400 := by
      rw [UInt16.toNat_add]
      exact Nat.mod_eq_of_lt (hfits hlow)
    refine ⟨?_, ?_⟩
    · rw [UInt16.lt_iff_toNat_lt]
      dsimp only
      omega
    · exact length_realloc ..
  · exact h

/-- And only so. -/
theorem fits_of_grow (h : BufferSafe c) (hgrow : BufferSafe (c.grow fill)) : Fits c := by
  intro hlow
  have hlt := UInt16.lt_iff_toNat_lt.mp h.recvd
  have hsafe := UInt16.lt_iff_toNat_lt.mp hgrow.recvd
  unfold HttpConnection.grow at hsafe
  rw [if_pos hlow] at hsafe
  have hmax := c.maxbytes.toNat_lt
  have hadd : (c.maxbytes + 400).toNat = (c.maxbytes.toNat + 400) % 2 ^ 16 := UInt16.toNat_add ..
  dsimp only at hsafe
  omega

/-- Then at least 199 bytes can be read. -/
theorem BufferSafe.readCount_pos (h : BufferSafe c) (hfits : Fits c) (fill : ℕ → UInt8) :
    0 < (c.grow fill).readCount := by
  have hlt := UInt16.lt_iff_toNat_lt.mp h.recvd
  unfold HttpConnection.readCount HttpConnection.grow
  split_ifs with hlow
  · have hmax : (c.maxbytes + 400).toNat = c.maxbytes.toNat + 400 := by
      rw [UInt16.toNat_add]
      exact Nat.mod_eq_of_lt (hfits hlow)
    dsimp only
    omega
  · omega

/-- What is read fits into the buffer, with the NUL. -/
theorem BufferSafe.receive (h : BufferSafe c) (hlen : (data.length : ℤ) ≤ c.readCount) :
    BufferSafe (c.receive data) ∧ (c.receive data).bytesRecvd.toNat = c.bytesRecvd.toNat + data.length := by
  have hlt := UInt16.lt_iff_toNat_lt.mp h.recvd
  have hmax := c.maxbytes.toNat_lt
  have hsize := h.size
  unfold HttpConnection.readCount at hlen
  have hrecvd : (c.receive data).bytesRecvd.toNat = c.bytesRecvd.toNat + data.length := by
    show (c.bytesRecvd + UInt16.ofNat data.length).toNat = _
    rw [UInt16.toNat_add, UInt16.toNat_ofNat']
    omega
  refine ⟨⟨?_, ?_⟩, hrecvd⟩
  · rw [UInt16.lt_iff_toNat_lt, hrecvd]
    show _ < c.maxbytes.toNat
    omega
  · simp only [HttpConnection.receive, List.length_append, List.length_take, List.length_drop]
    omega

/-! ### A step -/

/-- What `http_receive` leaves of a connection that it does not remove. -/
theorem httpReceive_cases (h : (httpReceive i c).1 = some c') :
    (i.got = none ∧ c' = { c.grow i.fill with bytesRecvd := 0 }) ∨
    ∃ data, i.got = some data ∧ c'.maxbytes = (c.grow i.fill).maxbytes ∧
      c'.buf.length = ((c.grow i.fill).receive data).buf.length ∧
      (c'.bytesRecvd = 0 ∨ c'.bytesRecvd = ((c.grow i.fill).receive data).bytesRecvd) := by
  unfold httpReceive at h
  dsimp only at h
  split at h
  · next hgot => exact .inl ⟨hgot, (Option.some.inj h).symm⟩
  · cases h
  · next data _ hgot =>
    refine .inr ⟨data, hgot, ?_⟩
    split_ifs at h
    · cases h
      refine ⟨rfl, ?_, .inl rfl⟩
      simp only [List.length_map, List.length_range, List.length_set]
    · cases h
      refine ⟨rfl, ?_, .inr rfl⟩
      rw [List.length_set]

/-- A step keeps the buffer right. -/
theorem BufferSafe.step (h : BufferSafe c) (hfits : Fits c) (hreads : Reads i c)
    (hstep : (httpReceive i c).1 = some c') : BufferSafe c' := by
  have hgrow := h.grow hfits i.fill
  have hpos : 0 < (c.grow i.fill).maxbytes := by
    apply UInt16.lt_iff_toNat_lt.mpr
    exact (Nat.zero_le _).trans_lt (UInt16.lt_iff_toNat_lt.mp hgrow.recvd)
  rcases httpReceive_cases hstep with ⟨_, rfl⟩ | ⟨data, hgot, hmax, hsize, hrecvd⟩
  · exact ⟨hpos, hgrow.size⟩
  · obtain ⟨hsafe, _⟩ := hgrow.receive (hreads data hgot)
    refine ⟨?_, ?_⟩
    · rw [hmax]
      rcases hrecvd with hzero | hsame
      · rw [hzero]
        exact hpos
      · rw [hsame]
        exact hsafe.recvd
    · rw [hsize, hmax]
      exact hsafe.size

/-! ### A run -/

/-- An `http_receive` that leaves the connection. -/
def Received (c : HttpConnection) (i : Input) (c' : HttpConnection) : Prop :=
  Reads i c ∧ (httpReceive i c).1 = some c'

/-- **Receiving stays inside the buffer** in every run in which `maxbytes` does not wrap: between two reads, when the
buffer has grown, and when the bytes of a read are there and the NUL is written. -/
theorem receive_safe_of_run {is : List Input}
    (hrun : Run.Trace (fun c i c' => Fits c ∧ Received c i c') .accepted is c) :
    BufferSafe c ∧ (Fits c → ∀ i, Reads i c → BufferSafe (c.grow i.fill) ∧ 0 < (c.grow i.fill).readCount ∧
      ∀ data ∈ i.got, BufferSafe ((c.grow i.fill).receive data) ∧
        ((c.grow i.fill).receive data).bytesRecvd.toNat < ((c.grow i.fill).receive data).buf.length) := by
  have hsafe : BufferSafe c := by
    apply Run.Trace.inv (I := fun _ c => BufferSafe c) _ _ hrun
    · exact ⟨by decide, List.length_replicate⟩
    · rintro _ c i c' h ⟨hfits, hreads, hstep⟩
      exact h.step hfits hreads hstep
  refine ⟨hsafe, fun hfits i hreads => ?_⟩
  refine ⟨hsafe.grow hfits i.fill, hsafe.readCount_pos hfits i.fill, fun data hgot => ?_⟩
  obtain ⟨hdata, _⟩ := (hsafe.grow hfits i.fill).receive (hreads data hgot)
  refine ⟨hdata, ?_⟩
  rw [hdata.size]
  exact UInt16.lt_iff_toNat_lt.mp hdata.recvd

/-! ### What is in the buffer -/

/-- What was received since the connection was last reset. -/
structure Holds (t : Bytes) (c : HttpConnection) : Prop extends BufferSafe c where
  length : c.bytesRecvd.toNat = t.length
  bytes : c.buf.take t.length = t

variable {t : Bytes}

theorem take_realloc (fill : ℕ → UInt8) {buf : Bytes} {k n : ℕ} (hbuf : k ≤ buf.length) (hn : k ≤ n) :
    (realloc fill buf n).take k = buf.take k := by
  apply List.ext_getElem
  · simp only [List.length_take, length_realloc]
    omega
  · intro j hj hj'
    have hlt : j < buf.length := by
      rw [List.length_take] at hj'
      omega
    simp only [realloc, List.getElem_take, List.getElem_map, List.getElem_range]
    exact List.getD_eq_getElem _ _ hlt

theorem Holds.grow (h : Holds t c) (hfits : Fits c) (fill : ℕ → UInt8) : Holds t (c.grow fill) := by
  have hlt := UInt16.lt_iff_toNat_lt.mp h.recvd
  have hsize := h.size
  have hlen := h.length
  refine ⟨h.toBufferSafe.grow hfits fill, ?_, ?_⟩
  · unfold HttpConnection.grow
    split_ifs
    · exact hlen
    · exact hlen
  · unfold HttpConnection.grow
    split_ifs with hlow
    · have hmax : (c.maxbytes + 400).toNat = c.maxbytes.toNat + 400 := by
        rw [UInt16.toNat_add]
        exact Nat.mod_eq_of_lt (hfits hlow)
      dsimp only
      rw [take_realloc fill (by omega) (by omega)]
      exact h.bytes
    · exact h.bytes

/-- The bytes of a read come behind those that are there. -/
theorem Holds.receive (h : Holds t c) (hlen : (data.length : ℤ) ≤ c.readCount) (hnul : (0 : UInt8) ∉ t ++ data) :
    Holds (t ++ data) { c.receive data with buf := (c.receive data).buf.set (c.receive data).bytesRecvd.toNat 0 } ∧
      (cstr ((c.receive data).buf.set (c.receive data).bytesRecvd.toNat 0)).bytes = t ++ data := by
  obtain ⟨hsafe, hrecvd⟩ := h.toBufferSafe.receive hlen
  have hlt := UInt16.lt_iff_toNat_lt.mp hsafe.recvd
  rw [h.length, ← List.length_append] at hrecvd
  have hbuf : (c.receive data).buf = (t ++ data) ++ c.buf.drop (t.length + data.length) := by
    simp only [HttpConnection.receive, h.length, h.bytes]
  have hrest : c.buf.drop (t.length + data.length) ≠ [] := by
    intro hnil
    have hsize := congrArg List.length hbuf
    rw [hnil, List.append_nil, hsafe.size] at hsize
    omega
  obtain ⟨b, rest, hb⟩ := List.exists_cons_of_ne_nil hrest
  have hset : (c.receive data).buf.set (c.receive data).bytesRecvd.toNat 0 = (t ++ data) ++ 0 :: rest := by
    rw [hrecvd, hbuf, hb, List.set_append_right _ _ le_rfl, Nat.sub_self, List.set_cons_zero]
  refine ⟨⟨⟨hsafe.recvd, ?_⟩, hrecvd, ?_⟩, ?_⟩
  · rw [List.length_set]
    exact hsafe.size
  · dsimp only
    rw [hset, List.take_left']
    rfl
  · rw [hset]
    exact cstr_append_nul hnul rest

/-- **What `http_receive` does with bytes**: it dispatches what is there if that is a complete request, and otherwise
has it in the buffer. -/
theorem Holds.httpReceive (h : Holds t c) (hfits : Fits c) (hreads : Reads i c) (hgot : i.got = some data)
    (hdata : data ≠ []) (hnul : (0 : UInt8) ∉ t ++ data) :
    if requestComplete (t ++ data) (t ++ data).length then (httpReceive i c).2 = some (t ++ data)
    else (httpReceive i c).2 = none ∧ ∃ c', (httpReceive i c).1 = some c' ∧ Holds (t ++ data) c' := by
  obtain ⟨hholds, hcstr⟩ := (h.grow hfits i.fill).receive (hreads data hgot) hnul
  have hrecvd := hholds.length
  have htake := hholds.bytes
  obtain ⟨b, d, rfl⟩ := List.exists_cons_of_ne_nil hdata
  unfold Upnp.httpReceive
  dsimp only at hrecvd htake ⊢
  simp only [hgot]
  rw [hcstr, hrecvd]
  by_cases hcomplete : requestComplete (t ++ b :: d) (t ++ b :: d).length = true
  · rw [if_pos hcomplete, if_pos hcomplete]
    rw [hrecvd] at htake
    exact congrArg some htake
  · rw [if_neg hcomplete, if_neg hcomplete]
    rw [hrecvd] at hholds
    exact ⟨rfl, _, rfl, hholds⟩

/-! ### A header that does not end -/

/-- A read of `n` bytes in the middle of a line. -/
def lineBytes (n : ℕ) : Input := ⟨some (List.replicate n 97), fun _ => 0, fun _ => 0, false⟩

/-- As many bytes as there is room for, again and again. -/
def fillBuffer (k : ℕ) : List Input := lineBytes 399 :: List.replicate k (lineBytes 400)

theorem requestComplete_line (n : ℕ) : requestComplete (List.replicate n 97) n = false := by
  have hnone : ∀ b : UInt8, b ≠ 97 → ∀ pat, strstr (b :: pat) (List.replicate n 97) = none := by
    intro b hb pat
    have hnot : b ∉ List.replicate n (97 : UInt8) := fun h => hb (List.eq_of_mem_replicate h)
    have hskip : strstr (b :: pat) (List.replicate n 97 ++ []) = _ := strstr_append [] hnot
    rw [List.append_nil] at hskip
    rw [hskip]
    rfl
  have hblank : blankLine (List.replicate n 97) = none := by
    unfold blankLine
    rw [show bytes "\r\n\r\n" = 13 :: [10, 13, 10] from rfl, show bytes "\n\n" = 10 :: [10] from rfl,
      hnone 13 (by decide), hnone 10 (by decide)]
    rfl
  unfold requestComplete
  rw [hblank]

/-- One more read fills the buffer. -/
theorem Holds.line {k n : ℕ} (h : Holds (List.replicate k 97) c) (hfits : Fits c)
    (hn : (n : ℤ) ≤ (c.grow (lineBytes n).fill).readCount) (hpos : 0 < n) :
    ∃ c', Received c (lineBytes n) c' ∧ Holds (List.replicate (k + n) 97) c' ∧
      c'.maxbytes = (c.grow (lineBytes n).fill).maxbytes := by
  have hreads : Reads (lineBytes n) c := by
    intro data hdata
    cases hdata
    rwa [List.length_replicate]
  have hdata : List.replicate n (97 : UInt8) ≠ [] := by
    simpa using hpos.ne'
  have hnul : (0 : UInt8) ∉ List.replicate k 97 ++ List.replicate n 97 := by
    rw [List.replicate_append_replicate]
    intro hmem
    exact absurd (List.eq_of_mem_replicate hmem) (by decide)
  have hstep := h.httpReceive hfits hreads rfl hdata hnul
  rw [List.replicate_append_replicate, List.length_replicate, requestComplete_line, if_neg Bool.false_ne_true] at hstep
  obtain ⟨_, c', hc', hholds⟩ := hstep
  refine ⟨c', ⟨hreads, hc'⟩, hholds, ?_⟩
  rcases httpReceive_cases hc' with ⟨hnone, _⟩ | ⟨data, _, hmax, _⟩
  · cases hnone
  · exact hmax

/-- One read of 399 bytes. -/
theorem receive_safe_of_run_line :
    ∃ c, Run.Trace Received .accepted [lineBytes 399] c ∧ BufferSafe c ∧ 0 < (c.grow fun _ => 0).readCount := by
  have hholds : Holds (List.replicate 0 97) .accepted := ⟨⟨by decide, List.length_replicate⟩, rfl, rfl⟩
  have hfits : Fits .accepted := fun _ => by decide
  obtain ⟨c, hstep, hc, hmax⟩ := hholds.line (n := 399) hfits (by decide) (by decide)
  obtain ⟨hsafe, hread⟩ := receive_safe_of_run (.cons ⟨hfits, hstep⟩ .nil)
  have hnext : Fits c := by
    intro _
    rw [hmax]
    decide
  obtain ⟨_, hpos, _⟩ := hread hnext ⟨none, fun _ => 0, fun _ => 0, false⟩ fun data hdata => nomatch hdata
  exact ⟨c, .cons hstep .nil, hsafe, hpos⟩

/-- The buffer is full after each read, up to 65200 bytes. -/
theorem exists_full : ∀ k ≤ 162, ∃ c, Run.Trace Received .accepted (fillBuffer k) c ∧
    Holds (List.replicate (400 * k + 399) 97) c ∧ c.maxbytes.toNat = 400 * k + 400
  | 0, _ => by
    have hholds : Holds (List.replicate 0 97) .accepted := ⟨⟨by decide, List.length_replicate⟩, rfl, rfl⟩
    obtain ⟨c, hstep, hc, hmax⟩ := hholds.line (n := 399) (fun _ => by decide) (by decide) (by decide)
    exact ⟨c, .cons hstep .nil, hc, congrArg UInt16.toNat hmax⟩
  | k + 1, hk => by
    obtain ⟨c, hrun, hholds, hmax⟩ := exists_full k (by omega)
    have hlen := hholds.length
    rw [List.length_replicate] at hlen
    have hfits : Fits c := fun _ => by omega
    have hlow : (c.maxbytes.toNat : ℤ) - c.bytesRecvd.toNat < 200 := by omega
    have hgrow : (c.grow (lineBytes 400).fill).maxbytes.toNat = 400 * (k + 1) + 400 := by
      unfold HttpConnection.grow
      rw [if_pos hlow]
      dsimp only
      rw [UInt16.toNat_add, hmax]
      show (400 * k + 400 + 400) % 2 ^ 16 = _
      omega
    have hcount : ((400 : ℕ) : ℤ) ≤ (c.grow (lineBytes 400).fill).readCount := by
      have hrecvd : (c.grow (lineBytes 400).fill).bytesRecvd = c.bytesRecvd := by
        unfold HttpConnection.grow
        rw [if_pos hlow]
      unfold HttpConnection.readCount
      rw [hgrow, hrecvd, hlen]
      omega
    obtain ⟨c', hstep, hc', hmax'⟩ := hholds.line hfits hcount (by decide)
    refine ⟨c', ?_, ?_, ?_⟩
    · have happ : fillBuffer (k + 1) = fillBuffer k ++ [lineBytes 400] := by
        rw [fillBuffer, List.replicate_succ']
        rfl
      rw [happ]
      exact hrun.snoc hstep
    · exact hc'
    · rw [hmax', hgrow]

/-- After 65199 bytes `maxbytes` is 65200, and it wraps to 64. -/
theorem header_without_end : ∃ c, Run.Trace Received .accepted (fillBuffer 162) c ∧
    ∀ fill, (c.grow fill).maxbytes = 64 ∧ (c.grow fill).buf.length = 64 ∧ (c.grow fill).bytesRecvd = 65199 ∧
      (c.grow fill).readCount = -65136 ∧ ¬BufferSafe (c.grow fill) := by
  obtain ⟨c, hrun, hholds, hmax⟩ := exists_full 162 le_rfl
  have hlen := hholds.length
  rw [List.length_replicate] at hlen
  have hm : c.maxbytes = 65200 := UInt16.toNat_inj.mp hmax
  have hr : c.bytesRecvd = 65199 := UInt16.toNat_inj.mp hlen
  refine ⟨c, hrun, fun fill => ?_⟩
  have hgrow : c.grow fill = ⟨realloc fill c.buf 64, 65199, 64⟩ := by
    unfold HttpConnection.grow
    rw [hm, hr]
    rfl
  rw [hgrow]
  have hover : ¬(65199 : UInt16) < 64 := by decide
  exact ⟨rfl, length_realloc .., rfl, rfl, fun hsafe => hover hsafe.recvd⟩

end Upnp
end Router
