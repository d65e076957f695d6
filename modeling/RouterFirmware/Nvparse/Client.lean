/-
# Client filters read back

A client filter is a pair of records, the start and the end of a range of
addresses, stored as one line. Of the pair only the addresses are taken from
both; the line has no place for a MAC address or a target.

`set_filter_client` writes `*` if all addresses and masks are zero and otherwise
a range, and a range is read back under full masks. So the addresses are kept
for pairs of these two kinds (`ClientAddrs`). The validator lets through
others: it looks at no address if the start has no mask.
-/
import RouterFirmware.Nvparse.RoundTrip

namespace Router
namespace Nvparse

open CMem CText Bits Netconf
open Nvram (VarMap)

variable {L : Libc} {u : Undef}

/-! ### The addresses of a pair -/

/-- The source addresses a client filter is for: all without a mask, and otherwise
those from the start to the end. -/
def clientSources (start stop : NetconfFilter) : Set Addr :=
  {x | start.m.src.netmask = 0 ∨
    start.m.src.ipaddr.toNat ≤ x.toNat ∧ x.toNat ≤ stop.m.src.ipaddr.toNat}

/-- No address at all, or a range under full masks. -/
def ClientAddrs (start stop : NetconfFilter) : Prop :=
  (start.m.src.ipaddr = 0 ∧ stop.m.src.ipaddr = 0 ∧ start.m.src.netmask = 0 ∧ stop.m.src.netmask = 0) ∨
    (start.m.src.netmask = 0xffffffff ∧ stop.m.src.netmask = 0xffffffff)

/-- The addresses as they are printed. -/
def clientAddrText (start stop : NetconfFilter) : Bytes :=
  if start.m.src.ipaddr = 0 ∧ stop.m.src.ipaddr = 0 ∧ start.m.src.netmask = 0 ∧
      stop.m.src.netmask = 0 then bytes "*"
  else inetNtoa start.m.src.ipaddr ++ (bytes "-" ++ inetNtoa stop.m.src.ipaddr)

theorem printClient_flatten (start stop : NetconfFilter) :
    (printClient u start stop).flatten = clientAddrText start stop := by
  have hpct : ∀ a, printf u.conv (inetNtoa a) = inetNtoa a :=
    fun a => printf_eq_self u.conv (notMem_inetNtoa (by decide) (by decide) a)
  unfold printClient clientAddrText
  split_ifs
  · simp
  · simp [hpct]

theorem without_clientAddrText (start stop : NetconfFilter) : Without ":" (clientAddrText start stop) := by
  unfold clientAddrText
  split_ifs
  · decide
  · rw [without_append, without_append]
    exact ⟨without_inetNtoa (by decide) _, by decide, without_inetNtoa (by decide) _⟩

theorem fits_clientAddrText (start stop : NetconfFilter) : Fits 31 (clientAddrText start stop) := by
  unfold clientAddrText
  split_ifs
  · exact ⟨by decide, by decide⟩
  · have hdash : Fits 1 (bytes "-") := ⟨by decide, by decide⟩
    exact (fits_inetNtoa _).append (hdash.append (fits_inetNtoa _))

theorem rangeOf_addrs (a b : Addr) :
    rangeOf (inetNtoa a ++ (bytes "-" ++ inetNtoa b)) = (inetNtoa a, inetNtoa b) := by
  have hdash : Without "-" (inetNtoa a) := without_inetNtoa (by decide) a
  have hsep : strsep (bytes "-") (inetNtoa a ++ (bytes "-" ++ inetNtoa b)) = (inetNtoa a, some (inetNtoa b)) :=
    strsep_append (c := 45) (by decide) (inetNtoa b) hdash
  unfold rangeOf
  rw [hsep]

theorem head?_inetNtoa (a : Addr) : ((inetNtoa a).head? == some 42) = false := by
  obtain ⟨c, l, hl, hc⟩ := decimal_eq_cons (a.toNat / 2 ^ 24)
  unfold inetNtoa
  rw [hl]
  simp only [List.cons_append, List.head?_cons, beq_eq_false_iff_ne, ne_eq, Option.some.injEq]
  rintro rfl
  cases hc

/-! ### Numbers -/

theorem uintsOf_printed {p : ℕ × ℕ} (h1 : p.1 < 2 ^ 31) (h2 : p.2 < 2 ^ 31) :
    uintsOf (rangeOf (printUints p).flatten) = p := by
  have hflat : (printUints p).flatten = decimal p.1 ++ (bytes "-" ++ decimal p.2) := by
    simp [printUints]
  rw [hflat, rangeOf_printed]
  unfold uintsOf
  rw [atoi_decimal h1, atoi_decimal h2]
  apply Prod.ext
  · dsimp only
    omega
  · dsimp only
    omega

theorem without_printUints {delim : String} (h : ∀ x ∈ bytes delim, isDigit x = false)
    (hdash : Without delim (bytes "-")) (p : ℕ × ℕ) : Without delim (printUints p).flatten := by
  simp only [printUints, List.flatten_cons, List.flatten_nil, List.append_nil, without_append]
  exact ⟨without_decimal h _, hdash, without_decimal h _⟩

theorem fits_printUints {p : ℕ × ℕ} (h1 : p.1 < 10 ^ 5) (h2 : p.2 < 10 ^ 5) :
    Fits 11 (printUints p).flatten := by
  have hflat : (printUints p).flatten = decimal p.1 ++ (bytes "-" ++ decimal p.2) := by
    simp [printUints]
  rw [hflat]
  exact (fits_decimal (k := 4) h1).append
    (Fits.append (j := 1) ⟨by decide, by decide⟩ (fits_decimal (k := 4) h2))

/-! ### The line -/

/-- The line of a client filter. -/
def clientText (start stop : NetconfFilter) (desc : Option Bytes) : Bytes :=
  clientAddrText start stop ++ (bytes ":" ++ ((printPorts start.m.dst.ports).flatten ++ (bytes "," ++
    (printProto start.m.ipproto ++ (bytes "," ++ ((printUints start.m.days).flatten ++ (bytes "," ++
      ((printUints start.m.secs).flatten ++ (bytes "," ++ (printEnable start.m.flags ++ descTail desc))))))))))

/-- What a pair and what is read of it have in common, apart from the addresses. -/
structure SameClient (r : NetconfFilter) (start : NetconfFilter) (desc : Desc) : Prop where
  ipproto : r.m.ipproto = start.m.ipproto
  ports : r.m.dst.ports = start.m.dst.ports
  days : r.m.days = start.m.days
  secs : r.m.secs = start.m.secs
  flags : hasBit r.m.flags netconfDisabled = hasBit start.m.flags netconfDisabled
  desc : r.desc = desc
  mac : r.m.mac = 0
  target : r.target = .drop

/-- What `valid_filter_client` checks, apart from the addresses. -/
theorem validFilterClient_facts {start stop : NetconfFilter} (h : validFilterClient start stop = true) :
    (start.m.ipproto = ipprotoTcp ∨ start.m.ipproto = ipprotoUdp) ∧ start.m.days.1 ≤ 6 ∧
      start.m.days.2 ≤ 6 ∧ start.m.secs.1 < 24 * 60 * 60 ∧ start.m.secs.2 < 24 * 60 * 60 ∧
      ordered start.m.dst.ports = true := by
  unfold validFilterClient at h
  simp only [Bool.and_eq_true, decide_eq_true_eq] at h
  obtain ⟨⟨⟨⟨⟨⟨-, hord⟩, -⟩, hproto⟩, -⟩, hday1, hday2, -⟩, hsec1, hsec2, -⟩ := h
  exact ⟨hproto, hday1, hday2, hsec1, hsec2, hord⟩

/-- The addresses that are read: those of the pair, under full masks unless it has none. -/
def ReadAddrs (r : NetconfFilter × NetconfFilter) (start stop : NetconfFilter) : Prop :=
  r.1.m.src.ipaddr = start.m.src.ipaddr ∧ r.2.m.src.ipaddr = stop.m.src.ipaddr ∧
    r.1.m.src.netmask = r.2.m.src.netmask ∧
    r.1.m.src.netmask = if start.m.src.ipaddr = 0 ∧ stop.m.src.ipaddr = 0 ∧ start.m.src.netmask = 0 ∧
      stop.m.src.netmask = 0 then 0 else 0xffffffff

/-- The line of a client filter is taken apart. -/
theorem clientFilters_text (nv : VarMap) {start stop : NetconfFilter}
    (hvalid : validFilterClient start stop = true) (desc : Option Bytes) :
    ∃ r, clientFilters L nv (clientText start stop desc) = some r ∧ ReadAddrs r start stop ∧
      SameClient r.1 start (descOf desc) ∧ SameClient r.2 start (descOf desc) := by
  obtain ⟨hproto, hday1, hday2, hsec1, hsec2, -⟩ := validFilterClient_facts hvalid
  obtain ⟨ipproto, hp, hp'⟩ := protoOf_printed hproto
  unfold clientText clientFilters
  rw [cut_append (c := 58) _ rfl (by decide) (without_clientAddrText start stop)]
  simp only [Option.bind_eq_bind, Option.bind_some]
  rw [cut_append (c := 44) _ rfl (by decide) (without_printPorts (by decide) (by decide) _)]
  simp only [Option.bind_some]
  rw [cut_append (c := 44) _ rfl (by decide) (without_printProto (by decide) _)]
  simp only [Option.bind_some]
  rw [cut_append (c := 44) _ rfl (by decide) (without_printUints (by decide) (by decide) _)]
  simp only [Option.bind_some]
  rw [cut_append (c := 44) _ rfl (by decide) (without_printUints (by decide) (by decide) _)]
  simp only [Option.bind_some]
  rw [strsep_enable (by decide) (by decide), hp]
  simp only [Option.bind_some]
  have hdays := uintsOf_printed (p := start.m.days) (by omega) (by omega)
  have hsecs := uintsOf_printed (p := start.m.secs) (by omega) (by omega)
  refine ⟨_, rfl, ?_, ?_, ?_⟩
  · unfold ReadAddrs
    by_cases h : start.m.src.ipaddr = 0 ∧ stop.m.src.ipaddr = 0 ∧ start.m.src.netmask = 0 ∧
        stop.m.src.netmask = 0
    · have htext : clientAddrText start stop = bytes "*" := if_pos h
      rw [if_pos h, htext, h.1, h.2.1]
      exact ⟨rfl, rfl, rfl, rfl⟩
    · have htext : clientAddrText start stop =
          inetNtoa start.m.src.ipaddr ++ (bytes "-" ++ inetNtoa stop.m.src.ipaddr) := if_neg h
      rw [if_neg h, htext, rangeOf_addrs]
      simp [head?_inetNtoa, L.aton_ntoa]
  · exact ⟨hp', portsOf_printed _, hdays, hsecs, flagsOf_printed _, rfl, rfl, rfl⟩
  · exact ⟨hp', portsOf_printed _, hdays, hsecs, flagsOf_printed _, rfl, rfl, rfl⟩

theorem fits_clientText {start stop : NetconfFilter} (hvalid : validFilterClient start stop = true) :
    Fits 900 (clientText start stop none) := by
  obtain ⟨-, hday1, hday2, hsec1, hsec2, -⟩ := validFilterClient_facts hvalid
  have hcolon : Fits 1 (bytes ":") := ⟨by decide, by decide⟩
  have hcomma : Fits 1 (bytes ",") := ⟨by decide, by decide⟩
  have hnone : Fits 0 (descTail none) := ⟨by decide, by decide⟩
  have hfits := (fits_clientAddrText start stop).append (hcolon.append
    ((fits_printPorts start.m.dst.ports).append (hcomma.append ((fits_printProto start.m.ipproto).append
      (hcomma.append ((fits_printUints (p := start.m.days) (by omega) (by omega)).append (hcomma.append
        ((fits_printUints (p := start.m.secs) (by omega) (by omega)).append (hcomma.append
          ((fits_printEnable start.m.flags).append hnone))))))))))
  exact ⟨hfits.1, hfits.2.trans (by decide)⟩

/-- A client filter that was set is found in its variable. -/
theorem clientFilters_set {start stop : NetconfFilter} (hvalid : validFilterClient start stop = true)
    (nv : VarMap) (which : ℕ) : ∃ desc r, DescRead u start desc ∧
      (value? u (nv.insert (numbered "filter_client" which) (cstr (putAll 1000 (clientPieces u start stop))))
        (numbered "filter_client" which)).bind (clientFilters L (nv.insert (numbered "filter_client" which)
          (cstr (putAll 1000 (clientPieces u start stop))))) = some r ∧ ReadAddrs r start stop ∧
      SameClient r.1 start (descOf desc) ∧ SameClient r.2 start (descOf desc) := by
  have hflat : (clientPieces u start stop).flatten =
      clientText start stop none ++ (printDesc u start).flatten := by
    simp [clientPieces, clientText, descTail, ← printClient_flatten (u := u)]
  have hne : clientText start stop none ≠ [] := by simp [clientText, bytes]
  obtain ⟨desc, hdesc, hvalue⟩ := stored_line nv (numbered "filter_client" which) start hflat hne
    (fits_clientText hvalid)
  have htext : clientText start stop none ++ descTail desc = clientText start stop desc := by
    simp [clientText, descTail]
  obtain ⟨r, hr, haddrs, hstart, hstop⟩ := clientFilters_text (L := L)
    (nv.insert (numbered "filter_client" which) (cstr (putAll 1000 (clientPieces u start stop)))) hvalid desc
  refine ⟨desc, r, hdesc, ?_, haddrs, hstart, hstop⟩
  rw [hvalue, htext, Option.bind_some, hr]

/-- What is read is valid if its addresses are in order. -/
theorem validFilterClient_read {r : NetconfFilter × NetconfFilter} {start stop : NetconfFilter} {d : Desc}
    (hvalid : validFilterClient start stop = true) (haddrs : ReadAddrs r start stop)
    (h1 : SameClient r.1 start d) (h2 : SameClient r.2 start d) : validFilterClient r.1 r.2 = true ↔
      r.1.m.src.netmask = 0 ∨ start.m.src.ipaddr.toNat ≤ stop.m.src.ipaddr.toNat := by
  obtain ⟨hproto, hday1, hday2, hsec1, hsec2, hord⟩ := validFilterClient_facts hvalid
  obtain ⟨hip1, hip2, hmask, hmask'⟩ := haddrs
  have hfull : r.1.m.src.netmask = 0 ∨ r.1.m.src.netmask = 0xffffffff := by
    rw [hmask']
    split_ifs
    · exact Or.inl rfl
    · exact Or.inr rfl
  unfold validFilterClient
  rw [h1.ipproto, h2.ipproto, h1.ports, h2.ports, h1.days, h2.days, h1.secs, h2.secs, hip1, hip2, ← hmask]
  simp only [hord, hproto, hday1, hday2, hsec1, hsec2, Bool.and_true, decide_true, and_self, Bool.or_eq_true,
    beq_iff_eq, Bool.and_eq_true, decide_eq_true_eq, BEq.rfl]
  rcases hfull with h | h
  · simp [h]
  · simp [h]

/-! ### Whole pairs -/

/-- **Client filters are read back**, for pairs with no address or a range under
full masks and a description without a `%`: all but the MAC address, which is read as zero,
and the target, which is read as DROP. -/
theorem client_records_round_trip {ok : Bool} {nv nv' : VarMap} {which : ℕ}
    {start stop : NetconfFilter} (h : setFilterClient u ok nv which start stop = (true, nv'))
    (haddrs : ClientAddrs start stop) (hpct : 37 ∉ start.desc.str.bytes) :
    ∃ r, getFilterClient L u nv' which = some r ∧ clientSources r.1 r.2 = clientSources start stop ∧
      SameClient r.1 start start.desc ∧ SameClient r.2 start start.desc := by
  obtain ⟨hvalid, -, rfl⟩ := setIfValid_eq_true.mp h
  obtain ⟨desc, r, hdesc, hr, hread, h1, h2⟩ := clientFilters_set (L := L) (u := u) hvalid nv which
  rw [hdesc.same hpct] at h1 h2
  -- the masks are those of the pair
  have hmask : r.1.m.src.netmask = start.m.src.netmask := by
    rw [hread.2.2.2]
    rcases haddrs with hno | ⟨hfull, -⟩
    · rw [if_pos hno, hno.2.2.1]
    · rw [if_neg fun hno => absurd (hfull.symm.trans hno.2.2.1) (by decide), hfull]
  have hrvalid : validFilterClient r.1 r.2 = true := by
    rw [validFilterClient_read hvalid hread h1 h2, hmask]
    unfold validFilterClient at hvalid
    simp only [Bool.and_eq_true, Bool.or_eq_true, beq_iff_eq, decide_eq_true_eq] at hvalid
    exact hvalid.1.1.1.1.1.1.imp id And.right
  refine ⟨r, ?_, ?_, h1, h2⟩
  · unfold getFilterClient
    obtain ⟨value, hvalue, hclient⟩ := Option.bind_eq_some_iff.mp hr
    simp only [Option.bind_eq_bind, hvalue, hclient, Option.bind_some, hrvalid, if_true]
  · unfold clientSources
    rw [hmask, hread.1, hread.2.1]

/-- TCP to port 80 from one side of a range, with a MAC address. -/
def webFilter (ipaddr netmask : Addr) (mac : Mac) : NetconfFilter where
  m := { matchZero with ipproto := 6, src := ⟨ipaddr, netmask, (0, 0)⟩,
                        dst := ⟨0, 0, (0x5000, 0x5000)⟩, mac := mac }
  target := .drop
  desc := .copy (bytes "web")

theorem client_records_round_trip_web :
    setFilterClient .nothing true ∅ 0 (webFilter 0xc0a80102 0xffffffff 0)
        (webFilter 0xc0a80109 0xffffffff 0) =
      (true, (setFilterClient .nothing true ∅ 0 (webFilter 0xc0a80102 0xffffffff 0)
        (webFilter 0xc0a80109 0xffffffff 0)).2) ∧
    ∃ r, getFilterClient dottedLibc .nothing (setFilterClient .nothing true ∅ 0
        (webFilter 0xc0a80102 0xffffffff 0) (webFilter 0xc0a80109 0xffffffff 0)).2 0 = some r ∧
      clientSources r.1 r.2 =
        clientSources (webFilter 0xc0a80102 0xffffffff 0) (webFilter 0xc0a80109 0xffffffff 0) := by
  have hset : setFilterClient .nothing true ∅ 0 (webFilter 0xc0a80102 0xffffffff 0)
        (webFilter 0xc0a80109 0xffffffff 0) =
      (true, (setFilterClient .nothing true ∅ 0 (webFilter 0xc0a80102 0xffffffff 0)
        (webFilter 0xc0a80109 0xffffffff 0)).2) := Prod.ext (by decide) rfl
  obtain ⟨r, hget, hsources, -⟩ := client_records_round_trip (L := dottedLibc) hset
    (Or.inr ⟨rfl, rfl⟩) (by decide)
  exact ⟨hset, r, hget, hsources⟩

/-- A MAC address is lost, and a pair with addresses but no mask is read as a
range, which may run backwards. -/
theorem client_record_not_read_back :
    ((setFilterClient .nothing true ∅ 0 (webFilter 0xc0a80102 0xffffffff 0x665544332211)
        (webFilter 0xc0a80109 0xffffffff 0x665544332211)).1 = true ∧
      (getFilterClient dottedLibc .nothing
        (setFilterClient .nothing true ∅ 0 (webFilter 0xc0a80102 0xffffffff 0x665544332211)
          (webFilter 0xc0a80109 0xffffffff 0x665544332211)).2 0).map (fun r => r.1.m.mac) = some 0) ∧
    ((setFilterClient .nothing true ∅ 0 (webFilter 0xc0a80109 0 0)
        (webFilter 0xc0a80102 0 0)).1 = true ∧
      getFilterClient dottedLibc .nothing
        (setFilterClient .nothing true ∅ 0 (webFilter 0xc0a80109 0 0)
          (webFilter 0xc0a80102 0 0)).2 0 = none) := by
  refine ⟨⟨?_, ?_⟩, ?_, ?_⟩ <;> decide

end Nvparse
end Router
