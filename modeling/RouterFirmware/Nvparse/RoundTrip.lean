/-
# Records read back

A line is read back token by token: each part was printed without the separator
behind it (`Without`), so `strsep` gives the part again. What follows the
separator in front of the description is the description, as long as the format
puts it out as it is, that is as long as it has no `%`.
-/
import RouterFirmware.Netconf.Faithful
import RouterFirmware.Nvparse.Records

namespace Router
namespace Nvparse

open CMem CText Bits Netconf
open Nvram (VarMap)

variable {L : Libc} {u : Undef}

/-! ### Parts of a line -/

/-- No separator stands in the text. -/
def Without (delim : String) (s : Bytes) : Prop := ∀ x ∈ s, x ∉ bytes delim

theorem without_append {delim : String} {s t : Bytes} :
    Without delim (s ++ t) ↔ Without delim s ∧ Without delim t := List.forall_mem_append

theorem without_decimal {delim : String} (h : ∀ x ∈ bytes delim, isDigit x = false) (n : ℕ) :
    Without delim (decimal n) := fun x hx hd => notMem_decimal (h x hd) n hx

theorem without_inetNtoa {delim : String} (h : ∀ x ∈ bytes delim, isDigit x = false ∧ x ≠ 46) (a : Addr) :
    Without delim (inetNtoa a) := fun x hx hd => notMem_inetNtoa (h x hd).1 (h x hd).2 a hx

theorem without_printProto {delim : String}
    (h : Without delim (bytes "tcp") ∧ Without delim (bytes "udp")) (ipproto : ℤ) :
    Without delim (printProto ipproto) := by
  unfold printProto
  split_ifs
  · exact h.1
  · exact h.2
  · exact fun x hx => absurd hx List.not_mem_nil

theorem without_printEnable {delim : String}
    (h : Without delim (bytes "on") ∧ Without delim (bytes "off")) (flags : BitVec 32) :
    Without delim (printEnable flags) := by
  unfold printEnable
  split_ifs
  · exact h.2
  · exact h.1

instance (delim : String) (s : Bytes) : Decidable (Without delim s) :=
  inferInstanceAs (Decidable (∀ x ∈ s, x ∉ bytes delim))

/-- A token is cut off at the separator that was printed behind it. -/
theorem cut_append {delim sep : String} {c : UInt8} {s : Bytes} (rest : Bytes) (hsep : bytes sep = [c])
    (hc : c ∈ bytes delim) (hs : Without delim s) :
    cut delim (s ++ (bytes sep ++ rest)) = some (s, rest) := by
  unfold cut
  rw [hsep, List.singleton_append, strsep_append hc rest hs]

/-- Two numbers with a dash between them. -/
theorem rangeOf_printed (a b : ℕ) :
    rangeOf (decimal a ++ (bytes "-" ++ decimal b)) = (decimal a, decimal b) := by
  have hdash : Without "-" (decimal a) := without_decimal (by decide) a
  have hsep : strsep (bytes "-") (decimal a ++ (bytes "-" ++ decimal b)) = (decimal a, some (decimal b)) :=
    strsep_append (c := 45) (by decide) (decimal b) hdash
  unfold rangeOf
  rw [hsep]

theorem htons_atoi (p : UInt16) : htons (atoi (decimal (ntohs p).toNat)) = p := by
  have hlt := (ntohs p).toNat_lt
  rw [atoi_decimal (by omega)]
  unfold htons
  rw [show ((ntohs p).toNat : ℤ) % 2 ^ 16 = (ntohs p).toNat from Int.emod_eq_of_lt (by omega) (by omega),
    Int.toNat_natCast, UInt16.ofNat_toNat, ntohs_ntohs]

/-- Ports are read back. -/
theorem portsOf_printed (p : UInt16 × UInt16) : portsOf (rangeOf (printPorts p).flatten) = p := by
  have hflat : (printPorts p).flatten = decimal (ntohs p.1).toNat ++ (bytes "-" ++ decimal (ntohs p.2).toNat) := by
    simp [printPorts]
  rw [hflat, rangeOf_printed]
  unfold portsOf
  rw [htons_atoi, htons_atoi]

theorem without_printPorts {delim : String} (h : ∀ x ∈ bytes delim, isDigit x = false)
    (hdash : Without delim (bytes "-")) (p : UInt16 × UInt16) : Without delim (printPorts p).flatten := by
  simp only [printPorts, List.flatten_cons, List.flatten_nil, List.append_nil, without_append]
  exact ⟨without_decimal h _, hdash, without_decimal h _⟩

theorem protoOf_printed {ipproto : ℤ} (h : ipproto = ipprotoTcp ∨ ipproto = ipprotoUdp) :
    ∃ n : ℕ, protoOf (printProto ipproto) = some n ∧ n = ipproto := by
  rcases h with rfl | rfl
  · exact ⟨ipprotoTcp, by decide, rfl⟩
  · exact ⟨ipprotoUdp, by decide, rfl⟩

theorem flagsOf_printed (flags : BitVec 32) :
    hasBit (flagsOf (printEnable flags)) netconfDisabled = hasBit flags netconfDisabled := by
  unfold printEnable
  split_ifs with h
  · rw [h]
    decide
  · rw [Bool.not_eq_true] at h
    rw [h]
    decide

/-- Text that fits a buffer of `k + 1` bytes. -/
def Fits (k : ℕ) (s : Bytes) : Prop := (0 : UInt8) ∉ s ∧ s.length ≤ k

theorem Fits.append {j k : ℕ} {s t : Bytes} (hs : Fits j s) (ht : Fits k t) : Fits (j + k) (s ++ t) := by
  refine ⟨?_, ?_⟩
  · rw [List.mem_append, not_or]
    exact ⟨hs.1, ht.1⟩
  · rw [List.length_append]
    exact Nat.add_le_add hs.2 ht.2

theorem fits_decimal {k n : ℕ} (h : n < 10 ^ (k + 1)) : Fits (k + 1) (decimal n) :=
  ⟨notMem_decimal (by decide) n, length_decimal_le h⟩

theorem fits_printPorts (p : UInt16 × UInt16) : Fits 11 (printPorts p).flatten := by
  have h1 := (ntohs p.1).toNat_lt
  have h2 := (ntohs p.2).toNat_lt
  have hflat : (printPorts p).flatten = decimal (ntohs p.1).toNat ++ (bytes "-" ++ decimal (ntohs p.2).toNat) := by
    simp [printPorts]
  rw [hflat]
  exact (fits_decimal (k := 4) (by omega)).append
    (Fits.append (j := 1) ⟨by decide, by decide⟩ (fits_decimal (k := 4) (by omega)))

theorem fits_inetNtoa (a : Addr) : Fits 15 (inetNtoa a) := by
  have hdot : Fits 1 (bytes ".") := ⟨by decide, by decide⟩
  have hlt := a.isLt
  have h : ∀ n, n < 256 → Fits 3 (decimal n) := fun n hn => fits_decimal (k := 2) (by omega)
  unfold inetNtoa
  exact ((((((h _ (by omega)).append hdot).append (h _ (by omega))).append hdot).append
    (h _ (by omega))).append hdot).append (h _ (by omega))

theorem fits_printProto (ipproto : ℤ) : Fits 3 (printProto ipproto) := by
  unfold printProto
  split_ifs
  · exact ⟨by decide, by decide⟩
  · exact ⟨by decide, by decide⟩
  · exact ⟨by decide, by decide⟩

theorem fits_printEnable (flags : BitVec 32) : Fits 3 (printEnable flags) := by
  unfold printEnable
  split_ifs
  · exact ⟨by decide, by decide⟩
  · exact ⟨by decide, by decide⟩

/-! ### What is stored of a line -/

/-- The description as it stands behind the rest of a line. -/
def descTail : Option Bytes → Bytes
  | none => []
  | some d => bytes "," ++ d

/-- What may stand for the description of `f`: nothing if it is empty, and
otherwise what its format puts out, perhaps cut behind the description itself. -/
def DescRead (u : Undef) (f : FwCommon) (desc : Option Bytes) : Prop :=
  (f.desc.str.length = 0 ∧ desc = none) ∨
    (f.desc.str.length ≠ 0 ∧ ∃ d, desc = some d ∧ d <+: printf u.conv (f.descStr u) ∧
      (37 ∉ f.desc.str.bytes → f.desc.str.bytes <+: d))

theorem setIfValid_eq_true {valid ok : Bool} {nv nv' : VarMap} {name : CStr} {pieces : List Bytes} :
    setIfValid valid ok nv name pieces = (true, nv') ↔
      valid = true ∧ ok = true ∧ nv' = nv.insert name (cstr (putAll 1000 pieces)) := by
  unfold setIfValid nvramSet
  cases valid <;> cases ok <;> simp [eq_comm]

/-- Text in front of anything is stored whole if it is short. -/
theorem value?_stored (nv : VarMap) (name : CStr) {pieces : List Bytes} {front tail : Bytes}
    (hflat : pieces.flatten = front ++ tail) (hne : front ≠ []) (hnul : (0 : UInt8) ∉ front)
    (hlen : front.length < 1000) :
    ∃ junk, junk <+: tail ∧
      value? u (nv.insert name (cstr (putAll 1000 pieces))) name = some (front ++ junk) := by
  have hstr : (cstr (putAll 1000 pieces)).bytes =
      front ++ (tail.take (999 - front.length)).takeWhile (· ≠ 0) := by
    show (putAll 1000 pieces).takeWhile (· ≠ 0) = _
    rw [putAll_eq_take (by decide), hflat, List.take_append, List.take_of_length_le (by omega)]
    apply List.takeWhile_append_of_pos
    intro c hc
    rw [decide_eq_true_eq]
    rintro rfl
    exact hnul hc
  have hpre : (tail.take (999 - front.length)).takeWhile (· ≠ 0) <+: tail :=
    (List.takeWhile_prefix _).trans (List.take_prefix _ _)
  refine ⟨_, hpre, ?_⟩
  have hjunk := ((List.takeWhile_prefix (l := tail.take (999 - front.length)) (· ≠ 0)).length_le).trans
    (List.length_take_le ..)
  have hpos := List.length_pos_iff.mpr hne
  unfold value?
  rw [Finmap.lookup_insert]
  dsimp only
  unfold CStr.length
  rw [hstr, List.length_append, if_neg (by omega), if_pos (by omega)]

/-- A line is stored whole up to its description. -/
theorem stored_line (nv : VarMap) (name : CStr) (f : FwCommon) {pieces : List Bytes} {body : Bytes}
    (hflat : pieces.flatten = body ++ (printDesc u f).flatten) (hne : body ≠ []) (hbody : Fits 900 body) :
    ∃ desc, DescRead u f desc ∧
      value? u (nv.insert name (cstr (putAll 1000 pieces))) name = some (body ++ descTail desc) := by
  obtain ⟨hnul, hlen⟩ := hbody
  unfold printDesc at hflat
  by_cases h0 : f.desc.str.length = 0
  · rw [if_pos h0] at hflat
    obtain ⟨junk, hjunk, hvalue⟩ := value?_stored (u := u) nv name hflat hne hnul (by omega)
    refine ⟨none, Or.inl ⟨h0, rfl⟩, ?_⟩
    rw [hvalue, List.prefix_nil.mp hjunk]
    rfl
  · rw [if_neg h0] at hflat
    by_cases hpct : (37 : UInt8) ∈ f.desc.str.bytes
    · have hflat' : pieces.flatten = (body ++ bytes ",") ++ printf u.conv (f.descStr u) := by
        rw [hflat]
        simp
      obtain ⟨junk, hjunk, hvalue⟩ := value?_stored (u := u) nv name hflat' (by simp [hne])
        (by simp [hnul, bytes]) (by simp [bytes]; omega)
      refine ⟨some junk, Or.inr ⟨h0, junk, rfl, hjunk, fun h => absurd hpct h⟩, ?_⟩
      rw [hvalue, List.append_assoc]
      rfl
    · -- without a `%` the description itself is put out first
      have hout : ∃ extra, printf u.conv (f.descStr u) = f.desc.str.bytes ++ extra := by
        unfold FwCommon.descStr
        split_ifs
        · exact ⟨[], by rw [printf_eq_self u.conv hpct, List.append_nil]⟩
        · exact ⟨_, printf_append u.conv u.link hpct⟩
      obtain ⟨extra, hextra⟩ := hout
      have hflat' : pieces.flatten = (body ++ (bytes "," ++ f.desc.str.bytes)) ++ extra := by
        rw [hflat, hextra]
        simp
      have hdesc : f.desc.str.bytes.length ≤ 40 := f.desc.le
      obtain ⟨junk, hjunk, hvalue⟩ := value?_stored (u := u) nv name hflat' (by simp [hne])
        (by simp [hnul, bytes, f.desc.str.nul_notMem]) (by simp [bytes]; omega)
      refine ⟨some (f.desc.str.bytes ++ junk), Or.inr ⟨h0, _, rfl, ?_, fun _ => List.prefix_append ..⟩, ?_⟩
      · rw [hextra]
        exact (List.prefix_append_right_inj _).mpr hjunk
      · rw [hvalue]
        simp [descTail]

theorem Desc.copy_of_prefix {d : Desc} {s : Bytes} (h : d.str.bytes <+: s)
    (hfull : d.str.length < 40 → s = d.str.bytes) : Desc.copy s = d := by
  have htake : s.take 40 = d.str.bytes := by
    by_cases hlt : d.str.length < 40
    · rw [hfull hlt]
      exact List.take_of_length_le hlt.le
    · have hlen : d.str.bytes.length = 40 := le_antisymm d.le (not_lt.mp hlt)
      rw [← hlen]
      exact (List.prefix_iff_eq_take.mp h).symm
  obtain ⟨str, hle⟩ := d
  unfold copy
  congr 1
  apply CStr.ext_bytes
  rw [htake]
  exact cstr_bytes str.nul_notMem

/-- **A description without a `%` is read back.** -/
theorem DescRead.same {f : FwCommon} {desc : Option Bytes} (h : DescRead u f desc)
    (hpct : (37 : UInt8) ∉ f.desc.str.bytes) : descOf desc = f.desc := by
  rcases h with ⟨h0, rfl⟩ | ⟨-, d, rfl, hpre, hfront⟩
  · apply Desc.copy_of_prefix
    · rw [List.length_eq_zero_iff.mp h0]
      exact List.nil_prefix
    · intro _
      exact (List.length_eq_zero_iff.mp h0).symm
  · apply Desc.copy_of_prefix (hfront hpct)
    intro hlt
    unfold FwCommon.descStr at hpre
    rw [if_pos hlt, printf_eq_self u.conv hpct] at hpre
    exact (hpre.eq_of_length_le (hfront hpct).length_le)

/-- A description with a `%` is not, if a conversion puts out nothing. -/
theorem DescRead.other {f : FwCommon} {desc : Option Bytes} (h : DescRead .nothing f desc)
    (hpct : (37 : UInt8) ∈ f.desc.str.bytes) : descOf desc ≠ f.desc := by
  intro heq
  rcases h with ⟨h0, rfl⟩ | ⟨-, d, rfl, hpre, -⟩
  · rw [List.length_eq_zero_iff.mp h0] at hpct
    cases hpct
  · have hlt : (printf Undef.nothing.conv (f.descStr .nothing)).length < f.desc.str.bytes.length := by
      unfold FwCommon.descStr
      rw [show Undef.nothing.link = [] from rfl, List.append_nil, ite_self]
      exact length_printf_lt hpct
    have hcopy : (descOf (some d)).str.bytes.length ≤ d.length :=
      ((List.takeWhile_prefix _).length_le).trans (List.length_take_le' ..)
    have hd : d.length ≤ (printf Undef.nothing.conv (f.descStr .nothing)).length := hpre.length_le
    have hlen : (descOf (some d)).str.bytes.length = f.desc.str.bytes.length := by rw [heq]
    omega

/-- The separator in front of the description is found behind the enable. -/
theorem strsep_enable {delim : String} (hcomma : 44 ∈ bytes delim)
    (h : Without delim (bytes "on") ∧ Without delim (bytes "off")) (flags : BitVec 32) (desc : Option Bytes) :
    strsep (bytes delim) (printEnable flags ++ descTail desc) = (printEnable flags, desc) := by
  cases desc with
  | none =>
    rw [descTail, List.append_nil]
    exact strsep_eq_none (without_printEnable h flags)
  | some d => exact strsep_append hcomma d (without_printEnable h flags)

/-! ### Port forwards -/

/-- The line of a port forward. -/
def forwardText (nat : NetconfNat) (desc : Option Bytes) : Bytes :=
  (printPorts nat.m.dst.ports).flatten ++ (bytes ">" ++ (inetNtoa nat.ipaddr ++ (bytes ":" ++
    ((printPorts nat.ports).flatten ++ (bytes "," ++ (printProto nat.m.ipproto ++ (bytes "," ++
      (printEnable nat.m.flags ++ descTail desc))))))))

/-- The line of a port forward is taken apart. -/
theorem forwardNat_text {nat : NetconfNat} (hvalid : validForwardPort nat = true) (desc : Option Bytes) :
    ∃ r, forwardNat L (forwardText nat desc) = some r ∧ r.m.ipproto = nat.m.ipproto ∧
      r.m.dst.ports = nat.m.dst.ports ∧ r.ipaddr = nat.ipaddr ∧ r.ports = nat.ports ∧
      hasBit r.m.flags netconfDisabled = hasBit nat.m.flags netconfDisabled ∧ r.desc = descOf desc := by
  have hproto : nat.m.ipproto = ipprotoTcp ∨ nat.m.ipproto = ipprotoUdp := by
    unfold validForwardPort at hvalid
    simp only [Bool.and_eq_true, decide_eq_true_eq] at hvalid
    exact hvalid.1.1.1.2
  obtain ⟨ipproto, hp, hp'⟩ := protoOf_printed hproto
  unfold forwardText forwardNat
  rw [cut_append (c := 62) _ rfl (by decide) (without_printPorts (by decide) (by decide) _)]
  simp only [Option.bind_eq_bind, Option.bind_some]
  rw [cut_append (c := 58) _ rfl (by decide) (without_inetNtoa (by decide) _)]
  simp only [Option.bind_some]
  rw [cut_append (c := 44) _ rfl (by decide) (without_printPorts (by decide) (by decide) _)]
  simp only [Option.bind_some]
  rw [cut_append (c := 44) _ rfl (by decide) (without_printProto (by decide) _)]
  simp only [Option.bind_some]
  rw [strsep_enable (by decide) (by decide), hp]
  refine ⟨_, rfl, hp', ?_, ?_, ?_, flagsOf_printed _, rfl⟩
  · exact portsOf_printed _
  · show (L.inetAton (inetNtoa nat.ipaddr)).getD 0 = _
    rw [L.aton_ntoa]
    rfl
  · exact portsOf_printed _

theorem fits_forwardText (nat : NetconfNat) : Fits 900 (forwardText nat none) := by
  have hgt : Fits 1 (bytes ">") := ⟨by decide, by decide⟩
  have hcolon : Fits 1 (bytes ":") := ⟨by decide, by decide⟩
  have hcomma : Fits 1 (bytes ",") := ⟨by decide, by decide⟩
  have hnone : Fits 0 (descTail none) := ⟨by decide, by decide⟩
  have hfits := (fits_printPorts nat.m.dst.ports).append (hgt.append ((fits_inetNtoa nat.ipaddr).append
    (hcolon.append ((fits_printPorts nat.ports).append (hcomma.append
      ((fits_printProto nat.m.ipproto).append (hcomma.append
        ((fits_printEnable nat.m.flags).append hnone))))))))
  exact ⟨hfits.1, hfits.2.trans (by decide)⟩

/-- Two port forwards that differ at most in their descriptions. -/
def ForwardAlike (r nat : NetconfNat) : Prop :=
  r.m.ipproto = nat.m.ipproto ∧ r.m.dst.ports = nat.m.dst.ports ∧ r.ipaddr = nat.ipaddr ∧
    r.ports = nat.ports ∧ hasBit r.m.flags netconfDisabled = hasBit nat.m.flags netconfDisabled

/-- What a port forward is and what is read of it have in common. -/
def SameForward (r nat : NetconfNat) : Prop :=
  r.m.ipproto = nat.m.ipproto ∧ r.m.dst.ports = nat.m.dst.ports ∧ r.ipaddr = nat.ipaddr ∧
    r.ports = nat.ports ∧ hasBit r.m.flags netconfDisabled = hasBit nat.m.flags netconfDisabled ∧
    r.desc = nat.desc

theorem ForwardAlike.same {r nat : NetconfNat} (h : ForwardAlike r nat) (hdesc : r.desc = nat.desc) :
    SameForward r nat :=
  ⟨h.1, h.2.1, h.2.2.1, h.2.2.2.1, h.2.2.2.2, hdesc⟩

theorem validForwardPort_congr {r nat : NetconfNat} (hproto : r.m.ipproto = nat.m.ipproto)
    (hwan : r.m.dst.ports = nat.m.dst.ports) (hip : r.ipaddr = nat.ipaddr) (hlan : r.ports = nat.ports) :
    validForwardPort r = validForwardPort nat := by
  unfold validForwardPort
  rw [hproto, hwan, hip, hlan]

/-- A port forward that was set is read, all but perhaps its description. -/
theorem getForwardPort_set {nat : NetconfNat} (hvalid : validForwardPort nat = true) (nv : VarMap)
    (which : ℕ) : ∃ desc r, DescRead u nat.toFwCommon desc ∧
      getForwardPort L u (nv.insert (numbered "forward_port" which) (cstr (putAll 1000 (forwardPieces u nat))))
        which = some r ∧ r.desc = descOf desc ∧ ForwardAlike r nat := by
  have hpct : (37 : UInt8) ∉ inetNtoa nat.ipaddr := notMem_inetNtoa (by decide) (by decide) _
  have hflat : (forwardPieces u nat).flatten =
      forwardText nat none ++ (printDesc u nat.toFwCommon).flatten := by
    simp [forwardPieces, forwardText, descTail, printf_eq_self u.conv hpct]
  have hne : forwardText nat none ≠ [] := by simp [forwardText, printPorts, decimal_ne_nil]
  obtain ⟨desc, hdesc, hvalue⟩ := stored_line nv (numbered "forward_port" which) nat.toFwCommon hflat hne
    (fits_forwardText nat)
  have htext : forwardText nat none ++ descTail desc = forwardText nat desc := by
    simp [forwardText, descTail]
  obtain ⟨r, hr, hproto, hwan, hip, hlan, hflags, hrdesc⟩ := forwardNat_text (L := L) hvalid desc
  refine ⟨desc, r, hdesc, ?_, hrdesc, hproto, hwan, hip, hlan, hflags⟩
  unfold getForwardPort
  rw [hvalue, htext]
  simp only [Option.bind_eq_bind, Option.bind_some, hr, validForwardPort_congr hproto hwan hip hlan, hvalid,
    if_true]

/-- Whenever the port forward is set, it is read back. -/
def ForwardRoundTrips (L : Libc) (which : ℕ) (nat : NetconfNat) : Prop :=
  ∀ u ok nv nv', setForwardPort u ok nv which nat = (true, nv') →
    ∃ r, getForwardPort L u nv' which = some r ∧ SameForward r nat

theorem forwardRoundTrips_iff (which : ℕ) {nat : NetconfNat} (hvalid : validForwardPort nat = true) :
    ForwardRoundTrips L which nat ↔ 37 ∉ nat.desc.str.bytes := by
  constructor
  · intro hall hpct
    obtain ⟨desc, r, hdesc, hget, hrdesc, -⟩ :=
      getForwardPort_set (L := L) (u := .nothing) hvalid ∅ which
    obtain ⟨r', hget', hsame⟩ := hall .nothing true ∅ _
      (setIfValid_eq_true.mpr ⟨hvalid, rfl, rfl⟩)
    rw [hget] at hget'
    cases hget'
    exact hdesc.other hpct (hrdesc.symm.trans hsame.2.2.2.2.2)
  · intro hpct u ok nv nv' hset
    obtain ⟨-, -, rfl⟩ := setIfValid_eq_true.mp hset
    obtain ⟨desc, r, hdesc, hget, hrdesc, halike⟩ := getForwardPort_set (L := L) (u := u) hvalid nv which
    exact ⟨r, hget, halike.same (hrdesc.trans (hdesc.same hpct))⟩

/-! ### Application specific port forwards -/

/-- The line of an application. -/
def autofwText (app : NetconfApp) (desc : Option Bytes) : Bytes :=
  printProto app.m.ipproto ++ (bytes ":" ++ ((printPorts app.m.dst.ports).flatten ++ (bytes "," ++
    (printProto app.proto.toNat ++ (bytes ":" ++ ((printPorts app.dport).flatten ++ (bytes ">" ++
      ((printPorts app.toPorts).flatten ++ (bytes "," ++ (printEnable app.m.flags ++ descTail desc))))))))))

/-- The parts of that line. -/
def autofwParts (app : NetconfApp) (desc : Option Bytes) : AutofwLine where
  outProto := printProto app.m.ipproto
  outPort := (printPorts app.m.dst.ports).flatten
  inProto := printProto app.proto.toNat
  inPort := (printPorts app.dport).flatten
  toPort := (printPorts app.toPorts).flatten
  enable := printEnable app.m.flags
  desc := desc

theorem autofwLine_text (app : NetconfApp) (desc : Option Bytes) :
    autofwLine (autofwText app desc) = some (autofwParts app desc) := by
  unfold autofwText autofwLine
  rw [cut_append (c := 58) _ rfl (by decide) (without_printProto (by decide) _)]
  simp only [Option.bind_eq_bind, Option.bind_some]
  rw [cut_append (c := 44) _ rfl (by decide) (without_printPorts (by decide) (by decide) _)]
  simp only [Option.bind_some]
  rw [cut_append (c := 58) _ rfl (by decide) (without_printProto (by decide) _)]
  simp only [Option.bind_some]
  rw [cut_append (c := 62) _ rfl (by decide) (without_printPorts (by decide) (by decide) _)]
  simp only [Option.bind_some]
  rw [cut_append (c := 44) _ rfl (by decide) (without_printPorts (by decide) (by decide) _)]
  simp only [Option.bind_some]
  rw [strsep_enable (by decide) (by decide)]
  rfl

theorem fits_autofwText (app : NetconfApp) : Fits 900 (autofwText app none) := by
  have hgt : Fits 1 (bytes ">") := ⟨by decide, by decide⟩
  have hcolon : Fits 1 (bytes ":") := ⟨by decide, by decide⟩
  have hcomma : Fits 1 (bytes ",") := ⟨by decide, by decide⟩
  have hnone : Fits 0 (descTail none) := ⟨by decide, by decide⟩
  have hfits := (fits_printProto app.m.ipproto).append (hcolon.append
    ((fits_printPorts app.m.dst.ports).append (hcomma.append ((fits_printProto app.proto.toNat).append
      (hcolon.append ((fits_printPorts app.dport).append (hgt.append ((fits_printPorts app.toPorts).append
        (hcomma.append ((fits_printEnable app.m.flags).append hnone))))))))))
  exact ⟨hfits.1, hfits.2.trans (by decide)⟩

/-- Two applications that differ at most in their descriptions. -/
def AppAlike (r app : NetconfApp) : Prop :=
  r.m.ipproto = app.m.ipproto ∧ r.m.dst.ports = app.m.dst.ports ∧ r.proto = app.proto ∧
    r.dport = app.dport ∧ r.toPorts = app.toPorts ∧
    hasBit r.m.flags netconfDisabled = hasBit app.m.flags netconfDisabled

/-- What an application is and what is read of it have in common. -/
def SameApp (r app : NetconfApp) : Prop :=
  r.m.ipproto = app.m.ipproto ∧ r.m.dst.ports = app.m.dst.ports ∧ r.proto = app.proto ∧
    r.dport = app.dport ∧ r.toPorts = app.toPorts ∧
    hasBit r.m.flags netconfDisabled = hasBit app.m.flags netconfDisabled ∧ r.desc = app.desc

/-- The record that the parts of a printed line give. -/
theorem autofwApp_parts {app : NetconfApp} (hvalid : validAutofwPort app = true) (nv : VarMap)
    (desc : Option Bytes) : ∃ r, autofwApp nv (autofwParts app desc) = some r ∧ AppAlike r app ∧
      r.desc = descOf desc := by
  unfold validAutofwPort at hvalid
  simp only [Bool.and_eq_true, decide_eq_true_eq] at hvalid
  obtain ⟨outProto, hout, hout'⟩ := protoOf_printed hvalid.1.1.1.1.1
  obtain ⟨inProto, hin, hin'⟩ := @protoOf_printed app.proto.toNat (by
    rcases hvalid.1.1.1.2 with h | h
    · exact Or.inl (by rw [h])
    · exact Or.inr (by rw [h]))
  unfold autofwApp autofwParts
  simp only [Option.bind_eq_bind, hout, hin, Option.bind_some]
  refine ⟨_, rfl, ⟨hout', portsOf_printed _, ?_, portsOf_printed _, portsOf_printed _, flagsOf_printed _⟩, rfl⟩
  show UInt16.ofNat inProto = app.proto
  rw [Nat.cast_injective hin', UInt16.ofNat_toNat]

theorem validAutofwPort_congr {r app : NetconfApp} (h : AppAlike r app) :
    validAutofwPort r = validAutofwPort app := by
  obtain ⟨hproto, hout, hrel, hin, hto, -⟩ := h
  unfold validAutofwPort
  rw [hproto, hout, hrel, hin, hto]

/-- The line that was set is taken apart again. -/
theorem autofwLine_set (app : NetconfApp) (nv : VarMap) (which : ℕ) : ∃ desc, DescRead u app.toFwCommon desc ∧
    (value? u (nv.insert (numbered "autofw_port" which) (cstr (putAll 1000 (autofwPieces u app))))
      (numbered "autofw_port" which)).bind autofwLine = some (autofwParts app desc) := by
  have hflat : (autofwPieces u app).flatten =
      autofwText app none ++ (printDesc u app.toFwCommon).flatten := by
    simp [autofwPieces, autofwText, descTail]
  have hne : autofwText app none ≠ [] := by simp [autofwText, bytes]
  obtain ⟨desc, hdesc, hvalue⟩ := stored_line nv (numbered "autofw_port" which) app.toFwCommon hflat hne
    (fits_autofwText app)
  have htext : autofwText app none ++ descTail desc = autofwText app desc := by
    simp [autofwText, descTail]
  refine ⟨desc, hdesc, ?_⟩
  rw [hvalue, htext, Option.bind_some, autofwLine_text]

/-- An application that was set is read, all but perhaps its description. -/
theorem getAutofwPort_set {app : NetconfApp} (hvalid : validAutofwPort app = true) (nv : VarMap)
    (which : ℕ) : ∃ desc r, DescRead u app.toFwCommon desc ∧
      getAutofwPort u (nv.insert (numbered "autofw_port" which) (cstr (putAll 1000 (autofwPieces u app))))
        which = some r ∧ r.desc = descOf desc ∧ AppAlike r app := by
  obtain ⟨desc, hdesc, hline⟩ := autofwLine_set (u := u) app nv which
  obtain ⟨value, hvalue, hline⟩ := Option.bind_eq_some_iff.mp hline
  obtain ⟨r, hr, halike, hrdesc⟩ := autofwApp_parts hvalid
    (nv.insert (numbered "autofw_port" which) (cstr (putAll 1000 (autofwPieces u app)))) desc
  refine ⟨desc, r, hdesc, ?_, hrdesc, halike⟩
  unfold getAutofwPort
  simp only [Option.bind_eq_bind, hvalue, Option.bind_some, hline, hr, validAutofwPort_congr halike, hvalid,
    if_true]

/-- Whenever the application is set, it is read back. -/
def AppRoundTrips (which : ℕ) (app : NetconfApp) : Prop :=
  ∀ u ok nv nv', setAutofwPort u ok nv which app = (true, nv') →
    ∃ r, getAutofwPort u nv' which = some r ∧ SameApp r app

theorem appRoundTrips_iff (which : ℕ) {app : NetconfApp} (hvalid : validAutofwPort app = true) :
    AppRoundTrips which app ↔ 37 ∉ app.desc.str.bytes := by
  constructor
  · intro hall hpct
    obtain ⟨desc, r, hdesc, hget, hrdesc, -⟩ :=
      getAutofwPort_set (u := .nothing) hvalid ∅ which
    obtain ⟨r', hget', hsame⟩ := hall .nothing true ∅ _
      (setIfValid_eq_true.mpr ⟨hvalid, rfl, rfl⟩)
    rw [hget] at hget'
    cases hget'
    exact hdesc.other hpct (hrdesc.symm.trans hsame.2.2.2.2.2.2)
  · intro hpct u ok nv nv' hset
    obtain ⟨-, -, rfl⟩ := setIfValid_eq_true.mp hset
    obtain ⟨desc, r, hdesc, hget, hrdesc, hproto, hout, hrel, hin, hto, hflags⟩ :=
      getAutofwPort_set (u := u) hvalid nv which
    exact ⟨r, hget, hproto, hout, hrel, hin, hto, hflags, hrdesc.trans (hdesc.same hpct)⟩

/-! ### Both -/

/-- **Port forwards and applications are read back** exactly if their
descriptions have no `%`. -/
theorem port_records_round_trip (L : Libc) (which : ℕ) :
    (∀ nat, validForwardPort nat = true →
      (ForwardRoundTrips L which nat ↔ 37 ∉ nat.desc.str.bytes)) ∧
    ∀ app, validAutofwPort app = true → (AppRoundTrips which app ↔ 37 ∉ app.desc.str.bytes) :=
  ⟨fun _ hvalid => forwardRoundTrips_iff which hvalid, fun _ hvalid => appRoundTrips_iff which hvalid⟩

/-- One of the four numbers of an address. -/
def octet (s : Bytes) : Option ℕ :=
  if s ≠ [] ∧ s.all isDigit ∧ digitsVal s ≤ 255 then some (digitsVal s) else none

/-- Four decimal numbers with dots between them. -/
def dottedQuad (s : Bytes) : Option Addr := do
  let (a, s) ← cut "." s
  let (b, s) ← cut "." s
  let (c, d) ← cut "." s
  return .ofNat 32 ((← octet a) * 2 ^ 24 + (← octet b) * 2 ^ 16 + (← octet c) * 2 ^ 8 + (← octet d))

theorem octet_decimal {n : ℕ} (h : n < 256) : octet (decimal n) = some n := by
  have hall : (decimal n).all isDigit = true := List.all_eq_true.mpr (isDigit_of_mem_decimal n)
  unfold octet
  rw [if_pos ⟨decimal_ne_nil n, hall, by rw [digitsVal_decimal]; omega⟩, digitsVal_decimal]

/-- A library with the addresses of four numbers. -/
def dottedLibc : Libc where
  inetAton := dottedQuad
  aton_ntoa a := by
    have hlt := a.isLt
    have hdot : ∀ n, Without "." (decimal n) := without_decimal (by decide)
    have hassoc : inetNtoa a = decimal (a.toNat / 2 ^ 24) ++ (bytes "." ++ (decimal (a.toNat / 2 ^ 16 % 256) ++
        (bytes "." ++ (decimal (a.toNat / 2 ^ 8 % 256) ++ (bytes "." ++ decimal (a.toNat % 256)))))) := by
      simp [inetNtoa]
    unfold dottedQuad
    rw [hassoc, cut_append (c := 46) _ rfl (by decide) (hdot _)]
    simp only [Option.bind_eq_bind, Option.bind_some]
    rw [cut_append (c := 46) _ rfl (by decide) (hdot _)]
    simp only [Option.bind_some]
    rw [cut_append (c := 46) _ rfl (by decide) (hdot _)]
    simp only [Option.bind_some]
    rw [octet_decimal (by omega), octet_decimal (by omega), octet_decimal (by omega), octet_decimal (by omega)]
    simp only [Option.bind_some]
    congr 1
    apply BitVec.eq_of_toNat_eq
    rw [BitVec.toNat_ofNat]
    omega
  aton_star := by decide

/-- Port 80 to port 8080 of 192.168.1.2, described in eight letters. -/
def webNat (desc : String) (h : (0 : UInt8) ∉ bytes desc ∧ (bytes desc).length ≤ 40) : NetconfNat where
  m := { matchZero with ipproto := 6, dst := ⟨0, 0, (0x5000, 0x5000)⟩ }
  target := .dnat
  desc := ⟨⟨bytes desc, h.1⟩, h.2⟩
  ipaddr := 0xc0a80102
  ports := (0x901f, 0x901f)

theorem port_records_round_trip_web :
    validForwardPort (webNat "half off" (by decide)) = true ∧
      ForwardRoundTrips dottedLibc 0 (webNat "half off" (by decide)) :=
  ⟨by decide, ((port_records_round_trip dottedLibc 0).1 _ (by decide)).mpr (by decide)⟩

/-- The format makes one `%` of two. -/
theorem forward_desc_reformatted :
    (setForwardPort .nothing true ∅ 0 (webNat "50%% off" (by decide))).1 = true ∧
      (getForwardPort dottedLibc .nothing
        (setForwardPort .nothing true ∅ 0 (webNat "50%% off" (by decide))).2 0).map
          (fun r => r.desc.str.bytes) = some (bytes "50% off") ∧
      bytes "50% off" ≠ (webNat "50%% off" (by decide)).desc.str.bytes := by
  decide

end Nvparse
end Router
