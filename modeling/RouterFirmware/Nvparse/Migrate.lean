/-
# Deprecated entries after the conversion

The conversion keeps the meaning of well-formed entries but for the source of a
client filter. `inet_aton` does not take the `*` of `filter_tcp` and
`filter_udp`, and the address is left at zero under a full mask: what was for all
clients is for 0.0.0.0 alone. The other way round, a line of `filter_port` from
0.0.0.0 to 0.0.0.0 has no mask, and is for all clients then.

So the meaning is kept exactly if the two make no difference: for clients other than
0.0.0.0, what no other entry filters is filtered by a `*` if and only if it is by such
a line.
-/
import RouterFirmware.Nvparse.Meaning

namespace Router
namespace Nvparse

open CMem CText Bits Netconf Stages
open Nvram (VarMap)

/-! ### Before the conversion -/

section Before

variable (L : Libc) (u : Undef) (nv : VarMap)

/-- The deprecated variables are by the grammar; a line `autofw_port` may be new. -/
structure WellFormed : Prop where
  forwardTcp : ∀ w ∈ wordsOf nv (.lit "forward_tcp"), ∃ wan host lan, ForwardEntry L w wan host lan
  forwardUdp : ∀ w ∈ wordsOf nv (.lit "forward_udp"), ∃ wan host lan, ForwardEntry L w wan host lan
  filterIp : ∀ w ∈ wordsOf nv (.lit "filter_ip"), ∃ first last, IpEntry L w first last
  filterTcp : ∀ w ∈ wordsOf nv (.lit "filter_tcp"), (∃ host lan, HostEntry L w host lan) ∨ ∃ lan, AnyEntry w lan
  filterUdp : ∀ w ∈ wordsOf nv (.lit "filter_udp"), (∃ host lan, HostEntry L w host lan) ∨ ∃ lan, AnyEntry w lan
  autofwPort : ∀ i < 10, ∀ value, value? u nv (numbered "autofw_port" i) = some value →
    Ranged u nv i ∨ ∃ e, AutofwEntry value e

/-- What `forward_tcp` and `forward_udp` say. -/
def deprecatedForwards : Set Forward :=
  {x | ∃ w ∈ wordsOf nv (.lit "forward_tcp"), x ∈ forwardsOf L ipprotoTcp w} ∪
    {x | ∃ w ∈ wordsOf nv (.lit "forward_udp"), x ∈ forwardsOf L ipprotoUdp w}

/-- What the deprecated filters say, but for the words with a `*`. -/
def deprecatedFilters : Set Packet :=
  {x | ∃ w ∈ wordsOf nv (.lit "filter_ip"), x ∈ ipOf L w} ∪
    {x | ∃ w ∈ wordsOf nv (.lit "filter_tcp"), x ∈ hostOf L ipprotoTcp w} ∪
    {x | ∃ w ∈ wordsOf nv (.lit "filter_udp"), x ∈ hostOf L ipprotoUdp w} ∪
    {x | ∃ i ∈ [1, 2, 3, 4, 5, 6], ∃ r, filterPort L nv i = some r ∧ x ∈ lineOf r}

/-- What the words with a `*` say. -/
def deprecatedAny : Set Packet :=
  {x | ∃ w ∈ wordsOf nv (.lit "filter_tcp"), x ∈ anyOf ipprotoTcp w} ∪
    {x | ∃ w ∈ wordsOf nv (.lit "filter_udp"), x ∈ anyOf ipprotoUdp w}

/-- What the lines `autofw_port` with a single outbound port say. -/
def deprecatedApps : Set Trigger :=
  {x | ∃ i < 10, ∃ value e, value? u nv (numbered "autofw_port" i) = some value ∧ AutofwEntry value e ∧ x ∈ e.triggers}

/-- What the lines of `filter_port` from 0.0.0.0 to 0.0.0.0 are for, from any source. -/
def zeroLines : Set Packet :=
  {x | ∃ i ∈ [1, 2, 3, 4, 5, 6], ∃ r, filterPort L nv i = some r ∧ r.1.m.src.ipaddr = 0 ∧
    r.2.m.src.ipaddr = 0 ∧ x.Of r.1}

/-- The new entries say what all entries said, and no valid new one is overwritten. -/
structure Preserved (nv' : VarMap) : Prop where
  forwards : (forwardTable L u).all nv' = (forwardTable L u).all nv ∪ deprecatedForwards L nv
  filters : (clientTable L u).all nv' = (clientTable L u).all nv ∪ (deprecatedFilters L nv ∪ deprecatedAny nv)
  apps : (autofwTable u).all nv' = (autofwTable u).all nv ∪ deprecatedApps u nv
  keepsForwards : ∀ i, (getForwardPort L u nv i).isSome = true →
    look nv' (numbered "forward_port" i) = look nv (numbered "forward_port" i)
  keepsFilters : ∀ i, (getFilterClient L u nv i).isSome = true →
    look nv' (numbered "filter_client" i) = look nv (numbered "filter_client" i)
  keepsApps : ∀ i, Ranged u nv i → look nv' (numbered "autofw_port" i) = look nv (numbered "autofw_port" i)

/-- A `*` and a line from 0.0.0.0 to 0.0.0.0 make no difference to what is filtered. -/
def SourcesCovered : Prop :=
  ∀ x : Packet, x.source ≠ 0 → x ∉ (clientTable L u).all nv → x ∉ deprecatedFilters L nv →
    (x ∈ deprecatedAny nv ↔ x ∈ zeroLines L nv)

end Before

variable {L : Libc} {u : Undef} {nv nv' : VarMap}

/-! ### Words -/

/-- A word of `forward_tcp` or `forward_udp` is forwarded as it says. -/
theorem wordForwards_of_entry {word : Bytes} (h : ∃ wan host lan, ForwardEntry L word wan host lan) (ipproto : ℕ) :
    wordForwards L ipproto word = forwardsOf L ipproto word := by
  have hzero : hasBit (0 : BitVec 32) netconfDisabled = false := by decide
  ext x
  constructor
  · rintro ⟨nat, hnat, -, hx⟩
    obtain ⟨wan, host, lan, hentry⟩ := h
    obtain ⟨nat', hnat', hproto, -, hwan, hhost, hlan⟩ := forwardWord_of_entry hentry ipproto
    rw [hnat] at hnat'
    cases hnat'
    rw [hproto, hwan, hhost, hlan] at hx
    exact ⟨wan, host, lan, hentry, hx⟩
  · rintro ⟨wan, host, lan, hentry, hx⟩
    obtain ⟨nat, hnat, hproto, hflags, hwan, hhost, hlan⟩ := forwardWord_of_entry hentry ipproto
    refine ⟨nat, hnat, by rw [hflags, hzero], ?_⟩
    rwa [hproto, hwan, hhost, hlan]

/-- The pair has full masks: what is read is the range. -/
theorem mem_stored {start stop : NetconfFilter} (hmask : start.m.src.netmask = 0xffffffff) {x : Packet} :
    x ∈ stored start stop ↔ x.Of start ∧
      start.m.src.ipaddr.toNat ≤ x.source.toNat ∧ x.source.toNat ≤ stop.m.src.ipaddr.toNat := by
  have hno : ¬ NoAddrs start stop := fun h => absurd (hmask.symm.trans h.2.2.1) (by decide)
  unfold stored
  simp only [Set.mem_ofPred_eq, hno, false_or]

/-- A word of `filter_ip` filters as it says. -/
theorem wordIps_of_entry {word : Bytes} (h : ∃ first last, IpEntry L word first last) :
    wordIps L word = ipOf L word := by
  have hzero : hasBit (0 : BitVec 32) netconfDisabled = false := by decide
  have hread : ∀ {r x} {ipproto : ℕ}, filterIpWord L word = some r →
      (x ∈ stored (withProto r.1 ipproto) (withProto r.2 ipproto) ↔
        (x.ipproto = ipproto ∧ x.port < 2 ^ 16 ∧ x.Always) ∧
          r.1.m.src.ipaddr.toNat ≤ x.source.toNat ∧ x.source.toNat ≤ r.2.m.src.ipaddr.toNat) := by
    intro r x ipproto hr
    obtain ⟨hmask, hflags, hports, hdays, hsecs⟩ := filterIpWord_fields hr
    rw [mem_stored (show (withProto r.1 ipproto).m.src.netmask = _ from hmask)]
    refine and_congr_left fun _ => ?_
    have hof : x.Of (withProto r.1 ipproto) ↔ hasBit r.1.m.flags netconfDisabled = false ∧ x.ipproto = ipproto ∧
        Within (hostPorts r.1.m.dst.ports) x.port ∧ x.days = r.1.m.days ∧ x.secs = r.1.m.secs := Iff.rfl
    rw [hof, hflags, hports, hdays, hsecs]
    have hport : x.port ≤ 2 ^ 16 - 1 ↔ x.port < 2 ^ 16 := by omega
    unfold Within Packet.Always
    simp only [hzero, true_and, Nat.zero_le, hport]
  ext x
  constructor
  · rintro ⟨r, hr, hx⟩
    obtain ⟨first, last, hentry⟩ := h
    obtain ⟨r', hr', hfirst, hlast⟩ := filterIpWord_of_entry hentry
    rw [hr] at hr'
    cases hr'
    rw [hread hr, hread hr, hfirst, hlast] at hx
    rcases hx with ⟨⟨hproto, hx⟩, hsource⟩ | ⟨⟨hproto, hx⟩, hsource⟩
    · exact ⟨first, last, hentry, hsource, Or.inl hproto, hx⟩
    · exact ⟨first, last, hentry, hsource, Or.inr hproto, hx⟩
  · rintro ⟨first, last, hentry, hsource, hproto, hx⟩
    obtain ⟨r, hr, hfirst, hlast⟩ := filterIpWord_of_entry hentry
    refine ⟨r, hr, ?_⟩
    rw [hread hr, hread hr, hfirst, hlast]
    exact hproto.imp (fun hp => ⟨⟨hp, hx⟩, hsource⟩) fun hp => ⟨⟨hp, hx⟩, hsource⟩

/-- A word of `filter_tcp` or `filter_udp` filters as it says if it has an address,
and only the source 0.0.0.0 if it has a `*`. -/
theorem wordProtos_of_entry {word : Bytes} (h : (∃ host lan, HostEntry L word host lan) ∨ ∃ lan, AnyEntry word lan)
    (ipproto : ℕ) :
    wordProtos L ipproto word = {x | x ∈ hostOf L ipproto word ∨ x ∈ anyOf ipproto word ∧ x.source = 0} := by
  have hzero : hasBit (0 : BitVec 32) netconfDisabled = false := by decide
  have hread : ∀ {start x}, filterProtoWord L ipproto word = some start → (x ∈ stored start start ↔
      x.source = start.m.src.ipaddr ∧ x.ipproto = ipproto ∧ Within (hostPorts start.m.dst.ports) x.port ∧
        x.Always) := by
    intro start x hstart
    obtain ⟨hmask, hflags, hproto, hdays, hsecs⟩ := filterProtoWord_fields hstart
    have hsource : start.m.src.ipaddr.toNat ≤ x.source.toNat ∧ x.source.toNat ≤ start.m.src.ipaddr.toNat ↔
        x.source = start.m.src.ipaddr := by
      rw [BitVec.toNat_eq]
      omega
    rw [mem_stored hmask, hsource, and_comm]
    unfold Packet.Of Packet.Always
    simp only [hflags, hzero, hproto, hdays, hsecs, true_and]
  have hhost : ∀ {host lan}, HostEntry L word host lan → ∃ start, filterProtoWord L ipproto word = some start ∧
      start.m.src.ipaddr = host ∧ hostPorts start.m.dst.ports = lan := by
    rintro host lan ⟨lanIpaddr, lanPort, rfl, ⟨haddr, hsep⟩, hlan⟩
    obtain ⟨start, hstart, hip, hports⟩ := filterProtoWord_of_ports (L := L) (hsep.mono (by decide)) hlan ipproto
    exact ⟨start, hstart, by rw [hip, haddr, Option.getD_some], hports⟩
  have hany : ∀ {lan}, AnyEntry word lan → ∃ start, filterProtoWord L ipproto word = some start ∧
      start.m.src.ipaddr = 0 ∧ hostPorts start.m.dst.ports = lan := by
    rintro lan ⟨lanPort, rfl, hlan⟩
    obtain ⟨start, hstart, hip, hports⟩ :=
      filterProtoWord_of_ports (L := L) (show Without ":" (bytes "*") by decide) hlan ipproto
    exact ⟨start, hstart, by rw [hip, L.aton_star, Option.getD_none], hports⟩
  ext x
  constructor
  · rintro ⟨start, hstart, hx⟩
    obtain ⟨hsource, hx⟩ := (hread hstart).mp hx
    rcases h with ⟨host, lan, hentry⟩ | ⟨lan, hentry⟩
    · obtain ⟨start', hstart', hip, hports⟩ := hhost hentry
      rw [hstart] at hstart'
      cases hstart'
      exact Or.inl ⟨host, lan, hentry, hsource.trans hip, hports ▸ hx⟩
    · obtain ⟨start', hstart', hip, hports⟩ := hany hentry
      rw [hstart] at hstart'
      cases hstart'
      exact Or.inr ⟨⟨lan, hentry, hports ▸ hx⟩, hsource.trans hip⟩
  · rintro (⟨host, lan, hentry, hsource, hx⟩ | ⟨⟨lan, hentry, hx⟩, hsource⟩)
    · obtain ⟨start, hstart, hip, hports⟩ := hhost hentry
      exact ⟨start, hstart, (hread hstart).mpr ⟨hsource.trans hip.symm, hports.symm ▸ hx⟩⟩
    · obtain ⟨start, hstart, hip, hports⟩ := hany hentry
      exact ⟨start, hstart, (hread hstart).mpr ⟨hsource.trans hip.symm, hports.symm ▸ hx⟩⟩

theorem filterPort_masks {i : ℕ} {r : NetconfFilter × NetconfFilter} (h : filterPort L nv i = some r) :
    r.1.m.src.netmask = 0 ∧ r.2.m.src.netmask = 0 := by
  unfold filterPort at h
  split at h
  · cases h
  · split_ifs at h
    exact ⟨(filterPortLine_alike h).1, (filterPortLine_alike h).2.1⟩

/-- A line of `filter_port` filters as it says, unless it is from 0.0.0.0 to 0.0.0.0. -/
theorem mem_stored_line {i : ℕ} {r : NetconfFilter × NetconfFilter} (h : filterPort L nv i = some r) {x : Packet} :
    x ∈ stored r.1 r.2 ↔
      x ∈ lineOf r ∨ r.1.m.src.ipaddr = 0 ∧ r.2.m.src.ipaddr = 0 ∧ x.Of r.1 := by
  obtain ⟨h1, h2⟩ := filterPort_masks h
  unfold stored lineOf NoAddrs
  simp only [Set.mem_ofPred_eq, h1, h2, and_true]
  tauto

/-- What is added for `filter_tcp` or `filter_udp`. -/
theorem exists_wordProtos {l : List Bytes}
    (h : ∀ w ∈ l, (∃ host lan, HostEntry L w host lan) ∨ ∃ lan, AnyEntry w lan) (ipproto : ℕ) (x : Packet) :
    (∃ w ∈ l, x ∈ wordProtos L ipproto w) ↔
      (∃ w ∈ l, x ∈ hostOf L ipproto w) ∨ (∃ w ∈ l, x ∈ anyOf ipproto w) ∧ x.source = 0 := by
  constructor
  · rintro ⟨w, hw, hx⟩
    rw [wordProtos_of_entry (h w hw)] at hx
    rcases hx with hx | ⟨hx, hsource⟩
    · exact Or.inl ⟨w, hw, hx⟩
    · exact Or.inr ⟨⟨w, hw, hx⟩, hsource⟩
  · rintro (⟨w, hw, hx⟩ | ⟨⟨w, hw, hx⟩, hsource⟩)
    · refine ⟨w, hw, ?_⟩
      rw [wordProtos_of_entry (h w hw)]
      exact Or.inl hx
    · refine ⟨w, hw, ?_⟩
      rw [wordProtos_of_entry (h w hw)]
      exact Or.inr ⟨hx, hsource⟩

/-- What is added for `filter_port`. -/
theorem exists_linePorts (L : Libc) (nv : VarMap) (l : List ℕ) (x : Packet) :
    (∃ i ∈ l, x ∈ linePorts L nv i) ↔ (∃ i ∈ l, ∃ r, filterPort L nv i = some r ∧ x ∈ lineOf r) ∨
      ∃ i ∈ l, ∃ r, filterPort L nv i = some r ∧ r.1.m.src.ipaddr = 0 ∧ r.2.m.src.ipaddr = 0 ∧ x.Of r.1 := by
  constructor
  · rintro ⟨i, hi, r, hr, hx⟩
    rcases (mem_stored_line hr).mp hx with hx | hx
    · exact Or.inl ⟨i, hi, r, hr, hx⟩
    · exact Or.inr ⟨i, hi, r, hr, hx⟩
  · rintro (⟨i, hi, r, hr, hx⟩ | ⟨i, hi, r, hr, hx⟩)
    · exact ⟨i, hi, r, hr, (mem_stored_line hr).mpr (Or.inl hx)⟩
    · exact ⟨i, hi, r, hr, (mem_stored_line hr).mpr (Or.inr hx)⟩

/-- **What the conversion adds to the client filters**, for well-formed lists. -/
theorem mem_addedFilters (h : WellFormed L u nv) {x : Packet} :
    x ∈ addedFilters L nv ↔ x ∈ deprecatedFilters L nv ∨ (x ∈ deprecatedAny nv ∧ x.source = 0) ∨ x ∈ zeroLines L nv := by
  have hip : (∃ w ∈ wordsOf nv (.lit "filter_ip"), x ∈ wordIps L w) ↔
      ∃ w ∈ wordsOf nv (.lit "filter_ip"), x ∈ ipOf L w :=
    exists_congr fun w => and_congr_right fun hw => by rw [wordIps_of_entry (h.filterIp w hw)]
  have htcp := exists_wordProtos h.filterTcp ipprotoTcp x
  have hudp := exists_wordProtos h.filterUdp ipprotoUdp x
  have hlines := exists_linePorts L nv [1, 2, 3, 4, 5, 6] x
  constructor
  · rintro (((hx | hx) | hx) | hx)
    · exact Or.inl (Or.inl (Or.inl (Or.inl (hip.mp hx))))
    · rcases htcp.mp hx with hx | ⟨hx, hsource⟩
      · exact Or.inl (Or.inl (Or.inl (Or.inr hx)))
      · exact Or.inr (Or.inl ⟨Or.inl hx, hsource⟩)
    · rcases hudp.mp hx with hx | ⟨hx, hsource⟩
      · exact Or.inl (Or.inl (Or.inr hx))
      · exact Or.inr (Or.inl ⟨Or.inr hx, hsource⟩)
    · rcases hlines.mp hx with hx | hx
      · exact Or.inl (Or.inr hx)
      · exact Or.inr (Or.inr hx)
  · rintro ((((hx | hx) | hx) | hx) | ⟨hx | hx, hsource⟩ | hx)
    · exact Or.inl (Or.inl (Or.inl (hip.mpr hx)))
    · exact Or.inl (Or.inl (Or.inr (htcp.mpr (Or.inl hx))))
    · exact Or.inl (Or.inr (hudp.mpr (Or.inl hx)))
    · exact Or.inr (hlines.mpr (Or.inl hx))
    · exact Or.inl (Or.inl (Or.inr (htcp.mpr (Or.inr ⟨hx, hsource⟩))))
    · exact Or.inl (Or.inr (hudp.mpr (Or.inr ⟨hx, hsource⟩)))
    · exact Or.inr (hlines.mpr (Or.inr hx))

/-- A line from 0.0.0.0 to 0.0.0.0 is for the source 0.0.0.0 by what it says. -/
theorem deprecatedFilters_of_zeroLines {x : Packet} (h : x ∈ zeroLines L nv) (hsource : x.source = 0) :
    x ∈ deprecatedFilters L nv := by
  obtain ⟨i, hi, r, hr, h1, h2, hof⟩ := h
  refine Or.inr ⟨i, hi, r, hr, hof, ?_⟩
  rw [h1, h2, hsource]
  exact ⟨le_refl _, le_refl _⟩

theorem filters_kept_iff (h : WellFormed L u nv) :
    (clientTable L u).all nv ∪ addedFilters L nv =
      (clientTable L u).all nv ∪ (deprecatedFilters L nv ∪ deprecatedAny nv) ↔ SourcesCovered L u nv := by
  constructor
  · intro heq x hsource hall hfilters
    have hx := Set.ext_iff.mp heq x
    simp only [Set.mem_union, mem_addedFilters h, hall, hfilters, hsource, false_or, and_false] at hx
    exact hx.symm
  · intro hcov
    ext x
    simp only [Set.mem_union, mem_addedFilters h]
    by_cases hall : x ∈ (clientTable L u).all nv
    · simp only [hall, true_or]
    by_cases hfilters : x ∈ deprecatedFilters L nv
    · simp only [hfilters, true_or, or_true]
    by_cases hsource : x.source = 0
    · have hzero : x ∉ zeroLines L nv := fun hz => hfilters (deprecatedFilters_of_zeroLines hz hsource)
      simp only [hall, hfilters, hzero, hsource, and_true, or_false]
    · simp only [hall, hfilters, hsource, and_false, false_or]
      exact (hcov x hsource hall hfilters).symm

/-! ### Completion -/

theorem ordered_of_hostPorts {p : UInt16 × UInt16} {q : ℕ × ℕ} (h : hostPorts p = q) (hle : q.1 ≤ q.2) :
    ordered p = true := by
  rw [← h] at hle
  exact decide_eq_true hle

theorem forwardOk_of_entry {word : Bytes} (h : ∃ wan host lan, ForwardEntry L word wan host lan) (ipproto : ℕ) :
    ForwardOk L ipproto word := by
  intro nat hnat
  obtain ⟨wan, host, lan, hentry⟩ := h
  obtain ⟨nat', hnat', -, -, hwan, hhost, hlan⟩ := forwardWord_of_entry hentry ipproto
  rw [hnat] at hnat'
  cases hnat'
  obtain ⟨_, _, _, -, hw, -, hl, hne, hsize⟩ := hentry
  refine ⟨ordered_of_hostPorts hwan hw.le, by rwa [hhost], ordered_of_hostPorts hlan hl.le, ?_⟩
  have hwle := hw.le
  have hlle := hl.le
  rw [← hwan, ← hlan] at hsize
  rw [← hwan] at hwle
  rw [← hlan] at hlle
  simp only [hostPorts] at hsize hwle hlle
  unfold extent
  omega

theorem ipOk_of_entry {word : Bytes} (h : ∃ first last, IpEntry L word first last) : IpOk L word := by
  intro r hr
  obtain ⟨first, last, hentry⟩ := h
  obtain ⟨r', hr', hfirst, hlast⟩ := filterIpWord_of_entry hentry
  rw [hr] at hr'
  cases hr'
  obtain ⟨_, _, -, -, -, hle⟩ := hentry
  rwa [hfirst, hlast]

theorem protoOk_of_entry {word : Bytes} (h : (∃ host lan, HostEntry L word host lan) ∨ ∃ lan, AnyEntry word lan)
    (ipproto : ℕ) : ProtoOk L ipproto word := by
  have hports : ∃ lanIpaddr lanPort lan, word = lanIpaddr ++ (bytes ":" ++ lanPort) ∧ Without ":" lanIpaddr ∧
      PortRange lanPort lan := by
    rcases h with ⟨host, lan, lanIpaddr, lanPort, hword, ⟨-, hsep⟩, hlan⟩ | ⟨lan, lanPort, hword, hlan⟩
    · exact ⟨lanIpaddr, lanPort, lan, hword, hsep.mono (by decide), hlan⟩
    · exact ⟨bytes "*", lanPort, lan, hword, by decide, hlan⟩
  obtain ⟨lanIpaddr, lanPort, lan, rfl, hsep, hlan⟩ := hports
  intro start hstart
  obtain ⟨start', hstart', -, hlan'⟩ := filterProtoWord_of_ports (L := L) hsep hlan ipproto
  rw [hstart] at hstart'
  cases hstart'
  exact ordered_of_hostPorts hlan' hlan.1

theorem autofwOk_of_entry {i : ℕ} (h : ∀ value, value? u nv (numbered "autofw_port" i) = some value →
    Ranged u nv i ∨ ∃ e, AutofwEntry value e) : AutofwOk u nv i := by
  intro l app hl hout happ
  obtain ⟨value, hvalue, hline⟩ := Option.bind_eq_some_iff.mp hl
  rcases h value hvalue with ⟨l', hl', hnew⟩ | ⟨e, hentry⟩
  · rw [hl] at hl'
    cases hl'
    rw [hout] at hnew
    cases hnew
  · obtain ⟨l', app', hl', -, happ', hvalid, -⟩ := autofwLine_of_entry hentry nv
    rw [hline] at hl'
    cases hl'
    rw [happ] at happ'
    cases happ'
    unfold validAutofwPort at hvalid
    simp only [Bool.and_eq_true, decide_eq_true_eq] at hvalid
    exact ⟨hvalid.1.1.2, hvalid.1.2, hvalid.2⟩

theorem convertible_iff (h : WellFormed L u nv) :
    Convertible L u nv ↔ ∀ i ∈ [1, 2, 3, 4, 5, 6], PortOk L nv i := by
  constructor
  · rintro ⟨-, -, -, -, -, hports, -⟩
    exact hports
  · intro hports
    refine ⟨fun w hw => forwardOk_of_entry (h.forwardTcp w hw) _, fun w hw => forwardOk_of_entry (h.forwardUdp w hw) _,
      fun w hw => ipOk_of_entry (h.filterIp w hw), fun w hw => protoOk_of_entry (h.filterTcp w hw) _,
      fun w hw => protoOk_of_entry (h.filterUdp w hw) _, hports, fun i hi => ?_⟩
    exact autofwOk_of_entry (h.autofwPort i (List.mem_range.mp hi))

/-! ### The migration -/

theorem addedForwards_eq (h : WellFormed L u nv) : addedForwards L nv = deprecatedForwards L nv := by
  have htcp : ∀ x, (∃ w ∈ wordsOf nv (.lit "forward_tcp"), x ∈ wordForwards L ipprotoTcp w) ↔
      ∃ w ∈ wordsOf nv (.lit "forward_tcp"), x ∈ forwardsOf L ipprotoTcp w := fun x =>
    exists_congr fun w => and_congr_right fun hw => by rw [wordForwards_of_entry (h.forwardTcp w hw)]
  have hudp : ∀ x, (∃ w ∈ wordsOf nv (.lit "forward_udp"), x ∈ wordForwards L ipprotoUdp w) ↔
      ∃ w ∈ wordsOf nv (.lit "forward_udp"), x ∈ forwardsOf L ipprotoUdp w := fun x =>
    exists_congr fun w => and_congr_right fun hw => by rw [wordForwards_of_entry (h.forwardUdp w hw)]
  ext x
  exact or_congr (htcp x) (hudp x)

/-- What a line with a single outbound port says is read of it as it stands. -/
theorem deprecatedApps_subset : deprecatedApps u nv ⊆ (autofwTable u).all nv := by
  rintro x ⟨i, -, value, e, hvalue, hentry, hx⟩
  obtain ⟨l, app, hl, -, happ, hvalid, htriggers⟩ := autofwLine_of_entry hentry nv
  have hget : getAutofwPort u nv i = some app := by
    unfold getAutofwPort
    simp only [Option.bind_eq_bind, hvalue, Option.bind_some, hl, happ, hvalid, if_true]
  refine ⟨i, app, hget, ?_⟩
  show x ∈ triggered app
  rwa [htriggers]

/-- After the conversion of well-formed entries, only the client filters may say something else. -/
theorem preserved_iff (h : WellFormed L u nv) (hnv' : convertDeprecated L u nv = some nv') :
    Preserved L u nv nv' ↔ SourcesCovered L u nv := by
  have hforwards := convertDeprecated_forwards hnv'
  have hfilters := convertDeprecated_filters hnv'
  have happs := convertDeprecated_apps hnv'
  rw [addedForwards_eq h] at hforwards
  rw [← filters_kept_iff h, ← hfilters.adds]
  constructor
  · exact fun hp => hp.filters
  · intro hf
    refine ⟨hforwards.adds, hf, ?_, hforwards.keeps, hfilters.keeps, happs.ranged⟩
    rw [Set.union_eq_self_of_subset_right deprecatedApps_subset]
    unfold Table.all
    simp only [happs.entry]

/-- **The migration** of well-formed entries keeps what they say, and overwrites no valid
new entry, exactly if the lines of `filter_port` are in order and no client
other than 0.0.0.0 is affected by a `*` or by a line from 0.0.0.0 to 0.0.0.0 alone. -/
theorem migration_preserves_iff (L : Libc) (u : Undef) {nv : VarMap} (h : WellFormed L u nv) :
    (∃ nv', convertDeprecated L u nv = some nv' ∧ Preserved L u nv nv') ↔
      (∀ i ∈ [1, 2, 3, 4, 5, 6], PortOk L nv i) ∧ SourcesCovered L u nv := by
  rw [← convertible_iff h, ← isSome_convertDeprecated]
  constructor
  · rintro ⟨nv', hnv', hp⟩
    rw [hnv']
    exact ⟨rfl, (preserved_iff h hnv').mp hp⟩
  · rintro ⟨hsome, hcov⟩
    obtain ⟨nv', hnv'⟩ := Option.isSome_iff_exists.mp hsome
    exact ⟨nv', hnv', (preserved_iff h hnv').mpr hcov⟩

/-- No word has a `*`, and no line is from 0.0.0.0 to 0.0.0.0. -/
theorem sourcesCovered_of_hosts (htcp : ∀ w ∈ wordsOf nv (.lit "filter_tcp"), w.head? ≠ some 42)
    (hudp : ∀ w ∈ wordsOf nv (.lit "filter_udp"), w.head? ≠ some 42)
    (hlines : ∀ i ∈ [1, 2, 3, 4, 5, 6], ∀ r, filterPort L nv i = some r →
      ¬ (r.1.m.src.ipaddr = 0 ∧ r.2.m.src.ipaddr = 0)) : SourcesCovered L u nv := by
  have hstar : ∀ {w lan}, AnyEntry w lan → w.head? = some 42 := by
    rintro w lan ⟨lanPort, rfl, -⟩
    rfl
  intro x _ _ _
  constructor
  · rintro (⟨w, hw, lan, hentry, -⟩ | ⟨w, hw, lan, hentry, -⟩)
    · exact absurd (hstar hentry) (htcp w hw)
    · exact absurd (hstar hentry) (hudp w hw)
  · rintro ⟨i, hi, r, hr, h1, h2, -⟩
    exact absurd ⟨h1, h2⟩ (hlines i hi r hr)

/-- A forwarded port, a blocked range of addresses and a blocked port of one client. -/
def webVars : VarMap :=
  vars [("forward_tcp", "80-80>10.0.0.2:8080-8080"), ("filter_ip", "10.0.0.5-10.0.0.9"),
    ("filter_tcp", "10.0.0.7:25-25")]

theorem wellFormed_webVars : WellFormed dottedLibc .nothing webVars where
  forwardTcp := by
    rw [show wordsOf webVars (.lit "forward_tcp") = [bytes "80-80>10.0.0.2:8080-8080"] by decide]
    intro w hw
    rw [List.mem_singleton.mp hw]
    refine ⟨(80, 80), 0x0a000002, (8080, 8080), bytes "80-80", bytes "10.0.0.2", bytes "8080-8080", rfl,
      Or.inl ⟨le_refl _, bytes "80", bytes "80", rfl, by decide, by decide⟩, ⟨by decide, by decide⟩,
      Or.inl ⟨le_refl _, bytes "8080", bytes "8080", rfl, by decide, by decide⟩, by decide, by decide⟩
  forwardUdp := by
    rw [show wordsOf webVars (.lit "forward_udp") = [] by decide]
    exact fun w hw => absurd hw List.not_mem_nil
  filterIp := by
    rw [show wordsOf webVars (.lit "filter_ip") = [bytes "10.0.0.5-10.0.0.9"] by decide]
    intro w hw
    rw [List.mem_singleton.mp hw]
    exact ⟨0x0a000005, 0x0a000009, bytes "10.0.0.5", bytes "10.0.0.9", rfl, ⟨by decide, by decide⟩,
      ⟨by decide, by decide⟩, by decide⟩
  filterTcp := by
    rw [show wordsOf webVars (.lit "filter_tcp") = [bytes "10.0.0.7:25-25"] by decide]
    intro w hw
    rw [List.mem_singleton.mp hw]
    exact Or.inl ⟨0x0a000007, (25, 25), bytes "10.0.0.7", bytes "25-25", rfl, ⟨by decide, by decide⟩,
      le_refl _, bytes "25", bytes "25", rfl, by decide, by decide⟩
  filterUdp := by
    rw [show wordsOf webVars (.lit "filter_udp") = [] by decide]
    exact fun w hw => absurd hw List.not_mem_nil
  autofwPort i hi value hvalue := by
    have hnone : ∀ i < 10, value? .nothing webVars (numbered "autofw_port" i) = none := by decide
    rw [hnone i hi] at hvalue
    cases hvalue

theorem migration_preserves_iff_web : WellFormed dottedLibc .nothing webVars ∧
    ∃ nv', convertDeprecated dottedLibc .nothing webVars = some nv' ∧
      Preserved dottedLibc .nothing webVars nv' := by
  have hnone : ∀ i ∈ [1, 2, 3, 4, 5, 6], filterPort dottedLibc webVars i = none := by decide
  refine ⟨wellFormed_webVars, (migration_preserves_iff _ _ wellFormed_webVars).mpr ⟨?_, ?_⟩⟩
  · intro i hi r hr
    rw [hnone i hi] at hr
    cases hr
  · apply sourcesCovered_of_hosts (by decide) (by decide)
    intro i hi r hr
    rw [hnone i hi] at hr
    cases hr

/-- A word has either an address or a `*`. -/
theorem AnyEntry.not_host {word : Bytes} {lan lan' : ℕ × ℕ} {host : Addr} (h : AnyEntry word lan) :
    ¬ HostEntry L word host lan' := by
  rintro ⟨lanIpaddr, lanPort, hword, ⟨haddr, hsep⟩, -⟩
  obtain ⟨lanPort', rfl, -⟩ := h
  have hany : cut ":" (bytes "*" ++ (bytes ":" ++ lanPort')) = some (bytes "*", lanPort') :=
    cut_append (c := 58) _ rfl (by decide) (by decide)
  rw [hword, cut_append (c := 58) _ rfl (by decide) (hsep.mono (by decide))] at hany
  cases hany
  rw [L.aton_star] at haddr
  cases haddr

/-- Port 80 was blocked for all clients. -/
def starVars : VarMap := vars [("filter_tcp", "*:80-80")]

theorem anyEntry_star : AnyEntry (bytes "*:80-80") (80, 80) :=
  ⟨bytes "80-80", rfl, le_refl _, bytes "80", bytes "80", rfl, by decide, by decide⟩

theorem wellFormed_starVars : WellFormed dottedLibc .nothing starVars where
  forwardTcp := by
    rw [show wordsOf starVars (.lit "forward_tcp") = [] by decide]
    exact fun w hw => absurd hw List.not_mem_nil
  forwardUdp := by
    rw [show wordsOf starVars (.lit "forward_udp") = [] by decide]
    exact fun w hw => absurd hw List.not_mem_nil
  filterIp := by
    rw [show wordsOf starVars (.lit "filter_ip") = [] by decide]
    exact fun w hw => absurd hw List.not_mem_nil
  filterTcp := by
    rw [show wordsOf starVars (.lit "filter_tcp") = [bytes "*:80-80"] by decide]
    intro w hw
    rw [List.mem_singleton.mp hw]
    exact Or.inr ⟨(80, 80), anyEntry_star⟩
  filterUdp := by
    rw [show wordsOf starVars (.lit "filter_udp") = [] by decide]
    exact fun w hw => absurd hw List.not_mem_nil
  autofwPort i hi value hvalue := by
    have hnone : ∀ i < 10, value? .nothing starVars (numbered "autofw_port" i) = none := by decide
    rw [hnone i hi] at hvalue
    cases hvalue

/-- After the conversion it is blocked for 0.0.0.0. -/
theorem star_word_narrowed : WellFormed dottedLibc .nothing starVars ∧
    ¬ ∃ nv', convertDeprecated dottedLibc .nothing starVars = some nv' ∧
      Preserved dottedLibc .nothing starVars nv' := by
  refine ⟨wellFormed_starVars, ?_⟩
  rintro ⟨nv', hnv', hp⟩
  have hnone : ∀ i ∈ [1, 2, 3, 4, 5, 6], filterPort dottedLibc starVars i = none := by decide
  have htcp : wordsOf starVars (.lit "filter_tcp") = [bytes "*:80-80"] := by decide
  have hcov := (preserved_iff wellFormed_starVars hnv').mp hp
  -- a packet from 10.0.0.1 to port 80
  have hx := hcov ⟨0x0a000001, ipprotoTcp, 80, (0, 0), (0, 0)⟩ (by decide) ?_ ?_
  · have hany : (⟨0x0a000001, ipprotoTcp, 80, (0, 0), (0, 0)⟩ : Packet) ∈ deprecatedAny starVars := by
      refine Or.inl ⟨bytes "*:80-80", ?_, (80, 80), anyEntry_star, rfl, ⟨le_refl _, le_refl _⟩, rfl, rfl⟩
      rw [htcp]
      exact List.mem_cons_self
    obtain ⟨i, hi, r, hr, -⟩ := hx.mp hany
    rw [hnone i hi] at hr
    cases hr
  · rintro ⟨i, r, hr, -⟩
    have hlookup : starVars.lookup (numbered "filter_client" i) = none := by
      show Finmap.lookup _ (Finmap.insert _ _ ∅) = none
      rw [Finmap.lookup_insert_of_ne _ (ne_numbered (by decide) (by decide) i).symm]
      rfl
    have hvalue : value? .nothing starVars (numbered "filter_client" i) = none := by
      unfold value?
      rw [hlookup]
    have hget : getFilterClient dottedLibc .nothing starVars i = none := by
      unfold getFilterClient
      rw [hvalue]
      rfl
    cases hget.symm.trans hr
  · rintro (((⟨w, hw, -⟩ | ⟨w, hw, host, lan, hentry, -⟩) | ⟨w, hw, -⟩) | ⟨i, hi, r, hr, -⟩)
    · rw [show wordsOf starVars (.lit "filter_ip") = [] by decide] at hw
      cases hw
    · rw [htcp] at hw
      rw [List.mem_singleton.mp hw] at hentry
      exact anyEntry_star.not_host hentry
    · rw [show wordsOf starVars (.lit "filter_udp") = [] by decide] at hw
      cases hw
    · rw [hnone i hi] at hr
      cases hr

end Nvparse
end Router
