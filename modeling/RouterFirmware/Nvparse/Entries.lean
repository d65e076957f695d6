/-
# What entries say

A new entry is the record that its get function reads; it filters packets,
forwards ports or waits for a trigger as long as it is enabled. A deprecated entry is
text by a grammar, given in the comments of the converters, and says what the
grammar says, not what the code reads. Only a line of `filter_port` is taken as its
numbers are read.

* `forwardTable`, `clientTable`, `autofwTable`: the numbered variables with what
  their records mean.
* `ForwardEntry`, `IpEntry`, `HostEntry`, `AnyEntry`, `AutofwEntry`: the grammar.
* `forwardWord_of_entry` and its likes: the converters read it.
-/
import RouterFirmware.Nvparse.Asserts
import RouterFirmware.Nvparse.Client

namespace Router
namespace Nvparse

open CMem CText Bits Netconf Stages
open Nvram (VarMap)

/-! ### Records -/

/-- Ports in host order. -/
def hostPorts (p : UInt16 × UInt16) : ℕ × ℕ := ((ntohs p.1).toNat, (ntohs p.2).toNat)

/-- In a range of ports. -/
def Within (p : ℕ × ℕ) (port : ℕ) : Prop := p.1 ≤ port ∧ port ≤ p.2

/-- A packet from a client, and the days and times it is filtered. -/
structure Packet where
  source : Addr
  ipproto : ℤ
  port : ℕ
  days : ℕ × ℕ
  secs : ℕ × ℕ

/-- On all days and at all times. -/
def Packet.Always (x : Packet) : Prop := x.days = (0, 0) ∧ x.secs = (0, 0)

/-- The packet is of the kind that the filter is for, whatever its source. -/
def Packet.Of (x : Packet) (f : NetconfFilter) : Prop :=
  hasBit f.m.flags netconfDisabled = false ∧ x.ipproto = f.m.ipproto ∧
    Within (hostPorts f.m.dst.ports) x.port ∧ x.days = f.m.days ∧ x.secs = f.m.secs

/-- The packets that a client filter matches. -/
def filtered (r : NetconfFilter × NetconfFilter) : Set Packet :=
  {x | x.Of r.1 ∧ x.source ∈ clientSources r.1 r.2}

/-- A port of the router, and where it is forwarded to. -/
structure Forward where
  ipproto : ℤ
  wanPort : ℕ
  lanIpaddr : Addr
  lanPorts : ℕ × ℕ

def forwarded (nat : NetconfNat) : Set Forward :=
  {x | hasBit nat.m.flags netconfDisabled = false ∧ x.ipproto = nat.m.ipproto ∧
    Within (hostPorts nat.m.dst.ports) x.wanPort ∧ x.lanIpaddr = nat.ipaddr ∧ x.lanPorts = hostPorts nat.ports}

/-- An outbound port, and the ports that are forwarded once it is used. -/
structure Trigger where
  outProto : ℤ
  outPort : ℕ
  inProto : ℕ
  inPorts : ℕ × ℕ
  toPorts : ℕ × ℕ

def triggered (app : NetconfApp) : Set Trigger :=
  {x | hasBit app.m.flags netconfDisabled = false ∧ x.outProto = app.m.ipproto ∧
    Within (hostPorts app.m.dst.ports) x.outPort ∧ x.inProto = app.proto.toNat ∧
    x.inPorts = hostPorts app.dport ∧ x.toPorts = hostPorts app.toPorts}

theorem value?_congr {u : Undef} {nv nv' : VarMap} {name : CStr} (h : look nv' name = look nv name) :
    value? u nv' name = value? u nv name := by
  unfold value?
  rw [show nv'.lookup name = nv.lookup name from h]

section Tables

variable (L : Libc) (u : Undef)

/-- Port forwards. -/
def forwardTable : Table look ℕ NetconfNat Forward where
  name := numbered "forward_port"
  common := []
  get := getForwardPort L u
  meaning := forwarded
  congr h := by
    unfold getForwardPort
    rw [value?_congr (h _ List.mem_cons_self)]

/-- Client filters. -/
def clientTable : Table look ℕ (NetconfFilter × NetconfFilter) Packet where
  name := numbered "filter_client"
  common := [.lit "lan_ifname"]
  get := getFilterClient L u
  meaning := filtered
  congr {nv nv' _} h := by
    have hif : nvramSafeGet nv' (.lit "lan_ifname") = nvramSafeGet nv (.lit "lan_ifname") :=
      nvramSafeGet_congr fun k hk => h k (List.mem_cons_of_mem _ hk)
    unfold getFilterClient clientFilters
    rw [value?_congr (h _ List.mem_cons_self), hif]

/-- Applications. -/
def autofwTable : Table look ℕ NetconfApp Trigger where
  name := numbered "autofw_port"
  common := [.lit "lan_ifname"]
  get := getAutofwPort u
  meaning := triggered
  congr {nv nv' _} h := by
    have hif : nvramSafeGet nv' (.lit "lan_ifname") = nvramSafeGet nv (.lit "lan_ifname") :=
      nvramSafeGet_congr fun k hk => h k (List.mem_cons_of_mem _ hk)
    unfold getAutofwPort autofwApp
    rw [value?_congr (h _ List.mem_cons_self), hif]

end Tables

/-! ### The grammar of deprecated entries -/

section Grammar

/-- A decimal number, of a port. -/
def Number (s : Bytes) (n : ℕ) : Prop :=
  s ≠ [] ∧ (∀ c ∈ s, isDigit c = true) ∧ digitsVal s = n ∧ n < 2 ^ 16

instance (s : Bytes) (n : ℕ) : Decidable (Number s n) := inferInstanceAs (Decidable (_ ∧ _))

/-- `start-end`, in order. -/
def PortRange (s : Bytes) (p : ℕ × ℕ) : Prop :=
  p.1 ≤ p.2 ∧ ∃ start stop, s = start ++ (bytes "-" ++ stop) ∧ Number start p.1 ∧ Number stop p.2

/-- `start-end`, or `start` alone. -/
def PortOrRange (s : Bytes) (p : ℕ × ℕ) : Prop := PortRange s p ∨ Number s p.1 ∧ p.2 = p.1

def ProtoName (s : Bytes) (ipproto : ℕ) : Prop :=
  s = bytes "tcp" ∧ ipproto = ipprotoTcp ∨ s = bytes "udp" ∧ ipproto = ipprotoUdp

def EnableName (s : Bytes) (enabled : Bool) : Prop :=
  s = bytes "on" ∧ enabled = true ∨ s = bytes "off" ∧ enabled = false

variable (L : Libc)

/-- An address as `inet_aton` takes it, with none of the separators in it. -/
def Address (s : Bytes) (a : Addr) : Prop := L.inetAton s = some a ∧ Without ">:-" s

/-- `wan_port0-wan_port1>lan_ipaddr:lan_port0-lan_port1`: ranges of one size, to a host. -/
def ForwardEntry (word : Bytes) (wan : ℕ × ℕ) (host : Addr) (lan : ℕ × ℕ) : Prop :=
  ∃ wanPort lanIpaddr lanPort, word = wanPort ++ (bytes ">" ++ (lanIpaddr ++ (bytes ":" ++ lanPort))) ∧
    PortOrRange wanPort wan ∧ Address L lanIpaddr host ∧ PortOrRange lanPort lan ∧
    host ≠ 0 ∧ wan.2 - wan.1 = lan.2 - lan.1

/-- `lan_ipaddr0-lan_ipaddr1`, in order. -/
def IpEntry (word : Bytes) (first last : Addr) : Prop :=
  ∃ lanIpaddr0 lanIpaddr1, word = lanIpaddr0 ++ (bytes "-" ++ lanIpaddr1) ∧
    Address L lanIpaddr0 first ∧ Address L lanIpaddr1 last ∧ first.toNat ≤ last.toNat

/-- `lan_ipaddr:lan_port0-lan_port1`. -/
def HostEntry (word : Bytes) (host : Addr) (lan : ℕ × ℕ) : Prop :=
  ∃ lanIpaddr lanPort, word = lanIpaddr ++ (bytes ":" ++ lanPort) ∧ Address L lanIpaddr host ∧ PortRange lanPort lan

/-- `*:lan_port0-lan_port1`. -/
def AnyEntry (word : Bytes) (lan : ℕ × ℕ) : Prop :=
  ∃ lanPort, word = bytes "*" ++ (bytes ":" ++ lanPort) ∧ PortRange lanPort lan

/-- What a line `autofw_port` says. -/
structure Application where
  outProto : ℕ
  outPort : ℕ
  inProto : ℕ
  inPorts : ℕ × ℕ
  toPorts : ℕ × ℕ
  enabled : Bool

/-- `out_proto:out_port,in_proto:in_start-in_end>to_start-to_end,enable,desc`: ranges of one size. -/
def AutofwEntry (value : Bytes) (e : Application) : Prop :=
  ∃ outProto outPort inProto inPort toPort enable desc,
    value = outProto ++ (bytes ":" ++ (outPort ++ (bytes "," ++ (inProto ++ (bytes ":" ++ (inPort ++
      (bytes ">" ++ (toPort ++ (bytes "," ++ (enable ++ descTail desc)))))))))) ∧
    ProtoName outProto e.outProto ∧ Number outPort e.outPort ∧ ProtoName inProto e.inProto ∧
    PortOrRange inPort e.inPorts ∧ PortOrRange toPort e.toPorts ∧ EnableName enable e.enabled ∧
    e.inPorts.2 - e.inPorts.1 = e.toPorts.2 - e.toPorts.1

end Grammar

/-! ### What the words say -/

section Words

variable (L : Libc)

/-- A word of `forward_tcp` or `forward_udp`. -/
def forwardsOf (ipproto : ℕ) (word : Bytes) : Set Forward :=
  {x | ∃ wan host lan, ForwardEntry L word wan host lan ∧ x.ipproto = ipproto ∧ Within wan x.wanPort ∧
    x.lanIpaddr = host ∧ x.lanPorts = lan}

/-- A word of `filter_ip`: both protocols, all ports. -/
def ipOf (word : Bytes) : Set Packet :=
  {x | ∃ first last, IpEntry L word first last ∧ (first.toNat ≤ x.source.toNat ∧ x.source.toNat ≤ last.toNat) ∧
    (x.ipproto = ipprotoTcp ∨ x.ipproto = ipprotoUdp) ∧ x.port < 2 ^ 16 ∧ x.Always}

/-- A word of `filter_tcp` or `filter_udp` with an address. -/
def hostOf (ipproto : ℕ) (word : Bytes) : Set Packet :=
  {x | ∃ host lan, HostEntry L word host lan ∧ x.source = host ∧ x.ipproto = ipproto ∧ Within lan x.port ∧ x.Always}

/-- A word of `filter_tcp` or `filter_udp` with a `*`. -/
def anyOf (ipproto : ℕ) (word : Bytes) : Set Packet :=
  {x | ∃ lan, AnyEntry word lan ∧ x.ipproto = ipproto ∧ Within lan x.port ∧ x.Always}

/-- A line of `filter_port`, from an address to another. -/
def lineOf (r : NetconfFilter × NetconfFilter) : Set Packet :=
  {x | x.Of r.1 ∧ r.1.m.src.ipaddr.toNat ≤ x.source.toNat ∧ x.source.toNat ≤ r.2.m.src.ipaddr.toNat}

def Application.triggers (e : Application) : Set Trigger :=
  {x | e.enabled = true ∧ x.outProto = e.outProto ∧ x.outPort = e.outPort ∧ x.inProto = e.inProto ∧
    x.inPorts = e.inPorts ∧ x.toPorts = e.toPorts}

end Words

/-! ### The converters read the grammar -/

theorem Number.htons {s : Bytes} {n : ℕ} (h : Number s n) : (ntohs (htons (atoi s))).toNat = n := by
  obtain ⟨hne, hdigits, rfl, hlt⟩ := h
  have hatoi := @atoi_digits s hne hdigits (by omega) [] (by simp)
  rw [List.append_nil] at hatoi
  unfold Nvparse.htons
  rw [hatoi, ntohs_ntohs, Int.emod_eq_of_lt (by omega) (by omega), Int.toNat_natCast]
  exact UInt16.toNat_ofNat_of_lt' hlt

theorem Number.without {s : Bytes} {n : ℕ} (h : Number s n) {delim : String}
    (hdelim : ∀ x ∈ bytes delim, isDigit x = false) : Without delim s := by
  intro x hx hd
  have hdigit := h.2.1 x hx
  rw [hdelim x hd] at hdigit
  cases hdigit

theorem hostPorts_portsOf {s : Bytes × Bytes} {p : ℕ × ℕ} (h1 : Number s.1 p.1) (h2 : Number s.2 p.2) :
    hostPorts (portsOf s) = p := Prod.ext h1.htons h2.htons

/-- A range is cut at its dash. -/
theorem PortRange.cut {s : Bytes} {p : ℕ × ℕ} (h : PortRange s p) :
    ∃ r, Nvparse.cut "-" s = some r ∧ Number r.1 p.1 ∧ Number r.2 p.2 := by
  obtain ⟨-, start, stop, rfl, h1, h2⟩ := h
  exact ⟨(start, stop), cut_append (c := 45) _ rfl (by decide) (h1.without (by decide)), h1, h2⟩

theorem PortOrRange.le {s : Bytes} {p : ℕ × ℕ} (h : PortOrRange s p) : p.1 ≤ p.2 := by
  rcases h with h | ⟨-, h⟩
  · exact h.1
  · exact h.ge

theorem PortOrRange.ports {s : Bytes} {p : ℕ × ℕ} (h : PortOrRange s p) :
    hostPorts (portsOf (rangeOf s)) = p := by
  rcases h with ⟨-, start, stop, rfl, h1, h2⟩ | ⟨h1, h2⟩
  · have hdash : Without "-" start := h1.without (by decide)
    have hsep : strsep (bytes "-") (start ++ (bytes "-" ++ stop)) = (start, some stop) :=
      strsep_append (c := 45) (by decide) stop hdash
    unfold rangeOf
    rw [hsep]
    exact hostPorts_portsOf h1 h2
  · have hdash : Without "-" s := h1.without (by decide)
    unfold rangeOf
    rw [strsep_eq_none hdash]
    exact hostPorts_portsOf h1 (h2 ▸ h1)

theorem PortOrRange.without {s : Bytes} {p : ℕ × ℕ} (h : PortOrRange s p) {delim : String}
    (hdelim : ∀ x ∈ bytes delim, isDigit x = false) (hdash : Without delim (bytes "-")) : Without delim s := by
  rcases h with ⟨-, start, stop, rfl, h1, h2⟩ | ⟨h1, -⟩
  · rw [without_append, without_append]
    exact ⟨h1.without hdelim, hdash, h2.without hdelim⟩
  · exact h1.without hdelim

theorem Without.mono {delim delim' : String} {s : Bytes} (h : Without delim s)
    (hsub : ∀ x ∈ bytes delim', x ∈ bytes delim) : Without delim' s := fun x hx hd => h x hx (hsub x hd)

section Reading

variable {L : Libc}

/-- **A word of `forward_tcp` or `forward_udp`** gives the port forward it says. -/
theorem forwardWord_of_entry {word : Bytes} {wan lan : ℕ × ℕ} {host : Addr}
    (h : ForwardEntry L word wan host lan) (ipproto : ℕ) :
    ∃ nat, forwardWord L ipproto word = some nat ∧ nat.m.ipproto = ipproto ∧ nat.m.flags = 0 ∧
      hostPorts nat.m.dst.ports = wan ∧ nat.ipaddr = host ∧ hostPorts nat.ports = lan := by
  obtain ⟨wanPort, lanIpaddr, lanPort, rfl, hwan, ⟨hhost, hsep⟩, hlan, -, -⟩ := h
  unfold forwardWord
  rw [cut_append (c := 62) _ rfl (by decide) (hwan.without (by decide) (by decide))]
  simp only [Option.bind_eq_bind, Option.bind_some]
  rw [cut_append (c := 58) _ rfl (by decide) (hsep.mono (by decide))]
  refine ⟨_, rfl, rfl, rfl, hwan.ports, ?_, hlan.ports⟩
  show (L.inetAton lanIpaddr).getD 0 = host
  rw [hhost]
  rfl

/-- **A word of `filter_ip`** gives its addresses, under full masks. -/
theorem filterIpWord_of_entry {word : Bytes} {first last : Addr} (h : IpEntry L word first last) :
    ∃ r, filterIpWord L word = some r ∧ r.1.m.src.ipaddr = first ∧ r.2.m.src.ipaddr = last := by
  obtain ⟨lanIpaddr0, lanIpaddr1, rfl, ⟨h0, hsep⟩, ⟨h1, -⟩, -⟩ := h
  unfold filterIpWord
  rw [cut_append (c := 45) _ rfl (by decide) (hsep.mono (by decide))]
  refine ⟨_, rfl, ?_, ?_⟩
  · show (L.inetAton lanIpaddr0).getD 0 = first
    rw [h0]
    rfl
  · show (L.inetAton lanIpaddr1).getD _ = last
    rw [h1]
    rfl

/-- **A word of `filter_tcp` or `filter_udp`**: `inet_aton` decides about the address. -/
theorem filterProtoWord_of_ports {lanIpaddr lanPort : Bytes} {lan : ℕ × ℕ} (hsep : Without ":" lanIpaddr)
    (hlan : PortRange lanPort lan) (ipproto : ℕ) :
    ∃ start, filterProtoWord L ipproto (lanIpaddr ++ (bytes ":" ++ lanPort)) = some start ∧
      start.m.src.ipaddr = (L.inetAton lanIpaddr).getD 0 ∧ hostPorts start.m.dst.ports = lan := by
  obtain ⟨ports, hcut, h1, h2⟩ := hlan.cut
  unfold filterProtoWord
  rw [cut_append (c := 58) _ rfl (by decide) hsep]
  simp only [Option.bind_eq_bind, Option.bind_some]
  rw [hcut]
  exact ⟨_, rfl, rfl, hostPorts_portsOf h1 h2⟩

/-- What a record has that is made of a word of `filter_ip`. -/
theorem filterIpWord_fields {word : Bytes} {r : NetconfFilter × NetconfFilter} (h : filterIpWord L word = some r) :
    r.1.m.src.netmask = 0xffffffff ∧ r.1.m.flags = 0 ∧ hostPorts r.1.m.dst.ports = (0, 2 ^ 16 - 1) ∧
      r.1.m.days = (0, 0) ∧ r.1.m.secs = (0, 0) := by
  obtain ⟨p, -, h⟩ := Option.bind_eq_some_iff.mp h
  cases h
  have hports : hostPorts (0, Nvparse.htons 0xffff) = (0, 2 ^ 16 - 1) := by decide
  exact ⟨rfl, rfl, hports, rfl, rfl⟩

/-- What a record has that is made of a word of `filter_tcp` or `filter_udp`. -/
theorem filterProtoWord_fields {ipproto : ℕ} {word : Bytes} {start : NetconfFilter}
    (h : filterProtoWord L ipproto word = some start) :
    start.m.src.netmask = 0xffffffff ∧ start.m.flags = 0 ∧ start.m.ipproto = ipproto ∧
      start.m.days = (0, 0) ∧ start.m.secs = (0, 0) := by
  obtain ⟨p, -, h⟩ := Option.bind_eq_some_iff.mp h
  obtain ⟨q, -, h⟩ := Option.bind_eq_some_iff.mp h
  cases h
  exact ⟨rfl, rfl, rfl, rfl, rfl⟩

theorem ProtoName.protoOf {s : Bytes} {ipproto : ℕ} (h : ProtoName s ipproto) :
    Nvparse.protoOf s = some ipproto ∧ (ipproto = ipprotoTcp ∨ ipproto = ipprotoUdp) := by
  rcases h with ⟨rfl, rfl⟩ | ⟨rfl, rfl⟩
  · exact ⟨by decide, Or.inl rfl⟩
  · exact ⟨by decide, Or.inr rfl⟩

theorem ProtoName.without {s : Bytes} {ipproto : ℕ} (h : ProtoName s ipproto) : Without ":" s := by
  rcases h with ⟨rfl, -⟩ | ⟨rfl, -⟩
  · decide
  · decide

theorem EnableName.strsep {s : Bytes} {enabled : Bool} (h : EnableName s enabled) (desc : Option Bytes) :
    strsep (bytes ",") (s ++ descTail desc) = (s, desc) := by
  have hcomma : Without "," s := by
    rcases h with ⟨rfl, -⟩ | ⟨rfl, -⟩
    · decide
    · decide
  cases desc with
  | none =>
    rw [descTail, List.append_nil]
    exact strsep_eq_none hcomma
  | some d => exact strsep_append (c := 44) (by decide) d hcomma

theorem EnableName.flagsOf {s : Bytes} {enabled : Bool} (h : EnableName s enabled) :
    hasBit (Nvparse.flagsOf s) netconfDisabled = !enabled := by
  rcases h with ⟨rfl, rfl⟩ | ⟨rfl, rfl⟩
  · decide
  · decide

/-- **A line `autofw_port`** with a single outbound port gives the application it says. -/
theorem autofwLine_of_entry {value : Bytes} {e : Application} (h : AutofwEntry value e) (nv : VarMap) :
    ∃ l app, autofwLine value = some l ∧ (strsep (bytes "-") l.outPort).2 = none ∧
      autofwApp nv l = some app ∧ validAutofwPort app = true ∧ triggered app = e.triggers := by
  obtain ⟨outProto, outPort, inProto, inPort, toPort, enable, desc, rfl, hop, ho, hip, hi, ht, he, hsize⟩ := h
  have hline : autofwLine (outProto ++ (bytes ":" ++ (outPort ++ (bytes "," ++ (inProto ++ (bytes ":" ++ (inPort ++
      (bytes ">" ++ (toPort ++ (bytes "," ++ (enable ++ descTail desc))))))))))) =
      some ⟨outProto, outPort, inProto, inPort, toPort, enable, desc⟩ := by
    unfold autofwLine
    rw [cut_append (c := 58) _ rfl (by decide) hop.without]
    simp only [Option.bind_eq_bind, Option.bind_some]
    rw [cut_append (c := 44) _ rfl (by decide) (ho.without (by decide))]
    simp only [Option.bind_some]
    rw [cut_append (c := 58) _ rfl (by decide) hip.without]
    simp only [Option.bind_some]
    rw [cut_append (c := 62) _ rfl (by decide) (hi.without (by decide) (by decide))]
    simp only [Option.bind_some]
    rw [cut_append (c := 44) _ rfl (by decide) (ht.without (by decide) (by decide))]
    simp only [Option.bind_some]
    rw [he.strsep]
    rfl
  have hdash : Without "-" outPort := ho.without (by decide)
  have houtPort : PortOrRange outPort (e.outPort, e.outPort) := Or.inr ⟨ho, rfl⟩
  have hout := houtPort.ports
  obtain ⟨hoproto, hotcp⟩ := hop.protoOf
  obtain ⟨hiproto, hitcp⟩ := hip.protoOf
  have hin : (UInt16.ofNat e.inProto).toNat = e.inProto := by
    rcases hitcp with h | h
    · rw [h]
      rfl
    · rw [h]
      rfl
  refine ⟨_, _, hline, by rw [strsep_eq_none hdash], by simp only [autofwApp, hoproto, hiproto]; rfl, ?_, ?_⟩
  · have hordered : ∀ {s p}, PortOrRange s p → ordered (portsOf (rangeOf s)) = true := by
      intro s p hs
      have hle := hs.le
      rw [← hs.ports] at hle
      exact decide_eq_true hle
    have hextent : extent (portsOf (rangeOf inPort)) = extent (portsOf (rangeOf toPort)) := by
      have hle := hi.le
      have hle' := ht.le
      rw [← hi.ports, ← ht.ports] at hsize
      rw [← hi.ports] at hle
      rw [← ht.ports] at hle'
      simp only [hostPorts] at hsize hle hle'
      unfold extent
      omega
    unfold validAutofwPort
    simp only [Bool.and_eq_true, decide_eq_true_eq]
    exact ⟨⟨⟨⟨⟨by exact_mod_cast hotcp, hordered houtPort⟩, by rwa [hin]⟩, hordered hi⟩, hordered ht⟩, hextent⟩
  · ext x
    unfold triggered Application.triggers
    simp only [Set.mem_ofPred_eq, he.flagsOf, hi.ports, ht.ports, hout, hin, Within]
    constructor
    · rintro ⟨hen, h1, ⟨h2, h3⟩, h4⟩
      exact ⟨by simpa using hen, h1, le_antisymm h3 h2, h4⟩
    · rintro ⟨hen, h1, h2, h4⟩
      exact ⟨by simp [hen], h1, ⟨h2.ge, h2.le⟩, h4⟩

end Reading

end Nvparse
end Router
