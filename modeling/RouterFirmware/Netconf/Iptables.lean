/-
# iptables entries and what they match

An `ipt_entry` as netconf and the kernel share it: the `ipt_ip` part, the list
of matches behind it, and the target. Of the matches those netconf knows carry
their data, the others a name; `target_offset == sizeof(struct ipt_entry)` is
the empty list. Interface names are C strings of less than `IFNAMSIZ` bytes, in
arrays that are zero behind the string.

`Entry.matches` is the kernel's decision: `ip_packet_match`, then each match in
turn (`tcp_match`, `udp_match`, `ipt_mac`, `ipt_state`, `ipt_time`). A packet is
what they look at; ports are in host order.
-/
import RouterFirmware.Lib.Bits
import RouterFirmware.Lib.CMem

namespace Router
namespace Netconf

open CMem Bits

abbrev Addr := BitVec 32
abbrev Mac := BitVec 48

/-- `char name[IFNAMSIZ]`. -/
structure Ifname where
  str : CStr
  lt : str.length < 16
deriving DecidableEq

/-- The bytes of the array. -/
def Ifname.pad (s : Ifname) (i : Fin 16) : UInt8 := s.str.bytes.getD i 0

/-- No name. -/
def Ifname.none : Ifname := ⟨⟨[], nul_notMem_nil⟩, by decide⟩

/-- `struct ipt_ip`. -/
@[ext] structure IptIp where
  src : Addr
  dst : Addr
  smsk : Addr
  dmsk : Addr
  iniface : Ifname
  outiface : Ifname
  inifaceMask : Fin 16 → UInt8
  outifaceMask : Fin 16 → UInt8
  proto : ℕ
  flags : BitVec 8
  invflags : BitVec 8
deriving DecidableEq

def IptIp.blank : IptIp :=
  ⟨0, 0, 0, 0, .none, .none, fun _ => 0, fun _ => 0, 0, 0, 0⟩

def iptFFrag : BitVec 8 := 0x01
def iptInvViaIn : BitVec 8 := 0x01
def iptInvViaOut : BitVec 8 := 0x02
def iptInvSrcip : BitVec 8 := 0x08
def iptInvDstip : BitVec 8 := 0x10
def iptInvFrag : BitVec 8 := 0x20
def iptInvProto : BitVec 8 := 0x40

def ipprotoTcp : ℕ := 6
def ipprotoUdp : ℕ := 17

/-- `struct ipt_tcp`. -/
structure IptTcp where
  spts : UInt16 × UInt16
  dpts : UInt16 × UInt16
  option : UInt8
  flgMask : BitVec 8
  flgCmp : BitVec 8
  invflags : BitVec 8
deriving DecidableEq

/-- `struct ipt_udp`. -/
structure IptUdp where
  spts : UInt16 × UInt16
  dpts : UInt16 × UInt16
  invflags : BitVec 8
deriving DecidableEq

/-- `IPT_TCP_INV_*`; the first two are `IPT_UDP_INV_*` as well. -/
def iptInvSrcpt : BitVec 8 := 0x01
def iptInvDstpt : BitVec 8 := 0x02
def iptInvFlags : BitVec 8 := 0x04
def iptInvOption : BitVec 8 := 0x08

/-- `struct ipt_time_info`; the kernel sets `kerneltime` itself. -/
structure IptTimeInfo where
  daysMatch : ℕ
  timeStart : ℕ
  timeStop : ℕ
deriving DecidableEq

/-- A match of an entry. `days` is the range netconf puts behind the time
information, if the match is long enough to have it. -/
inductive IptMatch where
  | tcp (tcp : IptTcp)
  | udp (udp : IptUdp)
  | mac (srcaddr : Mac) (invert : Bool)
  | state (statemask : BitVec 32)
  | time (info : IptTimeInfo) (days : Option (ℕ × ℕ))
  | other (name : String)
deriving DecidableEq

/-- The first `struct ip_nat_range` of a `struct ip_nat_multi_range`. -/
structure NatRange where
  mapIps : Bool
  protoSpecified : Bool
  minIp : Addr
  maxIp : Addr
  min : UInt16
  max : UInt16
deriving DecidableEq

/-- `struct ip_autofw_info`. -/
structure AutofwInfo where
  proto : UInt16
  dport : UInt16 × UInt16
  toPorts : UInt16 × UInt16
deriving DecidableEq

/-- A target, by the name `iptc_get_target` gives, with its data. -/
inductive IptTarget where
  | drop
  | accept
  | logdrop
  | logaccept
  | snat (range : NatRange)
  | dnat (range : NatRange)
  | masquerade (range : NatRange)
  | autofw (info : AutofwInfo)
  | tcpmss (mss : UInt16)
  | other (name : String)
deriving DecidableEq

/-- `struct ipt_entry`. -/
structure Entry where
  ip : IptIp
  matchers : List IptMatch
  target : IptTarget
deriving DecidableEq

/-! ### Packets -/

/-- How connection tracking classifies a packet. -/
inductive Ctinfo where
  | invalid
  | established
  | related
  | new
deriving DecidableEq

/-- `IPT_STATE_INVALID` and `IPT_STATE_BIT(ctinfo)`. -/
def Ctinfo.bit : Ctinfo → BitVec 32
  | .invalid => 0x01
  | .established => 0x02
  | .related => 0x04
  | .new => 0x08

/-- The transport header of a packet, if all of it is there; `option` are the
TCP options it has. -/
structure Header where
  source : UInt16
  dest : UInt16
  flags : BitVec 8
  option : UInt8 → Bool

/-- A packet on its way: its addresses, interfaces, protocol, fragment offset
and transport header, its source MAC address if it has one, its connection
state, and the local day and second at which it comes. `other` is what the
matches netconf does not know say of it. -/
structure Packet where
  saddr : Addr
  daddr : Addr
  indev : Ifname
  outdev : Ifname
  protocol : ℕ
  offset : ℕ
  header : Option Header
  mac : Option Mac
  ctinfo : Ctinfo
  wday : Fin 7
  time : ℕ
  other : String → Bool

/-- The first day of the week. -/
abbrev sunday : Fin 7 := 0

/-- `FWINV`. -/
def fwinv {n : ℕ} (b : Bool) (invflags flag : BitVec n) : Bool := b ^^ hasBit invflags flag

/-- Whether a device has another name than the entry, under the mask. -/
def ifaceDiffers (dev iface : Ifname) (mask : Fin 16 → UInt8) : Bool :=
  decide (∃ i, (dev.pad i ^^^ iface.pad i) &&& mask i ≠ 0)

/-- `ip_packet_match`. -/
def ipPacketMatch (ip : IptIp) (p : Packet) : Bool :=
  !fwinv (p.saddr &&& ip.smsk != ip.src) ip.invflags iptInvSrcip &&
  !fwinv (p.daddr &&& ip.dmsk != ip.dst) ip.invflags iptInvDstip &&
  !fwinv (ifaceDiffers p.indev ip.iniface ip.inifaceMask) ip.invflags iptInvViaIn &&
  !fwinv (ifaceDiffers p.outdev ip.outiface ip.outifaceMask) ip.invflags iptInvViaOut &&
  !(ip.proto != 0 && fwinv (p.protocol != ip.proto) ip.invflags iptInvProto) &&
  !fwinv (hasBit ip.flags iptFFrag && p.offset == 0) ip.invflags iptInvFrag

/-- `port_match`. -/
def portMatch (pts : UInt16 × UInt16) (port : UInt16) (invert : Bool) : Bool :=
  (decide (pts.1 ≤ port) && decide (port ≤ pts.2)) ^^ invert

/-- `tcp_match`. -/
def tcpMatch (i : IptTcp) (p : Packet) : Bool :=
  p.offset == 0 &&
  match p.header with
  | none => false
  | some h =>
    portMatch i.spts h.source (hasBit i.invflags iptInvSrcpt) &&
    portMatch i.dpts h.dest (hasBit i.invflags iptInvDstpt) &&
    fwinv (h.flags &&& i.flgMask == i.flgCmp) i.invflags iptInvFlags &&
    (i.option == 0 || (h.option i.option ^^ hasBit i.invflags iptInvOption))

/-- `udp_match`. -/
def udpMatch (i : IptUdp) (p : Packet) : Bool :=
  p.offset == 0 &&
  match p.header with
  | none => false
  | some h =>
    portMatch i.spts h.source (hasBit i.invflags iptInvSrcpt) &&
    portMatch i.dpts h.dest (hasBit i.invflags iptInvDstpt)

/-- The match of `ipt_time.c`. -/
def timeMatch (i : IptTimeInfo) (p : Packet) : Bool :=
  (1 <<< p.wday.val) &&& i.daysMatch != 0 &&
  if i.timeStart < i.timeStop then !(p.time < i.timeStart || p.time > i.timeStop)
  else !(p.time < i.timeStart && p.time > i.timeStop)

/-- What a match says of a packet. -/
def IptMatch.matches (p : Packet) : IptMatch → Bool
  | .tcp i => tcpMatch i p
  | .udp i => udpMatch i p
  | .mac srcaddr invert =>
    match p.mac with
    | none => false
    | some m => (m == srcaddr) ^^ invert
  | .state statemask => hasBit statemask p.ctinfo.bit
  | .time info _ => timeMatch info p
  | .other name => p.other name

/-- Whether the entry's target is taken for a packet. -/
def Entry.matches (e : Entry) (p : Packet) : Bool :=
  ipPacketMatch e.ip p && e.matchers.all (IptMatch.matches p)

end Netconf
end Router
