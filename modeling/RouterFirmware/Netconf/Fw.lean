/-
# Firewall entries of netconf

`netconf_add_fw`, `netconf_get_fw`, `netconf_fw_index`, `netconf_del_fw`, and
`netconf_clamp_mss_to_pmtu`, over chains that are lists of entries: libiptc
stores and returns entries unchanged, and its calls do not fail. Of the chains
those netconf works on are modelled. Memory does not run out.

A record is the match and what its target type says is behind it: a
`netconf_filter_t`, `netconf_nat_t` or `netconf_app_t`. The name of an interface
ends within its array. The description and the list links are left out.

`netconf_add_fw` goes to `err` for a bad time or direction without setting
`errno`, so what it returns there is an input.
-/
import RouterFirmware.Netconf.Iptables

namespace Router
namespace Netconf

open CMem Bits

/-! ### Records -/

/-- The `src` or the `dst` of a match. Ports are in network order. -/
@[ext] structure Side where
  ipaddr : Addr
  netmask : Addr
  ports : UInt16 × UInt16
deriving DecidableEq

/-- `netconf_match_t`. -/
@[ext] structure Match where
  ipproto : ℤ
  src : Side
  dst : Side
  mac : Mac
  inName : Ifname
  outName : Ifname
  state : BitVec 32
  flags : BitVec 32
  days : ℕ × ℕ
  secs : ℕ × ℕ
deriving DecidableEq

def netconfInvSrcip : BitVec 32 := 0x01
def netconfInvDstip : BitVec 32 := 0x02
def netconfInvSrcpt : BitVec 32 := 0x04
def netconfInvDstpt : BitVec 32 := 0x08
def netconfInvMac : BitVec 32 := 0x10
def netconfInvIn : BitVec 32 := 0x20
def netconfInvOut : BitVec 32 := 0x40
def netconfInvState : BitVec 32 := 0x80
def netconfInvDays : BitVec 32 := 0x100
def netconfInvSecs : BitVec 32 := 0x200

def netconfInvalid : BitVec 32 := 0x01
def netconfEstablished : BitVec 32 := 0x02
def netconfRelated : BitVec 32 := 0x04
def netconfNew : BitVec 32 := 0x08

/-- The targets of `netconf_valid_filter`. -/
inductive FilterTarget where
  | drop
  | accept
  | logDrop
  | logAccept
deriving DecidableEq

/-- The targets of `netconf_valid_nat`. -/
inductive NatTarget where
  | snat
  | dnat
  | masq
deriving DecidableEq

/-- `enum netconf_dir`. -/
inductive Dir where
  | input
  | forward
  | output
deriving DecidableEq

/-- The target type with the fields it has; a direction that is none of the
three, and a target type that is none of the eight, is there as such. -/
inductive Act where
  | filter (target : FilterTarget) (dir : Option Dir)
  | nat (target : NatTarget) (ipaddr : Addr) (ports : UInt16 × UInt16)
  | app (proto : UInt16) (dport toPorts : UInt16 × UInt16)
  | other
deriving DecidableEq

/-- `netconf_fw_t`. -/
structure Fw where
  m : Match
  act : Act
deriving DecidableEq

/-- `netconf_valid_ipproto`. -/
def validIpproto (ipproto : ℤ) : Bool :=
  ipproto == 0 || ipproto == ipprotoTcp || ipproto == ipprotoUdp

/-- `ntohs` and `htons`, on a little-endian machine. -/
def ntohs (x : UInt16) : UInt16 := .ofNat (x.toNat % 256 * 256 + x.toNat / 256)

def ntohs2 (x : UInt16 × UInt16) : UInt16 × UInt16 := (ntohs x.1, ntohs x.2)

/-! ### Chains -/

/-- The chains of the tables `filter` and `nat` that netconf works on. -/
inductive Chain where
  | input
  | forward
  | output
  | prerouting
  | postrouting
deriving DecidableEq

/-- The entries of each chain. -/
abbrev Tables := Chain → List Entry

/-- `ipt_filter_chain_name`. -/
def Dir.chain : Dir → Chain
  | .input => .input
  | .forward => .forward
  | .output => .output

/-- `ipt_nat_chain_name`. -/
def NatTarget.chain : NatTarget → Chain
  | .snat => .postrouting
  | .dnat => .prerouting
  | .masq => .postrouting

/-- The chain an entry goes to, if there is one. -/
def Act.chain : Act → Option Chain
  | .filter _ dir => dir.map Dir.chain
  | .nat target _ _ => some target.chain
  | .app .. => some .prerouting
  | .other => none

/-! ### Adding an entry -/

/-- `memset(mask, 0xff, len)` over zeros. -/
def maskTo (len : ℕ) (i : Fin 16) : UInt8 := if i.val < len then 0xff else 0

/-- The `ipt_ip` part that `netconf_add_fw` builds. -/
def buildIp (m : Match) : IptIp :=
  let ip := IptIp.blank
  -- match by IP address(es)
  let ip :=
    if m.src.ipaddr &&& m.src.netmask ≠ 0 then
      { ip with src := m.src.ipaddr, smsk := m.src.netmask,
                invflags := ip.invflags ||| flagTo m.flags netconfInvSrcip iptInvSrcip }
    else ip
  let ip :=
    if m.dst.ipaddr &&& m.dst.netmask ≠ 0 then
      { ip with dst := m.dst.ipaddr, dmsk := m.dst.netmask,
                invflags := ip.invflags ||| flagTo m.flags netconfInvDstip iptInvDstip }
    else ip
  -- match by inbound or outbound interface name
  let ip :=
    if m.inName.str.length > 0 then
      { ip with iniface := m.inName, inifaceMask := maskTo (m.inName.str.length + 1),
                invflags := ip.invflags ||| flagTo m.flags netconfInvIn iptInvViaIn }
    else ip
  let ip :=
    if m.outName.str.length > 0 then
      { ip with outiface := m.outName, outifaceMask := maskTo (m.inName.str.length + 1),
                invflags := ip.invflags ||| flagTo m.flags netconfInvIn iptInvViaOut }
    else ip
  if m.ipproto = ipprotoTcp then { ip with proto := ipprotoTcp }
  else if m.ipproto = ipprotoUdp then { ip with proto := ipprotoUdp }
  else ip

/-- The loop that sets the bit of each day from `i` to `stop`. -/
def daysLoop (stop : ℕ) : ℕ → ℕ → ℕ → ℕ
  | 0, _, acc => acc
  | fuel + 1, i, acc => if i = stop then acc else daysLoop stop fuel ((i + 1) % 7) (acc ||| (1 <<< i))

/-- The match by TCP or UDP port(s). -/
def buildPorts (m : Match) : List IptMatch :=
  if m.ipproto = ipprotoTcp then
    [.tcp { spts := ntohs2 m.src.ports, dpts := ntohs2 m.dst.ports, option := 0, flgMask := 0,
            flgCmp := 0, invflags := flagTo m.flags netconfInvSrcpt iptInvSrcpt |||
              flagTo m.flags netconfInvDstpt iptInvDstpt }]
  else if m.ipproto = ipprotoUdp then
    [.udp { spts := ntohs2 m.src.ports, dpts := ntohs2 m.dst.ports,
            invflags := flagTo m.flags netconfInvSrcpt iptInvSrcpt |||
              flagTo m.flags netconfInvDstpt iptInvDstpt }]
  else []

/-- The match by source MAC address. -/
def buildMac (m : Match) : List IptMatch :=
  if m.mac ≠ 0 then [.mac m.mac (hasBit m.flags netconfInvMac)] else []

/-- The match by packet state. -/
def buildState (m : Match) : List IptMatch :=
  if m.state ≠ 0 then
    [.state (flagTo m.state netconfInvalid Ctinfo.invalid.bit |||
      flagTo m.state netconfEstablished Ctinfo.established.bit |||
      flagTo m.state netconfRelated Ctinfo.related.bit ||| flagTo m.state netconfNew Ctinfo.new.bit)]
  else []

/-- Whether there is a match by local time, and whether it is in range. -/
def Match.timed (m : Match) : Bool := m.secs.1 != 0 || m.secs.2 != 0

def Match.validTime (m : Match) : Bool :=
  !m.timed || decide (m.secs.1 < 24 * 60 * 60 ∧ m.secs.2 < 24 * 60 * 60 ∧ m.days.1 < 7 ∧ m.days.2 < 7)

/-- The match by local time. -/
def buildTime (m : Match) : List IptMatch :=
  if m.timed then
    [.time { daysMatch := daysLoop m.days.2 7 m.days.1 0 ||| (1 <<< m.days.2),
             timeStart := m.secs.1, timeStop := m.secs.2 } (some m.days)]
  else []

/-- The target, with the address and ports to map to. -/
def natRange (m : Match) (ipaddr : Addr) (ports : UInt16 × UInt16) : NatRange :=
  let range : NatRange := ⟨false, false, 0, 0, 0, 0⟩
  let range := if ipaddr ≠ 0 then { range with mapIps := true, minIp := ipaddr, maxIp := ipaddr } else range
  if m.ipproto = ipprotoTcp ∨ m.ipproto = ipprotoUdp then
    { range with protoSpecified := true, min := ports.1, max := ports.2 }
  else range

def buildTarget (fw : Fw) : IptTarget :=
  match fw.act with
  | .filter .drop _ => .drop
  | .filter .accept _ => .accept
  | .filter .logDrop _ => .logdrop
  | .filter .logAccept _ => .logaccept
  | .nat .snat ipaddr ports => .snat (natRange fw.m ipaddr ports)
  | .nat .dnat ipaddr ports => .dnat (natRange fw.m ipaddr ports)
  | .nat .masq ipaddr ports => .masquerade (natRange fw.m ipaddr ports)
  | .app proto dport toPorts => .autofw ⟨proto, dport, toPorts⟩
  | .other => .other ""

/-- The entry that `netconf_add_fw` builds. -/
def buildEntry (fw : Fw) : Entry where
  ip := buildIp fw.m
  matchers := buildPorts fw.m ++ buildMac fw.m ++ buildState fw.m ++ buildTime fw.m
  target := buildTarget fw

/-- No match: a default policy. -/
def Entry.isDefault (e : Entry) : Bool := e.matchers.isEmpty && decide (e.ip = IptIp.blank)

def Entry.isDrop (e : Entry) : Bool := e.target == .drop || e.target == .logdrop
def Entry.isAccept (e : Entry) : Bool := e.target == .accept || e.target == .logaccept

/-- `insert_entry`, on the list of the chain. -/
def insertEntry (entry : Entry) (l : List Entry) : List Entry :=
  if entry.isDefault then l ++ [entry]
  else if entry.isDrop then entry :: l
  else if entry.isAccept then
    l.insertIdx (l.findIdx fun rule => !rule.isDrop || rule.isDefault) entry
  else l ++ [entry]

def einval : ℤ := 22
def enoent : ℤ := 2

/-- `netconf_add_fw(fw)`, with what `errno` is when it is called. -/
def netconfAddFw (errno : ℤ) (t : Tables) (fw : Fw) : ℤ × Tables :=
  if !validIpproto fw.m.ipproto then (-einval, t)
  else if fw.act = .other then (einval, t)
  else if !fw.m.validTime then (errno, t)
  else
    match fw.act.chain with
    | none => (errno, t)
    | some c => (0, Function.update t c (insertEntry (buildEntry fw) (t c)))

/-! ### Finding and deleting an entry -/

/-- The first match of a kind: the loops over `for_each_ipt_match`. -/
def Entry.tcp? (e : Entry) : Option IptTcp := e.matchers.findSome? fun | .tcp i => some i | _ => none
def Entry.udp? (e : Entry) : Option IptUdp := e.matchers.findSome? fun | .udp i => some i | _ => none
def Entry.mac? (e : Entry) : Option (Mac × Bool) :=
  e.matchers.findSome? fun | .mac srcaddr invert => some (srcaddr, invert) | _ => none
def Entry.state? (e : Entry) : Option (BitVec 32) :=
  e.matchers.findSome? fun | .state statemask => some statemask | _ => none
def Entry.time? (e : Entry) : Option (IptTimeInfo × (ℕ × ℕ)) :=
  e.matchers.findSome? fun | .time info (some days) => some (info, days) | _ => none

/-- The comparison of addresses and interface names in `netconf_fw_index`. -/
def sameIp (m : Match) (ip : IptIp) : Bool :=
  decide (ip.src = m.src.ipaddr ∧ ip.smsk = m.src.netmask ∧ ip.dst = m.dst.ipaddr ∧
    ip.dmsk = m.dst.netmask) &&
  !(hasBit ip.invflags iptInvSrcip ^^ hasBit m.flags netconfInvSrcip) &&
  !(hasBit ip.invflags iptInvDstip ^^ hasBit m.flags netconfInvDstip) &&
  decide (m.inName = ip.iniface ∧ m.outName = ip.outiface)

/-- The comparison of ports. -/
def samePorts (m : Match) (spts dpts : UInt16 × UInt16) (invflags : BitVec 8) : Bool :=
  decide (spts = ntohs2 m.src.ports ∧ dpts = ntohs2 m.dst.ports) &&
  !(hasBit invflags iptInvSrcpt ^^ hasBit m.flags netconfInvSrcpt) &&
  !(hasBit invflags iptInvDstpt ^^ hasBit m.flags netconfInvDstpt)

def sameProto (m : Match) (e : Entry) : Bool :=
  if m.ipproto = ipprotoTcp then e.tcp?.any fun i => samePorts m i.spts i.dpts i.invflags
  else if m.ipproto = ipprotoUdp then e.udp?.any fun i => samePorts m i.spts i.dpts i.invflags
  else true

def sameMac (m : Match) (e : Entry) : Bool :=
  m.mac == 0 || e.mac?.any fun i => i.1 == m.mac && !(i.2 ^^ hasBit m.flags netconfInvMac)

def sameState (m : Match) (e : Entry) : Bool :=
  m.state == 0 || e.state?.any fun statemask =>
    !(hasBit statemask Ctinfo.invalid.bit ^^ hasBit m.state netconfInvalid) &&
    !(hasBit statemask Ctinfo.established.bit ^^ hasBit m.state netconfEstablished) &&
    !(hasBit statemask Ctinfo.related.bit ^^ hasBit m.state netconfRelated) &&
    !(hasBit statemask Ctinfo.new.bit ^^ hasBit m.state netconfNew)

def sameTime (m : Match) (e : Entry) : Bool :=
  !m.timed || e.time?.any fun i =>
    decide (m.days = i.2 ∧ m.secs.1 = i.1.timeStart ∧ m.secs.2 = i.1.timeStop)

/-- The comparison of the mapped address and ports. -/
def sameRange (m : Match) (ipaddr : Addr) (ports : UInt16 × UInt16) (range : NatRange) : Bool :=
  range.minIp == ipaddr &&
  if m.ipproto = ipprotoTcp ∨ m.ipproto = ipprotoUdp then
    range.min == ports.1 && range.max == ports.2
  else true

def sameTarget (fw : Fw) (e : Entry) : Bool :=
  match fw.act, e.target with
  | .filter .drop _, .drop => true
  | .filter .accept _, .accept => true
  | .filter .logDrop _, .logdrop => true
  | .filter .logAccept _, .logaccept => true
  | .nat .snat ipaddr ports, .snat range => sameRange fw.m ipaddr ports range
  | .nat .dnat ipaddr ports, .dnat range => sameRange fw.m ipaddr ports range
  | .nat .masq ipaddr ports, .masquerade range => sameRange fw.m ipaddr ports range
  | .app proto dport toPorts, .autofw info => decide (info = ⟨proto, dport, toPorts⟩)
  | _, _ => false

/-- Whether `netconf_fw_index` takes the entry for the record. -/
def takenFor (fw : Fw) (e : Entry) : Bool :=
  decide ((e.ip.proto : ℤ) = fw.m.ipproto) && sameIp fw.m e.ip && sameProto fw.m e && sameMac fw.m e &&
  sameState fw.m e && sameTime fw.m e && sameTarget fw e

/-- `netconf_fw_index(fw)`. -/
def netconfFwIndex (t : Tables) (fw : Fw) : ℤ :=
  if !validIpproto fw.m.ipproto then -einval
  else
    match fw.act.chain with
    | none => -einval
    | some c =>
      match (t c).findIdx? (takenFor fw) with
      | some i => i
      | none => -enoent

/-- `netconf_fw_exists(fw)`. -/
def netconfFwExists (t : Tables) (fw : Fw) : Bool := decide (netconfFwIndex t fw ≥ 0)

/-- `netconf_del_fw(fw)`. -/
def netconfDelFw (t : Tables) (fw : Fw) : ℤ × Tables :=
  let num := netconfFwIndex t fw
  if num < 0 then (-num, t)
  else
    match fw.act.chain with
    | none => (einval, t)
    | some c => (0, Function.update t c ((t c).eraseIdx num.toNat))

/-- `netconf_manip_fw(fw_list, del)`: one after the other, up to the first that fails. -/
def netconfManipFw (errno : ℤ) (t : Tables) (del : Bool) : List Fw → ℤ × Tables
  | [] => (0, t)
  | fw :: rest =>
    let r := if del then netconfDelFw t fw else netconfAddFw errno t fw
    if r.1 ≠ 0 then r else netconfManipFw errno r.2 del rest

/-- `netconf_clamp_mss_to_pmtu()`: the entry it makes, put at the head of FORWARD. -/
def clampEntry : Entry where
  ip := { IptIp.blank with proto := ipprotoTcp }
  matchers := [.tcp { spts := (0, 0xffff), dpts := (0, 0xffff), option := 0, flgMask := 0x06,
                      flgCmp := 0x02, invflags := 0 }]
  target := .tcpmss 0xffff

def netconfClampMssToPmtu (t : Tables) : Tables := Function.update t .forward (clampEntry :: t .forward)

/-! ### Reading an entry back -/

/-- The ports that `netconf_get_fw` reads, with the flags of their inversion. -/
def getPorts (e : Entry) : Option (ℕ × (UInt16 × UInt16) × (UInt16 × UInt16) × BitVec 8) :=
  if e.ip.proto = ipprotoTcp then e.tcp?.map fun i => (ipprotoTcp, i.spts, i.dpts, i.invflags)
  else if e.ip.proto = ipprotoUdp then e.udp?.map fun i => (ipprotoUdp, i.spts, i.dpts, i.invflags)
  else none

/-- `target_num`, with the data the record gets from the target. -/
def getAct (c : Chain) (e : Entry) : Option Act :=
  let nat (target : NatTarget) (range : NatRange) : Act :=
    .nat target range.minIp (if e.ip.proto = ipprotoTcp ∨ e.ip.proto = ipprotoUdp then
      (range.min, range.max) else (0, 0))
  let dir : Option Dir :=
    match c with
    | .input => some .input
    | .forward => some .forward
    | .output => some .output
    | _ => none
  match e.target, dir with
  | .drop, some dir => some (.filter .drop (some dir))
  | .accept, some dir => some (.filter .accept (some dir))
  | .logdrop, some dir => some (.filter .logDrop (some dir))
  | .logaccept, some dir => some (.filter .logAccept (some dir))
  | .snat range, none => some (nat .snat range)
  | .dnat range, none => some (nat .dnat range)
  | .masquerade range, none => some (nat .masq range)
  | .autofw info, none => some (.app info.proto info.dport info.toPorts)
  | _, _ => none

/-- The match that `netconf_get_fw` reads. -/
def getMatch (e : Entry) : Match :=
  let ports := getPorts e
  { ipproto := ports.elim 0 fun r => r.1
    src := ⟨e.ip.src, e.ip.smsk, ports.elim (0, 0) fun r => ntohs2 r.2.1⟩
    dst := ⟨e.ip.dst, e.ip.dmsk, ports.elim (0, 0) fun r => ntohs2 r.2.2.1⟩
    mac := e.mac?.elim 0 fun i => i.1
    inName := e.ip.iniface
    outName := e.ip.outiface
    state := e.state?.elim 0 fun statemask =>
      flagTo statemask Ctinfo.invalid.bit netconfInvalid |||
      flagTo statemask Ctinfo.established.bit netconfEstablished |||
      flagTo statemask Ctinfo.related.bit netconfRelated ||| flagTo statemask Ctinfo.new.bit netconfNew
    flags :=
      flagTo e.ip.invflags iptInvSrcip netconfInvSrcip |||
      flagTo e.ip.invflags iptInvDstip netconfInvDstip |||
      flagTo e.ip.invflags iptInvViaIn netconfInvIn ||| flagTo e.ip.invflags iptInvViaOut netconfInvOut |||
      (ports.elim 0 fun r => flagTo r.2.2.2 iptInvSrcpt netconfInvSrcpt |||
        flagTo r.2.2.2 iptInvDstpt netconfInvDstpt) |||
      (e.mac?.elim 0 fun i => bitIf i.2 netconfInvMac)
    days := e.time?.elim (0, 0) fun i => i.2
    secs := e.time?.elim (0, 0) fun i => (i.1.timeStart, i.1.timeStop) }

/-- What `netconf_get_fw` makes of an entry of a chain; it knows about
TCP and UDP, and about the targets of the chain's table. -/
def getEntry (c : Chain) (e : Entry) : Option Fw :=
  if validIpproto e.ip.proto then (getAct c e).map fun act => ⟨getMatch e, act⟩ else none

/-- `netconf_get_fw(fw_list)`: each entry is put in front of the list. -/
def netconfGetFw (t : Tables) : List Fw :=
  ([.input, .forward, .output, .prerouting, .postrouting].flatMap fun c =>
    (t c).filterMap (getEntry c)).reverse

/-! ### Where an entry goes -/

/-- The place in the chain at which `insert_entry` puts an entry. -/
def insertAt (entry : Entry) (l : List Entry) : ℕ :=
  if entry.isDefault then l.length
  else if entry.isDrop then 0
  else if entry.isAccept then l.findIdx fun rule => !rule.isDrop || rule.isDefault
  else l.length

theorem insertIdx_eq_take_drop (x : Entry) : ∀ {i : ℕ} {l : List Entry}, i ≤ l.length →
    l.insertIdx i x = l.take i ++ x :: l.drop i
  | 0, l, _ => List.insertIdx_zero ..
  | i + 1, y :: l, h => by
    rw [List.insertIdx_succ_cons, insertIdx_eq_take_drop x (Nat.le_of_succ_le_succ h)]
    rfl

theorem insertEntry_eq (entry : Entry) (l : List Entry) :
    insertEntry entry l = l.take (insertAt entry l) ++ entry :: l.drop (insertAt entry l) := by
  unfold insertEntry insertAt
  split_ifs
  · rw [List.take_length, List.drop_length]
  · rfl
  · exact insertIdx_eq_take_drop entry List.findIdx_le_length
  · rw [List.take_length, List.drop_length]

theorem of_mem_take_findIdx {p : Entry → Bool} {x : Entry} : ∀ {l : List Entry},
    x ∈ l.take (l.findIdx p) → p x = false
  | [], h => by cases h
  | y :: l, h => by
    rw [List.findIdx_cons] at h
    cases hy : p y with
    | true =>
      rw [hy] at h
      cases h
    | false =>
      rw [hy] at h
      rcases List.mem_cons.mp h with rfl | h
      · exact hy
      · exact of_mem_take_findIdx h

theorem isAccept_not_isDrop {e : Entry} (h : e.isAccept = true) : e.isDrop = false := by
  unfold Entry.isAccept at h
  unfold Entry.isDrop
  rw [Bool.or_eq_true, beq_iff_eq, beq_iff_eq] at h
  rcases h with h | h
  · rw [h]
    rfl
  · rw [h]
    rfl

/-- In front of an entry that accepts, and is no default policy, stand only
entries that drop and are no default policies. -/
theorem front_of_accept {entry x : Entry} {l : List Entry} (hdef : entry.isDefault = false)
    (hacc : entry.isAccept = true) (hx : x ∈ l.take (insertAt entry l)) :
    x.isDrop = true ∧ x.isDefault = false := by
  have hdrop := isAccept_not_isDrop hacc
  unfold insertAt at hx
  rw [hdef, hdrop, hacc] at hx
  have hp := of_mem_take_findIdx hx
  rw [Bool.or_eq_false_iff, Bool.not_eq_false'] at hp
  exact hp

/-- An entry is inserted only for a known protocol and target, a time in range and a direction. -/
theorem netconfAddFw_eq {errno : ℤ} {t : Tables} {fw : Fw} {c : Chain}
    (hproto : validIpproto fw.m.ipproto = true) (hvalid : fw.m.validTime = true)
    (hc : fw.act.chain = some c) :
    netconfAddFw errno t fw = (0, Function.update t c (insertEntry (buildEntry fw) (t c))) := by
  have hact : fw.act ≠ .other := by
    intro hact
    rw [hact] at hc
    cases hc
  unfold netconfAddFw
  rw [hproto, hvalid, hc]
  simp [hact]

theorem netconfAddFw_cases (errno : ℤ) (t : Tables) (fw : Fw) :
    (validIpproto fw.m.ipproto = true ∧ fw.m.validTime = true ∧ ∃ c, fw.act.chain = some c ∧
      netconfAddFw errno t fw = (0, Function.update t c (insertEntry (buildEntry fw) (t c)))) ∨
    ((validIpproto fw.m.ipproto = false ∨ fw.m.validTime = false ∨ fw.act.chain = none) ∧
      (netconfAddFw errno t fw).2 = t) := by
  cases hproto : validIpproto fw.m.ipproto with
  | false =>
    refine Or.inr ⟨Or.inl rfl, ?_⟩
    unfold netconfAddFw
    rw [hproto]
    rfl
  | true =>
    cases hvalid : fw.m.validTime with
    | false =>
      refine Or.inr ⟨Or.inr (Or.inl rfl), ?_⟩
      unfold netconfAddFw
      rw [hproto, hvalid]
      simp only [Bool.not_true, Bool.false_eq_true, if_false, Bool.not_false, if_true]
      split_ifs <;> rfl
    | true =>
      cases hc : fw.act.chain with
      | none =>
        refine Or.inr ⟨Or.inr (Or.inr rfl), ?_⟩
        unfold netconfAddFw
        rw [hproto, hvalid, hc]
        split_ifs <;> rfl
      | some c => exact Or.inl ⟨rfl, rfl, c, rfl, netconfAddFw_eq hproto hvalid hc⟩

end Netconf
end Router
