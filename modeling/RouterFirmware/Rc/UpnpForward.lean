/-
# Port forwards as they are stored

A port forward of UPnP is one text, `forward_port0`, `forward_port1` and so on. `get_forward_port` makes a record of it,
with ranges of ports; `write_upnp_forward` makes rules of it, with a parser of its own. A packet for the record should be
sent on to the address and port of the record, and pass; and what is no record that is on should have no rules.

Only the rules of `write_upnp_forward` and the chain `logaccept` are looked at. What iptables reads in the texts of a rule
is `Reading`, and `toDest` for `--to-destination`.
-/
import RouterFirmware.Nvparse.Convert
import RouterFirmware.Nvparse.RoundTrip
import RouterFirmware.Rc.LanPolicy

namespace Router
namespace Rc

open CMem CText Netconf Chain Bits
open Nvram (VarMap)
open Nvparse (Libc Undef NetconfNat getForwardPort netconfDisabled dottedLibc vars)

/-! ### What a record says -/

/-- The record is on. -/
def enabled (nat : NetconfNat) : Bool := !hasBit nat.m.flags netconfDisabled

/-- The protocol of a record, as rules name it. -/
def protoName (nat : NetconfNat) : String := if nat.m.ipproto = ipprotoTcp then "tcp" else "udp"

/-- One of the external ports of a record. -/
def external (nat : NetconfNat) (n : UInt16) : Prop :=
  ntohs nat.m.dst.ports.1 ≤ n ∧ n ≤ ntohs nat.m.dst.ports.2

/-- The internal port that corresponds to it. -/
def internalPort (nat : NetconfNat) (n : UInt16) : UInt16 := ntohs nat.ports.1 + (n - ntohs nat.m.dst.ports.1)

/-- A packet to the WAN address with the protocol and an external port of the record. -/
structure Outside (R : Reading) (wanIp : Bytes) (nat : NetconfNat) (n : UInt16) (p : Packet) : Prop where
  addr : R.addr wanIp p.daddr = true
  proto : (p.protocol : ℤ) = nat.m.ipproto
  dest : p.header.map Header.dest = some n
  port : external nat n

/-- The packet when it has been sent on: with the address of the record and the port that corresponds. -/
structure Inside (nat : NetconfNat) (n : UInt16) (p : Packet) : Prop where
  addr : p.daddr = nat.ipaddr
  proto : (p.protocol : ℤ) = nat.m.ipproto
  dest : p.header.map Header.dest = some (internalPort nat n)

variable (R : Reading) (toDest : Bytes → Option (Addr × UInt16)) (L : Libc) (u : Undef) (wanIp : Bytes) (nv : VarMap)

/-- The rules for an index. -/
def rulesAt (i : ℕ) : List (Line × Line) := if i < 15 then upnpLines u wanIp (logAccept nv) nv i else []

/-- The record of an index, if there is a valid one and it is on. -/
def recordAt (i : ℕ) : Option NetconfNat := (getForwardPort L u nv i).filter enabled

/-- The rules do what the record of an index says, and without one there are none for the index. -/
structure AsStored (i : ℕ) : Prop where
  redirected : ∀ nat, recordAt L u nv i = some nat → ∀ token n p, Outside R wanIp nat n p →
    ∃ dest, outcome R token (writeUpnpForward u wanIp (logAccept nv) nv).1 .prerouting p = .verdict (.dnat dest) ∧
      toDest dest = some (nat.ipaddr, internalPort nat n)
  accepted : ∀ nat, recordAt L u nv i = some nat → ∀ token n p, external nat n → Inside nat n p →
    outcome R token ((writeUpnpForward u wanIp (logAccept nv) nv).2 ++ logLines) .forward p = .verdict .accept
  unwritten : recordAt L u nv i = none → rulesAt u wanIp nv i = []

/-! ### What the texts say -/

/-- The text of an index, if it is complete and not exactly `off`. -/
def partAt (i : ℕ) : Option UpnpPart :=
  (upnpPart (upnpValue u nv i)).filter fun part => decide (part.enable ≠ bytes "off")

/-- The first fifteen texts. -/
def parts : List UpnpPart := (List.range 15).filterMap (partAt u nv)

/-- `%s:%s` behind `--to-destination`. -/
def UpnpPart.dest (part : UpnpPart) : Bytes := part.lanIpaddr ++ bytes ":" ++ part.lanPort

/-- The text is for the protocol, and its first external port is the port. -/
def UpnpPart.takes (proto : String) (n : UInt16) (part : UpnpPart) : Bool :=
  decide (proto ∈ upnpProtos part) && R.port part.wanPort n

/-- The text is for the protocol, with this address and first internal port. -/
def UpnpPart.passes (proto : String) (a : Addr) (n : UInt16) (part : UpnpPart) : Bool :=
  decide (proto ∈ upnpProtos part) && (R.addr part.lanIpaddr a && R.port part.lanPort n)

/-- For each external port of the record, the first text that takes it leads to where the record does, and a text has
the address and port to which it leads; and what rules are written for is a record. -/
structure Covered (i : ℕ) : Prop where
  first : ∀ nat, recordAt L u nv i = some nat → ∀ n, external nat n →
    ∃ part, (parts u nv).find? (UpnpPart.takes R (protoName nat) n) = some part ∧
      toDest part.dest = some (nat.ipaddr, internalPort nat n)
  passed : ∀ nat, recordAt L u nv i = some nat → ∀ n, external nat n →
    (parts u nv).any (UpnpPart.passes R (protoName nat) nat.ipaddr (internalPort nat n)) = true
  record : i < 15 → ∀ part, partAt u nv i = some part → upnpProtos part ≠ [] → ∃ nat, recordAt L u nv i = some nat

/-! ### The chains -/

theorem upnpLines_eq (logaccept : Action) (i : ℕ) : upnpLines u wanIp logaccept nv i =
    (partAt u nv i).toList.flatMap fun part => (upnpProtos part).map (redirect wanIp logaccept part) := by
  unfold upnpLines partAt
  cases upnpPart (upnpValue u nv i) with
  | none => rfl
  | some part => by_cases hoff : part.enable = bytes "off" <;> simp [hoff, Option.filter]

theorem writeUpnpForward_eq (logaccept : Action) : writeUpnpForward u wanIp logaccept nv =
    ((parts u nv).flatMap fun part => (upnpProtos part).map (redirect wanIp logaccept part)).unzip := by
  have hlines : ∀ l : List ℕ, l.flatMap (upnpLines u wanIp logaccept nv) =
      (l.filterMap (partAt u nv)).flatMap fun part => (upnpProtos part).map (redirect wanIp logaccept part) := by
    intro l
    induction l with
    | nil => rfl
    | cons i l ih =>
      rw [List.flatMap_cons, ih, upnpLines_eq, List.filterMap_cons]
      cases partAt u nv i <;> simp
  rw [writeUpnpForward, hlines, parts]

/-- The two protocols are told apart. -/
def Named (proto : String) (n : ℕ) : Prop :=
  R.proto (bytes "tcp") n = decide (proto = "tcp") ∧ R.proto (bytes "udp") n = decide (proto = "udp")

variable {R} {p : Packet} {token : ℕ → Bool} {e : ChainName → Outcome Verdict} {proto : String} {n : UInt16}

/-- Of the rules for the protocols of a text, one is for the packet's. -/
theorem any_protos (hproto : Named R proto p.protocol) (part : UpnpPart) (b : Bool) :
    ((upnpProtos part).any fun name => R.proto (bytes name) p.protocol && b) =
      (decide (proto ∈ upnpProtos part) && b) := by
  unfold upnpProtos
  by_cases htcp : part.proto = bytes "tcp" ∨ part.proto = bytes "both" <;>
    by_cases hudp : part.proto = bytes "udp" ∨ part.proto = bytes "both" <;>
    simp [htcp, hudp, hproto.1, hproto.2, Bool.and_or_distrib_right]

theorem walk_redirects (hproto : Named R proto p.protocol) (haddr : R.addr wanIp p.daddr = true)
    (hdest : p.header.map Header.dest = some n) (logaccept : Action) (part : UpnpPart) :
    walk R token e p .prerouting (((upnpProtos part).map (redirect wanIp logaccept part)).map Prod.fst) =
      if part.takes R proto n then .verdict (.dnat part.dest) else .off := by
  obtain ⟨h, hh, rfl⟩ := Option.map_eq_some_iff.mp hdest
  have hdnat : (Action.dnat part.dest).target.reach e = .verdict (.dnat part.dest) := rfl
  have hwalk := walk_same R token e p (c := .prerouting) hdnat []
    ((upnpProtos part).map fun name => [.proto (bytes name), .dst wanIp, .dport part.wanPort])
  have hany : ((upnpProtos part).map fun name => [.proto (bytes name), .dst wanIp, .dport part.wanPort]).any
      (meets R token p) = part.takes R proto h.dest := by
    rw [UpnpPart.takes, ← any_protos hproto, List.any_map]
    simp [meets, Match.holds, haddr, hh, Function.comp_def]
  rw [hany] at hwalk
  simpa [redirect, UpnpPart.dest, Function.comp_def, meets] using hwalk

/-- What the PREROUTING chain does is what the first text says that takes the packet. -/
theorem walk_prerouting (hproto : Named R proto p.protocol) (haddr : R.addr wanIp p.daddr = true)
    (hdest : p.header.map Header.dest = some n) (logaccept : Action) :
    walk R token e p .prerouting (writeUpnpForward u wanIp logaccept nv).1 =
      (((parts u nv).find? (UpnpPart.takes R proto n)).map fun part => Outcome.verdict (.dnat part.dest)).getD .off := by
  rw [writeUpnpForward_eq, List.unzip_fst]
  induction parts u nv with
  | nil => rfl
  | cons part l ih =>
    rw [List.flatMap_cons, List.map_append, walk_append, ih, walk_redirects wanIp hproto haddr hdest, List.find?_cons]
    cases part.takes R proto n <;> rfl

/-- A forwarding rule takes the packet if a text has its protocol, address and port. -/
theorem any_forwards (hproto : Named R proto p.protocol) (hdest : p.header.map Header.dest = some n)
    (logaccept : Action) :
    ((writeUpnpForward u wanIp logaccept nv).2.any fun l => meets R token p l.parts) =
      (parts u nv).any (UpnpPart.passes R proto p.daddr n) := by
  obtain ⟨h, hh, rfl⟩ := Option.map_eq_some_iff.mp hdest
  rw [writeUpnpForward_eq, List.unzip_snd, List.any_map, List.any_flatMap]
  congr 1
  funext part
  rw [UpnpPart.passes, ← any_protos hproto, List.any_map]
  simp [redirect, add, meets, Match.holds, hh, Function.comp_def]

/-- What comes of a packet in the PREROUTING chain. -/
theorem outcome_prerouting (hproto : Named R proto p.protocol) (haddr : R.addr wanIp p.daddr = true)
    (hdest : p.header.map Header.dest = some n) :
    outcome R token (writeUpnpForward u wanIp (logAccept nv) nv).1 .prerouting p =
      (((parts u nv).find? (UpnpPart.takes R proto n)).map fun part => Outcome.verdict (.dnat part.dest)).getD .off := by
  have hadded : ∀ l ∈ (writeUpnpForward u wanIp (logAccept nv) nv).1, l.insert = false := by
    intro l hl
    rw [writeUpnpForward_eq, List.unzip_fst] at hl
    obtain ⟨x, hx, rfl⟩ := List.mem_map.mp hl
    obtain ⟨part, -, hx⟩ := List.mem_flatMap.mp hx
    obtain ⟨name, -, rfl⟩ := List.mem_map.mp hx
    rfl
  rw [outcome, enter_eq R token p (quiet_of_added R token _ p hadded)]
  exact walk_prerouting u wanIp nv hproto haddr hdest (logAccept nv)

/-- What comes of a packet in the FORWARD chain. -/
theorem outcome_forward (hproto : Named R proto p.protocol) (hdest : p.header.map Header.dest = some n) :
    outcome R token ((writeUpnpForward u wanIp (logAccept nv) nv).2 ++ logLines) .forward p =
      if (parts u nv).any (UpnpPart.passes R proto p.daddr n) then .verdict .accept else .off := by
  have hforwards := writeUpnpForward_forwards u wanIp (logAccept nv) nv
  have hquiet : ∀ e c, Quiet R token e p c ((writeUpnpForward u wanIp (logAccept nv) nv).2 ++ logLines) := by
    refine fun e c => quiet_of_added R token e p (List.forall_mem_append.mpr ⟨fun l hl => ?_, ?_⟩)
    · rw [hforwards l hl]
      rfl
    · simp [logLines, add]
  have hskip : ∀ e c, c ≠ .forward → walk R token e p c (writeUpnpForward u wanIp (logAccept nv) nv).2 = .off := by
    refine fun e c hc => walk_other R token e p fun l hl hchain => absurd ?_ hc
    rw [← hchain, hforwards l hl]
    rfl
  have he : Logs (enter (tables (((writeUpnpForward u wanIp (logAccept nv) nv).2 ++ logLines).map
      (Line.edit R token))) p 2) := by
    constructor <;> rw [enter_eq R token p (hquiet _ _), walk_append, hskip _ _ (by decide)] <;>
      simp [logLines, Action.target, Target.reach, meets]
  rw [outcome, enter_eq R token p (hquiet _ _), walk_append, walk_forwards (reach_logAccept he) hforwards,
    any_forwards u wanIp nv hproto hdest, walk_logLines (by decide) (by decide), Outcome.andThen_off]

/-! ### What is covered -/

/-- A packet with an address, protocol and port. -/
def sent (a : Addr) (protocol : ℕ) (n : UInt16) : Packet where
  saddr := 0
  daddr := a
  indev := .none
  outdev := .none
  protocol := protocol
  offset := 0
  header := some ⟨0, n, 0, fun _ => false⟩
  mac := none
  ctinfo := .new
  wday := sunday
  time := 0
  other := fun _ => false

variable {L u nv} {nat : NetconfNat} {i : ℕ}

theorem recordAt_proto (h : recordAt L u nv i = some nat) :
    nat.m.ipproto = ipprotoTcp ∨ nat.m.ipproto = ipprotoUdp := by
  obtain ⟨hget, -⟩ := Option.filter_eq_some_iff.mp h
  obtain ⟨value, -, hget⟩ := Option.bind_eq_some_iff.mp hget
  obtain ⟨nat', -, hget⟩ := Option.bind_eq_some_iff.mp hget
  split_ifs at hget with hvalid
  cases Option.some.inj hget
  simp only [Nvparse.validForwardPort, Bool.and_eq_true, decide_eq_true_eq] at hvalid
  exact hvalid.1.1.1.2

/-- A packet of a record has the protocol that its rules name. -/
theorem named_record (htcp : ∀ k, R.proto (bytes "tcp") k = decide (k = ipprotoTcp))
    (hudp : ∀ k, R.proto (bytes "udp") k = decide (k = ipprotoUdp)) (h : recordAt L u nv i = some nat) {k : ℕ}
    (hk : (k : ℤ) = nat.m.ipproto) : Named R (protoName nat) k := by
  rw [Named, htcp, hudp, protoName]
  rcases recordAt_proto h with hp | hp
  · obtain rfl : k = 6 := by exact_mod_cast hk.trans hp
    simp [hp, ipprotoTcp, ipprotoUdp]
  · obtain rfl : k = 17 := by exact_mod_cast hk.trans hp
    simp [hp, ipprotoTcp, ipprotoUdp]

theorem recordAt_protocol (h : recordAt L u nv i = some nat) : (nat.m.ipproto.toNat : ℤ) = nat.m.ipproto := by
  rcases recordAt_proto h with hp | hp <;> rw [hp] <;> rfl

section Reads

variable (htcp : ∀ k, R.proto (bytes "tcp") k = decide (k = ipprotoTcp))
  (hudp : ∀ k, R.proto (bytes "udp") k = decide (k = ipprotoUdp)) {toDest : Bytes → Option (Addr × UInt16)}

include htcp hudp

/-- Each port of a record is tried from outside, and where the record leads. -/
theorem covered_of_asStored {a : Addr} (ha : R.addr wanIp a = true) (h : AsStored R toDest L u wanIp nv i) :
    Covered R toDest L u nv i := by
  constructor
  · intro nat hnat n hn
    have hproto := recordAt_protocol hnat
    obtain ⟨dest, hout, hdest⟩ := h.redirected nat hnat (fun _ => false) n (sent a nat.m.ipproto.toNat n)
      ⟨ha, hproto, rfl, hn⟩
    rw [outcome_prerouting u wanIp nv (named_record htcp hudp hnat hproto) ha rfl] at hout
    cases hfind : (parts u nv).find? (UpnpPart.takes R (protoName nat) n) with
    | none => simp [hfind] at hout
    | some part =>
      rw [hfind] at hout
      cases hout
      exact ⟨part, rfl, hdest⟩
  · intro nat hnat n hn
    have hproto := recordAt_protocol hnat
    have hout := h.accepted nat hnat (fun _ => false) n (sent nat.ipaddr nat.m.ipproto.toNat (internalPort nat n)) hn
      ⟨rfl, hproto, rfl⟩
    rw [outcome_forward u wanIp nv (named_record htcp hudp hnat hproto) rfl] at hout
    by_contra hany
    exact absurd (hout.symm.trans (if_neg hany)) (by simp)
  · intro hi part hpart hprotos
    by_contra hrecord
    have hnone : recordAt L u nv i = none :=
      Option.eq_none_iff_forall_not_mem.mpr fun nat hnat => hrecord ⟨nat, hnat⟩
    have hrules := h.unwritten hnone
    rw [rulesAt, if_pos hi, upnpLines_eq, hpart] at hrules
    simp [hprotos] at hrules

theorem asStored_of_covered (h : Covered R toDest L u nv i) : AsStored R toDest L u wanIp nv i := by
  constructor
  · intro nat hnat token n p hp
    obtain ⟨part, hfind, hdest⟩ := h.first nat hnat n hp.port
    refine ⟨part.dest, ?_, hdest⟩
    rw [outcome_prerouting u wanIp nv (named_record htcp hudp hnat hp.proto) hp.addr hp.dest, hfind]
    rfl
  · intro nat hnat token n p hn hp
    rw [outcome_forward u wanIp nv (named_record htcp hudp hnat hp.proto) hp.dest, hp.addr,
      if_pos (h.passed nat hnat n hn)]
  · intro hnat
    unfold rulesAt
    split_ifs with hi
    · rw [upnpLines_eq]
      cases hpart : partAt u nv i with
      | none => rfl
      | some part =>
        have hprotos : upnpProtos part = [] := by
          by_contra hne
          obtain ⟨nat, hsome⟩ := h.record hi part hpart hne
          rw [hnat] at hsome
          cases hsome
        simp [hprotos]
    · rfl

end Reads

/-- **Port forwards as they are stored.** The rules do for an index what its record says, if and only if the texts cover
the record, and rules are written only for a record. -/
theorem upnp_as_stored_iff (htcp : ∀ k, R.proto (bytes "tcp") k = decide (k = ipprotoTcp))
    (hudp : ∀ k, R.proto (bytes "udp") k = decide (k = ipprotoUdp)) (hwan : ∃ a, R.addr wanIp a = true)
    (toDest : Bytes → Option (Addr × UInt16)) (L : Libc) (u : Undef) (nv : VarMap) (i : ℕ) :
    AsStored R toDest L u wanIp nv i ↔ Covered R toDest L u nv i := by
  obtain ⟨a, ha⟩ := hwan
  exact ⟨covered_of_asStored wanIp htcp hudp ha, asStored_of_covered wanIp htcp hudp⟩

/-! ### A port, and a range of two -/

/-- Addresses of four numbers, ports by their number, and two protocols by their names. -/
def plain : Reading :=
  { blind with
    addr := fun text a => dottedLibc.inetAton text == some a
    port := fun text n => text == decimal n.toNat
    proto := fun text k => text == bytes "tcp" && k == ipprotoTcp || text == bytes "udp" && k == ipprotoUdp }

/-- `parse_to`, for an address and a port. -/
def plainDest (text : Bytes) : Option (Addr × UInt16) :=
  (Nvparse.cut ":" text).bind fun s => (dottedLibc.inetAton s.1).map fun a => (a, .ofNat (atoi s.2).toNat)

theorem plain_tcp (k : ℕ) : plain.proto (bytes "tcp") k = decide (k = ipprotoTcp) := by
  have hne : bytes "tcp" ≠ bytes "udp" := by decide
  simp [plain, hne, Bool.beq_eq_decide_eq]

theorem plain_udp (k : ℕ) : plain.proto (bytes "udp") k = decide (k = ipprotoUdp) := by
  have hne : bytes "udp" ≠ bytes "tcp" := by decide
  simp [plain, hne, Bool.beq_eq_decide_eq]

theorem plain_wan : ∃ a, plain.addr (bytes "1.2.3.4") a = true := ⟨0x01020304, by decide +kernel⟩

/-- A port forward of a web server. -/
def web (wanPorts lanPorts : String) : VarMap :=
  vars [("forward_port0", wanPorts ++ ">192.168.1.5:" ++ lanPorts ++ ",tcp,on,web")]

/-- One port is sent on. -/
theorem web_port : AsStored plain plainDest dottedLibc .nothing (bytes "1.2.3.4") (web "80" "8080") 0 := by
  have hrecord : (recordAt dottedLibc .nothing (web "80" "8080") 0).all fun nat =>
      ntohs nat.m.dst.ports.1 == 80 && ntohs nat.m.dst.ports.2 == 80 && protoName nat == "tcp" &&
        nat.ipaddr == 0xc0a80105 && ntohs nat.ports.1 == 8080 := by
    decide +kernel
  have hcovered : ∀ nat, recordAt dottedLibc .nothing (web "80" "8080") 0 = some nat → ∀ n, external nat n →
      n = 80 ∧ protoName nat = "tcp" ∧ nat.ipaddr = 0xc0a80105 ∧ internalPort nat 80 = 8080 := by
    intro nat hnat n hn
    rw [hnat, Option.all_some] at hrecord
    simp only [Bool.and_eq_true, beq_iff_eq] at hrecord
    obtain ⟨⟨⟨⟨hfirst, hlast⟩, hproto⟩, haddr⟩, hport⟩ := hrecord
    rw [external, hfirst, hlast] at hn
    exact ⟨UInt16.le_antisymm hn.2 hn.1, hproto, haddr, by rw [internalPort, hfirst, hport]; rfl⟩
  have hfirst : ((parts .nothing (web "80" "8080")).find? (UpnpPart.takes plain "tcp" 80)).any
      (fun part => plainDest part.dest == some (0xc0a80105, 8080)) = true := by
    decide +kernel
  refine (upnp_as_stored_iff _ plain_tcp plain_udp plain_wan _ _ _ _ _).mpr ⟨?_, ?_, ?_⟩
  · intro nat hnat n hn
    obtain ⟨rfl, hproto, haddr, hport⟩ := hcovered nat hnat n hn
    rw [hproto, haddr, hport]
    obtain ⟨part, hpart, hdest⟩ := (Option.any_eq_true _ _).mp hfirst
    exact ⟨part, hpart, by simpa using hdest⟩
  · intro nat hnat n hn
    obtain ⟨rfl, hproto, haddr, hport⟩ := hcovered nat hnat n hn
    rw [hproto, haddr, hport]
    decide +kernel
  · intro _ part _ _
    rw [← Option.isSome_iff_exists]
    decide +kernel

/-- Of two, the second is not. -/
theorem web_range : ¬∀ (R : Reading) (toDest : Bytes → Option (Addr × UInt16)) (L : Libc) (u : Undef) (wanIp : Bytes)
    (nv : VarMap), (∀ k, R.proto (bytes "tcp") k = decide (k = ipprotoTcp)) →
      (∀ k, R.proto (bytes "udp") k = decide (k = ipprotoUdp)) → (∃ a, R.addr wanIp a = true) →
      ∀ i < Nvparse.maxNvparse, AsStored R toDest L u wanIp nv i := by
  intro hclaim
  have h := hclaim plain plainDest dottedLibc .nothing (bytes "1.2.3.4") (web "80-81" "8080-8081") plain_tcp plain_udp
    plain_wan 0 (by decide)
  have hrecord : (recordAt dottedLibc .nothing (web "80-81" "8080-8081") 0).any (fun nat =>
      ntohs nat.m.dst.ports.1 == 80 && ntohs nat.m.dst.ports.2 == 81 && decide (nat.m.ipproto = 6)) = true := by
    decide +kernel
  obtain ⟨nat, hnat, hports⟩ := (Option.any_eq_true _ _).mp hrecord
  simp only [Bool.and_eq_true, beq_iff_eq, decide_eq_true_eq] at hports
  obtain ⟨⟨hfirst, hlast⟩, hproto⟩ := hports
  have hport : external nat 81 := by
    rw [external, hfirst, hlast]
    decide
  obtain ⟨dest, hout, -⟩ := h.redirected nat hnat (fun _ => false) 81 (sent 0x01020304 6 81)
    ⟨by decide +kernel, hproto.symm, rfl, hport⟩
  have hoff : outcome plain (fun _ => false) (writeUpnpForward .nothing (bytes "1.2.3.4")
      (logAccept (web "80-81" "8080-8081")) (web "80-81" "8080-8081")).1 .prerouting (sent 0x01020304 6 81) = .off := by
    decide +kernel
  rw [hoff] at hout
  cases hout

end Rc
end Router
