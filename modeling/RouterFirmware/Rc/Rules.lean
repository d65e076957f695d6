/-
# Lines for iptables-restore

What `router/rc/firewall_ex.c` writes to `/tmp/filter_rules` and `/tmp/nat_rules`: lines that put a rule at the end of a
chain or in front of it. A line is kept with its parts, the texts in it as they are printed; `Reading` says what iptables
reads in an address, a port, a list of flags and so on, and whether a packet has it. `-m tcp` and `-m udp` only load what
`-p` names. Of a schedule the two digits of each number and the days are kept; the kernel's `ipt_time.c` is
`Netconf.timeMatch`. A rate limiter has a token for the packet, or not.

The functions that print a part of a rule (`mac_conv`, `protoflag_conv`, `iprange_ex_conv`, `filter_conv`,
`timematch_conv`) are here too. Their arrays are taken to be large enough, the pool `g_buf_pool` as well. `nvram_get` of a
variable that is not set ends the process where it is compared: `none`.
-/
import RouterFirmware.Lib.Chain
import RouterFirmware.Nvparse.Records

namespace Router
namespace Rc

open CMem CText Netconf
open Nvram (VarMap)
open Nvparse (nvramSafeGet numbered toLower)

/-! ### Lines -/

/-- The chains of both tables. -/
inductive ChainName where
  | input
  | forward
  | macs
  | logaccept
  | logdrop
  | prerouting
  | postrouting
deriving DecidableEq

/-- `-m time --timestart %s:00 --timestop %s:00 --days %s`: hour and minute of each, and the days. -/
structure TimeMatch where
  start : Bytes × Bytes
  stop : Bytes × Bytes
  days : List (Fin 7)

/-- A part of a rule that a packet must meet. -/
inductive Match where
  | inIf (name : Bytes)
  | outIf (name : Bytes)
  | state (states : List Ctinfo)
  | macSource (text : Bytes)
  | proto (text : Bytes)
  | src (text : Bytes)
  | srcRange (text : Bytes)
  | dst (text : Bytes)
  | dstRange (text : Bytes)
  | sport (text : Bytes)
  | dport (text : Bytes)
  | tcpFlags (mask comp : Bytes)
  | icmpType (text : Bytes)
  | limit (limiter : ℕ)
  | mss (least : ℤ)
  | time (t : TimeMatch)

/-- What stands behind `-j`. -/
inductive Action where
  | accept
  | drop
  | log
  | chain (name : ChainName)
  | setMss (mss : ℤ)
  | clampMss
  | dnat (dest : Bytes)
  | netmap (dest : Bytes)
  | masquerade

/-- `-I`, or else `-A`. -/
structure Line where
  insert : Bool
  chain : ChainName
  parts : List Match
  action : Action

/-! ### What a line means -/

/-- What iptables reads in a text, and which packets have it. -/
structure Reading where
  addr : Bytes → Addr → Bool
  range : Bytes → Addr → Bool
  port : Bytes → UInt16 → Bool
  proto : Bytes → ℕ → Bool
  flags : Bytes → Bytes → BitVec 8 → Bool
  icmp : Bytes → Packet → Bool
  mac : Bytes → Mac → Bool
  mss : ℤ → Packet → Bool

/-- `parse_time`, of `HH:MM:00`. -/
def seconds (t : Bytes × Bytes) : ℕ := (atoi t.1 * 3600 + atoi t.2 * 60).toNat

/-- `parse`, of `--timestart`, `--timestop` and `--days`. -/
def TimeMatch.info (t : TimeMatch) : IptTimeInfo :=
  ⟨t.days.foldl (fun mask d => mask ||| 1 <<< d.val) 0, seconds t.start, seconds t.stop⟩

/-- Whether the packet meets it; a limiter with a token lets it pass. -/
def Match.holds (R : Reading) (token : ℕ → Bool) (p : Packet) : Match → Bool
  | .inIf name => decide (p.indev.str.bytes = name)
  | .outIf name => decide (p.outdev.str.bytes = name)
  | .state states => decide (p.ctinfo ∈ states)
  | .macSource text => p.mac.any (R.mac text)
  | .proto text => R.proto text p.protocol
  | .src text => R.addr text p.saddr
  | .srcRange text => R.range text p.saddr
  | .dst text => R.addr text p.daddr
  | .dstRange text => R.range text p.daddr
  | .sport text => p.header.any fun h => R.port text h.source
  | .dport text => p.header.any fun h => R.port text h.dest
  | .tcpFlags mask comp => p.header.any fun h => R.flags mask comp h.flags
  | .icmpType text => R.icmp text p
  | .limit limiter => token limiter
  | .mss least => R.mss least p
  | .time t => timeMatch t.info p

/-- A packet meets all parts of a rule. -/
def meets (R : Reading) (token : ℕ → Bool) (p : Packet) (ms : List Match) : Bool := ms.all (Match.holds R token p)

/-- What is decided: in the filter table whether the packet passes, in the nat table what it becomes. -/
inductive Verdict where
  | accept
  | drop
  | dnat (dest : Bytes)
  | netmap (dest : Bytes)
  | masquerade
deriving DecidableEq

/-- `LOG` and `TCPMSS` let the packet go on. -/
def Action.target : Action → Chain.Target ChainName Verdict
  | accept => .final .accept
  | drop => .final .drop
  | log => .next
  | chain name => .jump name
  | setMss _ => .next
  | clampMss => .next
  | dnat dest => .final (.dnat dest)
  | netmap dest => .final (.netmap dest)
  | masquerade => .final .masquerade

def Line.edit (R : Reading) (token : ℕ → Bool) (l : Line) : Chain.Edit Packet ChainName Verdict where
  insert := l.insert
  chain := l.chain
  rule := ⟨fun p => meets R token p l.parts, l.action.target⟩

/-- What comes of a packet in a chain of the lines; chains call each other twice at most. -/
def outcome (R : Reading) (token : ℕ → Bool) (lines : List Line) (c : ChainName) (p : Packet) : Chain.Outcome Verdict :=
  Chain.enter (Chain.tables (lines.map (Line.edit R token))) p 3 c

/-! ### Variables -/

/-- `nvram_match(name, value)`. -/
def nvramMatch (nv : VarMap) (name value : String) : Bool :=
  (nv.lookup (cstr (bytes name))).any fun v => v.bytes == bytes value

/-- `nvram_invmatch(name, value)`. -/
def nvramInvmatch (nv : VarMap) (name value : String) : Bool :=
  (nv.lookup (cstr (bytes name))).any fun v => v.bytes != bytes value

/-- `nvram_safe_get(name)`. -/
def nvramText (nv : VarMap) (name : String) : Bytes := nvramSafeGet nv (cstr (bytes name))

/-- `foreach_x(name)`: the numbers from 0 to what the variable says. -/
def foreachX (nv : VarMap) (name : String) : List ℕ := List.range (atoi (nvramText nv name)).toNat

theorem exists_of_mem_mapM {α β : Type*} {f : α → Option β} : ∀ {l : List α} {ys : List β},
    l.mapM f = some ys → ∀ y ∈ ys, ∃ x ∈ l, f x = some y
  | [], ys, h, y, hy => by
    rw [List.mapM_nil] at h
    cases Option.some.inj h
    cases hy
  | x :: l, ys, h, y, hy => by
    rw [List.mapM_cons] at h
    obtain ⟨y', hy', h⟩ := Option.bind_eq_some_iff.mp h
    obtain ⟨ys', hys', h⟩ := Option.bind_eq_some_iff.mp h
    cases Option.some.inj h
    rcases List.mem_cons.mp hy with rfl | hy
    · exact ⟨x, List.mem_cons_self .., hy'⟩
    · obtain ⟨x', hx', hfx⟩ := exists_of_mem_mapM hys' y hy
      exact ⟨x', List.mem_cons_of_mem _ hx', hfx⟩

/-- `"%d"`. -/
def intText (n : ℤ) : Bytes := if n < 0 then 45 :: decimal n.natAbs else decimal n.natAbs

theorem intText_natCast (n : ℕ) : intText n = decimal n := by
  rw [intText, if_neg (by omega), Int.natAbs_natCast]

/-! ### Parts of a rule -/

/-- `mac_conv(name, idx, buf)`: a colon after each two of twelve digits. The text ends where the variable does. -/
def macConv (nv : VarMap) (name : String) (idx : ℕ) : Bytes :=
  let mac := nvramSafeGet nv (numbered name idx)
  if mac = [] then []
  else
    ((List.range 12).flatMap fun i =>
      (if i ≠ 0 ∧ i % 2 = 0 then bytes ":" else []) ++ [mac.getD i 0]).takeWhile (· ≠ 0)

/-- `!strncasecmp(s, word, n)`, for a word of `n` lower case letters. -/
def caseBegins (s : Bytes) (word : String) : Bool := (s.take (bytes word).length).map toLower == bytes word

/-- `proto_conv(name, idx)`; of `Both` three letters are compared. -/
def protoConv (nv : VarMap) (name : String) (idx : ℕ) : Option Bytes :=
  (nv.lookup (numbered name idx)).map fun proto =>
    if caseBegins proto.bytes "bot" then bytes "both"
    else if caseBegins proto.bytes "tcp" then bytes "tcp"
    else if caseBegins proto.bytes "udp" then bytes "udp"
    else if caseBegins proto.bytes "other" then bytes "other"
    else bytes "tcp"

/-- `protoflag_conv(name, idx, isFlag)`. -/
def protoflagConv (nv : VarMap) (name : String) (idx : ℕ) (isFlag : Bool) : Option Bytes :=
  (nv.lookup (numbered name idx)).map fun proto =>
    if !isFlag then if caseBegins proto.bytes "udp" then bytes "udp" else bytes "tcp"
    else if 3 < proto.length then proto.bytes.drop 4 else []

/-- `portrange_conv`, `ip_conv`: the text of the variable. -/
def textConv (nv : VarMap) (name : String) (idx : ℕ) : Bytes := nvramSafeGet nv (numbered name idx)

/-- `iprange_ex_conv(name, idx)`: each `*` is a 0, and eight bits of the mask less. -/
def iprangeExConv (nv : VarMap) (name : String) (idx : ℕ) : Bytes :=
  let ip := nvramSafeGet nv (numbered name idx)
  let startip := ip.map fun c => if c = 42 then 48 else c
  let mask : ℤ := 32 - 8 * ip.count 42
  if mask = 32 then startip
  else if mask = 0 then []
  else startip ++ bytes "/" ++ intText mask

/-- `filter_conv(proto, flag, srcip, srcport, dstip, dstport)`. -/
def filterConv (proto flag srcip srcport dstip dstport : Bytes) : List Match :=
  (if proto ≠ [] then [Match.proto proto] else []) ++
  (if flag ≠ [] then [Match.tcpFlags flag flag] else []) ++
  (if srcip ≠ [] then [if 45 ∈ srcip then Match.srcRange srcip else Match.src srcip] else []) ++
  (if srcport ≠ [] then [Match.sport srcport] else []) ++
  (if dstip ≠ [] then [if 45 ∈ dstip then Match.dstRange dstip else Match.dst dstip] else []) ++
  (if dstport ≠ [] then [Match.dport dstport] else [])

/-- `timematch_conv(mstr, nv_date, nv_time)`: nothing is printed without a schedule, or with one that is always. -/
def timematchConv (nv : VarMap) (nvDate nvTime : String) : Option TimeMatch :=
  let date := nvramText nv nvDate
  let time := nvramText nv nvTime
  if date.length ≠ 7 ∨ time.length ≠ 8 then none
  else if date = bytes "1111111" ∧ time = bytes "00002359" then none
  else some {
    start := (time.take 2, (time.drop 2).take 2)
    stop := ((time.drop 4).take 2, (time.drop 6).take 2)
    days := (List.finRange 7).filter fun i => date.getD i 0 = 49 }

/-- The rows of a filter (`filter_lw` or `filter_wl`), each as the matches that `filter_conv` prints. -/
def filterRows (nv : VarMap) (filter : String) : Option (List (List Match)) :=
  (foreachX nv (filter ++ "_num_x")).mapM fun i => do
    let proto ← protoflagConv nv (filter ++ "_proto_x") i false
    let flag ← protoflagConv nv (filter ++ "_proto_x") i true
    let srcip := iprangeExConv nv (filter ++ "_srcip_x") i
    let srcport := textConv nv (filter ++ "_srcport_x") i
    let dstip := iprangeExConv nv (filter ++ "_dstip_x") i
    let dstport := textConv nv (filter ++ "_dstport_x") i
    some (filterConv proto flag srcip srcport dstip dstport)

/-- The ICMP types of a filter. -/
def icmpRows (nv : VarMap) (filter : String) : List (List Match) :=
  (words 32 (nvramText nv (filter ++ "_icmp_x"))).map fun ptr => [.proto (bytes "icmp"), .icmpType ptr]

end Rc
end Router
