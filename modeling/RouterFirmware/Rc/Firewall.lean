/-
# The rules of the firewall

`nat_setting`, `write_upnp_forward` and `filter_setting` of `router/rc/firewall_ex.c`, as the lines of `Rc.Rules` that they
write. `nat_setting` writes the forwarding rules of the filter table to a file of their own, which `filter_setting` reads.
`logaccept` and `logdrop` are the targets that `start_firewall_ex` chooses.

The build is that of a router with guest accounts and range extender, and without USB.
-/
import RouterFirmware.Rc.Rules

namespace Router
namespace Rc

open CMem CText Netconf
open Nvram (VarMap)
open Nvparse (Libc Undef nvramSafeGet numbered cut rangeOf)

/-- `-A`. -/
def add (chain : ChainName) (parts : List Match) (action : Action) : Line := ⟨false, chain, parts, action⟩

/-- `-I`. -/
def ins (chain : ChainName) (parts : List Match) (action : Action) : Line := ⟨true, chain, parts, action⟩

/-! ### `start_firewall_ex` -/

/-- `logaccept`. -/
def logAccept (nv : VarMap) : Action :=
  if nvramMatch nv "fw_log_x" "accept" || nvramMatch nv "fw_log_x" "both" then .chain .logaccept else .accept

/-- `logdrop`. -/
def logDrop (nv : VarMap) : Action :=
  if nvramMatch nv "fw_log_x" "drop" || nvramMatch nv "fw_log_x" "both" then .chain .logdrop else .drop

/-! ### `write_upnp_forward` -/

/-- What is taken from a variable `forward_port`. -/
structure UpnpPart where
  wanPort : Bytes
  lanIpaddr : Bytes
  lanPort : Bytes
  proto : Bytes
  enable : Bytes

/-- `strncpy(value, nvram_safe_get(name), sizeof(value))`, and what is read from there. -/
def upnpValue (u : Undef) (nv : VarMap) (i : ℕ) : Bytes :=
  let v := nvramSafeGet nv (numbered "forward_port" i)
  if v.length < 512 then v else v.take 512 ++ u.stack

/-- `wan_port0-wan_port1>lan_ipaddr:lan_port0-lan_port1[:,]proto[:,]enable[:,]desc`; of a range the first port is taken. -/
def upnpPart (value : Bytes) : Option UpnpPart := do
  let (wanPort, s) ← cut ">" value
  let (lanIpaddr, s) ← cut ":" s
  let (lanPort, s) ← cut ":," s
  let (proto, s) ← cut ":," s
  return ⟨(rangeOf wanPort).1, lanIpaddr, (rangeOf lanPort).1, proto, (strsep (bytes ":,") s).1⟩

/-- The rules of a protocol, for the nat table and for the filter table. -/
def redirect (wanIp : Bytes) (logaccept : Action) (part : UpnpPart) (proto : String) : Line × Line :=
  (add .prerouting [.proto (bytes proto), .dst wanIp, .dport part.wanPort]
      (.dnat (part.lanIpaddr ++ bytes ":" ++ part.lanPort)),
    add .forward [.proto (bytes proto), .dst part.lanIpaddr, .dport part.lanPort] logaccept)

/-- The protocols that rules are written for. -/
def upnpProtos (part : UpnpPart) : List String :=
  (if part.proto = bytes "tcp" ∨ part.proto = bytes "both" then ["tcp"] else []) ++
    if part.proto = bytes "udp" ∨ part.proto = bytes "both" then ["udp"] else []

/-- A turn of the loop. -/
def upnpLines (u : Undef) (wanIp : Bytes) (logaccept : Action) (nv : VarMap) (i : ℕ) : List (Line × Line) :=
  match upnpPart (upnpValue u nv i) with
  | none => []
  | some part => if part.enable = bytes "off" then [] else (upnpProtos part).map (redirect wanIp logaccept part)

/-- `write_upnp_forward`: the lines of the nat table and those of the filter table. -/
def writeUpnpForward (u : Undef) (wanIp : Bytes) (logaccept : Action) (nv : VarMap) : List Line × List Line :=
  ((List.range 15).flatMap (upnpLines u wanIp logaccept nv)).unzip

/-! ### `nat_setting` -/

/-- A word of memory, the low byte first, as a number that is read high byte first. -/
def swapWord (a : Addr) : Addr := a.extractLsb' 0 8 ++ a.extractLsb' 8 8 ++ a.extractLsb' 16 8 ++ a.extractLsb' 24 8

/-- `inet_addr`. -/
def inetAddr (L : Libc) (s : Bytes) : Addr := (L.inetAton s).getD 0xffffffff

/-- `ip2class(lan_ip, netmask, buf)`; the mask is compared in network order. -/
def ip2class (L : Libc) (lanIp netmask : Bytes) : Bytes :=
  let val := inetAddr L netmask
  let net := inetNtoa (inetAddr L lanIp &&& val)
  if swapWord val = 0xff00000 then net ++ bytes "/8"
  else if swapWord val = 0xffff0000 then net ++ bytes "/16"
  else net ++ bytes "/24"

/-- The rows of the virtual server. -/
def vtsLines (wanIp : Bytes) (logaccept : Action) (nv : VarMap) (i : ℕ) : Option (List (Line × Line)) := do
  let proto ← protoConv nv "vts_proto_x" i
  let protono := textConv nv "vts_protono_x" i
  let port := textConv nv "vts_port_x" i
  let lport := textConv nv "vts_lport_x" i
  let dstip := textConv nv "vts_ipaddr_x" i
  let dstports := if lport ≠ [] then lport else port
  let dest := if lport ≠ [] then dstip ++ bytes ":" ++ lport else dstip
  let pair (name : String) : Line × Line :=
    (add .prerouting [.proto (bytes name), .dst wanIp, .dport port] (.dnat dest),
      add .forward [.proto (bytes name), .dst dstip, .dport dstports] logaccept)
  some ((if proto = bytes "tcp" ∨ proto = bytes "both" then [pair "tcp"] else []) ++
    (if proto = bytes "udp" ∨ proto = bytes "both" then [pair "udp"] else []) ++
    if proto = bytes "other" then
      [(add .prerouting [.proto protono, .dst wanIp] (.dnat dstip), add .forward [.proto protono, .dst dstip] logaccept)]
    else [])

/-- The virtual server, if it is on. -/
def virtualServer (wanIp : Bytes) (logaccept : Action) (nv : VarMap) : Option (List (List (Line × Line))) :=
  if nvramMatch nv "wan_nat_X" "1" && nvramMatch nv "vts_enable_x" "1" then
    (foreachX nv "vts_num_x").mapM (vtsLines wanIp logaccept nv)
  else some []

/-- The web server on the WAN side, and the ports of the download master. -/
def serviceLines (wanIp lanIp : Bytes) (nv : VarMap) : List Line :=
  (if nvramMatch nv "misc_http_x" "1" then
    let wanPort : ℤ := if nvramInvmatch nv "misc_httpport_x" "" then atoi (nvramText nv "misc_httpport_x") else 8080
    [add .prerouting [.proto (bytes "tcp"), .dst wanIp, .dport (intText wanPort)] (.dnat (lanIp ++ bytes ":80"))]
  else []) ++
  if nvramMatch nv "apps_dl_share" "1" then
    ["tcp", "udp"].map fun proto => add .prerouting [.proto (bytes proto), .dst wanIp,
      .dport (nvramText nv "apps_dl_share_port_from" ++ bytes ":" ++ nvramText nv "apps_dl_share_port_to")] (.dnat lanIp)
  else []

/-- `nat_setting`: the lines of the nat table, and the forwarding rules. -/
def natSetting (L : Libc) (u : Undef) (wanIf wanIp lanIf lanIp : Bytes) (logaccept : Action) (nv : VarMap) :
    Option (List Line × List Line) := do
  let nat := nvramMatch nv "wan_nat_X" "1"
  let lanClass := ip2class L lanIp (nvramText nv "lan_netmask")
  let upnp := if nat && nvramInvmatch nv "upnp_ENABLE" "0" then writeUpnpForward u wanIp logaccept nv else ([], [])
  let vts ← virtualServer wanIp logaccept nv
  let battle := nat && nvramInvmatch nv "sp_battle_ips" "0"
  let dmz := nat && nvramInvmatch nv "dmz_ip" ""
  let game := [.proto (bytes "udp"), .dst wanIp, .sport (bytes "6112")]
  let nats := serviceLines wanIp lanIp nv ++ upnp.1 ++ (vts.flatten.map Prod.fst) ++
    (if battle then [add .prerouting game (.netmap lanClass),
      add .postrouting [.proto (bytes "udp"), .src lanClass, .dport (bytes "6112")] (.netmap wanIp)] else []) ++
    (if dmz then [add .prerouting [.dst wanIp] (.dnat (nvramText nv "dmz_ip"))] else []) ++
    if nat then [add .postrouting [.outIf wanIf] .masquerade,
      add .postrouting [.outIf lanIf, .src lanClass, .dst lanClass] .masquerade] else []
  let forwards := upnp.2 ++ (vts.flatten.map Prod.snd) ++
    (if battle then [add .forward [.proto (bytes "udp"), .dport (bytes "6112")] logaccept] else []) ++
    if dmz then [add .forward [.dst (nvramText nv "dmz_ip")] logaccept] else []
  some (nats, forwards)

/-! ### `filter_setting` -/

/-- Whether guests have an interface of their own. -/
def guest (nv : VarMap) : Bool :=
  !nvramMatch nv "wl_mode_EX" "re" &&
    (nvramMatch nv "wl_guest_ENABLE" "1" && nvramMatch nv "wl_mode_EX" "ap" && nvramMatch nv "wan_nat_X" "1")

def guestIf : Bytes := bytes "wl0.1"

/-- Whether `macaccept` is `MACS`. -/
def macAccept (nv : VarMap) : Bool :=
  nvramInvmatch nv "macfilter_enable_x" "0" && !nvramMatch nv "macfilter_enable_x" "2"

/-- The rules of the MAC filter. -/
def macLines (lanIf : Bytes) (logaccept logdrop : Action) (nv : VarMap) : List Line :=
  if nvramInvmatch nv "macfilter_enable_x" "0" then
    let ftype := if nvramMatch nv "macfilter_enable_x" "2" then logdrop else logaccept
    let fftype := if nvramMatch nv "macfilter_enable_x" "2" then logdrop else .chain .macs
    (foreachX nv "macfilter_num_x").flatMap fun i =>
      let mac := macConv nv "macfilter_list_x" i
      let rules (name : Bytes) :=
        [add .input [.inIf name, .macSource mac] ftype, add .forward [.inIf name, .macSource mac] fftype]
      rules lanIf ++ if guest nv then rules guestIf else []
  else []

/-- The rules for connections to the router. -/
def localLines (wanIp lanIf : Bytes) (logaccept logdrop : Action) (nv : VarMap) : List Line :=
  let macOn := nvramMatch nv "macfilter_enable_x" "1"
  let fresh (name : Bytes) : List Match := [.inIf name, .state [.new]]
  if nvramInvmatch nv "fw_enable_x" "1" then
    if macOn then
      [add .input (fresh lanIf) logdrop] ++ if guest nv then [ins .input (fresh guestIf) logdrop] else []
    else []
  else
    let service (dst : Bytes) (port : Bytes) := add .input [.proto (bytes "tcp"), .dst dst, .dport port] logaccept
    [add .input [.state [.invalid]] logdrop, add .input [.state [.related, .established]] logaccept,
      add .input (fresh (bytes "lo")) .accept, add .input (fresh lanIf) (if macOn then logdrop else .accept)] ++
    (if guest nv then [ins .input (fresh guestIf) (if macOn then logdrop else .accept)] else []) ++
    (if nvramMatch nv "wan0_proto" "dhcp" || nvramMatch nv "wan0_proto" "bigpond" then
      [add .input [.proto (bytes "udp"), .sport (bytes "67"), .dport (bytes "68")] logaccept] else []) ++
    (if guest nv then
      [ins .input [.inIf guestIf, .proto (bytes "tcp"), .dport (bytes "80")] logdrop,
        ins .forward [.inIf guestIf, .outIf (bytes "br0")] logdrop,
        ins .forward [.inIf (bytes "br0"), .outIf guestIf] logdrop] else []) ++
    (if nvramMatch nv "misc_http_x" "1" then [service (nvramText nv "lan_ipaddr") (bytes "80")] else []) ++
    (if nvramMatch nv "usb_webenable_x" "2" then
      [service wanIp (nvramText nv "usb_webhttpport_x"), service wanIp (nvramText nv "usb_webactivex_x")] else []) ++
    (if nvramInvmatch nv "usb_ftpenable_x" "0" then [service wanIp (nvramText nv "usb_ftpport_x")] else []) ++
    (if nvramInvmatch nv "misc_ping_x" "0" then
      [add .input [.proto (bytes "icmp"), .dst wanIp] logaccept] else []) ++
    (if nvramInvmatch nv "misc_lpr_x" "0" then
      [service wanIp (bytes "515"), service wanIp (bytes "9100"), service wanIp (bytes "3838")] else []) ++
    [add .input [] logdrop]

/-- A rule of the FORWARD chain, and of MACS if that is used. -/
def bothChains (nv : VarMap) (parts : List Match) (action : Action) : List Line :=
  add .forward parts action :: if macAccept nv then [add .macs parts action] else []

/-- The rules for the state of a connection, and from the LAN to the LAN. -/
def stateLines (lanIf : Bytes) (logaccept logdrop : Action) (nv : VarMap) : List Line :=
  bothChains nv [.state [.established, .related]] logaccept ++ bothChains nv [.state [.invalid]] logdrop ++
    bothChains nv [.inIf lanIf, .outIf lanIf] logaccept ++
    if macAccept nv && guest nv then [add .macs [.inIf guestIf, .outIf guestIf] logaccept] else []

/-- The rules that clamp the segment size. -/
def mssLines (nv : VarMap) : List Line :=
  let mtu := atoi (nvramText nv "wan_pppoe_mtu")
  let parts : List Match := [.proto (bytes "tcp"), .tcpFlags (bytes "SYN,RST") (bytes "SYN"), .mss (mtu - 39)]
  let syn : List Match := [.proto (bytes "tcp"), .tcpFlags (bytes "SYN,RST,ACK") (bytes "SYN")]
  (if nvramMatch nv "wan_proto" "pppoe" then
    ins .forward parts (.setMss (mtu - 40)) :: if macAccept nv then [add .macs parts (.setMss (mtu - 40))] else []
  else []) ++
  if nvramMatch nv "wan_proto" "pptp" then bothChains nv syn .clampMss else []

/-- What the rules against denial of service let through at a limited rate: each with its limiter. -/
def dosParts : List (List Match) :=
  [[.proto (bytes "tcp"), .tcpFlags (bytes "SYN,RST,ACK") (bytes "SYN"), .limit 0],
    [.proto (bytes "tcp"), .tcpFlags (bytes "SYN,ACK,FIN,RST") (bytes "RST"), .limit 1],
    [.proto (bytes "icmp"), .icmpType (bytes "echo-request"), .limit 2]]

def dosLines (wanIf : Bytes) (logaccept : Action) (nv : VarMap) : List Line :=
  if nvramMatch nv "fw_enable_x" "1" then dosParts.map fun parts => add .forward (.inIf wanIf :: parts) logaccept
  else []

/-- What a schedule prints. -/
def timeParts (t : Option TimeMatch) : List Match := (t.map Match.time).toList

/-- Whether what no rule of the filter matches is dropped. -/
def dropsRest (nv : VarMap) (filter : String) : Bool := nvramMatch nv (filter ++ "_default_x") "DROP"

/-- The rules of a filter, without the one for the rest. -/
def filterLines (nv : VarMap) (filter : String) (chain : ChainName) (inIf outIf : Bytes) (logaccept logdrop : Action) :
    Option (List Line) := do
  let t := timematchConv nv (filter ++ "_date_x") (filter ++ "_time_x")
  let ftype := if dropsRest nv filter then logaccept else logdrop
  let rows ← filterRows nv filter
  some ((rows ++ icmpRows nv filter).map fun row =>
    add chain (timeParts t ++ [.inIf inIf, .outIf outIf] ++ row) ftype)

/-- The rule for the rest. -/
def restLine (nv : VarMap) (filter : String) (chain : ChainName) (inIf outIf : Bytes) (logaccept logdrop : Action) :
    Line :=
  add chain [.inIf inIf, .outIf outIf] (if dropsRest nv filter then logdrop else logaccept)

/-- `chain`: the rules from the LAN to the WAN are for what the MAC filter passes on. -/
def lanWanChain (nv : VarMap) : ChainName := if nvramMatch nv "macfilter_enable_x" "1" then .macs else .forward

/-- The rules from the LAN to the WAN. -/
def lanWanLines (wanIf lanIf : Bytes) (logaccept logdrop : Action) (nv : VarMap) : Option (List Line) :=
  if nvramMatch nv "fw_lw_enable_x" "1" then do
    let lines ← filterLines nv "filter_lw" (lanWanChain nv) lanIf wanIf logaccept logdrop
    some (lines ++ [restLine nv "filter_lw" (lanWanChain nv) lanIf wanIf logaccept logdrop])
  else if nvramMatch nv "macfilter_enable_x" "1" then
    some [add .forward [.inIf lanIf, .outIf wanIf] logdrop, add .macs [.inIf lanIf, .outIf wanIf] logaccept]
  else some []

/-- The rules from the WAN to the LAN; the one for the rest comes behind the forwarding rules. -/
def wanLanLines (wanIf lanIf : Bytes) (logaccept logdrop : Action) (nv : VarMap) : Option (List Line) :=
  if nvramMatch nv "fw_wl_enable_x" "1" then filterLines nv "filter_wl" .forward wanIf lanIf logaccept logdrop
  else some []

def wanLanRest (wanIf lanIf : Bytes) (logaccept logdrop : Action) (nv : VarMap) : List Line :=
  if nvramMatch nv "fw_wl_enable_x" "1" then
    [restLine nv "filter_wl" .forward wanIf lanIf logaccept logdrop] else []

/-- The chains that log. -/
def logLines : List Line :=
  [add .logaccept [.state [.new]] .log, add .logaccept [] .accept, add .logdrop [.state [.new]] .log,
    add .logdrop [] .drop]

/-- `filter_setting`, where `forwards` is what it reads from `/tmp/nat_forward_rules`. -/
def filterSetting (wanIf wanIp lanIf : Bytes) (logaccept logdrop : Action) (forwards : List Line) (nv : VarMap) :
    Option (List Line) := do
  let bigpond := if nvramMatch nv "wan0_proto" "bigpond" then
    [ins .input [.dst (nvramText nv "wan0_ipaddr"), .inIf (nvramText nv "wan0_ifname"), .proto (bytes "udp"),
      .dport (bytes "5050")] .accept] else []
  let lanWan ← lanWanLines wanIf lanIf logaccept logdrop nv
  let wanLan ← wanLanLines wanIf lanIf logaccept logdrop nv
  some (bigpond ++ macLines lanIf logaccept logdrop nv ++ localLines wanIp lanIf logaccept logdrop nv ++
    stateLines lanIf logaccept logdrop nv ++ mssLines nv ++ dosLines wanIf logaccept nv ++ lanWan ++ wanLan ++
    forwards ++ wanLanRest wanIf lanIf logaccept logdrop nv ++ logLines)

/-- `start_firewall_ex`: the lines of the nat table and those of the filter table. -/
def startFirewallEx (L : Libc) (u : Undef) (wanIf wanIp lanIf lanIp : Bytes) (nv : VarMap) :
    Option (List Line × List Line) := do
  let (nats, forwards) ← natSetting L u wanIf wanIp lanIf lanIp (logAccept nv) nv
  let lines ← filterSetting wanIf wanIp lanIf (logAccept nv) (logDrop nv) forwards nv
  some (nats, lines)

end Rc
end Router
