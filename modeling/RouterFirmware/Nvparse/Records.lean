/-
# Records of netconf in NVRAM

`nvparse.c`: port forwards, application specific port forwards and client
filters are kept as one line of text each, in variables `forward_port0`,
`autofw_port0`, `filter_client0` and so on. The text is put together piece by piece
(`safe_snprintf`) and taken apart by `strsep`.

NVRAM is the finite map that the store refines (`Nvram.VarMap`). An address is in
host order here, a port in network order as in netconf. What a get function
leaves in the record when it returns FALSE is not modelled: no caller looks.

Where the code steps outside what C defines, what happens then is an input
(`Undef`): the conversions of a description that is passed as a format, and what
stands behind a value or a description that fills its array. An interface name
ends within its array.
-/
import RouterFirmware.Lib.Text
import RouterFirmware.Netconf.Fw
import RouterFirmware.Nvram.Refine

namespace Router
namespace Nvparse

open CMem CText Bits Netconf
open Nvram (VarMap)

/-- `inet_aton`, which reads what `inet_ntoa` prints, and no `*`. -/
structure Libc where
  inetAton : Bytes → Option Addr
  aton_ntoa : ∀ a, inetAton (inetNtoa a) = some a
  aton_star : inetAton (bytes "*") = none

/-- What happens where C does not say: `conv` is put out from a conversion without
its argument on, `stack` is read behind a value and `link` behind a description
that has no NUL. -/
structure Undef where
  conv : Bytes → Bytes
  stack : Bytes
  link : Bytes

/-- Nothing is put out, and nothing stands behind. -/
def Undef.nothing : Undef := ⟨fun _ => [], [], []⟩

variable (L : Libc) (u : Undef)

/-! ### Records -/

/-- `enum netconf_target`. -/
inductive Target where
  | drop
  | accept
  | logDrop
  | logAccept
  | snat
  | dnat
  | masq
  | app
deriving DecidableEq

/-- `char desc[40]`. -/
structure Desc where
  str : CStr
  le : str.length ≤ 40
deriving DecidableEq

/-- `NETCONF_FW_COMMON`, without the links. -/
structure FwCommon where
  m : Match
  target : Target
  desc : Desc
deriving DecidableEq

/-- `netconf_filter_t`; the direction is left out. -/
abbrev NetconfFilter := FwCommon

/-- `netconf_nat_t`. -/
structure NetconfNat extends FwCommon where
  ipaddr : Addr
  ports : UInt16 × UInt16
deriving DecidableEq

/-- `netconf_app_t`. -/
structure NetconfApp extends FwCommon where
  proto : UInt16
  dport : UInt16 × UInt16
  toPorts : UInt16 × UInt16
deriving DecidableEq

def netconfDisabled : BitVec 32 := 0x80000000

/-- `strncpy(desc, s, sizeof(desc))`, into an array of zeros. -/
def Desc.copy (s : Bytes) : Desc :=
  ⟨cstr (s.take 40), (List.takeWhile_prefix _).length_le.trans (List.length_take_le ..)⟩

/-- `strncpy(name, s, IFNAMSIZ)`. -/
def ifnameCopy (s : CStr) : Ifname :=
  ⟨cstr (s.bytes.take 15), Nat.lt_succ_of_le ((List.takeWhile_prefix _).length_le.trans (List.length_take_le ..))⟩

/-- `memset(match, 0, sizeof(*match))`. -/
def matchZero : Match where
  ipproto := 0
  src := ⟨0, 0, (0, 0)⟩
  dst := ⟨0, 0, (0, 0)⟩
  mac := 0
  inName := .none
  outName := .none
  state := 0
  flags := 0
  days := (0, 0)
  secs := (0, 0)

/-- The whole record set to 0. -/
def commonZero : FwCommon := ⟨matchZero, .drop, .copy []⟩

/-- The string that starts at `desc`. -/
def FwCommon.descStr (f : FwCommon) : Bytes :=
  if f.desc.str.length < 40 then f.desc.str.bytes else f.desc.str.bytes ++ u.link

/-! ### Variables -/

/-- `nvram_safe_get`. -/
def nvramSafeGet (nv : VarMap) (name : CStr) : Bytes := ((nv.lookup name).map CStr.bytes).getD []

/-- `snprintf(name, sizeof(name), "...%d", which)`. -/
def numbered (base : String) (which : ℕ) : CStr := cstr (bytes base ++ decimal which)

/-- `nvram_invmatch(name, "")`, then `strncpy(value, nvram_get(name), sizeof(value))`. -/
def value? (nv : VarMap) (name : CStr) : Option Bytes :=
  match nv.lookup name with
  | none => none
  | some v =>
    if v.length = 0 then none
    else some (if v.length < 1000 then v.bytes else v.bytes.take 1000 ++ u.stack)

/-- `nvram_set(name, value)`, which fails if `ok` is false; whether it was 0. -/
def nvramSet (ok : Bool) (nv : VarMap) (name : CStr) (pieces : List Bytes) : Bool × VarMap :=
  if ok then (true, nv.insert name (cstr (putAll 1000 pieces))) else (false, nv)

/-- What the set functions have in common: a record that is not valid is not set. -/
def setIfValid (valid ok : Bool) (nv : VarMap) (name : CStr) (pieces : List Bytes) : Bool × VarMap :=
  if !valid then (false, nv) else nvramSet ok nv name pieces

/-! ### Parts of a line -/

/-- `strsep`, where there must be a separator. -/
def cut (delim : String) (s : Bytes) : Option (Bytes × Bytes) :=
  match strsep (bytes delim) s with
  | (_, none) => none
  | (token, some rest) => some (token, rest)

/-- A range, of which the second number is optional. -/
def rangeOf (s : Bytes) : Bytes × Bytes :=
  match strsep (bytes "-") s with
  | (start, none) => (start, start)
  | (start, some stop) => (start, stop)

def toLower (c : UInt8) : UInt8 := if 65 ≤ c && c ≤ 90 then c + 32 else c

/-- `!strncasecmp(s, word, 3)`, for a word of three lower case letters. -/
def beginsWith (s : Bytes) (word : String) : Bool := (s.take 3).map toLower == bytes word

/-- The protocol that a text begins with. -/
def protoOf (s : Bytes) : Option ℕ :=
  if beginsWith s "tcp" then some ipprotoTcp
  else if beginsWith s "udp" then some ipprotoUdp
  else none

/-- `htons`, of what is converted to 16 bits. -/
def htons (n : ℤ) : UInt16 := ntohs (.ofNat (n % 2 ^ 16).toNat)

def portsOf (s : Bytes × Bytes) : UInt16 × UInt16 := (htons (atoi s.1), htons (atoi s.2))

/-- Numbers as `unsigned int`. -/
def uintsOf (s : Bytes × Bytes) : ℕ × ℕ := ((atoi s.1 % 2 ^ 32).toNat, (atoi s.2 % 2 ^ 32).toNat)

def flagsOf (enable : Bytes) : BitVec 32 := if beginsWith enable "off" then netconfDisabled else 0

def descOf (desc : Option Bytes) : Desc := .copy (desc.getD [])

def printPorts (p : UInt16 × UInt16) : List Bytes :=
  [decimal (ntohs p.1).toNat, bytes "-", decimal (ntohs p.2).toNat]

def printUints (p : ℕ × ℕ) : List Bytes := [decimal p.1, bytes "-", decimal p.2]

def printProto (ipproto : ℤ) : Bytes :=
  if ipproto = ipprotoTcp then bytes "tcp" else if ipproto = ipprotoUdp then bytes "udp" else []

def printEnable (flags : BitVec 32) : Bytes :=
  if hasBit flags netconfDisabled then bytes "off" else bytes "on"

/-- The description is the format. -/
def printDesc (f : FwCommon) : List Bytes :=
  if f.desc.str.length = 0 then [] else [bytes ",", printf u.conv (f.descStr u)]

/-! ### Application specific port forwards -/

/-- The ports do not run backwards. -/
def ordered (p : UInt16 × UInt16) : Bool := decide ((ntohs p.1).toNat ≤ (ntohs p.2).toNat)

/-- The size of a port range, less one. -/
def extent (p : UInt16 × UInt16) : ℤ := (ntohs p.2).toNat - (ntohs p.1).toNat

/-- `valid_autofw_port`. -/
def validAutofwPort (app : NetconfApp) : Bool :=
  decide (app.m.ipproto = ipprotoTcp ∨ app.m.ipproto = ipprotoUdp) && ordered app.m.dst.ports &&
  decide (app.proto.toNat = ipprotoTcp ∨ app.proto.toNat = ipprotoUdp) && ordered app.dport &&
  ordered app.toPorts && decide (extent app.dport = extent app.toPorts)

/-- The parts of a line that `get_autofw_port` looks for. -/
structure AutofwLine where
  outProto : Bytes
  outPort : Bytes
  inProto : Bytes
  inPort : Bytes
  toPort : Bytes
  enable : Bytes
  desc : Option Bytes

/-- `out_proto:out_start-out_end,in_proto:in_start-in_end>to_start-to_end,enable,desc`. -/
def autofwLine (value : Bytes) : Option AutofwLine := do
  let (outProto, s) ← cut ":" value
  let (outPort, s) ← cut "," s
  let (inProto, s) ← cut ":" s
  let (inPort, s) ← cut ">" s
  let (toPort, s) ← cut "," s
  let (enable, desc) := strsep (bytes ",") s
  return { outProto, outPort, inProto, inPort, toPort, enable, desc }

/-- The record the parts give, with the interface name `lan_ifname`. -/
def autofwApp (nv : VarMap) (l : AutofwLine) : Option NetconfApp := do
  let ipproto ← protoOf l.outProto
  let proto ← protoOf l.inProto
  return {
    m := { matchZero with
      ipproto := ipproto
      src := ⟨0, 0, (0, htons 0xffff)⟩
      dst := ⟨0, 0, portsOf (rangeOf l.outPort)⟩
      inName := ifnameCopy (cstr (nvramSafeGet nv (.lit "lan_ifname")))
      flags := flagsOf l.enable }
    target := .app
    desc := descOf l.desc
    proto := .ofNat proto
    dport := portsOf (rangeOf l.inPort)
    toPorts := portsOf (rangeOf l.toPort) }

/-- `get_autofw_port(which, app)`. -/
def getAutofwPort (nv : VarMap) (which : ℕ) : Option NetconfApp := do
  let value ← value? u nv (numbered "autofw_port" which)
  let app ← autofwApp nv (← autofwLine value)
  if validAutofwPort app then some app else none

/-- The pieces of the line, as `set_autofw_port` prints them. -/
def autofwPieces (app : NetconfApp) : List Bytes :=
  [printProto app.m.ipproto] ++ [bytes ":"] ++ printPorts app.m.dst.ports ++ [bytes ","] ++
    [printProto app.proto.toNat] ++ [bytes ":"] ++ printPorts app.dport ++ [bytes ">"] ++
    printPorts app.toPorts ++ [bytes ","] ++ [printEnable app.m.flags] ++ printDesc u app.toFwCommon

/-- `set_autofw_port(which, app)`. -/
def setAutofwPort (ok : Bool) (nv : VarMap) (which : ℕ) (app : NetconfApp) : Bool × VarMap :=
  setIfValid (validAutofwPort app) ok nv (numbered "autofw_port" which) (autofwPieces u app)

/-! ### Port forwards -/

/-- `valid_forward_port`. -/
def validForwardPort (nat : NetconfNat) : Bool :=
  ordered nat.m.dst.ports && decide (nat.m.ipproto = ipprotoTcp ∨ nat.m.ipproto = ipprotoUdp) &&
  decide (nat.ipaddr ≠ 0) && ordered nat.ports && decide (extent nat.m.dst.ports = extent nat.ports)

/-- `get_forward_port`, on a line
`wan_port0-wan_port1>lan_ipaddr:lan_port0-lan_port1[:,]proto[:,]enable[:,]desc`. -/
def forwardNat (value : Bytes) : Option NetconfNat := do
  let (wanPort, s) ← cut ">" value
  let (lanIpaddr, s) ← cut ":" s
  let (lanPort, s) ← cut ":," s
  let (proto, s) ← cut ":," s
  let (enable, desc) := strsep (bytes ":,") s
  let ipproto ← protoOf proto
  return {
    m := { matchZero with
      ipproto := ipproto
      src := ⟨0, 0, (0, htons 0xffff)⟩
      dst := ⟨0, 0, portsOf (rangeOf wanPort)⟩
      flags := flagsOf enable }
    target := .dnat
    desc := descOf desc
    ipaddr := (L.inetAton lanIpaddr).getD 0
    ports := portsOf (rangeOf lanPort) }

/-- `get_forward_port(which, nat)`. -/
def getForwardPort (nv : VarMap) (which : ℕ) : Option NetconfNat := do
  let nat ← forwardNat L (← value? u nv (numbered "forward_port" which))
  if validForwardPort nat then some nat else none

/-- The pieces of the line, as `set_forward_port` prints them. -/
def forwardPieces (nat : NetconfNat) : List Bytes :=
  printPorts nat.m.dst.ports ++ [bytes ">"] ++ [printf u.conv (inetNtoa nat.ipaddr)] ++ [bytes ":"] ++
    printPorts nat.ports ++ [bytes ","] ++ [printProto nat.m.ipproto] ++ [bytes ","] ++
    [printEnable nat.m.flags] ++ printDesc u nat.toFwCommon

/-- `set_forward_port(which, nat)`. -/
def setForwardPort (ok : Bool) (nv : VarMap) (which : ℕ) (nat : NetconfNat) : Bool × VarMap :=
  setIfValid (validForwardPort nat) ok nv (numbered "forward_port" which) (forwardPieces u nat)

/-! ### Client filters -/

/-- `valid_filter_client(start, end)`; no unsigned number is below 0. -/
def validFilterClient (start stop : NetconfFilter) : Bool :=
  (start.m.src.netmask == 0 ||
    (start.m.src.netmask == 0xffffffff && start.m.src.netmask == stop.m.src.netmask &&
      decide (start.m.src.ipaddr.toNat ≤ stop.m.src.ipaddr.toNat))) &&
  ordered start.m.dst.ports && decide (start.m.dst.ports = stop.m.dst.ports) &&
  decide (start.m.ipproto = ipprotoTcp ∨ start.m.ipproto = ipprotoUdp) &&
  decide (start.m.ipproto = stop.m.ipproto) &&
  decide (start.m.days.1 ≤ 6 ∧ start.m.days.2 ≤ 6 ∧ start.m.days = stop.m.days) &&
  decide (start.m.secs.1 < 24 * 60 * 60 ∧ start.m.secs.2 < 24 * 60 * 60 ∧ start.m.secs = stop.m.secs)

/-- `get_filter_client`, on a line
`[lan_ipaddr0-lan_ipaddr1|*]:lan_port0-lan_port1,proto,day_start-day_end,sec_start-sec_end,enable,desc`. -/
def clientFilters (nv : VarMap) (value : Bytes) : Option (NetconfFilter × NetconfFilter) := do
  let (lanIpaddr, s) ← cut ":" value
  let (lanPort, s) ← cut "," s
  let (proto, s) ← cut "," s
  let (day, s) ← cut "," s
  let (sec, s) ← cut "," s
  let (enable, desc) := strsep (bytes ",") s
  let ipproto ← protoOf proto
  let any := (rangeOf lanIpaddr).1.head? == some 42
  let side (ipaddr : Bytes) : Side :=
    ⟨if any then 0 else (L.inetAton ipaddr).getD 0, if any then 0 else 0xffffffff, (0, htons 0xffff)⟩
  let m : Match := { matchZero with
    ipproto := ipproto
    dst := ⟨0, 0, portsOf (rangeOf lanPort)⟩
    days := uintsOf (rangeOf day)
    secs := uintsOf (rangeOf sec)
    flags := flagsOf enable }
  -- only the start is given the interface and the target, and the end's target is 0
  let start : NetconfFilter := {
    m := { m with
      src := side (rangeOf lanIpaddr).1
      inName := ifnameCopy (cstr (nvramSafeGet nv (.lit "lan_ifname"))) }
    target := .drop
    desc := descOf desc }
  let stop : NetconfFilter := {
    m := { m with src := side (rangeOf lanIpaddr).2 }
    target := .drop
    desc := descOf desc }
  return (start, stop)

/-- `get_filter_client(which, start, end)`. -/
def getFilterClient (nv : VarMap) (which : ℕ) : Option (NetconfFilter × NetconfFilter) := do
  let r ← clientFilters L nv (← value? u nv (numbered "filter_client" which))
  if validFilterClient r.1 r.2 then some r else none

/-- The addresses of a client filter, as they are printed. -/
def printClient (start stop : NetconfFilter) : List Bytes :=
  if start.m.src.ipaddr = 0 ∧ stop.m.src.ipaddr = 0 ∧ start.m.src.netmask = 0 ∧
      stop.m.src.netmask = 0 then [bytes "*"]
  else
    [printf u.conv (inetNtoa start.m.src.ipaddr), bytes "-", printf u.conv (inetNtoa stop.m.src.ipaddr)]

/-- The pieces of the line, as `set_filter_client` prints them. -/
def clientPieces (start stop : NetconfFilter) : List Bytes :=
  printClient u start stop ++ [bytes ":"] ++ printPorts start.m.dst.ports ++ [bytes ","] ++
    [printProto start.m.ipproto] ++ [bytes ","] ++ printUints start.m.days ++ [bytes ","] ++
    printUints start.m.secs ++ [bytes ","] ++ [printEnable start.m.flags] ++ printDesc u start

/-- `set_filter_client(which, start, end)`. -/
def setFilterClient (ok : Bool) (nv : VarMap) (which : ℕ) (start stop : NetconfFilter) : Bool × VarMap :=
  setIfValid (validFilterClient start stop) ok nv (numbered "filter_client" which) (clientPieces u start stop)

end Nvparse
end Router
