/-
# Conversion of deprecated variables

`convert_deprecated` and its converters, each a function on NVRAM. A failing
`assert` is `none`. `nvram_set` and `nvram_unset` do not fail here, and a list that
is walked by `foreach` stays in place while other variables are set.

The converters look for the first index whose entry is unused or invalid. They
pass one record for both ends of a client filter (`get_filter_client(i, &unused,
&unused)`), so that its addresses are compared with themselves (`clientUsed`).
The search has fuel for every variable there is (`freeFrom_spec`).
-/
import RouterFirmware.Nvparse.Records

namespace Router
namespace Nvparse

open CMem CText Bits Netconf
open Nvram (VarMap)

variable (L : Libc) (u : Undef)

/-! ### The next free index -/

/-- `for (; used(i); i++);`. -/
def firstFree (used : ℕ → Bool) : ℕ → ℕ → ℕ
  | 0, i => i
  | fuel + 1, i => if used i then firstFree used fuel (i + 1) else i

/-- The first index from `i` on that is not used. -/
def freeFrom (nv : VarMap) (used : ℕ → Bool) (i : ℕ) : ℕ := firstFree used (nv.keys.card + 1) i

def forwardUsed (nv : VarMap) (i : ℕ) : Bool := (getForwardPort L u nv i).isSome

/-- `get_filter_client(i, &unused, &unused)`: whichever address the record holds
in the end, it is not above itself. -/
def clientUsed (nv : VarMap) (i : ℕ) : Bool :=
  ((value? u nv (numbered "filter_client" i)).bind (clientFilters L nv)).any fun r =>
    validFilterClient r.2 r.2

theorem numbered_bytes (base : String) (hbase : (0 : UInt8) ∉ bytes base) (i : ℕ) :
    (numbered base i).bytes = bytes base ++ decimal i := by
  apply cstr_bytes
  rw [List.mem_append, not_or]
  exact ⟨hbase, notMem_decimal (by decide) i⟩

theorem numbered_inj {base : String} (hbase : (0 : UInt8) ∉ bytes base) {i j : ℕ}
    (h : numbered base i = numbered base j) : i = j := by
  have hbytes := congrArg CStr.bytes h
  rw [numbered_bytes base hbase, numbered_bytes base hbase] at hbytes
  exact decimal_inj (List.append_cancel_left hbytes)

theorem firstFree_spec (used : ℕ → Bool) : ∀ fuel i,
    used (firstFree used fuel i) = false ∨ ∀ k, i ≤ k → k < i + fuel → used k = true
  | 0, i => Or.inr fun k hle hlt => absurd hlt (by omega)
  | fuel + 1, i => by
    unfold firstFree
    cases hi : used i with
    | false => exact Or.inl hi
    | true =>
      refine (firstFree_spec used fuel (i + 1)).imp id fun hall k hle hlt => ?_
      rcases Nat.eq_or_lt_of_le hle with rfl | hlt'
      · exact hi
      · exact hall k hlt' (by omega)

/-- **The search ends**: what uses an index is a variable, and there are only so many. -/
theorem freeFrom_spec {base : String} (hbase : (0 : UInt8) ∉ bytes base) {nv : VarMap} {used : ℕ → Bool}
    (h : ∀ k, used k = true → numbered base k ∈ nv) (i : ℕ) : used (freeFrom nv used i) = false := by
  rcases firstFree_spec used (nv.keys.card + 1) i with hfree | hall
  · exact hfree
  · have hsub : (Finset.Ico i (i + (nv.keys.card + 1))).image (numbered base) ⊆ nv.keys := by
      intro name hname
      obtain ⟨k, hk, rfl⟩ := Finset.mem_image.mp hname
      rw [Finset.mem_Ico] at hk
      exact Finmap.mem_keys.mpr (h k (hall k hk.1 hk.2))
    have hcard := Finset.card_le_card hsub
    rw [Finset.card_image_of_injective _ fun _ _ => numbered_inj hbase, Nat.card_Ico] at hcard
    omega

theorem mem_of_value? {nv : VarMap} {name : CStr} {v : Bytes} (h : value? u nv name = some v) : name ∈ nv := by
  unfold value? at h
  cases hl : nv.lookup name with
  | none =>
    rw [hl] at h
    cases h
  | some v => exact Finmap.mem_of_lookup_eq_some hl

theorem forwardUsed_free (nv : VarMap) (i : ℕ) : forwardUsed L u nv (freeFrom nv (forwardUsed L u nv) i) = false := by
  apply @freeFrom_spec "forward_port" (by decide)
  intro k hk
  unfold forwardUsed getForwardPort at hk
  obtain ⟨nat, hnat⟩ := Option.isSome_iff_exists.mp hk
  obtain ⟨value, hvalue, -⟩ := Option.bind_eq_some_iff.mp hnat
  exact mem_of_value? u hvalue

theorem clientUsed_free (nv : VarMap) (i : ℕ) : clientUsed L u nv (freeFrom nv (clientUsed L u nv) i) = false := by
  apply @freeFrom_spec "filter_client" (by decide)
  intro k hk
  unfold clientUsed at hk
  obtain ⟨r, hr, -⟩ := (Option.any_eq_true _ _).mp hk
  obtain ⟨value, hvalue, -⟩ := Option.bind_eq_some_iff.mp hr
  exact mem_of_value? u hvalue

/-- What is set must be valid. -/
def assertValid (r : Bool × VarMap) : Option VarMap := if r.1 then some r.2 else none

/-! ### Port forwards -/

/-- `wan_port0-wan_port1>lan_ipaddr:lan_port0-lan_port1`. -/
def forwardWord (ipproto : ℕ) (word : Bytes) : Option NetconfNat := do
  let (wanPort, s) ← cut ">" word
  let (lanIpaddr, lanPort) ← cut ":" s
  return {
    commonZero with
    m := { matchZero with ipproto := ipproto, dst := ⟨0, 0, portsOf (rangeOf wanPort)⟩ }
    ipaddr := (L.inetAton lanIpaddr).getD 0
    ports := portsOf (rangeOf lanPort) }

/-- One word of the list; one that is not understood is passed over. -/
def convertForward (ipproto : ℕ) (nv : VarMap) (word : Bytes) : Option VarMap :=
  match forwardWord L ipproto word with
  | none => some nv
  | some nat => assertValid (setForwardPort u true nv (freeFrom nv (forwardUsed L u nv) 0) nat)

/-- `convert_forward_proto(name, ipproto)`. -/
def convertForwardProto (name : CStr) (ipproto : ℕ) (nv : VarMap) : Option VarMap :=
  ((words 1000 (nvramSafeGet nv name)).foldlM (convertForward L u ipproto) nv).map (·.erase name)

/-! ### Client filters -/

/-- A pair is set at the first free index from `i` on; the index is returned as well. -/
def addClient (nv : VarMap) (i : ℕ) (start stop : NetconfFilter) : Option (VarMap × ℕ) :=
  let i := freeFrom nv (clientUsed L u nv) i
  (assertValid (setFilterClient u true nv i start stop)).map (·, i)

/-- `lan_ipaddr0-lan_ipaddr1`, all ports; the end keeps the start's address if its
own is not understood. -/
def filterIpWord (word : Bytes) : Option (NetconfFilter × NetconfFilter) := do
  let (lanIpaddr0, lanIpaddr1) ← cut "-" word
  let start : NetconfFilter := { commonZero with
    m := { matchZero with src := ⟨(L.inetAton lanIpaddr0).getD 0, 0xffffffff, (0, 0)⟩
                          dst := ⟨0, 0, (0, htons 0xffff)⟩ } }
  let stop : NetconfFilter := { start with
    m := { start.m with src := { start.m.src with
      ipaddr := (L.inetAton lanIpaddr1).getD start.m.src.ipaddr } } }
  return (start, stop)

/-- The record for another protocol. -/
def withProto (f : NetconfFilter) (ipproto : ℕ) : NetconfFilter := { f with m := { f.m with ipproto := ipproto } }

def convertIp (nv : VarMap) (word : Bytes) : Option VarMap :=
  match filterIpWord L word with
  | none => some nv
  | some (start, stop) => do
    let (nv, i) ← addClient L u nv 0 (withProto start ipprotoTcp) (withProto stop ipprotoTcp)
    let (nv, _) ← addClient L u nv i (withProto start ipprotoUdp) (withProto stop ipprotoUdp)
    return nv

/-- `convert_filter_ip()`. -/
def convertFilterIp (nv : VarMap) : Option VarMap :=
  ((words 1000 (nvramSafeGet nv (.lit "filter_ip"))).foldlM (convertIp L u) nv).map (·.erase (.lit "filter_ip"))

/-- `[lan_ipaddr|*]:lan_port0-lan_port1`. -/
def filterProtoWord (ipproto : ℕ) (word : Bytes) : Option NetconfFilter := do
  let (lanIpaddr, s) ← cut ":" word
  let (lanPort0, lanPort1) ← cut "-" s
  return { commonZero with
    m := { matchZero with ipproto := ipproto
                          src := ⟨(L.inetAton lanIpaddr).getD 0, 0xffffffff, (0, 0)⟩
                          dst := ⟨0, 0, portsOf (lanPort0, lanPort1)⟩ } }

def convertProto (ipproto : ℕ) (nv : VarMap) (word : Bytes) : Option VarMap :=
  match filterProtoWord L ipproto word with
  | none => some nv
  | some start => (addClient L u nv 0 start start).map Prod.fst

/-- `convert_filter_proto(name, ipproto)`. -/
def convertFilterProto (name : CStr) (ipproto : ℕ) (nv : VarMap) : Option VarMap :=
  ((words 1000 (nvramSafeGet nv name)).foldlM (convertProto L u ipproto) nv).map (·.erase name)

/-- The address of which the last byte is replaced. -/
def lastByte (ipaddr : Addr) (n : ℕ) : Addr := (ipaddr &&& 0xffffff00) ||| .ofNat 32 n

/-- The days and times of a `filter_port` line that is not for always. -/
def filterPortTimes (s : Bytes) : Option ((ℕ × ℕ) × (ℕ × ℕ)) := do
  let (_, s1) ← cut ":" s
  let (_, s2) ← cut ":" s1
  let (_, s3) ← cut ":" s2
  return ((strtoul s, strtoul s1), (strtoul s2, strtoul s3))

/-- When a `filter_port` line is for: always, or on its days and at its times. -/
def filterPortWhen (always day : Bytes) : Option ((ℕ × ℕ) × (ℕ × ℕ)) :=
  if strtoul always ≠ 0 then some ((0, 0), (0, 0)) else filterPortTimes day

/-- `id:active:flags:from_ip:to_ip:from_port:to_port:protocol:always:from_day_of_week:`
`to_day_of_week:from_time_of_day:to_time_of_day`; each number is read where its
field begins. -/
def filterPortLine (lanIpaddr : Addr) (value : Bytes) : Option (NetconfFilter × NetconfFilter) := do
  let (_, active) ← cut ":" value
  let (_, flags) ← cut ":" active
  let (_, fromIp) ← cut ":" flags
  let (_, toIp) ← cut ":" fromIp
  let (_, fromPort) ← cut ":" toIp
  let (_, toPort) ← cut ":" fromPort
  let (_, protocol) ← cut ":" toPort
  let (_, always) ← cut ":" protocol
  let (_, day) ← cut ":" always
  let (days, secs) ← filterPortWhen always day
  let m : Match := { matchZero with
    -- the protocol is an int
    ipproto := (BitVec.ofNat 32 (strtoul protocol)).toInt
    dst := ⟨0, 0, (htons (strtoul fromPort), htons (strtoul toPort))⟩
    flags := if strtoul active = 0 then netconfDisabled else 0
    days := days
    secs := secs }
  return (
    { commonZero with m := { m with src := ⟨lastByte lanIpaddr (strtoul fromIp), 0, (0, 0)⟩ } },
    { commonZero with m := { m with src := ⟨lastByte lanIpaddr (strtoul toIp), 0, (0, 0)⟩ } })

/-- The pair in `filter_port<i>`, if there is one. -/
def filterPort (nv : VarMap) (i : ℕ) : Option (NetconfFilter × NetconfFilter) :=
  match nv.lookup (numbered "filter_port" i) with
  | none => none
  | some value =>
    if value.length = 0 then none
    else filterPortLine ((L.inetAton (nvramSafeGet nv (.lit "lan_ipaddr"))).getD 0) value.bytes

def convertPort (nv : VarMap) (i : ℕ) : Option VarMap :=
  match filterPort L nv i with
  | none => some (nv.erase (numbered "filter_port" i))
  | some (start, stop) =>
    (addClient L u nv 0 start stop).map fun r => r.1.erase (numbered "filter_port" i)

/-- `convert_filter_port()`. -/
def convertFilterPort (nv : VarMap) : Option VarMap :=
  ([1, 2, 3, 4, 5, 6].foldlM (convertPort L u) nv).map (·.erase (.lit "filter_port"))

/-! ### Other lists -/

/-- `convert_maclist(prefix)`; the three names are the prefix with `_mac`, `_maclist` and `_macmode`. -/
def convertMaclist (mac maclist macmode : CStr) (nv : VarMap) : VarMap :=
  match nv.lookup mac with
  | none => nv
  | some value =>
    let nv := nv.insert maclist value
    let nv := if value.length = 0 then nv.insert macmode (.lit "disabled") else nv
    nv.erase mac

/-- The lines of `convert_deprecated` about `pppoe_ifname`. -/
def convertPppoeIfname (nv : VarMap) : VarMap :=
  let nv :=
    match nv.lookup (.lit "pppoe_ifname") with
    | none => nv
    | some value =>
      if value.length ≠ 0 ∧ nv.lookup (CStr.lit "wan_proto") = some (CStr.lit "pppoe") then
        nv.insert (.lit "wan_ifname") value
      else nv
  nv.erase (.lit "pppoe_ifname")

/-- The pair of names of `convert_pppoe`. -/
def pppoeNames : List (CStr × CStr) :=
  [(.lit "pppoe_ifname", .lit "wan_pppoe_ifname"), (.lit "pppoe_username", .lit "wan_pppoe_username"),
    (.lit "pppoe_passwd", .lit "wan_pppoe_passwd"), (.lit "pppoe_idletime", .lit "wan_pppoe_idletime"),
    (.lit "pppoe_keepalive", .lit "wan_pppoe_keepalive"), (.lit "pppoe_demand", .lit "wan_pppoe_demand"),
    (.lit "pppoe_mru", .lit "wan_pppoe_mru"), (.lit "pppoe_mtu", .lit "wan_pppoe_mtu"),
    (.lit "pppoe_service", .lit "wan_pppoe_service"), (.lit "pppoe_ac", .lit "wan_pppoe_ac")]

def renameVar (nv : VarMap) (names : CStr × CStr) : VarMap :=
  match nv.lookup names.1 with
  | none => nv
  | some value => (nv.insert names.2 value).erase names.1

/-- `convert_pppoe()`. -/
def convertPppoe (nv : VarMap) : VarMap := pppoeNames.foldl renameVar nv

/-- `convert_autofw_port()`, for one index: an entry with a range of outbound ports
is new, and one that is not understood is unset. -/
def convertAutofw (nv : VarMap) (i : ℕ) : Option VarMap :=
  let name := numbered "autofw_port" i
  match (value? u nv name).bind autofwLine with
  | none => some (nv.erase name)
  | some l =>
    if (strsep (bytes "-") l.outPort).2.isSome then some nv
    else
      match autofwApp nv l with
      | none => some (nv.erase name)
      | some app => assertValid (setAutofwPort u true nv i app)

def convertAutofwPort (nv : VarMap) : Option VarMap := (List.range 10).foldlM (convertAutofw u) nv

/-- A word of `static_route`: the interface, and `ipaddr:netmask:gateway:metric`. -/
def routeWord (word : Bytes) : Option (Bytes × Bytes) := do
  let (ipaddr, s) ← cut ":" word
  let (netmask, s) ← cut ":" s
  let (gateway, s) ← cut ":" s
  let (metric, ifname) ← cut ":" s
  return (ifname, ipaddr ++ bytes ":" ++ netmask ++ bytes ":" ++ gateway ++ bytes ":" ++ metric)

/-- What is put out for the routes of an interface, with spaces between them. -/
def routesFor (ifname : String) (words : List Bytes) : List Bytes :=
  match (words.filterMap routeWord).filter fun r => r.1 == bytes ifname with
  | [] => []
  | r :: rest => r.2 :: rest.map fun r => bytes " " ++ r.2

def setRoutes (nv : VarMap) (name : CStr) (pieces : List Bytes) : VarMap :=
  if pieces.isEmpty then nv else nv.insert name (cstr (putAll 1000 pieces))

/-- `convert_static_route()`. -/
def convertStaticRoute (nv : VarMap) : VarMap :=
  let words := words 80 (nvramSafeGet nv (.lit "static_route"))
  let nv := setRoutes nv (.lit "lan_route") (routesFor "lan" words)
  let nv := setRoutes nv (.lit "wan_route") (routesFor "wan" words)
  nv.erase (.lit "static_route")

/-- `strcat_r(prefix, suffix, tmp)`, with the prefix `wl%d_`. -/
def wlName (i : ℕ) (suffix : String) : CStr := cstr (bytes "wl" ++ decimal i ++ bytes "_" ++ bytes suffix)

/-- The part of `convert_wsec` about `wep`. -/
def convertWep (nv : VarMap) (i : ℕ) (wep : CStr) : VarMap :=
  if wep = .lit "wep" ∨ wep = .lit "restricted" ∨ wep = .lit "on" then
    nv.insert (wlName i "wep") (.lit "enabled")
  else if wep = .lit "tkip" ∨ wep = .lit "aes" ∨ wep = .lit "tkip+aes" then
    (nv.insert (wlName i "crypto") wep).insert (wlName i "wep") (.lit "disabled")
  else if wep ≠ .lit "enabled" then nv.insert (wlName i "wep") (.lit "disabled")
  else nv

/-- Open or shared authentication goes to `auth_mode`. -/
def combineAuth (nv : VarMap) (i : ℕ) : VarMap :=
  if nv.lookup (wlName i "auth_mode") = some (.lit "disabled") then
    if nv.lookup (wlName i "auth") = some (.lit "1") then nv.insert (wlName i "auth_mode") (.lit "shared")
    else nv.insert (wlName i "auth_mode") (.lit "open")
  else nv

/-- Shared authentication goes to `auth`. -/
def splitAuth (nv : VarMap) (i : ℕ) : VarMap :=
  if nv.lookup (wlName i "auth_mode") = some (.lit "shared") then nv.insert (wlName i "auth") (.lit "1")
  else nv

/-- The WPA key management goes to `akm`. -/
def splitAkm (nv : VarMap) (i : ℕ) : VarMap :=
  if nv.lookup (wlName i "auth_mode") = some (.lit "wpa") then nv.insert (wlName i "akm") (.lit "wpa")
  else if nv.lookup (wlName i "auth_mode") = some (.lit "psk") then nv.insert (wlName i "akm") (.lit "psk")
  else nv

/-- Only `radius` stays in `auth_mode`. -/
def keepRadius (nv : VarMap) (i : ℕ) : VarMap :=
  match nv.lookup (wlName i "auth_mode") with
  | none => nv
  | some mode => if mode = .lit "radius" then nv else nv.insert (wlName i "auth_mode") (.lit "none")

/-- The part about `auth_mode`. -/
def convertAuth (nv : VarMap) (i : ℕ) : VarMap := keepRadius (splitAkm (splitAuth (combineAuth nv i) i) i) i

/-- `convert_wsec()`, for one interface. -/
def convertWl (nv : VarMap) (i : ℕ) : VarMap :=
  match nv.lookup (wlName i "wep") with
  | none => nv
  | some wep => convertAuth (convertWep nv i wep) i

/-- `MAX_NVPARSE`. -/
def maxNvparse : ℕ := 256

def convertWsec (nv : VarMap) : VarMap := (List.range maxNvparse).foldl convertWl nv

/-- `convert_deprecated()`. -/
def convertDeprecated (nv : VarMap) : Option VarMap := do
  let nv ← convertForwardProto L u (.lit "forward_tcp") ipprotoTcp nv
  let nv ← convertForwardProto L u (.lit "forward_udp") ipprotoUdp nv
  let nv ← convertFilterIp L u nv
  let nv ← convertFilterProto L u (.lit "filter_tcp") ipprotoTcp nv
  let nv ← convertFilterProto L u (.lit "filter_udp") ipprotoUdp nv
  let nv ← convertFilterPort L u nv
  let nv := convertMaclist (.lit "filter_mac") (.lit "filter_maclist") (.lit "filter_macmode") nv
  let nv := convertMaclist (.lit "wl_mac") (.lit "wl_maclist") (.lit "wl_macmode") nv
  let nv := convertPppoeIfname nv
  let nv ← convertAutofwPort u nv
  let nv := convertPppoe nv
  let nv := convertStaticRoute nv
  return convertWsec nv

end Nvparse
end Router
