/-
# The arrays of the firewall and route generators

`router/rc/firewall_ex.c`: `convert_routes`, `nat_setting`, `filter_setting` and `porttrigger_setting` convert each field
of each row of their tables. What a converter prints stays in the pool `g_buf_pool` until the table is done; other texts
go through arrays on the stack.

`keeps_iff` says for each of them and each array when it is left. `filter_setting` leaves `chain` whenever it runs.

Where an array is left, what follows is as if the memory behind it were not used. `wroutes` and `lroutes` are printed to
themselves, which appends. `lan_class`, `line`, `ptr` and the arrays of `mac_conv` and `timematch_conv` are not
modelled. `nvram_get` of a variable that is not set ends the process where the text is compared. `opened`: the files
under `/tmp` can be written.
-/
import RouterFirmware.Lib.Pool
import RouterFirmware.Rc.PortTrigger

namespace Router
namespace Rc
namespace Buffers

open CMem CText Pool
open Nvram (VarMap)
open Nvparse (numbered nvramSafeGet)
open PortTrigger (rangeText)

/-! ### The code -/

/-- The arrays that texts are written to. -/
inductive Arr where
  | wroutes
  | lroutes
  | newstr
  | itemnameArr
  | startip
  | endip
  | dstips
  | dstports
  | chain
deriving DecidableEq

def Arr.size : Arr → ℕ
  | wroutes => 400
  | lroutes => 400
  | newstr => 64
  | itemnameArr => 32
  | startip => 16
  | endip => 16
  | dstips => 32
  | dstports => 12
  | chain => 3

abbrev Code : Type := List (Step UInt8 Arr)

/-- An `int` that has overflowed. -/
def wrap (n : ℤ) : ℤ := n.bmod (2 ^ 32)

section Conv

variable (nv : VarMap) (name : String) (idx : ℕ)

/-- `sprintf(itemname_arr, "%s%d", name, idx)`. -/
def itemname : Step UInt8 Arr := .put .itemnameArr (numbered name idx).bytes

/-- `proto_conv(proto_name, idx)`. -/
def protoConvSteps : Code := [itemname name idx, .alloc (protoConv nv name idx)]

/-- `protoflag_conv(proto_name, idx, isFlag)`. -/
def protoflagConvSteps (isFlag : Bool) : Code :=
  [itemname name idx, .print [], .alloc (protoflagConv nv name idx isFlag)]

/-- The branch for two ports with a colon. -/
def HasColon (port : Bytes) : Prop :=
  port.head? ≠ some 62 ∧ port.head? ≠ some 61 ∧ port.head? ≠ some 60 ∧ 58 ∈ port

instance (port : Bytes) : Decidable (HasColon port) := inferInstanceAs (Decidable (_ ∧ _))

/-- What `portrange_ex2_conv` prints of a variable. -/
def portText (port : Bytes) : Bytes :=
  if port.head? = some 62 then rangeText (wrap (atoi (port.drop 1) + 1)) 65535
  else if port.head? = some 61 then rangeText (atoi (port.drop 1)) (atoi (port.drop 1))
  else if port.head? = some 60 then rangeText 1 (wrap (atoi (port.drop 1) - 1))
  else if 58 ∈ port then rangeText (atoi port) (atoi ((port.dropWhile (· ≠ 58)).drop 1))
  else if port ≠ [] then rangeText (atoi port) (atoi port)
  else []

/-- `portrange_ex2_conv(port_name, idx, &start, &end)`. -/
def portrangeEx2Steps : Code :=
  itemname name idx :: .print [] ::
    match nv.lookup (numbered name idx) with
    | none => [.alloc none]
    | some port =>
      if HasColon port.bytes then [.put .itemnameArr port.bytes, .alloc (some (portText port.bytes))]
      else [.alloc (some (portText port.bytes))]

/-- `portrange_conv`, `ip_conv`, `general_conv`. -/
def textConvSteps : Code := [itemname name idx, .alloc (some (textConv nv name idx))]

/-- `iprange_ex_conv(ip_name, idx)`. -/
def iprangeExSteps : Code :=
  let ip := (nvramSafeGet nv (numbered name idx)).map fun c => if c = 42 then 48 else c
  [itemname name idx, .print [], .put .startip ip, .put .endip ip, .alloc (some (iprangeExConv nv name idx))]

end Conv

/-- The texts that `filter_conv` appends. -/
def filterPieces (proto flag srcip srcport dstip dstport : Bytes) : List Bytes :=
  (if proto ≠ [] then [bytes " -p " ++ proto] else []) ++
  (if flag ≠ [] then [bytes " --tcp-flags " ++ flag ++ bytes " " ++ flag] else []) ++
  (if srcip ≠ [] then [(if 45 ∈ srcip then bytes " --src-range " else bytes " -s ") ++ srcip] else []) ++
  (if srcport ≠ [] then [bytes " --sport " ++ srcport] else []) ++
  (if dstip ≠ [] then [(if 45 ∈ dstip then bytes " --dst-range " else bytes " -d ") ++ dstip] else []) ++
  (if dstport ≠ [] then [bytes " --dport " ++ dstport] else [])

/-- `filter_conv`: each text is made in `newstr` and appended. -/
def filterConvSteps (pieces : List Bytes) : Code :=
  .print [] :: pieces.map (.put .newstr) ++ [.alloc (some pieces.flatten)]

section Settings

variable (nv : VarMap)

/-- What is printed of a route: `" %s:%s:%s:%d"`. -/
def routeText (i : ℕ) : Bytes :=
  32 :: textConv nv "sr_ipaddr_x" i ++ 58 :: textConv nv "sr_netmask_x" i ++ 58 :: textConv nv "sr_gateway_x" i ++
    58 :: intText (wrap (atoi (textConv nv "sr_matric_x" i) + 1))

/-- `wroutes` and `lroutes` before a turn. -/
def routes : ℕ → Bytes × Bytes
  | 0 => ([], [])
  | i + 1 =>
    let r := routes i
    if textConv nv "sr_if_x" i = bytes "WAN" then (r.1 ++ routeText nv i, r.2)
    else if textConv nv "sr_if_x" i = bytes "LAN" then (r.1, r.2 ++ routeText nv i)
    else r

/-- A turn of `convert_routes`. -/
def routeRow (i : ℕ) : Code :=
  textConvSteps nv "sr_ipaddr_x" i ++ textConvSteps nv "sr_netmask_x" i ++ textConvSteps nv "sr_gateway_x" i ++
    textConvSteps nv "sr_matric_x" i ++ textConvSteps nv "sr_if_x" i ++
    (if textConv nv "sr_if_x" i = bytes "WAN" then [.put .wroutes (routes nv (i + 1)).1]
    else if textConv nv "sr_if_x" i = bytes "LAN" then [.put .lroutes (routes nv (i + 1)).2]
    else [])

def convertRoutes : Code :=
  if nvramMatch nv "sr_enable_x" "0" then []
  else .put .wroutes [] :: .put .lroutes [] :: .init :: (foreachX nv "sr_num_x").flatMap (routeRow nv)

/-- The port that a virtual server has inside. -/
def insidePort (i : ℕ) : Bytes :=
  if textConv nv "vts_lport_x" i ≠ [] then textConv nv "vts_lport_x" i else textConv nv "vts_port_x" i

/-- A turn of `nat_setting`. -/
def natRow (i : ℕ) : Code :=
  protoConvSteps nv "vts_proto_x" i ++ textConvSteps nv "vts_protono_x" i ++ textConvSteps nv "vts_port_x" i ++
    textConvSteps nv "vts_lport_x" i ++ textConvSteps nv "vts_ipaddr_x" i ++
    [.put .dstips (textConv nv "vts_ipaddr_x" i ++ 58 :: insidePort nv i), .put .dstports (insidePort nv i)]

def natSetting (opened : Bool) : Code :=
  if opened && nvramMatch nv "wan_nat_X" "1" && nvramMatch nv "vts_enable_x" "1" then
    .init :: (foreachX nv "vts_num_x").flatMap (natRow nv)
  else []

/-- A turn of `filter_setting`, for the rows of `filter_lw` or `filter_wl`. -/
def filterRow (filter : String) (i : ℕ) : Code :=
  protoflagConvSteps nv (filter ++ "_proto_x") i false ++ protoflagConvSteps nv (filter ++ "_proto_x") i true ++
    iprangeExSteps nv (filter ++ "_srcip_x") i ++ textConvSteps nv (filter ++ "_srcport_x") i ++
    iprangeExSteps nv (filter ++ "_dstip_x") i ++ textConvSteps nv (filter ++ "_dstport_x") i ++
    filterConvSteps (filterPieces ((protoflagConv nv (filter ++ "_proto_x") i false).getD [])
      ((protoflagConv nv (filter ++ "_proto_x") i true).getD []) (iprangeExConv nv (filter ++ "_srcip_x") i)
      (textConv nv (filter ++ "_srcport_x") i) (iprangeExConv nv (filter ++ "_dstip_x") i)
      (textConv nv (filter ++ "_dstport_x") i))

/-- The rows of a filter. -/
def filterRows (filter : String) : Code := (foreachX nv (filter ++ "_num_x")).flatMap (filterRow nv filter)

def filterSetting (opened : Bool) : Code :=
  if opened then
    (if nvramInvmatch nv "macfilter_enable_x" "0" then [.init] else []) ++
    [.put .chain (bytes (if nvramMatch nv "macfilter_enable_x" "1" then "MACS" else "FORWARD"))] ++
    (if nvramMatch nv "fw_lw_enable_x" "1" then .init :: filterRows nv "filter_lw" else []) ++
    (if nvramMatch nv "fw_wl_enable_x" "1" then .init :: filterRows nv "filter_wl" else [])
  else []

/-- A turn of `porttrigger_setting`. -/
def triggerRow (i : ℕ) : Code :=
  protoConvSteps nv "autofw_outproto_x" i ++ portrangeEx2Steps nv "autofw_outport_x" i ++
    protoConvSteps nv "autofw_inproto_x" i ++ portrangeEx2Steps nv "autofw_inport_x" i ++
    textConvSteps nv "autofw_desc_x" i

def porttriggerSetting : Code :=
  if nvramInvmatch nv "wan_nat_X" "1" || nvramInvmatch nv "autofw_enable_x" "1" then []
  else .init :: (foreachX nv "autofw_num_x").flatMap (triggerRow nv)

end Settings

/-! ### The arrays -/

inductive Generator where
  | convertRoutes
  | natSetting (opened : Bool)
  | filterSetting (opened : Bool)
  | porttriggerSetting

def Generator.code (nv : VarMap) : Generator → Code
  | convertRoutes => Buffers.convertRoutes nv
  | natSetting opened => Buffers.natSetting nv opened
  | filterSetting opened => Buffers.filterSetting nv opened
  | porttriggerSetting => Buffers.porttriggerSetting nv

/-- The pool and the arrays. -/
inductive Buffer where
  | gBufPool
  | array (a : Arr)

/-- From a pointer to the pool on, the code writes inside the array only. -/
def Stays (code : Code) (g : Option ℕ) : Buffer → Prop
  | .gBufPool => Inside 1024 g code
  | .array a => Within Arr.size a code

/-- The generator writes inside the array only. -/
def Keeps (nv : VarMap) (gen : Generator) (b : Buffer) : Prop := Stays (gen.code nv) none b

/-! ### What is stored -/

/-- The rows, of which those are reached that only `whole` ones come before: each needs its room in the pool, and its
texts fit. -/
def RowsFit (n : ℕ) (whole : ℕ → Bool) (need : ℕ → ℕ) (fits : ℕ → Arr → Prop) : Buffer → Prop
  | .gBufPool => ∀ i < n, (∀ j < i, whole j = true) → ∑ j ∈ Finset.range (i + 1), need j ≤ 1024
  | .array a => ∀ i < n, (∀ j < i, whole j = true) → fits i a

section Fits

variable (nv : VarMap)

/-- The text of a variable that is set. -/
def field (name : String) (i : ℕ) : Option Bytes := (nv.lookup (numbered name i)).map CStr.bytes

/-- Room for a text and its end. -/
def room (name : String) (i : ℕ) : ℕ := (textConv nv name i).length + 1

def rows (name : String) : ℕ := (atoi (nvramText nv name)).toNat

/-- The length of what is printed of a protocol. -/
def protoLen (proto : Bytes) : ℕ :=
  if caseBegins proto "bot" then 4
  else if caseBegins proto "tcp" ∨ caseBegins proto "udp" ∨ ¬caseBegins proto "other" then 3
  else 5

/-- The length of what is printed of an address: a `*` is a mask. -/
def addrLen (ip : Bytes) : ℕ :=
  if ip.count 42 = 0 then ip.length
  else if ip.count 42 = 4 then 0
  else ip.length + 1 + (intText (32 - 8 * ip.count 42)).length

/-- A text of this length with an option of `fixed` bytes in front, if there is one. -/
def given (fixed n : ℕ) : ℕ := if n = 0 then 0 else fixed + n

/-- The option for an address: a mask that is not positive makes it a range. -/
def addrNeed (ip : Bytes) : ℕ := given (if 45 ∈ ip ∨ 4 < ip.count 42 then 13 else 4) (addrLen ip)

def routeLen (i : ℕ) : ℕ :=
  room nv "sr_ipaddr_x" i + room nv "sr_netmask_x" i + room nv "sr_gateway_x" i +
    (intText (wrap (atoi (textConv nv "sr_matric_x" i) + 1))).length + 1

/-- The routes of an interface up to a row. -/
def routesLen (interface : String) (i : ℕ) : ℕ :=
  ∑ j ∈ Finset.range (i + 1), if textConv nv "sr_if_x" j = bytes interface then routeLen nv j else 0

def RouteFits (i : ℕ) : Arr → Prop
  | .wroutes => textConv nv "sr_if_x" i = bytes "WAN" → routesLen nv "WAN" i < 400
  | .lroutes => textConv nv "sr_if_x" i = bytes "LAN" → routesLen nv "LAN" i < 400
  | _ => True

def routeNeed (i : ℕ) : ℕ :=
  room nv "sr_ipaddr_x" i + room nv "sr_netmask_x" i + room nv "sr_gateway_x" i + room nv "sr_matric_x" i +
    room nv "sr_if_x" i

def NatFits (i : ℕ) : Arr → Prop
  | .dstips => field nv "vts_proto_x" i ≠ none →
    (textConv nv "vts_ipaddr_x" i).length + 1 + (insidePort nv i).length < 32
  | .dstports => field nv "vts_proto_x" i ≠ none → (insidePort nv i).length < 12
  | _ => True

def natNeed (i : ℕ) : ℕ :=
  match field nv "vts_proto_x" i with
  | none => 0
  | some proto => protoLen proto + 1 + room nv "vts_protono_x" i + room nv "vts_port_x" i + room nv "vts_lport_x" i +
    room nv "vts_ipaddr_x" i

/-- The length of the flags behind a protocol: `TCP SYN`. -/
def flagLen (proto : Bytes) : ℕ := proto.length - 4

def FilterFits (filter : String) (i : ℕ) (a : Arr) : Prop :=
  ∀ proto, field nv (filter ++ "_proto_x") i = some proto →
    let srcip := textConv nv (filter ++ "_srcip_x") i
    let dstip := textConv nv (filter ++ "_dstip_x") i
    match a with
    | .newstr => given 14 (2 * flagLen proto) < 64 ∧ addrNeed srcip < 64 ∧
      given 9 (textConv nv (filter ++ "_srcport_x") i).length < 64 ∧ addrNeed dstip < 64 ∧
      given 9 (textConv nv (filter ++ "_dstport_x") i).length < 64
    | .startip => srcip.length < 16 ∧ dstip.length < 16
    | .endip => srcip.length < 16 ∧ dstip.length < 16
    | _ => True

def filterNeed (filter : String) (i : ℕ) : ℕ :=
  let srcip := textConv nv (filter ++ "_srcip_x") i
  let dstip := textConv nv (filter ++ "_dstip_x") i
  match field nv (filter ++ "_proto_x") i with
  | none => 1
  | some proto => 4 + (flagLen proto + 1) + (addrLen srcip + 1) + room nv (filter ++ "_srcport_x") i +
    (addrLen dstip + 1) + room nv (filter ++ "_dstport_x") i +
    (7 + given 14 (2 * flagLen proto) + addrNeed srcip + given 9 (textConv nv (filter ++ "_srcport_x") i).length +
      addrNeed dstip + given 9 (textConv nv (filter ++ "_dstport_x") i).length + 1)

/-- The fields of a port trigger that must be set. -/
def triggerWhole (i : ℕ) : Bool :=
  (field nv "autofw_outproto_x" i).isSome && (field nv "autofw_outport_x" i).isSome &&
    (field nv "autofw_inproto_x" i).isSome && (field nv "autofw_inport_x" i).isSome

def TriggerFits (i : ℕ) : Arr → Prop
  | .itemnameArr => field nv "autofw_outproto_x" i ≠ none → ∀ out, field nv "autofw_outport_x" i = some out →
    (HasColon out → out.length < 32) ∧
      (field nv "autofw_inproto_x" i ≠ none → ∀ into, field nv "autofw_inport_x" i = some into →
        HasColon into → into.length < 32)
  | _ => True

def triggerNeed (i : ℕ) : ℕ :=
  match field nv "autofw_outproto_x" i with
  | none => 0
  | some outProto => protoLen outProto + 1 +
    match field nv "autofw_outport_x" i with
    | none => 1
    | some out => (portText out).length + 1 +
      match field nv "autofw_inproto_x" i with
      | none => 0
      | some inProto => protoLen inProto + 1 +
        match field nv "autofw_inport_x" i with
        | none => 1
        | some into => (portText into).length + 1 + room nv "autofw_desc_x" i

/-- The rows of a filter. -/
def FilterRowsFit (filter : String) : Buffer → Prop :=
  RowsFit (rows nv (filter ++ "_num_x")) (fun i => (field nv (filter ++ "_proto_x") i).isSome) (filterNeed nv filter)
    (FilterFits nv filter)

/-- What is stored fits in the array. -/
def Fits (b : Buffer) : Generator → Prop
  | .convertRoutes => nvramMatch nv "sr_enable_x" "0" = false →
    RowsFit (rows nv "sr_num_x") (fun _ => true) (routeNeed nv) (RouteFits nv) b
  | .natSetting opened => opened = true → nvramMatch nv "wan_nat_X" "1" = true →
    nvramMatch nv "vts_enable_x" "1" = true →
    RowsFit (rows nv "vts_num_x") (fun i => (field nv "vts_proto_x" i).isSome) (natNeed nv) (NatFits nv) b
  | .filterSetting opened => opened = true →
    b ≠ .array .chain ∧
    (nvramMatch nv "fw_lw_enable_x" "1" = true → FilterRowsFit nv "filter_lw" b) ∧
    (nvramMatch nv "fw_wl_enable_x" "1" = true →
      (nvramMatch nv "fw_lw_enable_x" "1" = true →
        ∀ i < rows nv "filter_lw_num_x", (field nv "filter_lw_proto_x" i).isSome = true) →
      FilterRowsFit nv "filter_wl" b)
  | .porttriggerSetting => nvramInvmatch nv "wan_nat_X" "1" = false → nvramInvmatch nv "autofw_enable_x" "1" = false →
    RowsFit (rows nv "autofw_num_x") (triggerWhole nv) (triggerNeed nv) (TriggerFits nv) b

end Fits

/-! ### A part of a row -/

/-- What a part of a row comes to. -/
structure Part (code : Code) (whole : Bool) (need : ℕ) (fits : Arr → Prop) : Prop where
  runs : ∀ s ∈ code, s.Runs = true
  complete : Complete code ↔ whole = true
  cost : cost code = need
  moved : whole = true → moved code = need
  within : ∀ a, Within Arr.size a code ↔ fits a

section Part

variable {code code' : Code} {whole whole' : Bool} {need need' : ℕ} {fits fits' : Arr → Prop}

theorem Part.append (h : Part code whole need fits) (h' : Part code' whole' need' fits') :
    Part (code ++ code') (whole && whole') (if whole then need + need' else need)
      (fun a => fits a ∧ (whole = true → fits' a)) where
  runs s hs := (List.mem_append.mp hs).elim (h.runs s) (h'.runs s)
  complete := by rw [complete_append, h.complete, h'.complete, Bool.and_eq_true]
  cost := by
    cases hw : whole with
    | false =>
      have hnot : ¬Complete code := fun hc => by rw [h.complete, hw] at hc; cases hc
      rw [cost_append_of_not hnot, h.cost]
      rfl
    | true =>
      rw [cost_append (h.complete.mpr hw), h.cost, h.moved hw, h'.cost, if_pos rfl]
      omega
  moved hw := by
    obtain ⟨hleft, hright⟩ := (Bool.and_eq_true _ _).mp hw
    rw [moved_append, h.moved hleft, h'.moved hright, if_pos hleft]
  within a := by rw [within_append, h.within, h'.within, h.complete]

/-- The same, said otherwise. -/
theorem Part.congr (h : Part code whole need fits) (hwhole : whole = whole') (hneed : need = need')
    (hfits : ∀ a, fits a ↔ fits' a) : Part code whole' need' fits' where
  runs := h.runs
  complete := hwhole ▸ h.complete
  cost := hneed ▸ h.cost
  moved hw := hneed ▸ h.moved (hwhole ▸ hw)
  within a := (h.within a).trans (hfits a)

end Part

/-! ### What is printed -/

/-- What `proto_conv` prints of a variable. -/
def protoText (proto : Bytes) : Bytes :=
  if caseBegins proto "bot" then bytes "both"
  else if caseBegins proto "tcp" then bytes "tcp"
  else if caseBegins proto "udp" then bytes "udp"
  else if caseBegins proto "other" then bytes "other"
  else bytes "tcp"

theorem length_protoText (proto : Bytes) : (protoText proto).length = protoLen proto := by
  unfold protoText protoLen
  split_ifs <;> first | rfl | grind

/-- What `protoflag_conv` prints of a variable. -/
def flagText (isFlag : Bool) (proto : Bytes) : Bytes :=
  if !isFlag then if caseBegins proto "udp" then bytes "udp" else bytes "tcp"
  else if 3 < proto.length then proto.drop 4 else []

theorem length_kindText (proto : Bytes) : (flagText false proto).length = 3 := by
  change (if caseBegins proto "udp" then bytes "udp" else bytes "tcp").length = 3
  split_ifs <;> rfl

theorem length_flagText (proto : Bytes) : (flagText true proto).length = flagLen proto := by
  change (if 3 < proto.length then proto.drop 4 else []).length = proto.length - 4
  split_ifs with hlen
  · rw [List.length_drop]
  · rw [List.length_nil]
    omega

section Addr

variable (nv : VarMap) (name : String) (i : ℕ)

theorem mask_eq_full {stars : ℕ} : (32 - 8 * stars : ℤ) = 32 ↔ stars = 0 := by omega

theorem mask_eq_zero {stars : ℕ} : (32 - 8 * stars : ℤ) = 0 ↔ stars = 4 := by omega

theorem length_iprangeExConv : (iprangeExConv nv name i).length = addrLen (textConv nv name i) := by
  unfold iprangeExConv addrLen textConv
  dsimp only
  generalize nvramSafeGet nv (numbered name i) = ip
  simp only [mask_eq_full, mask_eq_zero]
  split_ifs
  · rw [List.length_map]
  · rw [List.length_nil]
  · rw [List.length_append, List.length_append, List.length_map]
    rfl

theorem mem_intText {n : ℤ} : 45 ∈ intText n ↔ n < 0 := by
  have hdecimal : (45 : UInt8) ∉ decimal n.natAbs := notMem_decimal (by decide) _
  unfold intText
  split_ifs with hneg
  · exact iff_of_true List.mem_cons_self hneg
  · exact iff_of_false hdecimal hneg

/-- A dash stands in the variable, or is the sign of a mask. -/
theorem mem_iprangeExConv (h : addrLen (textConv nv name i) ≠ 0) : 45 ∈ iprangeExConv nv name i ↔
    45 ∈ textConv nv name i ∨ 4 < (textConv nv name i).count 42 := by
  unfold iprangeExConv textConv
  unfold addrLen textConv at h
  dsimp only
  generalize nvramSafeGet nv (numbered name i) = ip at h ⊢
  have hmap : (45 : UInt8) ∈ (ip.map fun c => if c = 42 then 48 else c) ↔ 45 ∈ ip := by
    rw [List.mem_map]
    constructor
    · rintro ⟨c, hc, heq⟩
      split_ifs at heq
      · cases heq
      · exact heq ▸ hc
    · exact fun hmem => ⟨45, hmem, rfl⟩
  have hslash : (45 : UInt8) ∉ bytes "/" := by decide
  simp only [mask_eq_full, mask_eq_zero]
  split_ifs at h ⊢ with hzero hfour
  · rw [hmap, hzero]
    exact (or_iff_left (by omega)).symm
  · exact absurd rfl h
  · rw [List.mem_append, List.mem_append, hmap, mem_intText, or_iff_left hslash]
    exact or_congr_right (by omega)

end Addr

theorem protoflagConv_eq (nv : VarMap) (name : String) (i : ℕ) (isFlag : Bool) :
    protoflagConv nv name i isFlag = (field nv name i).map (flagText isFlag) := by
  rw [field, Option.map_map]
  rfl

section Parts

variable {nv : VarMap} {name : String} {i : ℕ}

theorem length_numbered (hname : (bytes name).length ≤ 21) (hi : i < 2 ^ 31) :
    (numbered name i).bytes.length < Arr.size .itemnameArr := by
  have hdecimal : (decimal i).length ≤ 10 := length_decimal_le (k := 9) (by omega)
  have hle : (numbered name i).bytes.length ≤ (bytes name ++ decimal i).length :=
    (List.takeWhile_sublist _).length_le
  rw [List.length_append] at hle
  calc (numbered name i).bytes.length
    _ ≤ 31 := by omega
    _ < 32 := by omega

theorem itemname_part (hname : (bytes name).length ≤ 21) (hi : i < 2 ^ 31) :
    Part [itemname name i] true 0 (fun _ => True) where
  runs := by simp [itemname, Step.Runs]
  complete := by simp [itemname, Step.There, Complete]
  cost := rfl
  moved _ := rfl
  within a := by
    rw [itemname, within_put]
    exact iff_of_true ⟨fun ha => ha ▸ length_numbered hname hi, within_nil⟩ trivial

theorem nil_part : Part [] true 0 (fun _ => True) :=
  ⟨nofun, iff_of_true nofun rfl, rfl, fun _ => rfl, fun _ => iff_of_true within_nil trivial⟩

theorem alloc_part (text : Bytes) : Part [.alloc (some text)] true (text.length + 1) (fun _ => True) where
  runs := by simp [Step.Runs]
  complete := by simp [Step.There, Complete]
  cost := rfl
  moved _ := rfl
  within a := by simp

theorem stop_part : Part [.alloc none] false 0 (fun _ => True) where
  runs := by simp [Step.Runs]
  complete := by simp [Step.There, Complete]
  cost := rfl
  moved := nofun
  within a := by simp

theorem put_part (a : Arr) (text : Bytes) : Part [.put a text] true 0 (fun b => a = b → text.length < a.size) where
  runs := by simp [Step.Runs]
  complete := by simp [Step.There, Complete]
  cost := rfl
  moved _ := rfl
  within b := by
    rw [within_put]
    exact ⟨fun h hab => hab ▸ h.1 hab, fun h => ⟨fun hab => hab ▸ h hab, within_nil⟩⟩

/-- Text behind the empty one, which is printed first. -/
theorem Part.print {code : Code} {whole : Bool} {need : ℕ} {fits : Arr → Prop} (h : Part code whole need fits)
    (hneed : whole = true → 1 ≤ need) : Part (.print [] :: code) whole (max 1 need) fits where
  runs := List.forall_mem_cons.mpr ⟨rfl, h.runs⟩
  complete := by rw [complete_cons, h.complete]; simp [Step.There]
  cost := by rw [Pool.cost, h.cost]; rfl
  moved hw := by
    have hzero : Pool.moved (.print [] :: code : Code) = Pool.moved code := by simp [Pool.moved, Step.move]
    rw [hzero, h.moved hw]
    exact (max_eq_right (hneed hw)).symm
  within a := by rw [within_print, h.within]

/-- The name of a variable, and a text of the variable if it is set. -/
theorem Part.named {code : Code} {whole : Bool} {need : ℕ} {fits : Arr → Prop} (h : Part code whole need fits)
    (hname : (bytes name).length ≤ 21) (hi : i < 2 ^ 31) : Part (itemname name i :: code) whole need fits :=
  ((itemname_part hname hi).append h).congr (Bool.true_and _) (by simp) (by simp)

variable (hname : (bytes name).length ≤ 21) (hi : i < 2 ^ 31)

include hname hi

theorem textConv_part : Part (textConvSteps nv name i) true (room nv name i) (fun _ => True) :=
  (alloc_part _).named hname hi

theorem protoConv_part : Part (protoConvSteps nv name i) (field nv name i).isSome
    ((field nv name i).elim 0 fun proto => protoLen proto + 1) (fun _ => True) := by
  have hconv : protoConv nv name i = (field nv name i).map protoText := by
    rw [field, Option.map_map]
    rfl
  rw [protoConvSteps, hconv]
  cases field nv name i with
  | none => exact stop_part.named hname hi
  | some proto => exact ((alloc_part _).named hname hi).congr rfl (by rw [length_protoText]; rfl) fun _ => Iff.rfl

theorem protoflagConv_part (isFlag : Bool) : Part (protoflagConvSteps nv name i isFlag) (field nv name i).isSome
    ((field nv name i).elim 1 fun proto => (if isFlag then flagLen proto else 3) + 1) (fun _ => True) := by
  rw [protoflagConvSteps, protoflagConv_eq]
  cases field nv name i with
  | none => exact (stop_part.print nofun).named hname hi
  | some proto =>
    refine (((alloc_part _).print fun _ => by omega).named hname hi).congr rfl ?_ fun _ => Iff.rfl
    cases isFlag with
    | false =>
      rw [length_kindText]
      rfl
    | true =>
      rw [length_flagText]
      exact max_eq_right (by omega)

theorem portrangeEx2_part : Part (portrangeEx2Steps nv name i) (field nv name i).isSome
    ((field nv name i).elim 1 fun port => (portText port).length + 1)
    (fun a => a = .itemnameArr → ∀ port, field nv name i = some port → HasColon port → port.length < 32) := by
  unfold portrangeEx2Steps field
  cases nv.lookup (numbered name i) with
  | none =>
    exact ((stop_part.print nofun).named hname hi).congr rfl rfl fun a => iff_of_true trivial fun _ _ h => nomatch h
  | some v =>
    have halloc : Part _ true ((portText v.bytes).length + 1) _ := alloc_part (portText v.bytes)
    have hneed : max 1 ((portText v.bytes).length + 1) = (portText v.bytes).length + 1 := max_eq_right (by omega)
    by_cases hcolon : HasColon v.bytes
    · simp only [if_pos hcolon]
      refine ((((put_part _ _).append halloc).print fun _ => by simp).named hname hi).congr rfl (by simp) fun a => ?_
      simp [hcolon, eq_comm, Arr.size]
    · simp only [if_neg hcolon]
      refine ((halloc.print fun _ => by omega).named hname hi).congr rfl hneed fun a => ?_
      simp [hcolon]

theorem iprangeEx_part : Part (iprangeExSteps nv name i) true (addrLen (textConv nv name i) + 1)
    (fun a => a = .startip ∨ a = .endip → (textConv nv name i).length < 16) := by
  have halloc : Part _ true _ _ := alloc_part (iprangeExConv nv name i)
  refine ((((put_part .startip _).append ((put_part .endip _).append halloc)).print fun _ => by simp).named hname
    hi).congr rfl ?_ fun a => ?_
  · rw [← length_iprangeExConv]
    simp
  · simp [Arr.size, eq_comm, textConv, or_imp]

end Parts

/-! ### Options -/

theorem filterConv_part (pieces : List Bytes) : Part (filterConvSteps pieces) true (pieces.flatten.length + 1)
    (fun a => a = .newstr → ∀ piece ∈ pieces, piece.length < 64) := by
  have hputs : Part (pieces.map (.put .newstr)) true 0
      (fun a => a = .newstr → ∀ piece ∈ pieces, piece.length < 64) := by
    induction pieces with
    | nil => exact ⟨nofun, iff_of_true nofun rfl, rfl, fun _ => rfl, fun a => iff_of_true within_nil nofun⟩
    | cons piece pieces ih =>
      refine ((put_part .newstr piece).append ih).congr rfl rfl fun a => ?_
      simp only [Arr.size, List.forall_mem_cons, true_implies, eq_comm]
      exact (imp_and ..).symm
  refine ((hputs.append (alloc_part _)).print fun _ => by simp).congr rfl (by simp) fun a => ?_
  simp

/-- A text with something in front, if there is one. -/
theorem option_spec {t p : Bytes} {n : ℕ} (hp : t ≠ [] → p.length = n) (hnil : t = [] → n = 0) :
    (if t ≠ [] then [p] else []).flatten.length = n ∧
      ((∀ piece ∈ if t ≠ [] then [p] else [], piece.length < 64) ↔ n < 64) := by
  by_cases ht : t = []
  · rw [if_neg (not_not_intro ht), hnil ht]
    exact ⟨rfl, iff_of_true nofun (by omega)⟩
  · rw [if_pos ht, List.flatten_singleton, hp ht, List.forall_mem_singleton, hp ht]
    exact ⟨rfl, Iff.rfl⟩

theorem given_spec (front t : Bytes) : (if t ≠ [] then [front ++ t] else []).flatten.length =
      given front.length t.length ∧
    ((∀ piece ∈ if t ≠ [] then [front ++ t] else [], piece.length < 64) ↔ given front.length t.length < 64) := by
  apply option_spec
  · intro ht
    rw [given, if_neg (List.length_eq_zero_iff.not.mpr ht), List.length_append]
  · rintro rfl
    rfl

theorem flags_spec (t : Bytes) :
    (if t ≠ [] then [bytes " --tcp-flags " ++ t ++ bytes " " ++ t] else []).flatten.length = given 14 (2 * t.length) ∧
    ((∀ piece ∈ if t ≠ [] then [bytes " --tcp-flags " ++ t ++ bytes " " ++ t] else [], piece.length < 64) ↔
      given 14 (2 * t.length) < 64) := by
  apply option_spec
  · intro ht
    have hpos := List.length_pos_iff.mpr ht
    rw [given, if_neg (by omega)]
    have hfront : (bytes " --tcp-flags ").length = 13 := rfl
    have hblank : (bytes " ").length = 1 := rfl
    simp only [List.length_append, hfront, hblank]
    omega
  · rintro rfl
    rfl

theorem length_filterPieces (proto flag srcip srcport dstip dstport : Bytes) :
    (filterPieces proto flag srcip srcport dstip dstport).flatten.length = given 4 proto.length +
      given 14 (2 * flag.length) + given (if 45 ∈ srcip then 13 else 4) srcip.length + given 9 srcport.length +
      given (if 45 ∈ dstip then 13 else 4) dstip.length + given 9 dstport.length := by
  unfold filterPieces
  simp only [List.flatten_append]
  rw [List.length_append, List.length_append, List.length_append, List.length_append, List.length_append,
    (flags_spec flag).1]
  simp only [(given_spec _ _).1]
  have hsrc : (if 45 ∈ srcip then bytes " --src-range " else bytes " -s ").length = if 45 ∈ srcip then 13 else 4 := by
    split_ifs <;> rfl
  have hdst : (if 45 ∈ dstip then bytes " --dst-range " else bytes " -d ").length = if 45 ∈ dstip then 13 else 4 := by
    split_ifs <;> rfl
  rw [hsrc, hdst]
  rfl

theorem forall_filterPieces (proto flag srcip srcport dstip dstport : Bytes) :
    (∀ piece ∈ filterPieces proto flag srcip srcport dstip dstport, piece.length < 64) ↔ given 4 proto.length < 64 ∧
      given 14 (2 * flag.length) < 64 ∧ given (if 45 ∈ srcip then 13 else 4) srcip.length < 64 ∧
      given 9 srcport.length < 64 ∧ given (if 45 ∈ dstip then 13 else 4) dstip.length < 64 ∧
      given 9 dstport.length < 64 := by
  unfold filterPieces
  simp only [List.forall_mem_append, (flags_spec flag).2]
  simp only [(given_spec _ _).2]
  have hsrc : (if 45 ∈ srcip then bytes " --src-range " else bytes " -s ").length = if 45 ∈ srcip then 13 else 4 := by
    split_ifs <;> rfl
  have hdst : (if 45 ∈ dstip then bytes " --dst-range " else bytes " -d ").length = if 45 ∈ dstip then 13 else 4 := by
    split_ifs <;> rfl
  rw [hsrc, hdst]
  simp only [and_assoc]
  rfl

theorem given_iprangeEx (nv : VarMap) (name : String) (i : ℕ) :
    given (if 45 ∈ iprangeExConv nv name i then 13 else 4) (iprangeExConv nv name i).length =
      addrNeed (textConv nv name i) := by
  rw [addrNeed, length_iprangeExConv]
  by_cases hzero : addrLen (textConv nv name i) = 0
  · rw [hzero]
    rfl
  · simp only [mem_iprangeExConv nv name i hzero]

theorem kind_fits : given 4 3 < 64 := by decide

/-! ### Rows -/

section Routes

variable (nv : VarMap)

theorem length_routeText (i : ℕ) : (routeText nv i).length = routeLen nv i := by
  simp only [routeText, routeLen, room, List.length_append, List.length_cons]
  omega

theorem wan_ne_lan : bytes "WAN" ≠ bytes "LAN" := by decide

theorem length_wroutes (n : ℕ) : (routes nv n).1.length =
    ∑ j ∈ Finset.range n, if textConv nv "sr_if_x" j = bytes "WAN" then routeLen nv j else 0 := by
  induction n with
  | zero => rfl
  | succ n ih =>
    rw [Finset.sum_range_succ, ← ih]
    dsimp only [routes]
    split_ifs
    · rw [List.length_append, length_routeText]
    · rfl
    · rfl

theorem length_lroutes (n : ℕ) : (routes nv n).2.length =
    ∑ j ∈ Finset.range n, if textConv nv "sr_if_x" j = bytes "LAN" then routeLen nv j else 0 := by
  induction n with
  | zero => rfl
  | succ n ih =>
    rw [Finset.sum_range_succ, ← ih]
    dsimp only [routes]
    split_ifs with hwan hlan hlan
    · exact absurd (hwan.symm.trans hlan) wan_ne_lan
    · rfl
    · rw [List.length_append, length_routeText]
    · rfl

end Routes

section Turns

variable (nv : VarMap) {i : ℕ} (hi : i < 2 ^ 31)

include hi

theorem natRow_part :
    Part (natRow nv i) (field nv "vts_proto_x" i).isSome (natNeed nv i) (NatFits nv i) := by
  have hproto : Part (protoConvSteps nv "vts_proto_x" i) _ _ _ := protoConv_part (by decide) hi
  have htext : ∀ name, (bytes name).length ≤ 21 →
      Part (textConvSteps nv name i) true (room nv name i) (fun _ => True) := fun _ hname => textConv_part hname hi
  refine (((((hproto.append (htext "vts_protono_x" (by decide))).append (htext "vts_port_x" (by decide))).append
    (htext "vts_lport_x" (by decide))).append (htext "vts_ipaddr_x" (by decide))).append
    ((put_part .dstips _).append (put_part .dstports _))).congr ?_ ?_ fun a => ?_
  · simp
  · unfold natNeed
    cases field nv "vts_proto_x" i <;> simp
  · cases a <;> simp [NatFits, Arr.size, Option.ne_none_iff_isSome]
    rw [add_assoc, add_comm 1]

theorem routeRow_part : Part (routeRow nv i) true (routeNeed nv i) (RouteFits nv i) := by
  have htext : ∀ name, (bytes name).length ≤ 21 →
      Part (textConvSteps nv name i) true (room nv name i) (fun _ => True) := fun _ hname => textConv_part hname hi
  have hline : Part (if textConv nv "sr_if_x" i = bytes "WAN" then [.put .wroutes (routes nv (i + 1)).1]
      else if textConv nv "sr_if_x" i = bytes "LAN" then [.put .lroutes (routes nv (i + 1)).2]
      else []) true 0 (RouteFits nv i) := by
    split_ifs with hwan hlan
    · refine (put_part .wroutes _).congr rfl rfl fun a => ?_
      rw [length_wroutes]
      cases a <;> simp [RouteFits, Arr.size, hwan, routesLen, wan_ne_lan]
    · refine (put_part .lroutes _).congr rfl rfl fun a => ?_
      rw [length_lroutes]
      cases a <;> simp [RouteFits, Arr.size, hlan, routesLen, wan_ne_lan.symm]
    · refine nil_part.congr rfl rfl fun a => ?_
      cases a <;> simp [RouteFits, hwan, hlan]
  refine (((((htext "sr_ipaddr_x" (by decide)).append (htext "sr_netmask_x" (by decide))).append
    (htext "sr_gateway_x" (by decide))).append (htext "sr_matric_x" (by decide))).append
    (htext "sr_if_x" (by decide))).append hline |>.congr rfl ?_ fun a => ?_
  · simp [routeNeed]
  · simp

theorem filterRow_part {filter : String} (hfilter : filter = "filter_lw" ∨ filter = "filter_wl") :
    Part (filterRow nv filter i) (field nv (filter ++ "_proto_x") i).isSome (filterNeed nv filter i)
      (FilterFits nv filter i) := by
  have hname : ∀ suffix, (bytes suffix).length ≤ 12 → (bytes (filter ++ suffix)).length ≤ 21 := by
    intro suffix hsuffix
    have hlen : (bytes (filter ++ suffix)).length = (bytes filter).length + (bytes suffix).length := by
      simp [bytes]
    have hnine : (bytes filter).length = 9 := by rcases hfilter with rfl | rfl <;> rfl
    omega
  refine ((((((protoflagConv_part (hname "_proto_x" (by decide)) hi false).append
    (protoflagConv_part (hname "_proto_x" (by decide)) hi true)).append
    (iprangeEx_part (hname "_srcip_x" (by decide)) hi)).append
    (textConv_part (hname "_srcport_x" (by decide)) hi)).append
    (iprangeEx_part (hname "_dstip_x" (by decide)) hi)).append
    (textConv_part (hname "_dstport_x" (by decide)) hi)).append
    (filterConv_part _) |>.congr ?_ ?_ fun a => ?_
  · simp
  · rw [filterNeed, length_filterPieces, given_iprangeEx, given_iprangeEx, protoflagConv_eq, protoflagConv_eq]
    cases field nv (filter ++ "_proto_x") i with
    | none => rfl
    | some proto =>
      simp only [Option.map_some, Option.getD_some, length_kindText, length_flagText]
      simp [given, textConv, add_assoc]
  · rw [forall_filterPieces, given_iprangeEx, given_iprangeEx, protoflagConv_eq, protoflagConv_eq, FilterFits]
    cases field nv (filter ++ "_proto_x") i with
    | none => simp
    | some proto =>
      simp only [Option.map_some, Option.getD_some, length_kindText, length_flagText]
      cases a <;> simp [kind_fits]

theorem triggerRow_part : Part (triggerRow nv i) (triggerWhole nv i) (triggerNeed nv i) (TriggerFits nv i) := by
  refine ((((protoConv_part (by decide) hi).append (portrangeEx2_part (by decide) hi)).append
    (protoConv_part (by decide) hi)).append (portrangeEx2_part (by decide) hi)).append
    (textConv_part (by decide) hi) |>.congr ?_ ?_ fun a => ?_
  · simp [triggerWhole]
  · unfold triggerNeed
    cases field nv "autofw_outproto_x" i <;> cases field nv "autofw_outport_x" i <;>
      cases field nv "autofw_inproto_x" i <;> cases field nv "autofw_inport_x" i <;> simp [add_assoc]
  · unfold TriggerFits
    cases field nv "autofw_outproto_x" i <;> cases field nv "autofw_outport_x" i <;>
      cases field nv "autofw_inproto_x" i <;> cases field nv "autofw_inport_x" i <;> cases a <;> simp

end Turns

theorem runs_rows {row : ℕ → Code} {whole : ℕ → Bool} {need : ℕ → ℕ} {fits : ℕ → Arr → Prop} {n : ℕ}
    (h : ∀ i < n, Part (row i) (whole i) (need i) (fits i)) : ∀ s ∈ (List.range n).flatMap row, s.Runs = true := by
  intro s hs
  obtain ⟨i, hi, hs⟩ := List.mem_flatMap.mp hs
  exact (h i (List.mem_range.mp hi)).runs s hs

theorem lt_of_lt_rows {nv : VarMap} {name : String} {i : ℕ} (h : i < rows nv name) : i < 2 ^ 31 := by
  have hle : atoi (nvramText nv name) ≤ 2 ^ 31 - 1 := by
    unfold atoi
    dsimp only
    omega
  unfold rows at h
  omega

/-- **The rows of a table**, from the parts. -/
theorem stays_rows {row : ℕ → Code} {whole : ℕ → Bool} {need : ℕ → ℕ} {fits : ℕ → Arr → Prop} {n : ℕ}
    (h : ∀ i < n, Part (row i) (whole i) (need i) (fits i)) (b : Buffer) :
    Stays ((List.range n).flatMap row) (some 0) b ↔ RowsFit n whole need fits b := by
  have hreached : ∀ i < n, (∀ j < i, Complete (row j)) ↔ ∀ j < i, whole j = true := fun i hi =>
    forall₂_congr fun j hj => (h j (hj.trans hi)).complete
  cases b with
  | gBufPool =>
    rw [Stays, inside_iff (runs_rows h) (Nat.zero_le _), Nat.zero_add, cost_range_le]
    refine forall₂_congr fun i hi => ?_
    rw [← hreached i hi]
    refine forall_congr' fun hall => ?_
    have hmoved : ∑ j ∈ Finset.range i, moved (row j) = ∑ j ∈ Finset.range i, need j :=
      Finset.sum_congr rfl fun j hj => by
        have hji := Finset.mem_range.mp hj
        exact (h j (hji.trans hi)).moved ((h j (hji.trans hi)).complete.mp (hall j hji))
    rw [hmoved, (h i hi).cost, ← Finset.sum_range_succ]
  | array a =>
    rw [Stays, within_range]
    refine forall₂_congr fun i hi => ?_
    rw [hreached i hi, (h i hi).within]

/-! ### The generators -/

section Stays

variable {code code' : Code} {g : Option ℕ} {b : Buffer}

theorem stays_nil : Stays [] g b := by
  cases b with
  | gBufPool =>
    unfold Stays Inside
    trivial
  | array a => exact within_nil

theorem stays_init : Stays (.init :: code) g b ↔ Stays code (some 0) b := by
  cases b with
  | gBufPool => cases g <;> exact Iff.rfl
  | array a => exact within_init

theorem stays_put {a : Arr} {text : Bytes} :
    Stays (.put a text :: code) g b ↔ (b = .array a → text.length < a.size) ∧ Stays code g b := by
  cases b with
  | gBufPool => cases g <;> simp [Stays, Inside]
  | array c =>
    rw [Stays, within_put, Buffer.array.injEq]
    exact and_congr_left fun _ => ⟨fun h hca => hca ▸ h hca.symm, fun h hac => hac ▸ h hac.symm⟩

/-- A pool that is used anew behind other texts. -/
theorem stays_append_init (hruns : ∀ s ∈ code, s.Runs = true) : Stays (code ++ .init :: code') (some 0) b ↔
    Stays code (some 0) b ∧ (Complete code → Stays code' (some 0) b) := by
  cases b with
  | gBufPool => rw [Stays, inside_init hruns (Nat.zero_le _), Stays, inside_iff hruns (Nat.zero_le _), Stays]
  | array a => rw [Stays, within_append, within_init, Stays, Stays]

end Stays

section Generators

variable (nv : VarMap) (b : Buffer)

theorem convertRoutes_iff : Stays (convertRoutes nv) none b ↔ Fits nv b .convertRoutes := by
  rw [convertRoutes, Fits]
  cases nvramMatch nv "sr_enable_x" "0" with
  | true => exact iff_of_true stays_nil nofun
  | false =>
    have hrows := stays_rows (n := rows nv "sr_num_x") (fun i hi => routeRow_part nv (lt_of_lt_rows hi)) b
    rw [if_neg Bool.false_ne_true, stays_put, stays_put, stays_init, foreachX]
    exact (and_iff_right fun _ => by decide).trans <| (and_iff_right fun _ => by decide).trans <|
      hrows.trans ⟨fun h _ => h, fun h => h rfl⟩

theorem natSetting_iff (opened : Bool) : Stays (natSetting nv opened) none b ↔ Fits nv b (.natSetting opened) := by
  rw [natSetting, Fits]
  have hrows := stays_rows (n := rows nv "vts_num_x") (fun i hi => natRow_part nv (lt_of_lt_rows hi)) b
  split_ifs with h
  · simp only [Bool.and_eq_true] at h
    rw [stays_init, foreachX]
    simp only [h, true_imp_iff]
    exact hrows
  · simp only [Bool.and_eq_true] at h
    exact iff_of_true stays_nil fun ho hn hv => absurd ⟨⟨ho, hn⟩, hv⟩ h

theorem porttriggerSetting_iff : Stays (porttriggerSetting nv) none b ↔ Fits nv b .porttriggerSetting := by
  rw [porttriggerSetting, Fits]
  have hrows := stays_rows (n := rows nv "autofw_num_x") (fun i hi => triggerRow_part nv (lt_of_lt_rows hi)) b
  split_ifs with h
  · refine iff_of_true stays_nil fun hn ha => ?_
    rw [hn, ha] at h
    cases h
  · rw [Bool.not_eq_true, Bool.or_eq_false_iff] at h
    rw [stays_init, foreachX]
    simp only [h, true_imp_iff]
    exact hrows

/-- The rows of the two filters, behind the chain. -/
theorem filters_iff (g : Option ℕ) :
    Stays ((if nvramMatch nv "fw_lw_enable_x" "1" then .init :: filterRows nv "filter_lw" else []) ++
        (if nvramMatch nv "fw_wl_enable_x" "1" then .init :: filterRows nv "filter_wl" else [])) g b ↔
      (nvramMatch nv "fw_lw_enable_x" "1" = true → FilterRowsFit nv "filter_lw" b) ∧
      (nvramMatch nv "fw_wl_enable_x" "1" = true →
        (nvramMatch nv "fw_lw_enable_x" "1" = true →
          ∀ i < rows nv "filter_lw_num_x", (field nv "filter_lw_proto_x" i).isSome = true) →
        FilterRowsFit nv "filter_wl" b) := by
  have hpart : ∀ filter, filter = "filter_lw" ∨ filter = "filter_wl" → ∀ i < rows nv (filter ++ "_num_x"),
      Part (filterRow nv filter i) (field nv (filter ++ "_proto_x") i).isSome (filterNeed nv filter i)
        (FilterFits nv filter i) := fun _ hfilter i hi => filterRow_part nv (lt_of_lt_rows hi) hfilter
  have hlw : Stays (filterRows nv "filter_lw") (some 0) b ↔ _ := stays_rows (hpart _ (Or.inl rfl)) b
  have hwl : Stays (filterRows nv "filter_wl") (some 0) b ↔ _ := stays_rows (hpart _ (Or.inr rfl)) b
  have hruns : ∀ s ∈ filterRows nv "filter_lw", s.Runs = true := runs_rows (hpart _ (Or.inl rfl))
  have hcomplete : Complete (filterRows nv "filter_lw") ↔
      ∀ i < rows nv "filter_lw_num_x", (field nv "filter_lw_proto_x" i).isSome = true :=
    complete_range.trans (forall₂_congr fun i hi => (hpart _ (Or.inl rfl) i hi).complete)
  split_ifs with hl hw hw
  · rw [List.cons_append, stays_init, stays_append_init hruns, hlw, hwl, hcomplete]
    simp only [hl, hw, true_imp_iff]
    exact Iff.rfl
  · rw [List.append_nil, stays_init, hlw]
    simp only [hl, hw, true_imp_iff, Bool.false_eq_true, false_imp_iff, and_true]
    exact Iff.rfl
  · rw [List.nil_append, stays_init, hwl]
    simp only [hl, hw, true_imp_iff, Bool.false_eq_true, false_imp_iff, true_and]
    exact Iff.rfl
  · rw [List.nil_append]
    simp only [hl, hw, Bool.false_eq_true, false_imp_iff, and_true]
    exact iff_of_true stays_nil trivial

theorem filterSetting_iff (opened : Bool) :
    Stays (filterSetting nv opened) none b ↔ Fits nv b (.filterSetting opened) := by
  rw [filterSetting, Fits]
  cases opened with
  | false => exact iff_of_true stays_nil nofun
  | true =>
    have hlong : ¬(bytes (if nvramMatch nv "macfilter_enable_x" "1" then "MACS" else "FORWARD")).length <
        Arr.size .chain := by
      split_ifs <;> decide
    have hchain : ∀ g code, Stays (.put .chain (bytes (if nvramMatch nv "macfilter_enable_x" "1" then "MACS"
        else "FORWARD")) :: code) g b ↔ b ≠ .array .chain ∧ Stays code g b := fun g code =>
      stays_put.trans (and_congr_left fun _ => imp_congr_right fun _ => iff_of_false hlong id)
    rw [if_pos rfl, List.append_assoc, List.append_assoc]
    refine Iff.trans ?_ ⟨fun h _ => h, fun h => h rfl⟩
    cases nvramInvmatch nv "macfilter_enable_x" "0" with
    | true => rw [if_pos rfl, List.singleton_append, stays_init, List.singleton_append, hchain, filters_iff]
    | false => rw [if_neg Bool.false_ne_true, List.nil_append, List.singleton_append, hchain, filters_iff]

theorem stays_iff (gen : Generator) : Stays (gen.code nv) none b ↔ Fits nv b gen :=
  match gen with
  | .convertRoutes => convertRoutes_iff nv b
  | .natSetting opened => natSetting_iff nv b opened
  | .filterSetting opened => filterSetting_iff nv b opened
  | .porttriggerSetting => porttriggerSetting_iff nv b

end Generators

/-- **When what is stored fits**, generator by generator and array by array. -/
theorem keeps_iff (nv : VarMap) (gen : Generator) (b : Buffer) : Keeps nv gen b ↔ Fits nv b gen := stays_iff nv b gen

/-- No name of a chain goes into `chain`. -/
theorem chain_not_kept : ¬∀ nv gen b, Keeps nv gen b := by
  intro h
  have hfits := (stays_iff ∅ (.array .chain) (.filterSetting true)).mp (h _ _ _)
  exact (hfits rfl).1 rfl

end Buffers
end Rc
end Router
