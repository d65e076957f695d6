/-
# AddPortMapping

`upnp/igd/ipt.c`: the action looks for a port mapping with the same protocol and external port, refuses the request
if that goes to another client, deletes it otherwise, and adds the new one. It reports success whether or not the
new one could be added, and a port of 0 is looked for as any port.

`addPortMapping_iff` says for which mappings and requests the action is all or nothing: it takes a request that is
refused, or one that is stored, for a port that has one mapping at most.

The arguments are there, as `invoke` sees to it. The rules in the kernel are left out, as for the manager, and
`nvram_unset` of a variable that is there does not fail.
-/
import RouterFirmware.Lib.Upsert
import RouterFirmware.Igd.Mapmgr

namespace Router
namespace Igd

open CMem CText Bits Netconf Nvparse Upsert
open Nvram (VarMap)

variable (L : Libc) (u : Undef)

/-! ### The request -/

/-- The arguments of the action. -/
structure Request where
  newRemoteHost : CStr
  newExternalPort : CStr
  newProtocol : CStr
  newInternalPort : CStr
  newInternalClient : CStr
  newEnabled : CStr
  newPortMappingDescription : CStr
  newLeaseDuration : CStr

/-- `nvram_invmatch(name, invmatch)`. -/
def nvramInvmatch (nv : VarMap) (name : CStr) (invmatch : String) : Bool :=
  match nv.lookup name with
  | none => false
  | some value => value.bytes != bytes invmatch

/-- The protocol that is named, in letters of either case, and 0 for any other. -/
def protoNumber (protocol : CStr) : ℤ :=
  if protocol.bytes.map toLower = bytes "tcp" then ipprotoTcp
  else if protocol.bytes.map toLower = bytes "udp" then ipprotoUdp
  else 0

/-- `inet_aton`, into an address that is 0. -/
def aton (s : CStr) : Addr := (L.inetAton s.bytes).getD 0

/-- `htons(atoi(s))`. -/
def portOf (s : CStr) : UInt16 := htons (atoi s.bytes)

/-- `netconf_nat_t`, set to 0. -/
def natZero : NetconfNat := { commonZero with ipaddr := 0, ports := (0, 0) }

/-- `parse_dnat(entry, ...)`. -/
def parseDnat (nv : VarMap) (protocol remoteHost externalStartPort externalEndPort internalClient internalStartPort
    internalEndPort : Option CStr) : Option NetconfNat := do
  let protocol ← protocol
  let remoteHost ← remoteHost
  let externalStartPort ← externalStartPort
  let ports := (portOf externalStartPort, portOf (externalEndPort.getD externalStartPort))
  let dst : Side :=
    if remoteHost.length ≠ 0 then ⟨aton L remoteHost, 0xffffffff, ports⟩
    else if nvramInvmatch nv (.lit "wan_ipaddr_t") "" then
      ⟨(L.inetAton (nvramSafeGet nv (.lit "wan_ipaddr_t"))).getD 0, 0xffffffff, ports⟩
    else ⟨0, 0, ports⟩
  -- ports are compared in network order
  if ports.1 > ports.2 then none
  else
    let entry : NetconfNat := { natZero with
      m := { matchZero with
        ipproto := protoNumber protocol
        src := ⟨0, 0, (0, htons 0xffff)⟩
        dst := dst }
      target := .dnat }
    match internalClient, internalStartPort with
    | some internalClient, some internalStartPort =>
      let lan := (portOf internalStartPort, portOf (internalEndPort.getD internalStartPort))
      if lan.1 > lan.2 then none
      else if (lan.2.toNat : ℤ) - lan.1.toNat ≠ (ports.2.toNat : ℤ) - ports.1.toNat then none
      else some { entry with ipaddr := aton L internalClient, ports := lan }
    | _, _ => some entry

/-- `SameMatchInfo(e1, e2)`. -/
def sameMatchInfo (e1 e2 : NetconfNat) : Bool :=
  decide (e1.m.ipproto = e2.m.ipproto) &&
  (e1.m.src.ipaddr == 0 || (e1.m.src.netmask == e2.m.src.netmask && e1.m.src.ipaddr == e2.m.src.ipaddr)) &&
  (e1.m.dst.ports.1 == 0 || e1.m.dst.ports.1 == e2.m.dst.ports.1) &&
  (e1.m.dst.ports.2 == 0 || e1.m.dst.ports.2 == e2.m.dst.ports.2)

/-- `SameInternalClient(e1, e2)`. -/
def sameInternalClient (e1 e2 : NetconfNat) : Bool := e1.ipaddr == e2.ipaddr

/-! ### The action -/

/-- The loop that looks for a mapping that matches, from the `i`-th on. -/
def findMatch (s : Mapmgr) (e : NetconfNat) : ℕ → ℤ → Option (ℤ × NetconfNat)
  | 0, _ => none
  | fuel + 1, i =>
    match mapmgrGetPortMap L u s i with
    | none => none
    | some mapping => if sameMatchInfo e mapping then some (i, mapping) else findMatch s e fuel (i + 1)

/-- The first mapping that matches; there are no more than `NFDBITS`. -/
def firstMatch (s : Mapmgr) (e : NetconfNat) : Option (ℤ × NetconfNat) := findMatch L u s e (nfdbits + 1) 0

/-- What the client is told: nothing at all, an error, or that it is done. -/
inductive Answer where
  | nothing
  | error (status : ℕ)
  | success
deriving DecidableEq

def soapInvalidArgs : ℕ := 402
def soapConflictInMappingEntry : ℕ := 718
def soapOnlyPermanentLeasesSupported : ℕ := 725

/-- `(bool) atoi(NewEnabled)`, in a byte. -/
def enabled (req : Request) : Bool := atoi req.newEnabled.bytes % 256 != 0

/-- The entry as it is added. -/
def described (req : Request) (e : NetconfNat) : NetconfNat :=
  { e with
    m := { e.m with
      flags := if enabled req then e.m.flags &&& ~~~netconfDisabled else e.m.flags ||| netconfDisabled }
    desc := .copy req.newPortMappingDescription.bytes }

/-- `AddPortMapping`, where `nvram_set` succeeds if `ok`. -/
def addPortMapping (req : Request) (ok : Bool) (s : Mapmgr) : Answer × Mapmgr :=
  if nvramInvmatch s.nv (.lit "wan_nat_x") "1" then (.nothing, s)
  else if atoi req.newLeaseDuration.bytes ≠ 0 then (.error soapOnlyPermanentLeasesSupported, s)
  else
    let wanIp := if nvramInvmatch s.nv (.lit "wan_ipaddr_t") "" then cstr (nvramSafeGet s.nv (.lit "wan_ipaddr_t"))
      else req.newRemoteHost
    match parseDnat L s.nv req.newProtocol wanIp req.newExternalPort none req.newInternalClient
        req.newInternalPort none with
    | none => (.error soapInvalidArgs, s)
    | some e =>
      match firstMatch L u s e with
      | none => (.success, (mapmgrAddPortMap u (described req e) ok s).2)
      | some (i, mapping) =>
        if !sameInternalClient e mapping then (.error soapConflictInMappingEntry, s)
        else (.success, (mapmgrAddPortMap u (described req e) ok (mapmgrDeletePortMap L u i true s).2).2)

/-! ### What the action is for -/

/-- The port mapping in a slot. -/
def mapping (s : Mapmgr) (i : ℕ) : Option NetconfNat :=
  if i ∈ s.ports.map then getForwardPort L u s.nv i else none

/-- The requested protocol and external port. -/
def Keyed (req : Request) (m : NetconfNat) : Prop :=
  m.m.ipproto = protoNumber req.newProtocol ∧ m.m.dst.ports = (portOf req.newExternalPort, portOf req.newExternalPort)

/-- All that was requested. -/
def Carries (req : Request) (m : NetconfNat) : Prop :=
  Keyed req m ∧ m.ipaddr = aton L req.newInternalClient ∧
    m.ports = (portOf req.newInternalPort, portOf req.newInternalPort) ∧
    hasBit m.m.flags netconfDisabled = !enabled req ∧ m.desc.str = req.newPortMappingDescription

/-- After a success one mapping has the requested protocol and port and carries what was requested, and those with
another protocol or port are as before. After anything else all mappings are as before. -/
def AllOrNothing (s : Mapmgr) (req : Request) (r : Answer × Mapmgr) : Prop :=
  if r.1 = .success then Replaced (Keyed req) (Carries L req) (mapping L u s) (mapping L u r.2)
  else mapping L u r.2 = mapping L u s

/-- The request can be a record: the protocol is known and the client has an address. -/
def Storable (req : Request) : Prop :=
  (protoNumber req.newProtocol = ipprotoTcp ∨ protoNumber req.newProtocol = ipprotoUdp) ∧
    aton L req.newInternalClient ≠ 0

/-! ### The record -/

variable {L u} {s : Mapmgr} {req : Request} {e : NetconfNat} {i j : ℕ}

/-- What `parse_dnat` makes of the arguments. -/
structure Parsed (L : Libc) (req : Request) (e : NetconfNat) : Prop where
  keyed : Keyed req e
  src : e.m.src.ipaddr = 0
  flags : e.m.flags = 0
  ipaddr : e.ipaddr = aton L req.newInternalClient
  ports : e.ports = (portOf req.newInternalPort, portOf req.newInternalPort)

theorem exists_parsed (nv : VarMap) (wanIp : CStr) (req : Request) : ∃ e,
    parseDnat L nv req.newProtocol wanIp req.newExternalPort none req.newInternalClient req.newInternalPort none =
      some e ∧ Parsed L req e := by
  unfold parseDnat
  have hlt : ∀ p : UInt16, ¬p > p := fun p => UInt16.lt_irrefl p
  simp only [Option.bind_eq_bind, Option.bind_some, Option.getD_none, hlt, if_false, sub_self, ne_eq, not_true]
  refine ⟨_, rfl, ?_⟩
  split_ifs <;> exact ⟨⟨rfl, rfl⟩, rfl, rfl, rfl, rfl⟩

theorem Keyed.same {m : NetconfNat} (hm : Keyed req m) (he : Parsed L req e) : sameMatchInfo e m = true := by
  unfold sameMatchInfo
  rw [he.src, he.keyed.1, he.keyed.2, hm.1, hm.2]
  simp

theorem validForwardPort_described (he : Parsed L req e) :
    validForwardPort (described req e) = true ↔ Storable L req := by
  have hproto : (described req e).m.ipproto = protoNumber req.newProtocol := he.keyed.1
  have hwan : (described req e).m.dst.ports = _ := he.keyed.2
  have hip : (described req e).ipaddr = _ := he.ipaddr
  have hlan : (described req e).ports = _ := he.ports
  unfold validForwardPort Storable
  rw [hproto, hwan, hip, hlan]
  simp [ordered, extent]

/-- What has all of a stored record but the description. -/
theorem carries_iff {r : NetconfNat} (he : Parsed L req e) (halike : ForwardAlike r (described req e)) :
    Carries L req r ↔ r.desc.str = req.newPortMappingDescription := by
  obtain ⟨hproto, hwan, hip, hlan, hflags⟩ := halike
  have hbit : hasBit (described req e).m.flags netconfDisabled = !enabled req := by
    show hasBit (if enabled req then e.m.flags &&& ~~~netconfDisabled else e.m.flags ||| netconfDisabled) _ = _
    rw [he.flags]
    cases enabled req <;> decide
  constructor
  · exact fun h => h.2.2.2.2
  · exact fun h => ⟨⟨hproto.trans he.keyed.1, hwan.trans he.keyed.2⟩, hip.trans he.ipaddr, hlan.trans he.ports,
      hflags.trans hbit, h⟩

/-- A description that fits and is no format is taken over. -/
theorem desc_taken {desc : Option Bytes} (h : DescRead u (described req e).toFwCommon desc)
    (hlen : req.newPortMappingDescription.length ≤ 40) (hpct : 37 ∉ req.newPortMappingDescription.bytes) :
    (descOf desc).str = req.newPortMappingDescription := by
  have hcopy : (described req e).desc.str = req.newPortMappingDescription := by
    apply CStr.ext_bytes
    show (cstr (req.newPortMappingDescription.bytes.take 40)).bytes = _
    rw [List.take_of_length_le hlen]
    exact cstr_bytes req.newPortMappingDescription.nul_notMem
  rw [h.same (by rwa [hcopy]), hcopy]

/-- No other is, if a conversion puts out nothing. -/
theorem desc_fits {desc : Option Bytes} (h : DescRead .nothing (described req e).toFwCommon desc)
    (htaken : (descOf desc).str = req.newPortMappingDescription) :
    req.newPortMappingDescription.length ≤ 40 ∧ 37 ∉ req.newPortMappingDescription.bytes := by
  have hlen : req.newPortMappingDescription.length ≤ 40 := by
    rw [← htaken]
    exact (descOf desc).le
  have hcopy : (described req e).desc = descOf desc := by
    apply Desc.copy_of_prefix
    · rw [htaken]
    · intro _
      rw [htaken]
  refine ⟨hlen, fun hpct => h.other ?_ hcopy.symm⟩
  show 37 ∈ (described req e).desc.str.bytes
  rwa [hcopy, htaken]

/-! ### The search -/

theorem findMatch_eq_some {mapping : NetconfNat} {n : ℤ} : ∀ {fuel : ℕ} {k : ℤ},
    findMatch L u s e fuel k = some (n, mapping) →
      mapmgrGetPortMap L u s n = some mapping ∧ sameMatchInfo e mapping = true
  | fuel + 1, k, h => by
    unfold findMatch at h
    cases hget : mapmgrGetPortMap L u s k with
    | none => simp [hget] at h
    | some m =>
      rw [hget] at h
      dsimp only at h
      split_ifs at h with hsame
      · cases h
        exact ⟨hget, hsame⟩
      · exact findMatch_eq_some h

/-- If none is found, no mapping that can be reached matches. -/
theorem findMatch_eq_none {mapping : NetconfNat} {n : ℤ} : ∀ {fuel : ℕ} {k : ℤ},
    findMatch L u s e fuel k = none → k ≤ n → n < k + fuel →
      (∀ l, k ≤ l → l ≤ n → (mapmgrGetPortMap L u s l).isSome) → mapmgrGetPortMap L u s n = some mapping →
        sameMatchInfo e mapping = false
  | 0, k, _, hle, hlt, _, _ => absurd hlt (by omega)
  | fuel + 1, k, h, hle, hlt, hall, hn => by
    obtain ⟨m, hget⟩ := Option.isSome_iff_exists.mp (hall k le_rfl hle)
    unfold findMatch at h
    rw [hget] at h
    dsimp only at h
    split_ifs at h with hsame
    rcases eq_or_lt_of_le hle with rfl | hlt'
    · rw [hget] at hn
      cases hn
      exact Bool.eq_false_of_not_eq_true hsame
    · exact findMatch_eq_none h (by omega) (by push_cast at hlt; omega) (fun l hl => hall l (by omega)) hn

theorem mapping_eq_some {m : NetconfNat} :
    mapping L u s i = some m ↔ i ∈ s.ports.map ∧ getForwardPort L u s.nv i = some m := by
  unfold mapping
  split_ifs with h <;> simp [h]

/-- Each mapping has a number. -/
theorem Held.number {m : NetconfNat} (h : Held L u s) (hm : mapping L u s i = some m) :
    ∃ n : ℤ, 0 ≤ n ∧ n < nfdbits + 1 ∧ mapmgrGetPortMap L u s n = some m ∧
      ∀ l, 0 ≤ l → l ≤ n → (mapmgrGetPortMap L u s l).isSome := by
  obtain ⟨hi, hget⟩ := mapping_eq_some.mp hm
  obtain ⟨n, hn, -⟩ := Slots.existsUnique_nth (p := (· ∈ (s.pset .ports).map)) List.nodup_range
    (List.mem_range.mpr (h.inv.lt .ports i hi)) hi
  have hgetn : mapmgrGetPortMap L u s n = some m := by
    rw [mapmgrGetPortMap, mapmgrGetMap, show slot s .ports n = some i from hn]
    exact hget
  obtain ⟨hnonneg, hlt⟩ := (h.inv.compact.get_iff n).mp (by rw [hgetn]; rfl)
  refine ⟨n, hnonneg, ?_, hgetn, fun l hl hle => (h.inv.compact.get_iff l).mpr ⟨hl, by omega⟩⟩
  have hcount : s.ports.count = s.ports.map.card := h.inv.count .ports
  have hcard : s.ports.map.card ≤ (Finset.range nfdbits).card :=
    Finset.card_le_card fun i hi => Finset.mem_range.mpr (h.inv.lt .ports i hi)
  rw [Finset.card_range] at hcard
  omega

theorem Held.firstMatch_eq_none {m : NetconfNat} (h : Held L u s) (hfirst : firstMatch L u s e = none)
    (hm : mapping L u s i = some m) : sameMatchInfo e m = false := by
  obtain ⟨n, hnonneg, hlt, hget, hall⟩ := h.number hm
  exact findMatch_eq_none hfirst hnonneg (by push_cast; omega) hall hget

/-- The mapping that is found stands in a slot. -/
theorem firstMatch_eq_some {m : NetconfNat} {n : ℤ} (hfirst : firstMatch L u s e = some (n, m)) :
    sameMatchInfo e m = true ∧ mapmgrGetPortMap L u s n = some m ∧
      ∃ i, slot s .ports n = some i ∧ mapping L u s i = some m := by
  obtain ⟨hget, hsame⟩ := findMatch_eq_some hfirst
  obtain ⟨i, hslot, hgeti⟩ := Option.bind_eq_some_iff.mp hget
  exact ⟨hsame, hget, i, hslot, mapping_eq_some.mpr ⟨slot_eq_some hslot, hgeti⟩⟩

/-! ### What delete and add leave -/

theorem mapping_congr {s' : Mapmgr} (hmem : j ∈ s'.ports.map ↔ j ∈ s.ports.map)
    (hget : getForwardPort L u s'.nv j = getForwardPort L u s.nv j) : mapping L u s' j = mapping L u s j := by
  unfold mapping
  rw [hget]
  exact if_congr hmem rfl rfl

theorem Free.mapping (h : Free s i) : Igd.mapping L u s i = none := if_neg (h .ports)

/-- The mapping that is found is taken out of its slot. -/
theorem Held.delete {n : ℤ} {m : NetconfNat} (h : Held L u s) (hget : mapmgrGetPortMap L u s n = some m)
    (hslot : slot s .ports n = some i) :
    Held L u (mapmgrDeletePortMap L u n true s).2 ∧ Free (mapmgrDeletePortMap L u n true s).2 i ∧
      mapping L u (mapmgrDeletePortMap L u n true s).2 = drop (· = i) (mapping L u s) := by
  have hinv : Inv L u nfdbits (mapmgrDeletePortMap L u n true s).2 :=
    h.inv.run (c := .deletePort n true) (.inl rfl)
  have heq : mapmgrDeletePortMap L u n true s =
      (true, { s with nv := s.nv.erase (numbered "forward_port" i) }.modify (.clr i) .ports) := by
    unfold mapmgrDeletePortMap mapmgrDeleteMap
    rw [hget, hslot]
    rfl
  rw [heq] at hinv ⊢
  have hi : i ∈ s.ports.map := slot_eq_some hslot
  have hfree : Free ({ s with nv := s.nv.erase (numbered "forward_port" i) }.modify (.clr i) .ports) i := by
    intro pset hmem
    rw [mem_clr, pset_nv] at hmem
    cases pset with
    | ports => exact hmem.1 ⟨rfl, rfl⟩
    | ranges => exact h.inv.disjoint i hi hmem.2
  refine ⟨⟨hinv, fun j hj hjfree => ?_⟩, hfree, funext fun j => ?_⟩
  · rw [nv_modify]
    by_cases hji : j = i
    · rw [hji]
      exact getForwardPort_erase_same
    · rw [getForwardPort_erase_ne hji]
      apply h.free j hj
      intro pset hmem
      apply hjfree pset
      rw [mem_clr, pset_nv]
      exact ⟨fun hc => hji hc.2, hmem⟩
  · unfold drop
    split_ifs with hji
    · rw [hji]
      exact hfree.mapping
    · apply mapping_congr
      · show j ∈ s.ports.map.erase i ↔ _
        rw [Finset.mem_erase]
        exact and_iff_right hji
      · rw [nv_modify]
        exact getForwardPort_erase_ne hji

/-- A record that is stored is a new mapping. -/
theorem mapping_add {nat : NetconfNat} {ok : Bool} (hstored : validForwardPort nat ∧ ok) (hslot : freeSlot s = some i) :
    ∃ desc r, DescRead u nat.toFwCommon desc ∧ r.desc = descOf desc ∧ ForwardAlike r nat ∧ mapping L u s i = none ∧
      mapping L u (mapmgrAddPortMap u nat ok s).2 = put i r (mapping L u s) := by
  obtain ⟨-, hfree⟩ := freeSlot_eq_some hslot
  obtain ⟨desc, r, hdesc, hget, hrdesc, halike⟩ := getForwardPort_set (L := L) (u := u) hstored.1 s.nv i
  refine ⟨desc, r, hdesc, hrdesc, halike, hfree.mapping, funext fun j => ?_⟩
  rw [mapmgrAddPortMap, mapmgrAddMap_eq hstored hslot]
  unfold put
  split_ifs with hji
  · rw [hji]
    apply mapping_eq_some.mpr
    rw [nv_modify]
    exact ⟨Finset.mem_insert_self i _, hget⟩
  · apply mapping_congr
    · show j ∈ insert i s.ports.map ↔ _
      rw [Finset.mem_insert]
      exact or_iff_right hji
    · rw [nv_modify]
      exact getForwardPort_insert_ne _ hji

/-- One that is not stored is none, although it may take a slot. -/
theorem Held.mapping_reject {nat : NetconfNat} {ok : Bool} (h : Held L u s)
    (hreject : ¬(validForwardPort nat ∧ ok ∧ (freeSlot s).isSome)) :
    mapping L u (mapmgrAddPortMap u nat ok s).2 = mapping L u s := by
  funext j
  unfold mapmgrAddPortMap mapmgrAddMap
  cases hslot : freeSlot s with
  | none => rfl
  | some i =>
    obtain ⟨hi, hfree⟩ := freeSlot_eq_some hslot
    have hset : setForwardPort u ok s.nv i nat = (false, s.nv) := by
      unfold setForwardPort setIfValid nvramSet
      cases hvalid : validForwardPort nat with
      | false => rfl
      | true =>
        cases ok with
        | false => rfl
        | true => exact absurd ⟨hvalid, rfl, by rw [hslot]; rfl⟩ hreject
    simp only [hset]
    by_cases hji : j = i
    · rw [hji, hfree.mapping]
      unfold mapping
      rw [nv_modify, h.free i hi hfree, ite_self]
    · apply mapping_congr
      · show j ∈ insert i s.ports.map ↔ _
        rw [Finset.mem_insert]
        exact or_iff_right hji
      · rw [nv_modify]

/-! ### The mapping that is replaced -/

/-- What a mapping must match, of the request. -/
def keyOf (req : Request) : NetconfNat :=
  { natZero with
    m := { matchZero with
      ipproto := protoNumber req.newProtocol
      dst := ⟨0, 0, (portOf req.newExternalPort, portOf req.newExternalPort)⟩ } }

section Replaced

variable (L u s req) (ok : Bool)

/-- The first mapping that the request matches. -/
def first : Option (ℤ × NetconfNat) := firstMatch L u s (keyOf req)

/-- The slot of that mapping. -/
def taken : Option ℕ := (first L u s req).bind fun found => slot s .ports found.1

/-- The manager without it. -/
def cleared : Mapmgr :=
  match first L u s req with
  | none => s
  | some (i, _) => (mapmgrDeletePortMap L u i true s).2

/-- The router does no NAT, or the mapping is not to last, or the first that matches goes to another client. -/
def Refused : Prop :=
  nvramInvmatch s.nv (.lit "wan_nat_x") "1" = true ∨ atoi req.newLeaseDuration.bytes ≠ 0 ∨
    ∃ n m, first L u s req = some (n, m) ∧ m.ipaddr ≠ aton L req.newInternalClient

/-- The request can be stored, whole, and takes the place of the only mapping for its protocol and port. -/
structure Replaces : Prop where
  storable : Storable L req
  ok : ok = true
  fits : req.newPortMappingDescription.length ≤ 40 ∧ 37 ∉ req.newPortMappingDescription.bytes
  room : first L u s req = none → (freeSlot s).isSome
  alone : ∀ j m, mapping L u s j = some m → Keyed req m → taken L u s req = some j
  keyed : ∀ j m, taken L u s req = some j → mapping L u s j = some m → Keyed req m

/-- The request cannot be stored, but there is a second mapping for its protocol and port, and that carries it. -/
structure Spare : Prop where
  full : ok = false
  spare : ∃ j m, ¬taken L u s req = some j ∧ mapping L u s j = some m ∧ Carries L req m ∧
    ∀ k m', ¬taken L u s req = some k → mapping L u s k = some m' → Keyed req m' → k = j
  keyed : ∀ j m, taken L u s req = some j → mapping L u s j = some m → Keyed req m

/-- When the action is all or nothing. -/
def Accepts : Prop := Refused L u s req ∨ Replaces L u s req ok ∨ Spare L u s req ok

end Replaced

theorem findMatch_congr {e' : NetconfNat} (h : ∀ m, sameMatchInfo e m = sameMatchInfo e' m) :
    ∀ fuel i, findMatch L u s e fuel i = findMatch L u s e' fuel i
  | 0, _ => rfl
  | fuel + 1, i => by
    unfold findMatch
    cases mapmgrGetPortMap L u s i with
    | none => rfl
    | some m =>
      dsimp only
      rw [h m, findMatch_congr h fuel (i + 1)]

theorem Parsed.firstMatch (he : Parsed L req e) : firstMatch L u s e = first L u s req := by
  apply findMatch_congr
  intro m
  unfold sameMatchInfo
  rw [he.src, he.keyed.1, he.keyed.2]
  rfl

theorem freeSlot_isSome (hi : i < nfdbits) (h : Free s i) : (freeSlot s).isSome := by
  unfold freeSlot
  rw [List.find?_isSome]
  exact ⟨i, List.mem_range.mpr hi, decide_eq_true ⟨h .ports, h .ranges⟩⟩

/-- Without that mapping the manager has room, and its mappings are the others. -/
theorem Held.cleared (h : Held L u s) (req : Request) :
    Held L u (cleared L u s req) ∧
      mapping L u (Igd.cleared L u s req) = drop (taken L u s req = some ·) (mapping L u s) ∧
      (first L u s req ≠ none → (freeSlot (Igd.cleared L u s req)).isSome) := by
  unfold Igd.cleared taken
  cases hfirst : first L u s req with
  | none =>
    refine ⟨h, ?_, fun hne => absurd rfl hne⟩
    funext j
    simp [drop]
  | some found =>
    obtain ⟨n, m⟩ := found
    obtain ⟨-, hget, i, hslot, -⟩ := firstMatch_eq_some hfirst
    obtain ⟨hheld, hfree, hmapping⟩ := h.delete hget hslot
    refine ⟨hheld, ?_, fun _ => freeSlot_isSome (h.inv.lt .ports i (slot_eq_some hslot)) hfree⟩
    rw [hmapping]
    funext j
    simp only [drop, Option.bind_some, hslot, Option.some.injEq, eq_comm]

/-! ### What the action does -/

theorem addPortMapping_refused (ok : Bool) (h : Refused L u s req) :
    ∃ a, a ≠ Answer.success ∧ addPortMapping L u req ok s = (a, s) := by
  unfold addPortMapping
  by_cases hnat : nvramInvmatch s.nv (.lit "wan_nat_x") "1" = true
  · rw [if_pos hnat]
    exact ⟨_, by decide, rfl⟩
  rw [if_neg hnat]
  by_cases hlease : atoi req.newLeaseDuration.bytes ≠ 0
  · rw [if_pos hlease]
    exact ⟨_, by simp, rfl⟩
  rw [if_neg hlease]
  obtain ⟨n, m, hfirst, hclient⟩ := (h.resolve_left hnat).resolve_left hlease
  obtain ⟨e, he, hparsed⟩ := exists_parsed (L := L) s.nv (if nvramInvmatch s.nv (.lit "wan_ipaddr_t") "" = true then
    cstr (nvramSafeGet s.nv (.lit "wan_ipaddr_t")) else req.newRemoteHost) req
  have hsame : sameInternalClient e m = false := by
    rw [sameInternalClient, hparsed.ipaddr]
    exact beq_false_of_ne (Ne.symm hclient)
  dsimp only
  rw [he]
  dsimp only
  rw [hparsed.firstMatch, hfirst]
  dsimp only
  rw [hsame]
  exact ⟨_, by simp, rfl⟩

theorem addPortMapping_done (ok : Bool) (h : ¬Refused L u s req) :
    ∃ e, Parsed L req e ∧ addPortMapping L u req ok s =
      (.success, (mapmgrAddPortMap u (described req e) ok (cleared L u s req)).2) := by
  unfold Refused at h
  simp only [not_or, not_exists, not_and, not_not] at h
  obtain ⟨hnat, hlease, hclient⟩ := h
  obtain ⟨e, he, hparsed⟩ := exists_parsed (L := L) s.nv (if nvramInvmatch s.nv (.lit "wan_ipaddr_t") "" = true then
    cstr (nvramSafeGet s.nv (.lit "wan_ipaddr_t")) else req.newRemoteHost) req
  refine ⟨e, hparsed, ?_⟩
  unfold addPortMapping cleared
  rw [if_neg hnat, if_neg (not_not.mpr hlease)]
  dsimp only
  rw [he]
  dsimp only
  rw [hparsed.firstMatch]
  cases hfirst : first L u s req with
  | none => rfl
  | some found =>
    obtain ⟨n, m⟩ := found
    have hsame : sameInternalClient e m = true := by
      rw [sameInternalClient, hparsed.ipaddr, hclient n m hfirst]
      exact beq_self_eq_true _
    dsimp only
    rw [hsame]
    rfl

/-- A mapping that carries the request shows that it can be stored. -/
theorem storable_of_carries {m : NetconfNat} (hm : mapping L u s j = some m) (hcarries : Carries L req m) :
    Storable L req := by
  have hvalid : validForwardPort m = true := by
    obtain ⟨-, hget⟩ := mapping_eq_some.mp hm
    unfold getForwardPort at hget
    obtain ⟨value, -, hget⟩ := Option.bind_eq_some_iff.mp hget
    obtain ⟨nat, -, hget⟩ := Option.bind_eq_some_iff.mp hget
    split_ifs at hget with hvalid
    cases hget
    exact hvalid
  unfold validForwardPort at hvalid
  simp only [Bool.and_eq_true, decide_eq_true_eq] at hvalid
  obtain ⟨⟨hproto, -⟩, hip, -⟩ := hcarries
  exact ⟨hproto ▸ hvalid.1.1.1.2, hip ▸ hvalid.1.1.2⟩

/-- If the request is stored, it must be stored whole and be the only one. -/
theorem allOrNothing_stored {ok : Bool} (h : Held L u s) (hdone : ¬Refused L u s req) (hstorable : Storable L req)
    (hok : ok = true) (hroom : (freeSlot (cleared L u s req)).isSome) : ∃ e desc, Parsed L req e ∧
      DescRead u (described req e).toFwCommon desc ∧
      (AllOrNothing L u s req (addPortMapping L u req ok s) ↔
        (descOf desc).str = req.newPortMappingDescription ∧
          (∀ j m, mapping L u s j = some m → Keyed req m → taken L u s req = some j) ∧
          ∀ j m, taken L u s req = some j → mapping L u s j = some m → Keyed req m) := by
  obtain ⟨e, hparsed, hdo⟩ := addPortMapping_done (u := u) ok hdone
  obtain ⟨i, hslot⟩ := Option.isSome_iff_exists.mp hroom
  obtain ⟨desc, r, hdesc, hrdesc, halike, hnone, hput⟩ :=
    mapping_add (L := L) (u := u) ⟨(validForwardPort_described hparsed).mpr hstorable, hok⟩ hslot
  rw [(h.cleared req).2.1] at hnone hput
  refine ⟨e, desc, hparsed, hdesc, ?_⟩
  have hkeyed : Keyed req r := ⟨halike.1.trans hparsed.keyed.1, halike.2.1.trans hparsed.keyed.2⟩
  rw [AllOrNothing, hdo, if_pos rfl, hput, replaced_put_iff hnone hkeyed, carries_iff hparsed halike, hrdesc]

/-- If it is not stored, it must be there already. -/
theorem allOrNothing_unstored {ok : Bool} (h : Held L u s) (hdone : ¬Refused L u s req)
    (hreject : ¬(Storable L req ∧ ok = true ∧ (freeSlot (cleared L u s req)).isSome)) :
    AllOrNothing L u s req (addPortMapping L u req ok s) ↔ Spare L u s req ok := by
  obtain ⟨e, hparsed, hdo⟩ := addPortMapping_done (u := u) ok hdone
  obtain ⟨hheld, hdrop, hroom⟩ := h.cleared req
  have hleft : mapping L u (addPortMapping L u req ok s).2 = drop (taken L u s req = some ·) (mapping L u s) := by
    rw [hdo, ← hdrop]
    apply hheld.mapping_reject
    rwa [validForwardPort_described hparsed]
  rw [AllOrNothing, hleft, hdo, if_pos rfl, replaced_drop_iff]
  constructor
  · rintro ⟨hspare, hkeyed⟩
    refine ⟨?_, hspare, hkeyed⟩
    -- otherwise there is no room, so none matches and none carries the request
    by_contra hok
    obtain ⟨j, m, -, hm, hcarries, -⟩ := hspare
    have hfirst : first L u s req = none := by
      by_contra hfirst
      exact hreject ⟨storable_of_carries hm hcarries, Bool.eq_true_of_not_eq_false hok, hroom hfirst⟩
    rw [← hparsed.firstMatch] at hfirst
    have hsame := hcarries.1.same hparsed
    rw [h.firstMatch_eq_none hfirst hm] at hsame
    cases hsame
  · exact fun hspare => ⟨hspare.spare, hspare.keyed⟩

/-! ### When it is all or nothing -/

theorem allOrNothing_of_accepts {ok : Bool} (h : Held L u s) (haccepts : Accepts L u s req ok) :
    AllOrNothing L u s req (addPortMapping L u req ok s) := by
  by_cases hrefused : Refused L u s req
  · obtain ⟨a, ha, heq⟩ := addPortMapping_refused (u := u) ok hrefused
    rw [heq, AllOrNothing, if_neg ha]
  rcases haccepts.resolve_left hrefused with hreplaces | hspare
  · have hroom : (freeSlot (cleared L u s req)).isSome := by
      by_cases hfirst : first L u s req = none
      · have hroom := hreplaces.room hfirst
        unfold cleared
        rwa [hfirst]
      · exact (h.cleared req).2.2 hfirst
    obtain ⟨e, desc, hparsed, hdesc, hiff⟩ := allOrNothing_stored h hrefused hreplaces.storable hreplaces.ok hroom
    exact hiff.mpr ⟨desc_taken hdesc hreplaces.fits.1 hreplaces.fits.2, hreplaces.alone, hreplaces.keyed⟩
  · apply (allOrNothing_unstored h hrefused _).mpr hspare
    rw [hspare.full]
    exact fun hc => absurd hc.2.1 (by decide)

/-- Where a conversion puts out nothing and nothing stands behind the description. -/
theorem accepts_of_allOrNothing {stack : Bytes} {ok : Bool} (h : Held L ⟨fun _ => [], stack, []⟩ s)
    (hall : AllOrNothing L ⟨fun _ => [], stack, []⟩ s req (addPortMapping L ⟨fun _ => [], stack, []⟩ req ok s)) :
    Accepts L ⟨fun _ => [], stack, []⟩ s req ok := by
  by_cases hrefused : Refused L ⟨fun _ => [], stack, []⟩ s req
  · exact .inl hrefused
  right
  by_cases hstored : Storable L req ∧ ok = true ∧ (freeSlot (cleared L ⟨fun _ => [], stack, []⟩ s req)).isSome
  · left
    obtain ⟨hstorable, hok, hroom⟩ := hstored
    obtain ⟨e, desc, hparsed, hdesc, hiff⟩ := allOrNothing_stored h hrefused hstorable hok hroom
    obtain ⟨htaken, halone, hkeyed⟩ := hiff.mp hall
    refine ⟨hstorable, hok, desc_fits hdesc htaken, fun hfirst => ?_, halone, hkeyed⟩
    unfold cleared at hroom
    rwa [hfirst] at hroom
  · exact .inr ((allOrNothing_unstored h hrefused hstored).mp hall)

/-- Only what is read of the mappings matters. -/
theorem Accepts.congr {u' : Undef} {ok : Bool} (hread : getForwardPort L u' = getForwardPort L u)
    (h : Accepts L u s req ok) : Accepts L u' s req ok := by
  have hget : ∀ n, mapmgrGetPortMap L u' s n = mapmgrGetPortMap L u s n := by
    intro n
    unfold mapmgrGetPortMap mapmgrGetMap
    rw [hread]
  have hfind : ∀ fuel i, findMatch L u' s (keyOf req) fuel i = findMatch L u s (keyOf req) fuel i := by
    intro fuel
    induction fuel with
    | zero => exact fun _ => rfl
    | succ fuel ih =>
      intro i
      unfold findMatch
      rw [hget i]
      simp only [ih]
  have hfirst : first L u' s req = first L u s req := hfind _ _
  have hmapping : mapping L u' s = mapping L u s := by
    unfold mapping
    rw [hread]
  have htaken : taken L u' s req = taken L u s req := by
    unfold taken
    rw [hfirst]
  rcases h with h | h | h
  · left
    unfold Refused
    rwa [hfirst]
  · refine .inr (.inl ⟨h.storable, h.ok, h.fits, ?_, ?_, ?_⟩)
    · rw [hfirst]
      exact h.room
    · rw [hmapping, htaken]
      exact h.alone
    · rw [hmapping, htaken]
      exact h.keyed
  · refine .inr (.inr ⟨h.full, ?_, ?_⟩)
    · rw [hmapping, htaken]
      exact h.spare
    · rw [hmapping, htaken]
      exact h.keyed

theorem mapmgrUpdate_congr {u' : Undef} (hread : getForwardPort L u' = getForwardPort L u) (s : Mapmgr) :
    mapmgrUpdate L u' s = mapmgrUpdate L u s := by
  have hslot : updateSlot L u' = updateSlot L u := by
    unfold updateSlot
    rw [hread]
  unfold mapmgrUpdate
  rw [hslot]

/-- **AddPortMapping is all or nothing, whatever C leaves undefined, if and only if it accepts the request.** This
is so for every NVRAM, after the manager has looked at it. -/
theorem addPortMapping_iff (L : Libc) (u : Undef) (s₀ : Mapmgr) (req : Request) (ok : Bool) :
    (∀ conv link, AllOrNothing L ⟨conv, u.stack, link⟩ (mapmgrUpdate L u s₀) req
      (addPortMapping L ⟨conv, u.stack, link⟩ req ok (mapmgrUpdate L u s₀))) ↔
      Accepts L u (mapmgrUpdate L u s₀) req ok := by
  have hread : ∀ conv link, getForwardPort L ⟨conv, u.stack, link⟩ = getForwardPort L u := fun _ _ => rfl
  have hheld : ∀ conv link, Held L ⟨conv, u.stack, link⟩ (mapmgrUpdate L u s₀) := by
    intro conv link
    rw [← mapmgrUpdate_congr (hread conv link)]
    exact mapmgrUpdate_held s₀
  generalize mapmgrUpdate L u s₀ = s at hheld ⊢
  constructor
  · intro hall
    apply Accepts.congr (hread (fun _ => []) []).symm
    exact accepts_of_allOrNothing (hheld (fun _ => []) []) (hall (fun _ => []) [])
  · intro haccepts conv link
    exact allOrNothing_of_accepts (hheld conv link) (haccepts.congr (hread conv link))

/-- Port 80 to port 8080 of a client, for good. -/
def webRequest (client : CStr) : Request where
  newRemoteHost := .lit ""
  newExternalPort := .lit "80"
  newProtocol := .lit "TCP"
  newInternalPort := .lit "8080"
  newInternalClient := client
  newEnabled := .lit "1"
  newPortMappingDescription := .lit "web"
  newLeaseDuration := .lit "0"

/-- A mapping to no client is reported as a success, and is not there. -/
theorem success_without_mapping :
    let s := mapmgrUpdate dottedLibc .nothing noMappings
    let r := addPortMapping dottedLibc .nothing (webRequest (.lit "0.0.0.0")) true s
    r.1 = .success ∧ ¬AllOrNothing dottedLibc .nothing s (webRequest (.lit "0.0.0.0")) r := by
  have hfirst : first dottedLibc .nothing noMappings (webRequest (.lit "0.0.0.0")) = none := by decide
  have hdone : ¬Refused dottedLibc .nothing noMappings (webRequest (.lit "0.0.0.0")) := by
    unfold Refused
    rw [hfirst]
    simp only [not_or, not_exists, not_and]
    exact ⟨by decide, by decide, fun _ _ h => absurd h (by simp)⟩
  have hheld := mapmgrUpdate_held (L := dottedLibc) (u := .nothing) noMappings
  intro s r
  simp only [s, r, mapmgrUpdate_noMappings] at hheld ⊢
  constructor
  · obtain ⟨e, -, hdo⟩ := addPortMapping_done true hdone
    rw [hdo]
  · intro hall
    rcases (accepts_of_allOrNothing hheld hall).resolve_left hdone with hreplaces | hspare
    · exact absurd hreplaces.storable.2 (by decide)
    · exact absurd hspare.full (by decide)

end Igd
end Router
