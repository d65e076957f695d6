/-
# The memory of the daemon

`load_sysparam` copies variables into arrays with `strncpy`, which puts no NUL behind what fills them, and
`processPacket` copies from these with `strcpy`, as it does from the NVRAM, into the fields of the answer. `cmdstr` has
256 bytes; the line of a command is the text and 18 bytes more, and the text is cut at 256. A packet is handled inside
of the arrays and fields exactly where the variables and the text are short enough (`packet_safe_iff`).

Here every copy is checked, and `none` is one that leaves its source or its field; where there is none, the daemon does
what it does in `Packet` (`processPacket_eq`). The address, which `ether_atoe` makes six bytes of, and what else
`/tmp/waveserver.info` says are parameters.
-/
import RouterFirmware.Infosvr.Packet
import RouterFirmware.Lib.Search

namespace Router
namespace Infosvr
namespace Bounds

open CMem CText

variable {W : Type*}

/-! ### `load_sysparam` -/

/-- `strncpy` into an array. -/
def strncpy (n : ℕ) (s : CStr) : Vector UInt8 n := .ofFn fun i => s.bytes.getD i 0

/-- The global variables, and how many arguments there are. -/
structure Globals where
  ssidG : Vector UInt8 32
  netmaskG : Vector UInt8 32
  productidG : Vector UInt8 32
  firmverG : Vector UInt8 16
  mac : Vector UInt8 6
  intfCount : ℕ
  intfCount_pos : 0 < intfCount

/-- The addresses and the arguments of a program. -/
structure Start where
  mac : Vector UInt8 6
  intfCount : ℕ
  intfCount_pos : 0 < intfCount

section Code

variable (h : Host W)

def ssidOf (w : W) : CStr :=
  if nvramMatch h w "ure_disable" "1" then nvramSafeGet h w "wl0_ssid" else nvramSafeGet h w "wl0.1_ssid"

/-- `load_sysparam`; `macstr` has 32 bytes. -/
def loadSysparam (start : Start) (w : W) : Option Globals :=
  if 32 ≤ (nvramSafeGet h w "et0macaddr").length then none
  else
    some {
      ssidG := strncpy 32 (ssidOf h w)
      netmaskG := strncpy 32 (nvramSafeGet h w "lan_netmask")
      productidG := strncpy 32 (nvramSafeGet h w "productid")
      firmverG := strncpy 16 (nvramSafeGet h w "firmver")
      mac := start.mac
      intfCount := start.intfCount
      intfCount_pos := start.intfCount_pos }

/-- What the strings in the arrays are, where they end. -/
def Globals.sysparam (g : Globals) : Sysparam where
  ssid := cstr g.ssidG.toList
  netmask := cstr g.netmaskG.toList
  productid := cstr g.productidG.toList
  firmver := cstr g.firmverG.toList
  mac := g.mac
  intfCount := g.intfCount
  intfCount_pos := g.intfCount_pos

/-! ### `processPacket` -/

/-- `strcpy` of the string in `src` to a field of `size` bytes at `p`. -/
def strcpyIn (m : Mem) (p size : ℕ) (src : Bytes) : Option Mem :=
  if 0 ∈ src ∧ (cstr src).length < size then some (strcpy m p (cstr src)) else none

/-- `getStorageStatus`, for the structure at `st`. -/
def getStorageStatus (w : W) (m : Mem) (st : ℕ) : Option Mem :=
  let m := put32 m st 0
  let apps :=
    if nvramInvmatch h w "apps_pool" "" && nvramInvmatch h w "apps_share" "" then
      let m := put32 m st (UInt32.ofInt (atoi (nvramSafeGet h w "apps_caps").bytes))
      (strcpyIn m (st + 8) 32 (nvramSafeGet h w "apps_pool").withNul).bind fun m =>
        strcpyIn m (st + 40) 32 (nvramSafeGet h w "apps_share").withNul
    else some (write (write (put32 m st 0) (st + 8) [0]) (st + 40) [0])
  apps.map fun m =>
    let m := put32 m (st + 105) 0
    write (write (write (write m (st + 72) [0]) (st + 73) [0]) (st + 109) [0]) (st + 141) [0]

/-- What is printed to `tmp_buf`. -/
def procDir (pid : ℤ) : Bytes := bytes "/proc/" ++ (if pid < 0 then 45 :: decimal pid.natAbs else decimal pid.natAbs)

/-- `NetMask` is that of the lease. -/
def leased (w : W) : Bool :=
  nvramMatch h w "wan_nat_X" "0" && nvramMatch h w "lan_proto_X" "1" && nvramInvmatch h w "lan_netmask_t" ""

variable (pidOf : W → Option ℤ) (g : Globals)

/-- The body of the answer to GETINFO. -/
def fillInfo (m : Mem) (w : W) : Option (Mem × W) :=
  let m := write m 8 (List.replicate 4 0)
  let m := write m 8 (List.replicate 128 0)
  (strcpyIn m 9 127 (nvramSafeGet h w "hardware_version").withNul).bind fun m =>
  (strcpyIn m 136 32 g.ssidG.toList).bind fun m =>
  (if leased h w then strcpyIn m 168 32 (nvramSafeGet h w "lan_netmask_t").withNul
    else strcpyIn m 168 32 g.netmaskG.toList).bind fun m =>
  (strcpyIn m 200 32 g.productidG.toList).bind fun m =>
  (strcpyIn m 232 16 g.firmverG.toList).bind fun m =>
    let m := write m 249 g.mac.toList
    let m := write m 255 [regulation h w]
    -- `tmp_buf` has 15 bytes
    if ∃ pid ∈ pidOf w, 15 ≤ (procDir pid).length then none
    else
      let wsinfo := h.readWsInfo w
      let m := write m 256 (wsinfo.1.getD (Vector.replicate 16 0)).toList
      (getStorageStatus h w m 272).map fun m => (m, wsinfo.2)

/-- `NET_CMD_ID_MANU_CMD`. The output of the command is printed as a string. -/
def manuCmd (res pdubuf : Mem) (w : W) : Option (Bool × Daemon W × List Event) :=
  (Infosvr.manuCmd h g.sysparam res pdubuf w).bind fun r =>
    if 0 ∈ load r.2.1.res 16 (INFO_PDU_LENGTH - 16) then some r else none

/-- `processPacket`. -/
def processPacket (s : Daemon W) (pdubuf : Mem) : Option (Bool × Daemon W × List Event) :=
  if serviceID pdubuf = NET_SERVICE_ID_IBOX_INFO ∧ packetType pdubuf = NET_PACKET_TYPE_CMD then
    if opCode pdubuf ≠ NET_CMD_ID_GETINFO ∧ opCode s.res = opCode pdubuf ∧ info s.res = info pdubuf then
      some (true, s, [])
    else if opCode pdubuf = NET_CMD_ID_GETINFO then
      (fillInfo h pidOf g (resHdr s.res pdubuf) s.world).map fun r => (true, ⟨r.1, r.2⟩, sendInfo g.sysparam r.1)
    else
      let res := resHdrEx g.sysparam s.res pdubuf
      if opCode pdubuf = NET_CMD_ID_MANU_CMD then manuCmd h g res (write pdubuf 8 g.mac.toList) s.world
      else some (false, { s with res := res }, [])
  else some (false, s, [])

end Code

/-! ### What is claimed, and where it holds -/

/-- What is put behind a command. -/
def redirect : Bytes := bytes " > /tmp/syscmd.out"

/-- The command that was received: the text in `cmd[420]`, up to its length. -/
def receivedCmd (pdubuf : Mem) : Bytes := (cstr (load pdubuf 48 (min (le16 pdubuf 46).toNat 420))).bytes

section Claim

variable (h : Host W) (pidOf : W → Option ℤ) (start : Start) (w₀ : W) (s : Daemon W) (pdubuf : Mem)

/-- Every copy is inside of its source and its field, and what the shell gets is the command that was received. -/
def Safe : Prop :=
  ∃ g, loadSysparam h start w₀ = some g ∧ ∃ r, processPacket h pidOf g s pdubuf = some r ∧
    ∀ line out, .ran line out ∈ r.2.2 → line.bytes = receivedCmd pdubuf ++ redirect

/-- A command the daemon knows of, or GETINFO. -/
def IsPdu : Prop := serviceID pdubuf = NET_SERVICE_ID_IBOX_INFO ∧ packetType pdubuf = NET_PACKET_TYPE_CMD

/-- A line that is run: not that of the transaction before. -/
def Runs : Prop := IsPdu pdubuf ∧ opCode pdubuf = NET_CMD_ID_MANU_CMD ∧
  ¬(opCode s.res = opCode pdubuf ∧ info s.res = info pdubuf)

/-- What is read back of the output of the command. -/
def outputOf : Bytes := syscmdRes h (h.system (cstr (receivedCmd pdubuf ++ redirect)) s.world)

/-- The variables that an answer to GETINFO copies: those read when the daemon started, and those of now. -/
structure InfoFits (w : W) : Prop where
  hardware : (nvramSafeGet h w "hardware_version").length ≤ 126
  ssid : (ssidOf h w₀).length ≤ 31
  netmask : (if leased h w then nvramSafeGet h w "lan_netmask_t" else nvramSafeGet h w₀ "lan_netmask").length ≤ 31
  productid : (nvramSafeGet h w₀ "productid").length ≤ 31
  firmver : (nvramSafeGet h w₀ "firmver").length ≤ 15
  pid : ∀ pid ∈ pidOf w, (procDir pid).length ≤ 14
  apps : (nvramInvmatch h w "apps_pool" "" && nvramInvmatch h w "apps_share" "") = true →
    (nvramSafeGet h w "apps_pool").length ≤ 31 ∧ (nvramSafeGet h w "apps_share").length ≤ 31

/-- What the variables, the datagram and the answer to the one before have to be. -/
structure PacketFits : Prop where
  mac : (nvramSafeGet h w₀ "et0macaddr").length ≤ 31
  getinfo : IsPdu pdubuf → opCode pdubuf = NET_CMD_ID_GETINFO → InfoFits h pidOf w₀ s.world
  command : Runs s pdubuf → (receivedCmd pdubuf).length ≤ 237
  /-- The output has a NUL, or there is one behind it. -/
  output : Runs s pdubuf → 0 ∈ outputOf h s pdubuf ∨
    ∃ i, 16 + (outputOf h s pdubuf).length ≤ i ∧ i < INFO_PDU_LENGTH ∧ s.res i = 0

end Claim

/-! ### Copies -/

section Copies

theorem toList_strncpy (n : ℕ) (s : CStr) :
    (strncpy n s).toList = s.bytes.take n ++ List.replicate (n - s.length) 0 := by
  apply List.ext_getElem
  · simp only [strncpy, Vector.length_toList, List.length_append, List.length_take, List.length_replicate, CStr.length]
    omega
  · intro i hlen _
    have hget : (strncpy n s).toList[i] = s.bytes.getD i 0 := by
      simp [strncpy]
    have hi : i < n := by rwa [Vector.length_toList] at hlen
    rw [hget]
    rcases Nat.lt_or_ge i s.bytes.length with hlt | hge
    · rw [List.getElem_append_left (by rw [List.length_take]; omega), List.getElem_take,
        List.getD_eq_getElem _ _ hlt]
    · rw [List.getElem_append_right (by rw [List.length_take]; omega), List.getElem_replicate,
        List.getD_eq_default _ _ hge]

/-- What fills the array has no end in it. -/
theorem nul_mem_strncpy {n : ℕ} {s : CStr} : 0 ∈ (strncpy n s).toList ↔ s.length < n := by
  rw [toList_strncpy, List.mem_append, List.mem_replicate]
  constructor
  · rintro (h | ⟨h, -⟩)
    · exact absurd (List.mem_of_mem_take h) s.nul_notMem
    · omega
  · intro h
    exact Or.inr ⟨by omega, rfl⟩

theorem cstr_strncpy {n : ℕ} {s : CStr} (h : s.length < n) : cstr (strncpy n s).toList = s := by
  apply CStr.ext_bytes
  obtain ⟨k, hk⟩ : ∃ k, n - s.length = k + 1 := ⟨n - s.length - 1, by omega⟩
  rw [toList_strncpy, hk, List.replicate_succ, List.take_of_length_le (Nat.le_of_lt h), cstr_append_nul s.nul_notMem]

variable {m m' : Mem} {p size : ℕ}

/-- A string of the NVRAM. -/
theorem strcpyIn_withNul {s : CStr} : strcpyIn m p size s.withNul = some m' ↔ s.length < size ∧ strcpy m p s = m' := by
  have hcstr : cstr s.withNul = s := CStr.ext_bytes (cstr_append_nul s.nul_notMem [])
  have hnul : 0 ∈ s.withNul := List.mem_append_right _ List.mem_cons_self
  unfold strcpyIn
  rw [hcstr]
  split
  · rename_i h
    rw [Option.some_inj]
    exact ⟨fun he => ⟨h.2, he⟩, fun he => he.2⟩
  · rename_i h
    exact ⟨fun he => absurd he.symm (Option.some_ne_none _), fun he => absurd ⟨hnul, he.1⟩ h⟩

/-- A string in an array. -/
theorem strcpyIn_strncpy {s : CStr} :
    strcpyIn m p size (strncpy size s).toList = some m' ↔ s.length < size ∧ strcpy m p s = m' := by
  unfold strcpyIn
  by_cases h : s.length < size
  · rw [cstr_strncpy h, if_pos ⟨nul_mem_strncpy.mpr h, h⟩, Option.some_inj]
    exact ⟨fun he => ⟨h, he⟩, fun he => he.2⟩
  · rw [if_neg fun hin => h (nul_mem_strncpy.mp hin.1)]
    exact ⟨fun he => absurd he.symm (Option.some_ne_none _), fun he => absurd he.1 h⟩

end Copies

/-! ### GETINFO -/

section Getinfo

variable {h : Host W} {pidOf : W → Option ℤ} {start : Start} {w₀ w : W} {g : Globals} {m m' : Mem}

theorem getStorageStatus_eq {st : ℕ} : getStorageStatus h w m st = some m' ↔
    ((nvramInvmatch h w "apps_pool" "" && nvramInvmatch h w "apps_share" "") = true →
      (nvramSafeGet h w "apps_pool").length ≤ 31 ∧ (nvramSafeGet h w "apps_share").length ≤ 31) ∧
      Infosvr.getStorageStatus h w m st = m' := by
  unfold getStorageStatus Infosvr.getStorageStatus
  dsimp only
  rw [Option.map_eq_some_iff]
  split
  · rename_i happs
    constructor
    · rintro ⟨m₁, h₁, h₂⟩
      obtain ⟨m₂, hpool, hshare⟩ := Option.bind_eq_some_iff.mp h₁
      obtain ⟨hpool, rfl⟩ := strcpyIn_withNul.mp hpool
      obtain ⟨hshare, rfl⟩ := strcpyIn_withNul.mp hshare
      exact ⟨fun _ => ⟨by omega, by omega⟩, h₂⟩
    · rintro ⟨hfit, rfl⟩
      obtain ⟨hpool, hshare⟩ := hfit happs
      exact ⟨_, Option.bind_eq_some_iff.mpr ⟨_, strcpyIn_withNul.mpr ⟨by omega, rfl⟩,
        strcpyIn_withNul.mpr ⟨by omega, rfl⟩⟩, rfl⟩
  · rename_i happs
    constructor
    · rintro ⟨m₁, h₁, h₂⟩
      cases h₁
      exact ⟨fun hyes => absurd hyes happs, h₂⟩
    · rintro ⟨-, rfl⟩
      exact ⟨_, rfl, rfl⟩

/-- The array holds a string, or as much of it as there is room for. -/
theorem strcpyIn_array {n p : ℕ} {v : CStr} {a : Vector UInt8 n} (ha : a = strncpy n v) :
    strcpyIn m p n a.toList = some m' ↔ v.length < n ∧ strcpy m p (cstr a.toList) = m' := by
  subst ha
  rw [strcpyIn_strncpy]
  exact and_congr_right fun hlt => by rw [cstr_strncpy hlt]

/-- The mask of the lease, or that which was read when the daemon started. -/
theorem netmask_eq {p : ℕ} {v : CStr} {a : Vector UInt8 32} (ha : a = strncpy 32 v) :
    (if leased h w then strcpyIn m p 32 (nvramSafeGet h w "lan_netmask_t").withNul
      else strcpyIn m p 32 a.toList) = some m' ↔
    (if leased h w then nvramSafeGet h w "lan_netmask_t" else v).length ≤ 31 ∧
      (if leased h w then strcpy m p (nvramSafeGet h w "lan_netmask_t") else strcpy m p (cstr a.toList)) = m' := by
  split
  · rw [strcpyIn_withNul, Nat.lt_succ_iff]
  · rw [strcpyIn_array ha, Nat.lt_succ_iff]

theorem loadSysparam_arrays (hg : loadSysparam h start w₀ = some g) :
    g.ssidG = strncpy 32 (ssidOf h w₀) ∧ g.netmaskG = strncpy 32 (nvramSafeGet h w₀ "lan_netmask") ∧
      g.productidG = strncpy 32 (nvramSafeGet h w₀ "productid") ∧
      g.firmverG = strncpy 16 (nvramSafeGet h w₀ "firmver") := by
  unfold loadSysparam at hg
  by_cases hlong : 32 ≤ (nvramSafeGet h w₀ "et0macaddr").length
  · rw [if_pos hlong] at hg
    exact absurd hg.symm (Option.some_ne_none g)
  · rw [if_neg hlong, Option.some_inj] at hg
    subst hg
    exact ⟨rfl, rfl, rfl, rfl⟩

/-- **An answer to GETINFO is filled exactly where the variables fit.** -/
theorem fillInfo_eq (hg : loadSysparam h start w₀ = some g) {r : Mem × W} : fillInfo h pidOf g m w = some r ↔
    InfoFits h pidOf w₀ w ∧ Infosvr.fillInfo h g.sysparam m w = r := by
  obtain ⟨hssidG, hnetmaskG, hproductidG, hfirmverG⟩ := loadSysparam_arrays hg
  constructor
  · intro hfill
    obtain ⟨m₁, hhardware, hfill⟩ := Option.bind_eq_some_iff.mp hfill
    obtain ⟨m₂, hssid, hfill⟩ := Option.bind_eq_some_iff.mp hfill
    obtain ⟨m₃, hnetmask, hfill⟩ := Option.bind_eq_some_iff.mp hfill
    obtain ⟨m₄, hproductid, hfill⟩ := Option.bind_eq_some_iff.mp hfill
    obtain ⟨m₅, hfirmver, hfill⟩ := Option.bind_eq_some_iff.mp hfill
    obtain ⟨hhardware', rfl⟩ := strcpyIn_withNul.mp hhardware
    obtain ⟨hssid', rfl⟩ := (strcpyIn_array hssidG).mp hssid
    obtain ⟨hnetmask', rfl⟩ := (netmask_eq hnetmaskG).mp hnetmask
    obtain ⟨hproductid', rfl⟩ := (strcpyIn_array hproductidG).mp hproductid
    obtain ⟨hfirmver', rfl⟩ := (strcpyIn_array hfirmverG).mp hfirmver
    dsimp only at hfill
    split at hfill
    · cases hfill
    · rename_i hpid
      obtain ⟨m₆, hstatus, rfl⟩ := Option.map_eq_some_iff.mp hfill
      obtain ⟨happs, rfl⟩ := getStorageStatus_eq.mp hstatus
      refine ⟨⟨Nat.le_of_lt_succ hhardware', Nat.le_of_lt_succ hssid', hnetmask', Nat.le_of_lt_succ hproductid',
        Nat.le_of_lt_succ hfirmver', fun pid hin => ?_, happs⟩, rfl⟩
      by_contra hlong
      exact hpid ⟨pid, hin, by omega⟩
  · rintro ⟨hfits, rfl⟩
    have hpid : ¬∃ pid ∈ pidOf w, 15 ≤ (procDir pid).length := by
      rintro ⟨pid, hin, hlong⟩
      have := hfits.pid pid hin
      omega
    refine Option.bind_eq_some_iff.mpr ⟨_, strcpyIn_withNul.mpr ⟨Nat.lt_succ_of_le hfits.hardware, rfl⟩, ?_⟩
    refine Option.bind_eq_some_iff.mpr ⟨_, (strcpyIn_array hssidG).mpr ⟨Nat.lt_succ_of_le hfits.ssid, rfl⟩, ?_⟩
    refine Option.bind_eq_some_iff.mpr ⟨_, (netmask_eq hnetmaskG).mpr ⟨hfits.netmask, rfl⟩, ?_⟩
    refine Option.bind_eq_some_iff.mpr
      ⟨_, (strcpyIn_array hproductidG).mpr ⟨Nat.lt_succ_of_le hfits.productid, rfl⟩, ?_⟩
    refine Option.bind_eq_some_iff.mpr ⟨_, (strcpyIn_array hfirmverG).mpr ⟨Nat.lt_succ_of_le hfits.firmver, rfl⟩, ?_⟩
    dsimp only
    rw [if_neg hpid]
    exact Option.map_eq_some_iff.mpr ⟨_, getStorageStatus_eq.mpr ⟨hfits.apps, rfl⟩, rfl⟩

end Getinfo

/-! ### The command -/

section Command

variable {h : Host W} {g : Globals} {m res pdubuf : Mem} {w : W} {r : Bool × Daemon W × List Event}

/-- The text is cut at 256. -/
theorem syscmdText_bytes : (syscmdText pdubuf).bytes = (receivedCmd pdubuf).take 256 := by
  have hcut : (syscmdText pdubuf).bytes = (load pdubuf 48 (min (le16 pdubuf 46).toNat 256)).takeWhile (· ≠ 0) :=
    scan_cut (by unfold INFO_PDU_LENGTH MAXSYSCMD; omega)
  have hload : load pdubuf 48 (min (le16 pdubuf 46).toNat 256) =
      (load pdubuf 48 (min (le16 pdubuf 46).toNat 420)).take 256 := by
    unfold load
    rw [← List.map_take, List.take_range]
    congr 2
    omega
  rw [hcut, hload]
  exact List.take_takeWhile.symm

theorem nul_notMem_received : (0 : UInt8) ∉ receivedCmd pdubuf := CStr.nul_notMem _

theorem nul_notMem_redirect : (0 : UInt8) ∉ redirect := by decide

/-- The line, with the text as it is left. -/
theorem cmdstr_bytes : (cmdstr pdubuf).bytes = (receivedCmd pdubuf).take 256 ++ redirect := by
  rw [cmdstr, syscmdText_bytes]
  apply cstr_bytes
  rw [List.mem_append, not_or]
  exact ⟨fun h0 => nul_notMem_received (List.mem_of_mem_take h0), nul_notMem_redirect⟩

/-- The line has room exactly where the command is short enough. -/
theorem cmdstr_fits : (cmdstr pdubuf).length + 1 ≤ MAXSYSCMD ↔ (receivedCmd pdubuf).length ≤ 237 := by
  have hlen : (cmdstr pdubuf).length = min 256 (receivedCmd pdubuf).length + 18 := by
    have hredirect : redirect.length = 18 := by decide
    rw [CStr.length, cmdstr_bytes, List.length_append, List.length_take, hredirect]
  rw [hlen, MAXSYSCMD]
  omega

/-- It is the whole command then. -/
theorem cmdstr_whole (hfit : (receivedCmd pdubuf).length ≤ 237) :
    cmdstr pdubuf = cstr (receivedCmd pdubuf ++ redirect) := by
  apply CStr.ext_bytes
  rw [cmdstr_bytes, List.take_of_length_le (by omega), cstr_bytes]
  rw [List.mem_append, not_or]
  exact ⟨nul_notMem_received, nul_notMem_redirect⟩

/-- The answer with the output of the command. -/
def withOutput (res : Mem) (out : Bytes) : Mem := put16 (write res 16 out) 14 (UInt16.ofNat out.length)

/-- The output is printed up to a NUL of its own, or to one behind it. -/
theorem nul_mem_load {out : Bytes} (hout : out.length ≤ 420) :
    0 ∈ load (withOutput res out) 16 (INFO_PDU_LENGTH - 16) ↔
      0 ∈ out ∨ ∃ i, 16 + out.length ≤ i ∧ i < INFO_PDU_LENGTH ∧ res i = 0 := by
  have hput : ∀ j, withOutput res out (16 + j) = write res 16 out (16 + j) :=
    fun j => write_of_ge (by rw [length_bytes16]; omega)
  have hmem : 0 ∈ load (withOutput res out) 16 (INFO_PDU_LENGTH - 16) ↔
      ∃ j, j < INFO_PDU_LENGTH - 16 ∧ write res 16 out (16 + j) = 0 := by
    simp only [load, List.mem_map, List.mem_range, hput]
  have hin := holds_iff.mp (holds_write_same res 16 out)
  rw [hmem]
  unfold INFO_PDU_LENGTH
  constructor
  · rintro ⟨j, hj, h0⟩
    rcases Nat.lt_or_ge j out.length with hlt | hge
    · rw [hin j hlt] at h0
      exact Or.inl (h0 ▸ List.getElem_mem hlt)
    · rw [write_of_ge (by omega)] at h0
      exact Or.inr ⟨16 + j, by omega, by omega, h0⟩
  · rintro (h0 | ⟨i, hi, hlt, h0⟩)
    · obtain ⟨j, hj, heq⟩ := List.getElem_of_mem h0
      exact ⟨j, by omega, (hin j hj).trans heq⟩
    · refine ⟨i - 16, by omega, ?_⟩
      rw [show 16 + (i - 16) = i by omega, write_of_ge (by omega)]
      exact h0

/-- What a command that is run gives. -/
def runOf (h : Host W) (g : Globals) (res pdubuf : Mem) (w : W) : Bool × Daemon W × List Event :=
  let w := h.system (cmdstr pdubuf) w
  let res := withOutput res (syscmdRes h w)
  (true, ⟨res, w⟩, .ran (cmdstr pdubuf) (syscmdRes h w) ::
    (sendInfo g.sysparam res ++ sendInfo g.sysparam res ++ sendInfo g.sysparam res))

theorem res_runOf : (runOf h g res pdubuf w).2.1.res = withOutput res (syscmdRes h (h.system (cmdstr pdubuf) w)) := rfl

theorem manuCmd_of_fits (hfit : (receivedCmd pdubuf).length ≤ 237) : manuCmd h g res pdubuf w =
    if 0 ∈ load (withOutput res (syscmdRes h (h.system (cmdstr pdubuf) w))) 16 (INFO_PDU_LENGTH - 16) then
      some (runOf h g res pdubuf w)
    else none := by
  have hroom := cmdstr_fits.mpr hfit
  have hrun : Infosvr.manuCmd h g.sysparam res pdubuf w = some (runOf h g res pdubuf w) := by
    rw [Infosvr.manuCmd, if_neg (by omega)]
    rfl
  rw [manuCmd, hrun, Option.bind_some]
  exact if_congr (by rw [res_runOf]) rfl rfl

theorem manuCmd_of_long (hlong : ¬(receivedCmd pdubuf).length ≤ 237) : manuCmd h g res pdubuf w = none := by
  have hroom := mt cmdstr_fits.mp hlong
  rw [manuCmd, Infosvr.manuCmd, if_pos (by omega)]
  rfl

theorem length_syscmdRes : (syscmdRes h w).length ≤ 420 := by
  rw [syscmdRes, List.length_take]
  exact min_le_left _ _

/-- **A command is run exactly where it is short enough, and its output ends.** -/
theorem manuCmd_isSome_iff : (∃ r, manuCmd h g res pdubuf w = some r) ↔ (receivedCmd pdubuf).length ≤ 237 ∧
    (0 ∈ syscmdRes h (h.system (cmdstr pdubuf) w) ∨
      ∃ i, 16 + (syscmdRes h (h.system (cmdstr pdubuf) w)).length ≤ i ∧ i < INFO_PDU_LENGTH ∧ res i = 0) := by
  by_cases hfit : (receivedCmd pdubuf).length ≤ 237
  · rw [manuCmd_of_fits hfit]
    constructor
    · rintro ⟨r, hr⟩
      split at hr
      · rename_i hout
        exact ⟨hfit, (nul_mem_load length_syscmdRes).mp hout⟩
      · cases hr
    · rintro ⟨-, hout⟩
      rw [if_pos ((nul_mem_load length_syscmdRes).mpr hout)]
      exact ⟨_, rfl⟩
  · rw [manuCmd_of_long hfit]
    constructor
    · rintro ⟨r, hr⟩
      cases hr
    · rintro ⟨hfit', -⟩
      exact absurd hfit' hfit

/-- The line that is run. -/
theorem ran_of_manuCmd (hr : manuCmd h g res pdubuf w = some r) {line : CStr} {out : Bytes}
    (hran : .ran line out ∈ r.2.2) : line = cmdstr pdubuf ∧ (receivedCmd pdubuf).length ≤ 237 := by
  obtain ⟨hfit, -⟩ := manuCmd_isSome_iff.mp ⟨r, hr⟩
  rw [manuCmd_of_fits hfit] at hr
  split at hr
  · obtain rfl := Option.some.inj hr
    refine ⟨?_, hfit⟩
    rcases List.mem_cons.mp hran with heq | hsent
    · exact (Event.ran.inj heq).1
    · simp only [sendInfo, List.mem_append, List.mem_replicate, reduceCtorEq, and_false, or_false] at hsent
  · cases hr

end Command

/-! ### The packet -/

section Packet

variable {h : Host W} {pidOf : W → Option ℤ} {start : Start} {w₀ : W} {g : Globals} {s : Daemon W} {pdubuf : Mem}

/-- The command does not see that its address has been overwritten. -/
theorem receivedCmd_write {l : Bytes} (hl : l.length = 6) : receivedCmd (write pdubuf 8 l) = receivedCmd pdubuf := by
  have hlen : le16 (write pdubuf 8 l) 46 = le16 pdubuf 46 := le16_congr fun i hi _ => write_of_ge (by omega)
  have hload : ∀ n, load (write pdubuf 8 l) 48 n = load pdubuf 48 n :=
    fun n => List.map_congr_left fun i _ => write_of_ge (by omega)
  rw [receivedCmd, hlen, hload]
  rfl

/-- The header of the answer is in front of the output. -/
theorem resHdrEx_of_ge {c : Sysparam} {res : Mem} {i : ℕ} (hi : 14 ≤ i) : resHdrEx c res pdubuf i = res i := by
  rw [resHdrEx, write_of_ge (by simp [macAddress]; omega), put32, write_of_ge (by simp; omega), resHdr, put16,
    write_of_ge (by simp; omega), write_of_ge (by simp; omega), write_of_ge (by simp; omega)]

/-- Where no copy leaves its source or its field, the daemon does what it does. -/
theorem processPacket_eq (hg : loadSysparam h start w₀ = some g) {r : Bool × Daemon W × List Event}
    (hr : processPacket h pidOf g s pdubuf = some r) : Infosvr.processPacket h g.sysparam s pdubuf = some r := by
  unfold processPacket at hr
  unfold Infosvr.processPacket
  by_cases hpdu : serviceID pdubuf = NET_SERVICE_ID_IBOX_INFO ∧ packetType pdubuf = NET_PACKET_TYPE_CMD
  · rw [if_pos hpdu] at hr ⊢
    split_ifs at hr ⊢
    · exact hr
    · obtain ⟨f, hf, rfl⟩ := Option.map_eq_some_iff.mp hr
      rw [((fillInfo_eq hg).mp hf).2]
    · obtain ⟨r', hr', hif⟩ := Option.bind_eq_some_iff.mp hr
      split at hif
      · cases hif
        exact hr'
      · cases hif
    · exact hr
  · rw [if_neg hpdu] at hr ⊢
    exact hr

/-- What a command that is run gives. -/
theorem command_isSome_iff (g : Globals) :
    (∃ r, manuCmd h g (resHdrEx g.sysparam s.res pdubuf) (write pdubuf 8 g.mac.toList) s.world = some r) ↔
      (receivedCmd pdubuf).length ≤ 237 ∧ (0 ∈ outputOf h s pdubuf ∨
        ∃ i, 16 + (outputOf h s pdubuf).length ≤ i ∧ i < INFO_PDU_LENGTH ∧ s.res i = 0) := by
  rw [manuCmd_isSome_iff, receivedCmd_write (by simp), cmdstr_write (by simp)]
  refine and_congr_right fun hfit => ?_
  rw [cmdstr_whole hfit, ← outputOf]
  refine or_congr_right (exists_congr fun i => and_congr_right fun hi => and_congr_right fun _ => ?_)
  rw [resHdrEx_of_ge (by omega)]

theorem manu_ne_getinfo : NET_CMD_ID_MANU_CMD ≠ NET_CMD_ID_GETINFO := by decide

theorem fits_of_safe (hsafe : Safe h pidOf start w₀ s pdubuf) : PacketFits h pidOf w₀ s pdubuf := by
  obtain ⟨g, hg, r, hr, -⟩ := hsafe
  have hmac : (nvramSafeGet h w₀ "et0macaddr").length ≤ 31 := by
    by_contra hlong
    rw [loadSysparam, if_pos (by omega)] at hg
    exact Option.some_ne_none g hg.symm
  have hruns : Runs s pdubuf → (receivedCmd pdubuf).length ≤ 237 ∧ (0 ∈ outputOf h s pdubuf ∨
      ∃ i, 16 + (outputOf h s pdubuf).length ≤ i ∧ i < INFO_PDU_LENGTH ∧ s.res i = 0) := by
    rintro ⟨⟨hservice, htype⟩, hop, hnew⟩
    rw [processPacket, if_pos ⟨hservice, htype⟩, if_neg fun hc => hnew hc.2, if_neg (hop ▸ manu_ne_getinfo),
      if_pos hop] at hr
    exact (command_isSome_iff g).mp ⟨r, hr⟩
  refine ⟨hmac, fun ⟨hservice, htype⟩ hop => ?_, fun h => (hruns h).1, fun h => (hruns h).2⟩
  rw [processPacket, if_pos ⟨hservice, htype⟩, if_neg fun hc => hc.1 hop, if_pos hop] at hr
  obtain ⟨f, hf, -⟩ := Option.map_eq_some_iff.mp hr
  exact ((fillInfo_eq hg).mp hf).1

theorem safe_of_fits (hfits : PacketFits h pidOf w₀ s pdubuf) : Safe h pidOf start w₀ s pdubuf := by
  obtain ⟨g, hg⟩ : ∃ g, loadSysparam h start w₀ = some g := by
    have := hfits.mac
    rw [loadSysparam, if_neg (by omega)]
    exact ⟨_, rfl⟩
  refine ⟨g, hg, ?_⟩
  unfold processPacket
  by_cases hpdu : serviceID pdubuf = NET_SERVICE_ID_IBOX_INFO ∧ packetType pdubuf = NET_PACKET_TYPE_CMD
  · rw [if_pos hpdu]
    split_ifs with hlast hget hmanu
    · exact ⟨_, rfl, fun line out hran => absurd hran List.not_mem_nil⟩
    · refine ⟨_, Option.map_eq_some_iff.mpr ⟨_, (fillInfo_eq hg).mpr ⟨hfits.getinfo hpdu hget, rfl⟩, rfl⟩, ?_⟩
      intro line out hran
      simp only [sendInfo, List.mem_replicate, reduceCtorEq, and_false] at hran
    · have hruns : Runs s pdubuf := ⟨hpdu, hmanu, fun hl => hlast ⟨hget, hl⟩⟩
      obtain ⟨r, hr⟩ := (command_isSome_iff g).mpr ⟨hfits.command hruns, hfits.output hruns⟩
      refine ⟨r, hr, fun line out hran => ?_⟩
      have hfit := hfits.command hruns
      rw [(ran_of_manuCmd hr hran).1, cmdstr_write (by simp), cmdstr_bytes, List.take_of_length_le (by omega)]
    · exact ⟨_, rfl, fun line out hran => absurd hran List.not_mem_nil⟩
  · rw [if_neg hpdu]
    exact ⟨_, rfl, fun line out hran => absurd hran List.not_mem_nil⟩

/-- **Where a packet is handled inside of the arrays and the fields.** -/
theorem packet_safe_iff (h : Host W) (pidOf : W → Option ℤ) (start : Start) (w₀ : W) (s : Daemon W) (pdubuf : Mem) :
    Safe h pidOf start w₀ s pdubuf ↔ PacketFits h pidOf w₀ s pdubuf :=
  ⟨fits_of_safe, safe_of_fits⟩

end Packet

/-! ### Runs -/

section Reach

variable {h : Host W} {pidOf : W → Option ℤ} {start : Start} {w₀ : W} {g : Globals}

/-- The daemon after any packets that were handled inside of the arrays, while others change the NVRAM. -/
inductive Reach (h : Host W) (pidOf : W → Option ℤ) (g : Globals) : Daemon W → Prop
  | boot (w : W) : Reach h pidOf g (boot w)
  | world {s : Daemon W} (w : W) (hs : Reach h pidOf g s) : Reach h pidOf g { s with world := w }
  | packet {s : Daemon W} {pdubuf : Mem} {r : Bool × Daemon W × List Event} (hs : Reach h pidOf g s)
      (hr : processPacket h pidOf g s pdubuf = some r) : Reach h pidOf g r.2.1

/-- The answer to GETINFO ends in front of what a long output leaves. -/
theorem fillInfo_of_ge (hg : loadSysparam h start w₀ = some g) {m : Mem} {w : W} {r : Mem × W}
    (hr : fillInfo h pidOf g m w = some r) {i : ℕ} (hi : 436 ≤ i) : r.1 i = m i := by
  obtain ⟨hfits, rfl⟩ := (fillInfo_eq hg).mp hr
  have harray : ∀ {n : ℕ} (a : Vector UInt8 n), (cstr a.toList).length ≤ n := by
    intro n a
    have hle := (List.takeWhile_sublist (l := a.toList) (· ≠ 0)).length_le
    rwa [Vector.length_toList] at hle
  have hssid : g.sysparam.ssid.length ≤ 32 := harray g.ssidG
  have hproductid : g.sysparam.productid.length ≤ 32 := harray g.productidG
  have hfirmver : g.sysparam.firmver.length ≤ 16 := harray g.firmverG
  have hhardware := hfits.hardware
  have hstatus : ∀ m : Mem, Infosvr.getStorageStatus h w m 272 i = m i := by
    intro m
    unfold Infosvr.getStorageStatus
    dsimp only
    rw [byte_of_ge (by omega), byte_of_ge (by omega), byte_of_ge (by omega), byte_of_ge (by omega),
      put32_of_ge (by omega)]
    split
    · rename_i happs
      obtain ⟨hpool, hshare⟩ := hfits.apps happs
      rw [strcpy_of_ge (by omega), strcpy_of_ge (by omega), put32_of_ge (by omega), put32_of_ge (by omega)]
    · rw [byte_of_ge (by omega), byte_of_ge (by omega), put32_of_ge (by omega), put32_of_ge (by omega)]
  have hmask : ∀ m : Mem, (if nvramMatch h w "wan_nat_X" "0" && nvramMatch h w "lan_proto_X" "1" &&
      nvramInvmatch h w "lan_netmask_t" "" then strcpy m 168 (nvramSafeGet h w "lan_netmask_t")
      else strcpy m 168 g.sysparam.netmask) i = m i := by
    intro m
    have hnetmask := hfits.netmask
    have hread : g.sysparam.netmask.length ≤ 32 := harray g.netmaskG
    unfold leased at hnetmask
    split
    · rename_i hyes
      rw [if_pos hyes] at hnetmask
      exact strcpy_of_ge (by omega)
    · exact strcpy_of_ge (by omega)
  unfold Infosvr.fillInfo
  dsimp only
  rw [hstatus, write_of_ge (by rw [Vector.length_toList]; omega), byte_of_ge (by omega),
    write_of_ge (by rw [Vector.length_toList]; omega), strcpy_of_ge (by omega), strcpy_of_ge (by omega), hmask,
    strcpy_of_ge (by omega), strcpy_of_ge (by omega), write_of_ge (by rw [List.length_replicate]; omega),
    write_of_ge (by rw [List.length_replicate]; omega)]

/-- What is behind the longest output stays as it is. -/
theorem tail_packet (hg : loadSysparam h start w₀ = some g) {s : Daemon W} {pdubuf : Mem}
    {r : Bool × Daemon W × List Event} (hr : processPacket h pidOf g s pdubuf = some r) {i : ℕ} (hi : 436 ≤ i) :
    r.2.1.res i = s.res i := by
  have hhdr : resHdr s.res pdubuf i = s.res i := by
    rw [resHdr, put16, write_of_ge (by rw [length_bytes16]; omega),
      write_of_ge (by rw [List.length_singleton]; omega), write_of_ge (by rw [List.length_singleton]; omega)]
  unfold processPacket at hr
  split_ifs at hr
  · cases hr
    rfl
  · obtain ⟨f, hf, rfl⟩ := Option.map_eq_some_iff.mp hr
    exact (fillInfo_of_ge hg hf hi).trans hhdr
  · obtain ⟨hfit, -⟩ := manuCmd_isSome_iff.mp ⟨r, hr⟩
    rw [manuCmd_of_fits hfit] at hr
    split at hr
    · obtain rfl := Option.some.inj hr
      have hout : (syscmdRes h (h.system (cmdstr (write pdubuf 8 g.mac.toList)) s.world)).length ≤ 420 :=
        length_syscmdRes
      rw [res_runOf, withOutput, put16, write_of_ge (by rw [length_bytes16]; omega), write_of_ge (by omega),
        resHdrEx_of_ge (by omega)]
    · cases hr
  · cases hr
    exact resHdrEx_of_ge (by omega)
  · cases hr
    rfl

theorem tail_reach (hg : loadSysparam h start w₀ = some g) {s : Daemon W} (hs : Reach h pidOf g s) :
    ∀ i, 436 ≤ i → s.res i = 0 := by
  induction hs with
  | boot w => exact fun i _ => rfl
  | world w _ ih => exact ih
  | packet _ hr ih => exact fun i hi => (tail_packet hg hr hi).trans (ih i hi)

/-- **In a run the output of a command always ends.** -/
theorem safe_of_reach (hg : loadSysparam h start w₀ = some g) {s : Daemon W} (hs : Reach h pidOf g s) (pdubuf : Mem) :
    Safe h pidOf start w₀ s pdubuf ↔
      (IsPdu pdubuf → opCode pdubuf = NET_CMD_ID_GETINFO → InfoFits h pidOf w₀ s.world) ∧
        (Runs s pdubuf → (receivedCmd pdubuf).length ≤ 237) := by
  constructor
  · intro hsafe
    have hfits := fits_of_safe hsafe
    exact ⟨hfits.getinfo, hfits.command⟩
  · rintro ⟨hgetinfo, hcommand⟩
    refine safe_of_fits ⟨?_, hgetinfo, hcommand, fun _ => Or.inr ⟨436, ?_, by decide, tail_reach hg hs 436 le_rfl⟩⟩
    · by_contra hlong
      rw [loadSysparam, if_pos (by omega)] at hg
      exact Option.some_ne_none g hg.symm
    · have hout : (outputOf h s pdubuf).length ≤ 420 := length_syscmdRes
      omega

end Reach

/-! ### A command that is too long -/

/-- A command of 238 letters, as the first packet. -/
def longCmd : Mem := fun i =>
  if i < 48 then [12, 21, 51, 0, 1, 0, 0, 0].getD i (if i = 46 then 238 else 0) else if i < 286 then 97 else 0

theorem long_cmd_not_safe : ¬Safe quiet (fun _ => none) ⟨factory.mac, 1, one_pos⟩ () (boot ()) longCmd := by
  intro hsafe
  have hruns : Runs (boot ()) longCmd := ⟨⟨by decide, by decide⟩, by decide, by decide⟩
  have hlen : le16 longCmd 46 = 238 := by decide
  have hload : load longCmd 48 238 = List.replicate 238 97 := by
    refine List.eq_replicate_iff.mpr ⟨length_load _ _ _, fun b hb => ?_⟩
    obtain ⟨i, hi, rfl⟩ := List.mem_map.mp hb
    have hlt := List.mem_range.mp hi
    rw [longCmd, if_neg (by omega), if_pos (by omega)]
  have hlong : (receivedCmd longCmd).length = 238 := by
    have hnul : (0 : UInt8) ∉ List.replicate 238 97 := fun h0 => absurd (List.eq_of_mem_replicate h0) (by decide)
    rw [receivedCmd, hlen]
    show (cstr (load longCmd 48 238)).bytes.length = 238
    rw [hload, cstr_bytes hnul, List.length_replicate]
  have hfit := (fits_of_safe hsafe).command hruns
  omega

end Bounds
end Infosvr
end Router
