/-
# The discovery daemon

`infosvr` answers the discovery packets of its network: GETINFO asks what the device is, and every other command
carries a transaction id (`Info`) and the address of the device it is meant for. One buffer, `pdubuf_res`, is the
answer being built and the only memory of the transaction before. The daemon is built without `PRNINFO`, `WCLIENT` and
`BTN_SETUP`, so of the commands with a transaction id it knows one, `NET_CMD_ID_MANU_CMD`, which runs a line of shell.

The datagrams of a run are those `RECV` hands to `processReq`; those that `closesocket` clears between two of them are
never looked at. What the shell, the NVRAM and the files say is a parameter, `Host`. A step is `none` when `sprintf`
leaves `cmdstr`. The strings of the answer to GETINFO are written where `strcpy` writes them; what of a string lies
past the buffer is not sent.
-/
import RouterFirmware.Lib.Run
import RouterFirmware.Lib.Text

namespace Router
namespace Infosvr

open CMem CText

def INFO_PDU_LENGTH : ℕ := 512
def NET_SERVICE_ID_IBOX_INFO : UInt8 := 12
def NET_PACKET_TYPE_CMD : UInt8 := 21
def NET_PACKET_TYPE_RES : UInt8 := 22
def NET_CMD_ID_GETINFO : UInt16 := 31
def NET_CMD_ID_MANU_CMD : UInt16 := 51
def MAXSYSCMD : ℕ := 256

/-! ### Headers -/

section Header

variable (m : Mem)

def serviceID : UInt8 := m 0
def packetType : UInt8 := m 1
def opCode : UInt16 := le16 m 2
def info : UInt32 := le32 m 4

/-- The address of an extended header, of a command or of a response. -/
def macAddress : Bytes := load m 8 6

end Header

/-! ### The daemon and its surroundings -/

/-- What the system around the daemon does, over the states `W` of that system. -/
structure Host (W : Type*) where
  nvramGet : W → Bytes → Option CStr
  /-- What reading `/tmp/waveserver.info` gives, if it is complete and its process lives. -/
  readWsInfo : W → Option (Vector UInt8 16) × W
  system : CStr → W → W
  /-- What stands in `/tmp/syscmd.out`, if it can be opened. -/
  syscmdOut : W → Option Bytes

/-- What `load_sysparam` and the arguments of the program say. -/
structure Sysparam where
  ssid : CStr
  netmask : CStr
  productid : CStr
  firmver : CStr
  mac : Vector UInt8 6
  intfCount : ℕ
  intfCount_pos : 0 < intfCount

/-- The daemon between two packets: `pdubuf_res`, and the system around it. -/
structure Daemon (W : Type*) where
  res : Mem
  world : W

/-- What can be seen from outside: a line handed to the shell with what is read back of its output, and a packet. -/
inductive Event
  | ran (line : CStr) (out : Bytes)
  | sent (pdu : Bytes)
deriving DecidableEq

/-- The daemon as it starts. -/
def boot {W : Type*} (w : W) : Daemon W := ⟨fun _ => 0, w⟩

variable {W : Type*} (h : Host W) (c : Sysparam)

/-- The packet, once on every interface. -/
def sendInfo (pdubuf : Mem) : List Event := List.replicate c.intfCount (.sent (load pdubuf 0 INFO_PDU_LENGTH))

/-! ### GETINFO -/

def nvramSafeGet (w : W) (name : String) : CStr := (h.nvramGet w (bytes name)).getD (cstr [])

def nvramMatch (w : W) (name match_ : String) : Bool :=
  (h.nvramGet w (bytes name)).any fun v => v.bytes == bytes match_

def nvramInvmatch (w : W) (name invmatch : String) : Bool :=
  (h.nvramGet w (bytes name)).any fun v => v.bytes != bytes invmatch

/-- The regulation domains, each under its number and its name. -/
def regDomains : List (UInt8 × String) :=
  [(0x47, "47TW"), (0x11, "11HK"), (0x45, "45KR"), (0x44, "44CN"), (0x10, "10US"), (0x30, "30DE"), (0x40, "40JP"),
    (0x21, "21AU"), (0x32, "32FR")]

def regulation (w : W) : UInt8 :=
  ((regDomains.find? fun r => nvramMatch h w "regulation_domain" ("0x" ++ r.2) ||
    nvramMatch h w "regulation_domain" ("0X" ++ r.2)).map Prod.fst).getD 0xff

/-- `getStorageStatus`, for the structure at `st`. -/
def getStorageStatus (w : W) (m : Mem) (st : ℕ) : Mem :=
  let m := put32 m st 0
  let m :=
    if nvramInvmatch h w "apps_pool" "" && nvramInvmatch h w "apps_share" "" then
      let m := put32 m st (UInt32.ofInt (atoi (nvramSafeGet h w "apps_caps").bytes))
      let m := strcpy m (st + 8) (nvramSafeGet h w "apps_pool")
      strcpy m (st + 40) (nvramSafeGet h w "apps_share")
    else
      write (write (put32 m st 0) (st + 8) [0]) (st + 40) [0]
  let m := put32 m (st + 105) 0
  write (write (write (write m (st + 72) [0]) (st + 73) [0]) (st + 109) [0]) (st + 141) [0]

/-- The body of the answer to GETINFO, from offset 8 on. -/
def fillInfo (m : Mem) (w : W) : Mem × W :=
  -- `sizeof(ginfo)` is the size of the pointer
  let m := write m 8 (List.replicate 4 0)
  let m := write m 8 (List.replicate 128 0)
  let m := strcpy m 9 (nvramSafeGet h w "hardware_version")
  let m := strcpy m 136 c.ssid
  let m :=
    if nvramMatch h w "wan_nat_X" "0" && nvramMatch h w "lan_proto_X" "1" && nvramInvmatch h w "lan_netmask_t" "" then
      strcpy m 168 (nvramSafeGet h w "lan_netmask_t")
    else strcpy m 168 c.netmask
  let m := strcpy m 200 c.productid
  let m := strcpy m 232 c.firmver
  let m := write m 249 c.mac.toList
  let m := write m 255 [regulation h w]
  let wsinfo := h.readWsInfo w
  let m := write m 256 (wsinfo.1.getD (Vector.replicate 16 0)).toList
  (getStorageStatus h w m 272, wsinfo.2)

/-! ### The command -/

/-- The text of a `PKT_SYSCMD`, cut where its length says. -/
def syscmdText (pdubuf : Mem) : CStr :=
  let len := min (le16 pdubuf 46).toNat MAXSYSCMD
  readStr (write pdubuf (48 + len) [0]) 48 (INFO_PDU_LENGTH - 48)

/-- The line that is handed to the shell. -/
def cmdstr (pdubuf : Mem) : CStr := cstr ((syscmdText pdubuf).bytes ++ bytes " > /tmp/syscmd.out")

/-- What is read back of the output of a command. -/
def syscmdRes (w : W) : Bytes := ((h.syscmdOut w).getD []).take 420

/-- `NET_CMD_ID_MANU_CMD`, once the header of the answer stands in `res`. -/
def manuCmd (res pdubuf : Mem) (w : W) : Option (Bool × Daemon W × List Event) :=
  if MAXSYSCMD < (cmdstr pdubuf).length + 1 then none
  else
    let w := h.system (cmdstr pdubuf) w
    let out := syscmdRes h w
    let res := put16 (write res 16 out) 14 (UInt16.ofNat out.length)
    some (true, ⟨res, w⟩, .ran (cmdstr pdubuf) out :: (sendInfo c res ++ sendInfo c res ++ sendInfo c res))

/-! ### A packet -/

/-- The first four bytes of the answer to a packet. -/
def resHdr (res pdubuf : Mem) : Mem :=
  put16 (write (write res 0 [NET_SERVICE_ID_IBOX_INFO]) 1 [NET_PACKET_TYPE_RES]) 2 (opCode pdubuf)

/-- The rest of the header of the answer to a packet with an extended header. The address that is answered is the
device's own, which `memcpy` has just put over the one in the packet. -/
def resHdrEx (res pdubuf : Mem) : Mem :=
  let res := resHdr res pdubuf
  let pdubuf := write pdubuf 8 c.mac.toList
  write (put32 res 4 (info pdubuf)) 8 (macAddress pdubuf)

/-- `processPacket`; the result says whether it returns the response. -/
def processPacket (s : Daemon W) (pdubuf : Mem) : Option (Bool × Daemon W × List Event) :=
  if serviceID pdubuf = NET_SERVICE_ID_IBOX_INFO ∧ packetType pdubuf = NET_PACKET_TYPE_CMD then
    if opCode pdubuf ≠ NET_CMD_ID_GETINFO ∧ opCode s.res = opCode pdubuf ∧ info s.res = info pdubuf then
      some (true, s, [])
    else if opCode pdubuf = NET_CMD_ID_GETINFO then
      let r := fillInfo h c (resHdr s.res pdubuf) s.world
      some (true, ⟨r.1, r.2⟩, sendInfo c r.1)
    else
      -- what `memcpy` returns is the packet's address, never 0: no packet is refused for its `MacAddress`
      let res := resHdrEx c s.res pdubuf
      if opCode pdubuf = NET_CMD_ID_MANU_CMD then manuCmd h c res (write pdubuf 8 c.mac.toList) s.world
      else some (false, { s with res := res }, [])
  else some (false, s, [])

/-- `pdubuf` once a datagram has been received. -/
def received (d : Bytes) : Mem := write (fun _ => 0) 0 (d.take INFO_PDU_LENGTH)

/-- `processReq`, for a datagram that is waiting. What `processPacket` returns is not looked at. -/
def processReq (s : Daemon W) (d : Bytes) : Option (Daemon W × List Event) :=
  let iRcv := min d.length INFO_PDU_LENGTH
  if iRcv ≠ INFO_PDU_LENGTH then some (s, []) else (processPacket h c s (received d)).map Prod.snd

/-- The datagrams, one after the other, with what is seen of each. -/
def serve (s : Daemon W) (ds : List Bytes) : Option (Daemon W × List (List Event)) :=
  Run.execOut (processReq h c) ds s

/-! ### What a datagram does -/

section Datagram

variable (s : Daemon W) (d : Bytes)

/-- A discovery packet. -/
def IsPacket : Prop :=
  INFO_PDU_LENGTH ≤ d.length ∧ serviceID (received d) = NET_SERVICE_ID_IBOX_INFO ∧
    packetType (received d) = NET_PACKET_TYPE_CMD

/-- A packet with a transaction id. -/
def IsCommand : Prop := IsPacket d ∧ opCode (received d) ≠ NET_CMD_ID_GETINFO

/-- The transaction `pdubuf_res` stands for. -/
def IsLast : Prop := opCode s.res = opCode (received d) ∧ info s.res = info (received d)

/-- The line of a command, with its terminator, fits in `cmdstr`. -/
def Fits : Prop := (cmdstr (received d)).length + 1 ≤ MAXSYSCMD

instance : Decidable (IsPacket d) := by unfold IsPacket; infer_instance
instance : Decidable (IsCommand d) := by unfold IsCommand; infer_instance
instance : Decidable (IsLast s d) := by unfold IsLast; infer_instance
instance : Decidable (Fits d) := by unfold Fits; infer_instance

/-- The system once the line of a command has run. -/
def worldAfter : W := h.system (cmdstr (received d)) s.world

/-- What a command gives. -/
def resultOf : Bytes := syscmdRes h (worldAfter h s d)

/-- The response to a command that has run. -/
def responseTo : Mem :=
  put16 (write (resHdrEx c s.res (received d)) 16 (resultOf h s d)) 14 (UInt16.ofNat (resultOf h s d).length)

/-- The six things a datagram can do. -/
inductive Effect : Option (Daemon W × List Event) → Prop
  | ignored : ¬IsPacket d → Effect (some (s, []))
  | getinfo : IsPacket d → opCode (received d) = NET_CMD_ID_GETINFO →
      Effect (some (⟨(fillInfo h c (resHdr s.res (received d)) s.world).1,
        (fillInfo h c (resHdr s.res (received d)) s.world).2⟩,
        sendInfo c (fillInfo h c (resHdr s.res (received d)) s.world).1))
  | duplicate : IsCommand d → IsLast s d → Effect (some (s, []))
  | unknown : IsCommand d → ¬IsLast s d → opCode (received d) ≠ NET_CMD_ID_MANU_CMD →
      Effect (some ({ s with res := resHdrEx c s.res (received d) }, []))
  | overflow : IsCommand d → ¬IsLast s d → opCode (received d) = NET_CMD_ID_MANU_CMD → ¬Fits d → Effect none
  | executed : IsCommand d → ¬IsLast s d → opCode (received d) = NET_CMD_ID_MANU_CMD → Fits d →
      Effect (some (⟨responseTo h c s d, worldAfter h s d⟩, .ran (cmdstr (received d)) (resultOf h s d) ::
        (sendInfo c (responseTo h c s d) ++ sendInfo c (responseTo h c s d) ++ sendInfo c (responseTo h c s d))))

end Datagram

section Lemmas

variable {h : Host W} {c : Sysparam} {s : Daemon W} {d : Bytes} {m res pdubuf : Mem} {w : W}

@[simp] theorem opCode_resHdr : opCode (resHdr res pdubuf) = opCode pdubuf := le16_put16 _ _ _

theorem opCode_resHdrEx : opCode (resHdrEx c res pdubuf) = opCode pdubuf := by
  calc opCode (resHdrEx c res pdubuf) = opCode (resHdr res pdubuf) := le16_congr fun i _ hi => by
        rw [resHdrEx, write_of_lt (by omega), put32, write_of_lt (by omega)]
    _ = opCode pdubuf := opCode_resHdr

theorem info_resHdrEx : info (resHdrEx c res pdubuf) = info pdubuf := by
  rw [info, resHdrEx, le32_write_of_disjoint (by omega), le32_put32]
  exact le32_write_of_disjoint (by omega)

/-- The command does not see that its address has been overwritten. -/
theorem cmdstr_write {l : Bytes} (hl : l.length = 6) : cmdstr (write pdubuf 8 l) = cmdstr pdubuf := by
  have hlen : le16 (write pdubuf 8 l) 46 = le16 pdubuf 46 := le16_congr fun i hi _ => write_of_ge (by omega)
  have hscan : ∀ n p k, 48 ≤ p →
      scan (write (write pdubuf 8 l) (48 + k) [0]) p n = scan (write pdubuf (48 + k) [0]) p n := by
    intro n
    induction n with
    | zero => simp [scan]
    | succ n ih =>
      intro p k hp
      have h1 : write (write pdubuf 8 l) (48 + k) [0] p = write pdubuf (48 + k) [0] p :=
        write_congr (s := { j | 48 ≤ j }) (fun j hj => write_of_ge (by simp at hj; omega)) p (.inl hp)
      simp only [scan, h1, ih (p + 1) k (by omega)]
  simp only [cmdstr, syscmdText, hlen, readStr, hscan _ 48 _ le_rfl]

/-- The answer to GETINFO leaves the header as it is. -/
theorem fillInfo_of_lt {i : ℕ} (hi : i < 8) : (fillInfo h c m w).1 i = m i := by
  have hst : ∀ m : Mem, getStorageStatus h w m 272 i = m i := by
    intro m
    unfold getStorageStatus
    dsimp only
    split_ifs <;> simp [strcpy, put32, write_of_lt, show i < 272 by omega, show i < 280 by omega,
      show i < 312 by omega, show i < 344 by omega, show i < 345 by omega, show i < 377 by omega,
      show i < 381 by omega, show i < 413 by omega]
  unfold fillInfo
  dsimp only
  rw [hst]
  split_ifs <;> simp [strcpy, write_of_lt, hi, show i < 9 by omega, show i < 136 by omega, show i < 168 by omega,
    show i < 200 by omega, show i < 232 by omega, show i < 249 by omega, show i < 255 by omega,
    show i < 256 by omega]

theorem opCode_fillInfo : opCode (fillInfo h c m w).1 = opCode m :=
  le16_congr fun i _ hi => fillInfo_of_lt (by omega)

theorem info_fillInfo : info (fillInfo h c m w).1 = info m :=
  le32_congr fun i _ hi => fillInfo_of_lt (by omega)

theorem info_resHdr : info (resHdr res pdubuf) = info res := by
  refine le32_congr fun i hi _ => ?_
  rw [resHdr, put16, write_of_ge (by simp; omega), write_of_ge (by simp; omega), write_of_ge (by simp; omega)]

/-- The response keeps the header. -/
theorem responseTo_of_lt {i : ℕ} (hi : i < 14) : responseTo h c s d i = resHdrEx c s.res (received d) i := by
  rw [responseTo, put16, write_of_lt (by omega), write_of_lt (by omega)]

theorem opCode_responseTo : opCode (responseTo h c s d) = opCode (received d) :=
  calc opCode (responseTo h c s d) = opCode (resHdrEx c s.res (received d)) :=
        le16_congr fun i _ hi => responseTo_of_lt (by omega)
    _ = opCode (received d) := opCode_resHdrEx

theorem info_responseTo : info (responseTo h c s d) = info (received d) :=
  calc info (responseTo h c s d) = info (resHdrEx c s.res (received d)) :=
        le32_congr fun i _ hi => responseTo_of_lt (by omega)
    _ = info (received d) := info_resHdrEx

/-- What a datagram does, in all. -/
theorem processReq_effect : Effect h c s d (processReq h c s d) := by
  unfold processReq
  dsimp only
  by_cases hlen : min d.length INFO_PDU_LENGTH ≠ INFO_PDU_LENGTH
  · rw [if_pos hlen]
    exact .ignored fun hp => hlen (min_eq_right hp.1)
  rw [if_neg hlen]
  have hd : INFO_PDU_LENGTH ≤ d.length := by omega
  unfold processPacket
  by_cases hp : serviceID (received d) = NET_SERVICE_ID_IBOX_INFO ∧ packetType (received d) = NET_PACKET_TYPE_CMD
  swap
  · rw [if_neg hp]
    exact .ignored fun hp' => hp hp'.2
  rw [if_pos hp]
  by_cases hg : opCode (received d) = NET_CMD_ID_GETINFO
  · rw [if_neg fun hc => hc.1 hg, if_pos hg]
    exact .getinfo ⟨hd, hp⟩ hg
  by_cases hl : IsLast s d
  · rw [if_pos ⟨hg, hl⟩]
    exact .duplicate ⟨⟨hd, hp⟩, hg⟩ hl
  rw [if_neg fun hc => hl hc.2, if_neg hg]
  dsimp only
  by_cases hm : opCode (received d) = NET_CMD_ID_MANU_CMD
  swap
  · rw [if_neg hm]
    exact .unknown ⟨⟨hd, hp⟩, hg⟩ hl hm
  rw [if_pos hm, manuCmd, cmdstr_write (by simp)]
  by_cases hf : Fits d
  · rw [if_neg (by unfold Fits at hf; omega)]
    exact .executed ⟨⟨hd, hp⟩, hg⟩ hl hm hf
  · rw [if_pos (by unfold Fits at hf; omega)]
    exact .overflow ⟨⟨hd, hp⟩, hg⟩ hl hm hf

/-! The step, by what the datagram is. -/

theorem processReq_ignored (hn : ¬IsPacket d) : processReq h c s d = some (s, []) := by
  have he := processReq_effect (h := h) (c := c) (s := s) (d := d)
  generalize processReq h c s d = r at he ⊢
  cases he with
  | ignored => rfl
  | getinfo hp => exact absurd hp hn
  | duplicate hc => exact absurd hc.1 hn
  | unknown hc => exact absurd hc.1 hn
  | overflow hc => exact absurd hc.1 hn
  | executed hc => exact absurd hc.1 hn

theorem processReq_getinfo (hp : IsPacket d) (hg : opCode (received d) = NET_CMD_ID_GETINFO) :
    processReq h c s d = some (⟨(fillInfo h c (resHdr s.res (received d)) s.world).1,
      (fillInfo h c (resHdr s.res (received d)) s.world).2⟩,
      sendInfo c (fillInfo h c (resHdr s.res (received d)) s.world).1) := by
  have he := processReq_effect (h := h) (c := c) (s := s) (d := d)
  generalize processReq h c s d = r at he ⊢
  cases he with
  | ignored hn => exact absurd hp hn
  | getinfo => rfl
  | duplicate hc => exact absurd hg hc.2
  | unknown hc => exact absurd hg hc.2
  | overflow hc => exact absurd hg hc.2
  | executed hc => exact absurd hg hc.2

theorem processReq_duplicate (hc : IsCommand d) (hl : IsLast s d) : processReq h c s d = some (s, []) := by
  have he := processReq_effect (h := h) (c := c) (s := s) (d := d)
  generalize processReq h c s d = r at he ⊢
  cases he with
  | ignored hn => exact absurd hc.1 hn
  | getinfo _ hg => exact absurd hg hc.2
  | duplicate => rfl
  | unknown _ hn => exact absurd hl hn
  | overflow _ hn => exact absurd hl hn
  | executed _ hn => exact absurd hl hn

/-- A command that is not known is not answered, and the buffer stands for it from then on. -/
theorem processReq_unknown (hc : IsCommand d) (hm : opCode (received d) ≠ NET_CMD_ID_MANU_CMD) :
    ∃ s', processReq h c s d = some (s', []) ∧ s'.world = s.world ∧ info s'.res = info (received d) ∧
      opCode s'.res = opCode (received d) ∧ ∀ i, 14 ≤ i → s'.res i = s.res i := by
  have he := processReq_effect (h := h) (c := c) (s := s) (d := d)
  generalize processReq h c s d = r at he ⊢
  cases he with
  | ignored hn => exact absurd hc.1 hn
  | getinfo _ hg => exact absurd hg hc.2
  | duplicate _ hl => exact ⟨s, rfl, rfl, hl.2, hl.1, fun _ _ => rfl⟩
  | unknown =>
    refine ⟨_, rfl, rfl, info_resHdrEx, opCode_resHdrEx, fun i hi => ?_⟩
    dsimp only
    rw [resHdrEx, write_of_ge (by simp [macAddress]; omega), put32, write_of_ge (by simp; omega), resHdr, put16,
      write_of_ge (by simp; omega), write_of_ge (by simp; omega), write_of_ge (by simp; omega)]
  | overflow _ _ hm' => exact absurd hm' hm
  | executed _ _ hm' => exact absurd hm' hm

theorem processReq_manu (hc : IsCommand d) (hl : ¬IsLast s d) (hm : opCode (received d) = NET_CMD_ID_MANU_CMD) :
    processReq h c s d = if Fits d then
      some (⟨responseTo h c s d, worldAfter h s d⟩, .ran (cmdstr (received d)) (resultOf h s d) ::
        (sendInfo c (responseTo h c s d) ++ sendInfo c (responseTo h c s d) ++ sendInfo c (responseTo h c s d)))
    else none := by
  have he := processReq_effect (h := h) (c := c) (s := s) (d := d)
  generalize processReq h c s d = r at he ⊢
  cases he with
  | ignored hn => exact absurd hc.1 hn
  | getinfo _ hg => exact absurd hg hc.2
  | duplicate _ hl' => exact absurd hl' hl
  | unknown _ _ hm' => exact absurd hm hm'
  | overflow _ _ _ hf => rw [if_neg hf]
  | executed _ _ _ hf => rw [if_pos hf]

end Lemmas

/-! ### Packets as clients make them -/

/-- `PackCmdHdr`, with the address and what follows it in `rest`. -/
def packHdr (cmd : UInt16) (tid : UInt32) (rest : Vector UInt8 504) : Bytes :=
  [NET_SERVICE_ID_IBOX_INFO, NET_PACKET_TYPE_CMD] ++ (bytes16 cmd ++ (bytes32 tid ++ rest.toList))

section Pack

variable (cmd : UInt16) (tid : UInt32) (rest : Vector UInt8 504)

@[simp] theorem length_packHdr : (packHdr cmd tid rest).length = INFO_PDU_LENGTH := by
  simp [packHdr, INFO_PDU_LENGTH]

theorem holds_packHdr : Holds (received (packHdr cmd tid rest)) 0 (packHdr cmd tid rest) := by
  rw [received, List.take_of_length_le (length_packHdr _ _ _).le]
  exact holds_write_same _ _ _

theorem isPacket_packHdr : IsPacket (packHdr cmd tid rest) := by
  obtain ⟨h0, h1, -⟩ := (holds_packHdr cmd tid rest)
  exact ⟨(length_packHdr _ _ _).ge, h0, h1⟩

theorem opCode_packHdr : opCode (received (packHdr cmd tid rest)) = cmd :=
  le16_of_holds (holds_append.mp (holds_append.mp (holds_packHdr cmd tid rest)).2).1

theorem info_packHdr : info (received (packHdr cmd tid rest)) = tid :=
  le32_of_holds (holds_append.mp (holds_append.mp (holds_append.mp (holds_packHdr cmd tid rest)).2).2).1

theorem rest_packHdr {i : ℕ} (hi : i < 504) : received (packHdr cmd tid rest) (8 + i) = rest[i] := by
  have h := (holds_append.mp (holds_append.mp (holds_append.mp (holds_packHdr cmd tid rest)).2).2).2
  exact holds_iff.mp h i (by simpa using hi)

end Pack

/-! ### A device -/

/-- A system without variables or files, whose shell does nothing. -/
def quiet : Host Unit := ⟨fun _ _ => none, fun w => (none, w), fun _ w => w, fun _ => some []⟩

/-- A device with the address `infosvr.c` starts from. -/
def factory : Sysparam where
  ssid := CStr.lit "default"
  netmask := CStr.lit "255.255.255.0"
  productid := CStr.lit "WL330gE"
  firmver := CStr.lit "2.0.0.0"
  mac := #v[0x00, 0x0c, 0x6e, 0xbd, 0xf3, 0xc5]
  intfCount := 1
  intfCount_pos := one_pos

end Infosvr
end Router
