/-
# The VLANs of the switch

`shared/bcmrobo.c`: `bcm_robo_config_vlan` writes the VLANs of NVRAM, `vlan0ports` to `vlan15ports`, to a switch: a 5325
or a 539x, over SPI (`spi_wreg`) or over MII (`mii_wreg`). Both select a page of registers first, unless it is selected.

The switch is its registers and a VLAN table. A write to the access register of the table is the command to write an
entry. A register of 8 or 16 bits is the low part of what is written; `mii_wreg` leaves the high part of an earlier write
there. What a host stores is sent over SPI as it stands in memory.

`follows_iff` says when the switch comes out as the variables say; `readable_of_short` which texts can be read.

The bits on the lines and the waiting for the switch are not modelled: no caller looks at what comes of it.
-/
import RouterFirmware.Bcm.Strtoul
import RouterFirmware.Lib.CMem
import RouterFirmware.Nvparse.Records

namespace Router
namespace Bcm
namespace Vlans

open CMem CText
open Nvram (VarMap)

/-! ### The switch -/

/-- `robo->devid`. -/
inductive Devid where
  | devid5325
  | devid5397
  | devid5398
deriving DecidableEq

/-- `PAGE_VLAN`, `PAGE_VTBL`. -/
def pageVlan : UInt8 := 0x34
def pageVtbl : UInt8 := 0x05

/-- Registers of `PAGE_VLAN`. -/
def regVlanCtrl0 : UInt8 := 0x00
def regVlanCtrl1 : UInt8 := 0x01
def regVlanCtrl4 : UInt8 := 0x04
def regVlanCtrl5 : UInt8 := 0x05
def regVlanAccess : UInt8 := 0x06
def regVlanWrite : UInt8 := 0x08
def regVlanPtag0 : UInt8 := 0x10
def regVlanPtag1 : UInt8 := 0x12
def regVlanPtag2 : UInt8 := 0x14
def regVlanPtag3 : UInt8 := 0x16
def regVlanPtag4 : UInt8 := 0x18
def regVlanPtag5 : UInt8 := 0x1a
def regVlanPtag6 : UInt8 := 0x1c
def regVlanPtag7 : UInt8 := 0x1e
def regVlanPtag8 : UInt8 := 0x20
def regVlanPmap : UInt8 := 0x20

/-- Registers of `PAGE_VTBL`. -/
def regVtblAccess : UInt8 := 0x60
def regVtblIndx : UInt8 := 0x61
def regVtblEntry : UInt8 := 0x63

/-- What the switch holds. -/
structure File where
  regs : UInt8 → UInt8 → UInt32
  table : ℕ → UInt32

/-- The command to write an entry, if this is one. -/
def File.command (devid : Devid) (f : File) (page reg : UInt8) : File :=
  if devid = .devid5325 then
    let access := f.regs pageVlan regVlanAccess
    if page = pageVlan ∧ reg = regVlanAccess ∧ access.toNat.testBit 13 ∧ access.toNat.testBit 12 then
      { f with table := Function.update f.table (access.toNat % 2 ^ 12) (f.regs pageVlan regVlanWrite) }
    else f
  else
    let access := f.regs pageVtbl regVtblAccess
    if page = pageVtbl ∧ reg = regVtblAccess ∧ access.toNat.testBit 7 ∧ access.toNat % 4 = 0 then
      let index := (f.regs pageVtbl regVtblIndx).toNat % 2 ^ 12
      { f with table := Function.update f.table index (f.regs pageVtbl regVtblEntry) }
    else f

/-- A write to a register. -/
def File.write (devid : Devid) (f : File) (page reg : UInt8) (v : UInt32) : File :=
  File.command devid { f with regs := fun p r => if p = page ∧ r = reg then v else f.regs p r } page reg

/-- The switch: the page that is selected, and the data registers of the pseudo PHY. -/
structure Switch where
  page : UInt8
  data : UInt16 × UInt16
  file : File

/-- The number that bytes are, the lowest first. -/
def received (l : List UInt8) : UInt32 := UInt32.ofNat (l.foldr (fun b n => b.toNat + 256 * n) 0)

/-- `(6 << 4) | 1`: normal SPI, write, CID 0. -/
def spiWriteCmd : UInt8 := 0x61

/-- `REG_SPI_PAGE`. -/
def regSpiPage : UInt8 := 0xff

/-- What comes over SPI while the chip is selected. -/
def Switch.spi (devid : Devid) (sw : Switch) : List UInt8 → Switch
  | cmd :: addr :: l =>
    if cmd = spiWriteCmd then
      if addr = regSpiPage then { sw with page := l.headD 0 }
      else { sw with file := sw.file.write devid sw.page addr (received l) }
    else sw
  | _ => sw

/-- `REG_MII_PAGE`, `REG_MII_ADDR`, `REG_MII_DATA0`, `REG_MII_DATA1`. -/
inductive MiiReg where
  | page
  | addr
  | data0
  | data1

/-- A write to the pseudo PHY. -/
def Switch.mii (devid : Devid) (sw : Switch) (reg : MiiReg) (v : UInt16) : Switch :=
  match reg with
  | .page => { sw with page := (v >>> 8).toUInt8 }
  | .data0 => { sw with data := (v, sw.data.2) }
  | .data1 => { sw with data := (sw.data.1, v) }
  | .addr =>
    -- Bit 0 is the opcode for a write.
    if v.toNat.testBit 0 then
      let val := sw.data.1.toUInt32 ||| sw.data.2.toUInt32 <<< 16
      { sw with file := sw.file.write devid sw.page (v >>> 8).toUInt8 val }
    else sw

/-! ### The driver -/

inductive Bus where
  | spi
  | mii
deriving DecidableEq

/-- The byte order of the host. -/
inductive Order where
  | little
  | big
deriving DecidableEq

/-- What stays as it is. -/
structure Machine where
  devid : Devid
  bus : Bus
  order : Order

/-- `robo->page`, and the switch. -/
structure Robo where
  page : UInt8
  chip : Switch

/-- A variable of `len` bytes in memory. -/
def memory (order : Order) (len : ℕ) (v : UInt32) : List UInt8 :=
  match order with
  | .little => (bytes32 v).take len
  | .big => ((bytes32 v).take len).reverse

section Driver

variable (m : Machine)

/-- `spi_goto(robo, page)`. -/
def spiGoto (s : Robo) (page : UInt8) : Robo :=
  if s.page = page then s
  else ⟨page, s.chip.spi m.devid [spiWriteCmd, regSpiPage, page]⟩

/-- `spi_wreg(robo, page, addr, val, len)`. The swapped value in `bytes` is not what is sent. -/
def spiWreg (s : Robo) (page addr : UInt8) (val : UInt32) (len : ℕ) : Robo :=
  let s := spiGoto m s page
  { s with chip := s.chip.spi m.devid (spiWriteCmd :: addr :: memory m.order len val) }

/-- `mii_wreg(robo, page, reg, val, len)`. -/
def miiWreg (s : Robo) (page reg : UInt8) (val : UInt32) (len : ℕ) : Robo :=
  let s := if s.page ≠ page then ⟨page, s.chip.mii m.devid .page (page.toUInt16 <<< 8 ||| 1)⟩ else s
  let chip := s.chip.mii m.devid .data0 val.toUInt16
  let chip := if len = 4 then chip.mii m.devid .data1 (val >>> 16).toUInt16 else chip
  { s with chip := chip.mii m.devid .addr (reg.toUInt16 <<< 8 ||| 1) }

/-- `robo->ops->write_reg`. -/
def writeReg (s : Robo) (page reg : UInt8) (val : UInt32) (len : ℕ) : Robo :=
  match m.bus with
  | .spi => spiWreg m s page reg val len
  | .mii => miiWreg m s page reg val len

end Driver

/-! ### The code -/

/-- `1 << i`. -/
def bit (i : ℕ) : UInt32 := UInt32.ofNat (2 ^ i)

/-- A port descriptor. -/
structure Pdesc where
  untag : UInt32
  member : UInt32
  ptagr : UInt8
  cpu : Bool

/-- `pdesc97`. -/
def pdesc97 : List Pdesc := [
  ⟨bit 9, bit 0, regVlanPtag0, false⟩,
  ⟨bit 10, bit 1, regVlanPtag1, false⟩,
  ⟨bit 11, bit 2, regVlanPtag2, false⟩,
  ⟨bit 12, bit 3, regVlanPtag3, false⟩,
  ⟨bit 13, bit 4, regVlanPtag4, false⟩,
  ⟨bit 14, bit 5, regVlanPtag5, false⟩,
  ⟨bit 15, bit 6, regVlanPtag6, false⟩,
  ⟨bit 16, bit 7, regVlanPtag7, false⟩,
  ⟨bit 17, bit 8, regVlanPtag8, true⟩]

/-- `pdesc25`. -/
def pdesc25 : List Pdesc := [
  ⟨bit 6, bit 0, regVlanPtag0, false⟩,
  ⟨bit 7, bit 1, regVlanPtag1, false⟩,
  ⟨bit 8, bit 2, regVlanPtag2, false⟩,
  ⟨bit 9, bit 3, regVlanPtag3, false⟩,
  ⟨bit 10, bit 4, regVlanPtag4, false⟩,
  ⟨bit 11, bit 5, regVlanPtag5, true⟩]

def Devid.pdesc : Devid → List Pdesc
  | devid5325 => pdesc25
  | _ => pdesc97

/-- A call of `write_reg`. -/
structure Write where
  page : UInt8
  reg : UInt8
  val : UInt32
  len : ℕ

/-- `bcm_atoi(s)`. -/
def bcmAtoi (s : Bytes) : ℤ := (bcmStrtoul s 10).1.toInt32.toInt

/-- `getvar(vars, name)`: the strings of `vars` first, then NVRAM. -/
def getvar (vars : List CStr) (nv : VarMap) (name : CStr) : Option Bytes :=
  match vars.find? fun s => name.bytes ++ [61] <+: s.bytes with
  | some s => some (s.bytes.drop (name.length + 1))
  | none => (nv.lookup name).map CStr.bytes

/-- `sprintf(vlanports, "vlan%dports", vid)`. -/
def vlanports (vid : ℕ) : CStr := cstr (bytes "vlan" ++ decimal vid ++ bytes "ports")

/-- What is built for a VLAN, with the port tags that have been written. -/
structure Vlan where
  untag : UInt32
  member : UInt32
  writes : List Write

section Code

variable (devid : Devid)

/-- What the loop over the ports does with the text in `port`; `none` if `pdesc` is indexed below its beginning. -/
def portStep (vid : ℕ) (v : Vlan) (port : Bytes) : Option Vlan :=
  let pid := bcmAtoi port
  if devid.pdesc.length ≤ pid then some v
  else if pid < 0 then none
  else
    devid.pdesc[pid.toNat]?.map fun desc => {
      untag :=
        if !desc.cpu && !port.contains 116 || desc.cpu && port.contains 117 then v.untag ||| desc.untag else v.untag
      member := v.member ||| desc.member
      writes := v.writes ++
        if !desc.cpu || port.contains 117 then [⟨pageVlan, desc.ptagr, UInt32.ofNat vid, 2⟩] else [] }

/-- `vlan_setup`. -/
def setupWrites (vid : ℕ) (val32 : UInt32) : List Write :=
  if devid = .devid5325 then [
    ⟨pageVlan, regVlanWrite, val32 ||| (bit 20 ||| (UInt32.ofNat vid >>> 4) <<< 12), 4⟩,
    ⟨pageVlan, regVlanAccess, bit 13 ||| bit 12 ||| UInt32.ofNat vid, 2⟩]
  else [
    ⟨pageVtbl, regVtblEntry, val32, 4⟩,
    ⟨pageVtbl, regVtblIndx, UInt32.ofNat vid, 2⟩,
    ⟨pageVtbl, regVtblAccess, bit 7, 1⟩]

/-- A turn of the loop over the VLANs; none is above `VLAN_MAXVID`. `port` has 5 bytes. -/
def vlanWrites (ports : Option Bytes) (vid : ℕ) : Option (List Write) :=
  if devid = .devid5397 ∧ vid = 0 then some []
  else
    ((match ports with
      | none => some ⟨0, 0, []⟩
      | some ports => (words 5 ports).foldlM (portStep devid vid) ⟨0, 0, []⟩) : Option Vlan).map fun v =>
        v.writes ++ setupWrites devid vid (v.untag ||| v.member)

/-- The global VLAN configuration. -/
def ctrlWrites : List Write :=
  ⟨pageVlan, regVlanCtrl0, bit 7 ||| (3 : UInt32) <<< 5, 1⟩ ::
    if devid = .devid5325 then [
      ⟨pageVlan, regVlanCtrl1, bit 1, 1⟩,
      ⟨pageVlan, regVlanCtrl4, bit 6, 1⟩,
      ⟨pageVlan, regVlanCtrl5, bit 3, 1⟩]
    else [⟨pageVlan, regVlanCtrl1, 0, 1⟩]

/-- The priority mapping. -/
def pmapWrites : List Write :=
  if devid = .devid5325 then
    let map := (List.range 8).foldl (fun (v : UInt32) i => v ||| UInt32.ofNat i <<< UInt32.ofNat (3 * i)) 0
    [⟨pageVlan, regVlanPmap, map, 4⟩]
  else []

/-- The writes of `bcm_robo_config_vlan(robo)`, for what the variables of the 16 VLANs hold. -/
def configWrites (ports : ℕ → Option Bytes) : Option (List Write) :=
  ((List.range 16).mapM fun vid => vlanWrites devid (ports vid) vid).map fun vlans =>
    ctrlWrites devid ++ vlans.flatten ++ pmapWrites devid

end Code

/-- `bcm_robo_config_vlan(robo)`; `none` if `pdesc` is left. -/
def configVlan (m : Machine) (vars : List CStr) (nv : VarMap) (s : Robo) : Option Robo :=
  (configWrites m.devid fun vid => getvar vars nv (vlanports vid)).map fun ws =>
    ws.foldl (fun s w => writeReg m s w.page w.reg w.val w.len) s

/-! ### What the variables say -/

/-- The number of ports; the last one is the CPU's. -/
def Devid.ports : Devid → ℕ
  | devid5325 => 6
  | _ => 9

/-- The texts of a list. -/
def tokens (s : Bytes) : List Bytes := (s.splitOn 32).filter fun w => !w.isEmpty

/-- The decimal number in front of the flags. -/
def number (token : Bytes) : Option ℕ :=
  if token.takeWhile isDigit = [] then none else some (digitsVal (token.takeWhile isDigit))

/-- The flags say that frames leave the port untagged: no `t`, or for the CPU a `u`. -/
def Plain (devid : Devid) (p : ℕ) (token : Bytes) : Prop := if p + 1 = devid.ports then 117 ∈ token else 116 ∉ token

instance (devid : Devid) (p : ℕ) (token : Bytes) : Decidable (Plain devid p token) :=
  inferInstanceAs (Decidable (if p + 1 = devid.ports then 117 ∈ token else 116 ∉ token))

def Lists (ports : Option Bytes) (p : ℕ) : Prop := ∃ s ∈ ports, ∃ token ∈ tokens s, number token = some p

def ListsPlain (devid : Devid) (ports : Option Bytes) (p : ℕ) : Prop :=
  ∃ s ∈ ports, ∃ token ∈ tokens s, number token = some p ∧ Plain devid p token

/-- The VLANs that are configured: a 5397 has no VLAN 0. -/
def Configures (devid : Devid) (v : ℕ) : Prop := v < 16 ∧ ¬(devid = .devid5397 ∧ v = 0)

/-- The switch is as the variables say. -/
structure Configured (devid : Devid) (ports : ℕ → Option Bytes) (f : File) : Prop where
  members : ∀ v, Configures devid v → ∀ p < devid.ports,
    ((f.table v).toNat.testBit p = true ↔ Lists (ports v) p)
  untagged : ∀ v, Configures devid v → ∀ p < devid.ports,
    ((f.table v).toNat.testBit (p + devid.ports) = true ↔ ListsPlain devid (ports v) p)
  tag : ∀ p, p + 1 < devid.ports → ∀ v < 16, Lists (ports v) p → (∀ v' < 16, v < v' → ¬Lists (ports v') p) →
    (f.regs pageVlan (0x10 + 2 * UInt8.ofNat p)).toNat % 2 ^ 16 = v

/-- The variables of the VLANs. -/
def portsOf (vars : List CStr) (nv : VarMap) (v : ℕ) : Option Bytes := getvar vars nv (vlanports v)

/-- The page that the driver takes for selected is, if it is the first one that is needed. `bcm_robo_attach` and
`bcm_robo_enable_device` leave another one: none, `PAGE_MMR` or `PAGE_CTRL`. -/
def Coherent (s : Robo) : Prop := s.page = pageVlan → s.chip.page = pageVlan

/-- From every state `pdesc` is not left, and the switch comes out as the variables say. -/
def Follows (m : Machine) (vars : List CStr) (nv : VarMap) : Prop :=
  ∀ s, Coherent s → ∃ s', configVlan m vars nv s = some s' ∧ Configured m.devid (portsOf vars nv) s'.chip.file

/-- What `bcm_atoi` reads in the first four characters of each text. -/
def Reads (ports : Option Bytes) (p : ℕ) : Prop := ∃ s ∈ ports, ∃ port ∈ words 5 s, bcmAtoi port = p

def ReadsPlain (devid : Devid) (ports : Option Bytes) (p : ℕ) : Prop :=
  ∃ s ∈ ports, ∃ port ∈ words 5 s, bcmAtoi port = p ∧ Plain devid p port

/-- No port number that is read is negative. -/
def Nonneg (ports : Option Bytes) : Prop := ∀ s ∈ ports, ∀ port ∈ words 5 s, 0 ≤ bcmAtoi port

/-- The first four characters of each text, as `bcm_atoi` reads them, say what the texts say. -/
structure Readable (devid : Devid) (ports : Option Bytes) : Prop where
  nonneg : Nonneg ports
  listed : ∀ p < devid.ports, (Reads ports p ↔ Lists ports p)
  plain : ∀ p < devid.ports, (ReadsPlain devid ports p ↔ ListsPlain devid ports p)

/-! ### What arrives -/

theorem received_take (v : UInt32) {len : ℕ} (hlen : len = 1 ∨ len = 2 ∨ len = 4) :
    (received ((bytes32 v).take len)).toNat = v.toNat % 2 ^ (8 * len) := by
  have hv := v.toNat_lt
  rcases hlen with rfl | rfl | rfl
  all_goals
    simp only [bytes32, received, List.take_succ_cons, List.take_zero, List.foldr_cons, List.foldr_nil,
      UInt32.toNat_ofNat', UInt8.toNat_ofNat']
    omega

/-- What the register holds: the low part at least, unless the bytes come in the wrong order. -/
def Arrives (m : Machine) (len : ℕ) (val x : UInt32) : Prop :=
  if m.bus = .spi ∧ m.order = .big then x = received (memory .big len val)
  else x.toNat % 2 ^ (8 * len) = val.toNat % 2 ^ (8 * len)

theorem selected_eq {s : Robo} {page : UInt8} (hpage : s.page = page) (hchip : s.chip.page = page) :
    s = ⟨page, { s.chip with page := page }⟩ := by
  obtain ⟨p, q, data, file⟩ := s
  cases hpage
  cases hchip
  rfl

theorem spiGoto_eq (m : Machine) {s : Robo} {page : UInt8} (hc : s.page = page → s.chip.page = page) :
    spiGoto m s page = ⟨page, { s.chip with page := page }⟩ := by
  unfold spiGoto
  split_ifs with hpage
  · exact selected_eq hpage (hc hpage)
  · rfl

theorem toUInt8_high : ∀ b : UInt8, ((b.toUInt16 <<< 8 ||| 1) >>> 8).toUInt8 = b :=
  forall_byte.mpr (by decide +kernel)

/-- The two data registers as one. -/
theorem toNat_data (low high : UInt16) :
    (low.toUInt32 ||| high.toUInt32 <<< 16).toNat = high.toNat * 2 ^ 16 + low.toNat := by
  have hlow := low.toNat_lt
  have hhigh := high.toNat_lt
  have hshift : (high.toUInt32 <<< 16).toNat = high.toNat <<< 16 := by
    rw [UInt32.toNat_shiftLeft, UInt16.toNat_toUInt32]
    exact Nat.mod_eq_of_lt (by rw [Nat.shiftLeft_eq]; simp; omega)
  rw [UInt32.toNat_or, UInt16.toNat_toUInt32, hshift, Nat.or_comm, ← Nat.shiftLeft_add_eq_or_of_lt hlow,
    Nat.shiftLeft_eq]

/-- **A write over either bus**, from a page that the driver knows. -/
theorem writeReg_eq (m : Machine) {s : Robo} {page reg : UInt8} {val : UInt32} {len : ℕ}
    (hc : s.page = page → s.chip.page = page) (hreg : reg ≠ regSpiPage) (hlen : len = 1 ∨ len = 2 ∨ len = 4) :
    ∃ x data, Arrives m len val x ∧
      writeReg m s page reg val len = ⟨page, page, data, s.chip.file.write m.devid page reg x⟩ := by
  cases hbus : m.bus with
  | spi =>
    refine ⟨received (memory m.order len val), s.chip.data, ?_, ?_⟩
    · unfold Arrives
      cases horder : m.order with
      | little =>
        rw [if_neg (by simp), memory, received_take val hlen, Nat.mod_mod]
      | big => rw [if_pos ⟨hbus, rfl⟩]
    · unfold writeReg spiWreg
      simp only [hbus, spiGoto_eq m hc, Switch.spi, if_neg hreg, if_true]
  | mii =>
    have hpage : (if s.page ≠ page then (⟨page, s.chip.mii m.devid .page (page.toUInt16 <<< 8 ||| 1)⟩ : Robo) else s) =
        ⟨page, { s.chip with page := page }⟩ := by
      split_ifs with hne
      · rw [Switch.mii, toUInt8_high]
      · rw [not_not] at hne
        exact selected_eq hne (hc hne)
    have hval := val.toNat_lt
    refine ⟨val.toUInt16.toUInt32 ||| (if len = 4 then (val >>> 16).toUInt16 else s.chip.data.2).toUInt32 <<< 16,
      (val.toUInt16, if len = 4 then (val >>> 16).toUInt16 else s.chip.data.2), ?_, ?_⟩
    · unfold Arrives
      rw [if_neg (by simp [hbus]), toNat_data]
      rcases hlen with rfl | rfl | rfl
      · simp
        omega
      · simp
      · simp [UInt32.toNat_shiftRight]
        omega
    · unfold writeReg miiWreg
      simp only [hbus, hpage]
      split_ifs with hfour <;> simp [Switch.mii, toUInt8_high]

/-! ### Runs of writes -/

/-- The file that writes lead to. -/
def Leads (m : Machine) : List Write → File → File → Prop
  | [], f, f' => f' = f
  | w :: ws, f, f' => ∃ x, Arrives m w.len w.val x ∧ Leads m ws (f.write m.devid w.page w.reg x) f'

/-- Registers that the switch has. -/
def Valid (ws : List Write) : Prop := ∀ w ∈ ws, w.reg ≠ regSpiPage ∧ (w.len = 1 ∨ w.len = 2 ∨ w.len = 4)

section Leads

variable {m : Machine} {ws ws' : List Write} {f f' : File}

theorem leads_append : Leads m (ws ++ ws') f f' ↔ ∃ g, Leads m ws f g ∧ Leads m ws' g f' := by
  induction ws generalizing f with
  | nil => exact ⟨fun h => ⟨f, rfl, h⟩, fun ⟨g, hg, h⟩ => hg ▸ h⟩
  | cons w ws ih =>
    simp only [List.cons_append, Leads, ih]
    constructor
    · rintro ⟨x, hx, g, hg, h⟩
      exact ⟨g, ⟨x, hx, hg⟩, h⟩
    · rintro ⟨g, ⟨x, hx, hg⟩, h⟩
      exact ⟨x, hx, g, hg, h⟩

/-- **The driver with its page** leads where the writes alone do. -/
theorem exec_leads : ∀ {ws : List Write} {s : Robo} (_ : ∀ w ∈ ws.head?, s.page = w.page → s.chip.page = w.page)
    (_ : Valid ws), Leads m ws s.chip.file (ws.foldl (fun s w => writeReg m s w.page w.reg w.val w.len) s).chip.file
  | [], _, _, _ => rfl
  | w :: ws, s, hc, hv => by
    obtain ⟨hreg, hlen⟩ := hv w List.mem_cons_self
    obtain ⟨x, data, hx, heq⟩ := @writeReg_eq m s w.page w.reg w.val w.len (hc w rfl) hreg hlen
    refine ⟨x, hx, ?_⟩
    rw [List.foldl_cons, heq]
    exact exec_leads (s := ⟨w.page, w.page, data, _⟩) (fun _ _ h => h) fun w' hw' => hv w' (List.mem_cons_of_mem _ hw')

/-- What every write keeps, all of them keep. -/
theorem Leads.inv {P : File → Prop} (hstep : ∀ w ∈ ws, ∀ g x, Arrives m w.len w.val x → P g →
    P (g.write m.devid w.page w.reg x)) (hf : P f) (h : Leads m ws f f') : P f' := by
  induction ws generalizing f with
  | nil => exact h ▸ hf
  | cons w ws ih =>
    obtain ⟨x, hx, h⟩ := h
    exact ih (fun w' hw' => hstep w' (List.mem_cons_of_mem _ hw')) (hstep w List.mem_cons_self f x hx hf) h

end Leads

/-! ### One write -/

section File

variable (devid : Devid) (f : File) (page reg : UInt8) (x : UInt32)

theorem regs_command : (f.command devid page reg).regs = f.regs := by
  unfold File.command
  dsimp only
  split_ifs <;> rfl

theorem regs_write (p r : UInt8) :
    (f.write devid page reg x).regs p r = if p = page ∧ r = reg then x else f.regs p r := by
  rw [File.write, regs_command]

/-- The register whose write is the command. -/
def Devid.access : Devid → UInt8 × UInt8
  | devid5325 => (pageVlan, regVlanAccess)
  | _ => (pageVtbl, regVtblAccess)

theorem table_write (h : (page, reg) ≠ devid.access) : (f.write devid page reg x).table = f.table := by
  unfold File.write File.command
  dsimp only
  cases devid with
  | devid5325 =>
    rw [if_pos rfl, if_neg]
    rintro ⟨rfl, rfl, -⟩
    exact h rfl
  | devid5397 =>
    rw [if_neg nofun, if_neg]
    rintro ⟨rfl, rfl, -⟩
    exact h rfl
  | devid5398 =>
    rw [if_neg nofun, if_neg]
    rintro ⟨rfl, rfl, -⟩
    exact h rfl

end File

section Frame

variable {m : Machine} {ws : List Write} {f f' : File}

theorem leads_regs {p r : UInt8} (hne : ∀ w ∈ ws, (p, r) ≠ (w.page, w.reg)) (h : Leads m ws f f') :
    f'.regs p r = f.regs p r := by
  refine h.inv (P := fun g => g.regs p r = f.regs p r) (fun w hw g x _ hg => ?_) rfl
  rw [regs_write, if_neg fun heq => hne w hw (Prod.ext heq.1 heq.2), hg]

theorem leads_table (hne : ∀ w ∈ ws, (w.page, w.reg) ≠ m.devid.access) (h : Leads m ws f f') :
    f'.table = f.table :=
  h.inv (P := fun g => g.table = f.table) (fun w hw _ _ _ hg => (table_write _ _ _ _ _ (hne w hw)).trans hg) rfl

end Frame

/-! ### An entry of the table -/

/-- What is written for a VLAN. -/
def entry (devid : Devid) (val32 : UInt32) : UInt32 := if devid = .devid5325 then val32 ||| bit 20 else val32

/-- The host's byte order does not matter. -/
def Machine.Straight (m : Machine) : Prop := ¬(m.bus = .spi ∧ m.order = .big)

section Setup

variable {m : Machine} {vid : ℕ} {val32 : UInt32} {f f' : File}

/-- A value of `8 * len` bits arrives as it is. -/
theorem mod_of_arrives (len : ℕ) {n : ℕ} {val x : UInt32} (hm : m.Straight) (h : Arrives m len val x)
    (hval : val.toNat = n) (hn : n < 2 ^ (8 * len)) : x.toNat % 2 ^ (8 * len) = n := by
  rw [Arrives, if_neg hm, hval, Nat.mod_eq_of_lt hn] at h
  exact h

theorem eq_of_arrives {val x : UInt32} (hm : m.Straight) (h : Arrives m 4 val x) : x = val := by
  have hmod := mod_of_arrives 4 hm h rfl val.toNat_lt
  have hx := x.toNat_lt
  exact UInt32.toNat_inj.mp (by omega)

theorem toNat_access (hv : vid < 16) : (bit 13 ||| bit 12 ||| UInt32.ofNat vid).toNat = 0x3000 + vid := by
  have h : ∀ v < 16, (bit 13 ||| bit 12 ||| UInt32.ofNat v).toNat = 0x3000 + v := by decide
  exact h vid hv

theorem command_5325 {x : UInt32} (hv : vid < 16) (hx : x.toNat % 2 ^ 16 = 0x3000 + vid) :
    x.toNat.testBit 13 = true ∧ x.toNat.testBit 12 = true ∧ x.toNat % 2 ^ 12 = vid := by
  have hbits : ∀ v < 16, (0x3000 + v).testBit 13 = true ∧ (0x3000 + v).testBit 12 = true := by decide
  have htest : ∀ i < 16, x.toNat.testBit i = (0x3000 + vid).testBit i := fun i hi => by
    rw [← hx, Nat.testBit_mod_two_pow, decide_eq_true hi, Bool.true_and]
  refine ⟨?_, ?_, by omega⟩
  · rw [htest 13 (by omega)]
    exact (hbits vid hv).1
  · rw [htest 12 (by omega)]
    exact (hbits vid hv).2

/-- The command to a 5325. -/
theorem write_access_5325 {devid : Devid} {x : UInt32} (hd : devid = .devid5325) (hv : vid < 16)
    (hx : x.toNat % 2 ^ 16 = 0x3000 + vid) : (f.write devid pageVlan regVlanAccess x).table =
      Function.update f.table vid (f.regs pageVlan regVlanWrite) := by
  obtain ⟨hstart, hwrite, hvid⟩ := command_5325 hv hx
  unfold File.write File.command
  rw [if_pos hd]
  have hreg : regVlanWrite ≠ regVlanAccess := by decide
  simp only [hreg, hstart, hwrite, hvid, and_self, and_false, if_true, if_false]

/-- Without the start bit it is no command. -/
theorem table_write_idle {devid : Devid} {x : UInt32} (hd : devid = .devid5325) (hx : x.toNat.testBit 13 = false) :
    (f.write devid pageVlan regVlanAccess x).table = f.table := by
  unfold File.write File.command
  rw [if_pos hd]
  simp only [hx, and_self, if_true, false_and, and_false, if_false, Bool.false_eq_true]

theorem access_539x {devid : Devid} (hd : devid ≠ .devid5325) : devid.access = (pageVtbl, regVtblAccess) := by
  cases devid with
  | devid5325 => exact absurd rfl hd
  | devid5397 => rfl
  | devid5398 => rfl

/-- The command to a 539x. -/
theorem write_access_539x {devid : Devid} {x : UInt32} (hd : devid ≠ .devid5325) (hx : x.toNat % 2 ^ 8 = 0x80) :
    (f.write devid pageVtbl regVtblAccess x).table = Function.update f.table
      ((f.regs pageVtbl regVtblIndx).toNat % 2 ^ 12) (f.regs pageVtbl regVtblEntry) := by
  have hstart : x.toNat.testBit 7 = true := by
    have h := Nat.testBit_mod_two_pow x.toNat 8 7
    rw [hx] at h
    exact h.symm
  have hwrite : x.toNat % 4 = 0 := by omega
  unfold File.write File.command
  rw [if_neg hd]
  have hindx : regVtblIndx ≠ regVtblAccess := by decide
  have hentry : regVtblEntry ≠ regVtblAccess := by decide
  simp only [hindx, hentry, hstart, hwrite, and_self, and_false, if_true, if_false]

theorem toNat_vid (hv : vid < 16) : (UInt32.ofNat vid).toNat = vid := by
  rw [UInt32.toNat_ofNat']
  omega

theorem entry_5325 (hv : vid < 16) : val32 ||| (bit 20 ||| (UInt32.ofNat vid >>> 4) <<< 12) = val32 ||| bit 20 := by
  have h : ∀ v < 16, bit 20 ||| (UInt32.ofNat v >>> 4) <<< 12 = bit 20 := by decide
  rw [h vid hv]

/-- **The entry of a VLAN**, over a bus that keeps the order of the bytes. -/
theorem setup_table (hm : m.Straight) (hv : vid < 16) (h : Leads m (setupWrites m.devid vid val32) f f') :
    f'.table = Function.update f.table vid (entry m.devid val32) := by
  unfold setupWrites at h
  unfold entry
  by_cases hd : m.devid = .devid5325
  · rw [if_pos hd] at h ⊢
    obtain ⟨x, hx, y, hy, rfl⟩ := h
    have hentry := eq_of_arrives hm hx
    rw [entry_5325 hv] at hentry
    rw [write_access_5325 hd hv (mod_of_arrives 2 hm hy (toNat_access hv) (by omega)), regs_write,
      if_pos ⟨rfl, rfl⟩, hentry, table_write]
    rw [hd]
    exact of_decide_eq_true rfl
  · rw [if_neg hd] at h ⊢
    obtain ⟨x, hx, y, hy, z, hz, rfl⟩ := h
    have hentry := eq_of_arrives hm hx
    have hindex : y.toNat % 2 ^ 12 = vid := by
      have hmod : y.toNat % 2 ^ 16 = vid := mod_of_arrives 2 hm hy (toNat_vid hv) (by omega)
      omega
    have hregs : ∀ r, ((f.write m.devid pageVtbl regVtblEntry x).write m.devid pageVtbl regVtblIndx y).regs pageVtbl r =
        if r = regVtblIndx then y else if r = regVtblEntry then x else f.regs pageVtbl r := fun r => by
      simp only [regs_write, true_and]
    dsimp only
    rw [write_access_539x hd (mod_of_arrives 1 hm hz rfl (by decide)), hregs, hregs, if_pos rfl, if_neg (by decide),
      if_pos rfl, hindex, hentry, table_write, table_write]
    · rw [access_539x hd]
      decide
    · rw [access_539x hd]
      decide

end Setup

/-! ### The ports of a VLAN -/

/-- A port descriptor by its number. -/
def descOf (devid : Devid) (p : ℕ) : Pdesc where
  untag := bit (p + devid.ports)
  member := bit p
  ptagr := 0x10 + 2 * UInt8.ofNat p
  cpu := decide (p + 1 = devid.ports)

theorem pdesc_eq (devid : Devid) : devid.pdesc = (List.range devid.ports).map (descOf devid) := by
  cases devid <;> rfl

/-- The default tag that a text leads to. -/
def tagWrites (devid : Devid) (vid : ℕ) (port : Bytes) : List Write :=
  if 0 ≤ bcmAtoi port ∧ bcmAtoi port < devid.ports ∧ (bcmAtoi port + 1 ≠ devid.ports ∨ 117 ∈ port) then
    [⟨pageVlan, 0x10 + 2 * UInt8.ofNat (bcmAtoi port).toNat, UInt32.ofNat vid, 2⟩]
  else []

section Ports

variable {devid : Devid} {vid : ℕ}

theorem portStep_of_ge {v : Vlan} {port : Bytes} (h : (devid.ports : ℤ) ≤ bcmAtoi port) :
    portStep devid vid v port = some v := by
  have hlen : devid.pdesc.length = devid.ports := by rw [pdesc_eq, List.length_map, List.length_range]
  unfold portStep
  dsimp only
  rw [hlen, if_pos h]

theorem portStep_of_neg {v : Vlan} {port : Bytes} (h : bcmAtoi port < 0) : portStep devid vid v port = none := by
  unfold portStep
  dsimp only
  rw [if_neg (by omega), if_pos h]

theorem portStep_of_lt {v : Vlan} {port : Bytes} {p : ℕ} (h : bcmAtoi port = p) (hp : p < devid.ports) :
    portStep devid vid v port = some {
      untag := if Plain devid p port then v.untag ||| bit (p + devid.ports) else v.untag
      member := v.member ||| bit p
      writes := v.writes ++ tagWrites devid vid port } := by
  have hlen : devid.pdesc.length = devid.ports := by rw [pdesc_eq, List.length_map, List.length_range]
  have hdesc : devid.pdesc[p]? = some (descOf devid p) := by
    rw [pdesc_eq, List.getElem?_map, List.getElem?_range hp]
    rfl
  unfold portStep tagWrites
  dsimp only
  rw [hlen, h, if_neg (by omega), if_neg (by omega), Int.toNat_natCast, hdesc, Option.map_some]
  by_cases hlast : p + 1 = devid.ports
  · have hcast : (p : ℤ) + 1 = devid.ports := by omega
    simp [hlast, hcast, hp, Plain, descOf]
  · have hcast : (p : ℤ) + 1 ≠ devid.ports := by omega
    simp [hlast, hcast, hp, Plain, descOf]

theorem testBit_or_bit {v : UInt32} {i j : ℕ} (hi : i < 32) :
    (v ||| bit i).toNat.testBit j = true ↔ v.toNat.testBit j = true ∨ i = j := by
  have hbit : (bit i).toNat = 2 ^ i := by
    rw [bit, UInt32.toNat_ofNat']
    exact Nat.mod_eq_of_lt (Nat.pow_lt_pow_right (by omega) hi)
  rw [UInt32.toNat_or, hbit, Nat.testBit_or, Nat.testBit_two_pow, Bool.or_eq_true, decide_eq_true_eq]

theorem ports_le (devid : Devid) : devid.ports ≤ 9 := by cases devid <;> decide

/-- What the texts that are read leave behind. -/
structure Built (devid : Devid) (vid : ℕ) (texts : List Bytes) (v v' : Vlan) : Prop where
  member : ∀ i, v'.member.toNat.testBit i = true ↔
    v.member.toNat.testBit i = true ∨ i < devid.ports ∧ ∃ port ∈ texts, bcmAtoi port = i
  untag : ∀ i, v'.untag.toNat.testBit i = true ↔ v.untag.toNat.testBit i = true ∨
    ∃ p < devid.ports, p + devid.ports = i ∧ ∃ port ∈ texts, bcmAtoi port = p ∧ Plain devid p port
  writes : v'.writes = v.writes ++ texts.flatMap (tagWrites devid vid)

theorem Built.cons {port : Bytes} {texts : List Bytes} {v v₁ v' : Vlan} (h : Built devid vid [port] v v₁)
    (h' : Built devid vid texts v₁ v') : Built devid vid (port :: texts) v v' where
  member i := by
    rw [h'.member, h.member, or_assoc, ← and_or_left]
    simp
  untag i := by
    rw [h'.untag, h.untag, or_assoc]
    refine or_congr_right ?_
    simp only [List.mem_cons, List.not_mem_nil, or_false, exists_eq_left, or_and_right, exists_or, and_or_left]
  writes := by
    rw [h'.writes, h.writes]
    simp

theorem portStep_built {port : Bytes} (v : Vlan) (h : 0 ≤ bcmAtoi port) :
    ∃ v', portStep devid vid v port = some v' ∧ Built devid vid [port] v v' := by
  obtain ⟨p, hp⟩ := Int.eq_ofNat_of_zero_le h
  have hports := ports_le devid
  rcases Nat.lt_or_ge p devid.ports with hlt | hge
  · refine ⟨_, portStep_of_lt hp hlt, fun i => ?_, fun i => ?_, by simp⟩
    · rw [testBit_or_bit (by omega)]
      simp only [List.mem_singleton, exists_eq_left, hp, Int.natCast_inj]
      exact or_congr_right ⟨fun heq => ⟨heq ▸ hlt, heq⟩, And.right⟩
    · dsimp only
      split_ifs with hplain
      · rw [testBit_or_bit (by omega)]
        simp only [List.mem_singleton, exists_eq_left, hp, Int.natCast_inj]
        refine or_congr_right ⟨fun heq => ⟨p, hlt, heq, rfl, hplain⟩, ?_⟩
        rintro ⟨q, -, hq, rfl, -⟩
        exact hq
      · refine (or_iff_left ?_).symm
        simp only [List.mem_singleton, exists_eq_left, hp, Int.natCast_inj]
        rintro ⟨q, -, -, rfl, hq⟩
        exact hplain hq
  · refine ⟨v, portStep_of_ge (by omega), fun i => ?_, fun i => ?_, ?_⟩
    · refine (or_iff_left ?_).symm
      simp only [List.mem_singleton, exists_eq_left, hp, Int.natCast_inj]
      omega
    · refine (or_iff_left ?_).symm
      simp only [List.mem_singleton, exists_eq_left, hp, Int.natCast_inj]
      rintro ⟨q, hq, -, rfl, -⟩
      omega
    · rw [List.flatMap_singleton, tagWrites, if_neg (by omega), List.append_nil]

theorem foldlM_portStep : ∀ {texts : List Bytes} (v : Vlan) (_ : ∀ port ∈ texts, 0 ≤ bcmAtoi port),
    ∃ v', texts.foldlM (portStep devid vid) v = some v' ∧ Built devid vid texts v v'
  | [], v, _ => ⟨v, rfl, by constructor <;> simp⟩
  | port :: texts, v, h => by
    obtain ⟨v₁, hstep, hbuilt⟩ := portStep_built v (h port List.mem_cons_self)
    obtain ⟨v', hfold, hbuilt'⟩ := foldlM_portStep v₁ fun port' hport' => h port' (List.mem_cons_of_mem _ hport')
    refine ⟨v', ?_, hbuilt.cons hbuilt'⟩
    rw [List.foldlM_cons, hstep]
    exact hfold

theorem foldlM_portStep_of_neg : ∀ {texts : List Bytes} {v : Vlan} (_ : ∃ port ∈ texts, bcmAtoi port < 0),
    texts.foldlM (portStep devid vid) v = none
  | [], _, h => absurd h (by simp)
  | port :: texts, v, h => by
    rw [List.foldlM_cons]
    rcases Int.lt_or_le (bcmAtoi port) 0 with hneg | hpos
    · rw [portStep_of_neg hneg]
      rfl
    · obtain ⟨port', hport', hneg'⟩ := h
      rcases List.mem_cons.mp hport' with rfl | hmem
      · omega
      · cases hstep : portStep devid vid v port with
        | none => rfl
        | some v' => exact foldlM_portStep_of_neg ⟨port', hmem, hneg'⟩

end Ports

/-! ### Default tags -/

/-- The default tag of a port. -/
def File.tag (f : File) (p : ℕ) : ℕ := (f.regs pageVlan (0x10 + 2 * UInt8.ofNat p)).toNat % 2 ^ 16

theorem tagReg_inj {p q : ℕ} (hp : p < 9) (hq : q < 9) :
    0x10 + 2 * UInt8.ofNat p = 0x10 + 2 * UInt8.ofNat q ↔ p = q := by
  have h : ∀ p < 9, ∀ q < 9, 0x10 + 2 * UInt8.ofNat p = 0x10 + 2 * UInt8.ofNat q ↔ p = q := by decide
  exact h p hp q hq

section Tags

variable {m : Machine} {vid : ℕ} {f f' : File}

theorem mem_tagWrites {devid : Devid} {port : Bytes} {w : Write} (h : w ∈ tagWrites devid vid port) :
    ∃ p < devid.ports, bcmAtoi port = p ∧ w = ⟨pageVlan, 0x10 + 2 * UInt8.ofNat p, UInt32.ofNat vid, 2⟩ := by
  unfold tagWrites at h
  split_ifs at h with hp
  · refine ⟨(bcmAtoi port).toNat, by omega, by omega, List.mem_singleton.mp h⟩
  · exact absurd h List.not_mem_nil

/-- The writes of default tags are no commands. -/
theorem tags_table {texts : List Bytes} (h : Leads m (texts.flatMap (tagWrites m.devid vid)) f f') :
    f'.table = f.table := by
  refine leads_table (fun w hw => ?_) h
  obtain ⟨port, -, hw⟩ := List.mem_flatMap.mp hw
  obtain ⟨p, hp, -, rfl⟩ := mem_tagWrites hw
  have hne : ∀ devid : Devid, ∀ p < 9, (pageVlan, 0x10 + 2 * UInt8.ofNat p) ≠ devid.access := by
    intro devid
    cases devid <;> decide
  exact hne m.devid p (hp.trans_le (ports_le _))

theorem tag_lead (hm : m.Straight) (hv : vid < 16) {p : ℕ} (hp : p + 1 < m.devid.ports) {port : Bytes}
    (h : Leads m (tagWrites m.devid vid port) f f') : f'.tag p = if bcmAtoi port = p then vid else f.tag p := by
  have hports := ports_le m.devid
  unfold tagWrites at h
  split_ifs at h with hin
  · obtain ⟨q, hq⟩ := Int.eq_ofNat_of_zero_le hin.1
    have hq9 : q < 9 := by omega
    obtain ⟨x, hx, rfl⟩ := h
    have hmod : x.toNat % 2 ^ 16 = vid := mod_of_arrives 2 hm hx (toNat_vid hv) (by omega)
    rw [File.tag, regs_write, hq, Int.toNat_natCast]
    simp only [true_and, tagReg_inj (show p < 9 by omega) hq9, Int.natCast_inj, eq_comm (a := q)]
    split_ifs with heq
    · exact hmod
    · rfl
  · rw [if_neg (by omega)]
    exact h ▸ rfl

/-- **The default tag of an external port** is the VLAN where a text says so. -/
theorem tags_lead (hm : m.Straight) (hv : vid < 16) {p : ℕ} (hp : p + 1 < m.devid.ports) :
    ∀ {texts : List Bytes} {f : File} (_ : Leads m (texts.flatMap (tagWrites m.devid vid)) f f'),
      f'.tag p = if ∃ port ∈ texts, bcmAtoi port = p then vid else f.tag p
  | [], f, h => by
    rw [if_neg (by simp)]
    exact h ▸ rfl
  | port :: texts, f, h => by
    rw [List.flatMap_cons] at h
    obtain ⟨g, hg, h⟩ := leads_append.mp h
    rw [tags_lead hm hv hp h, tag_lead hm hv hp hg]
    simp only [List.mem_cons, or_and_right, exists_or, exists_eq_left]
    by_cases hhead : bcmAtoi port = p
    · simp [hhead]
    · simp [hhead]

end Tags

/-! ### A VLAN -/

/-- The texts that are read. -/
def textsOf (ports : Option Bytes) : List Bytes := (ports.map (words 5)).getD []

section Vlan

variable {devid : Devid} {ports : Option Bytes} {vid : ℕ}

theorem reads_iff {p : ℕ} : Reads ports p ↔ ∃ port ∈ textsOf ports, bcmAtoi port = p := by
  cases ports <;> simp [Reads, textsOf]

theorem readsPlain_iff {p : ℕ} :
    ReadsPlain devid ports p ↔ ∃ port ∈ textsOf ports, bcmAtoi port = p ∧ Plain devid p port := by
  cases ports <;> simp [ReadsPlain, textsOf]

theorem nonneg_iff : Nonneg ports ↔ ∀ port ∈ textsOf ports, 0 ≤ bcmAtoi port := by
  cases ports <;> simp [Nonneg, textsOf]

theorem vlanWrites_eq (h : ¬(devid = .devid5397 ∧ vid = 0)) : vlanWrites devid ports vid =
    ((textsOf ports).foldlM (portStep devid vid) ⟨0, 0, []⟩).map fun v =>
      v.writes ++ setupWrites devid vid (v.untag ||| v.member) := by
  unfold vlanWrites
  rw [if_neg h]
  cases ports <;> rfl

/-- The pool of descriptors is left exactly for a negative number. -/
theorem vlanWrites_isSome (h : ¬(devid = .devid5397 ∧ vid = 0)) :
    (vlanWrites devid ports vid).isSome = true ↔ Nonneg ports := by
  rw [vlanWrites_eq h, Option.isSome_map, nonneg_iff]
  constructor
  · intro hsome port hport
    by_contra hneg
    rw [foldlM_portStep_of_neg ⟨port, hport, by omega⟩] at hsome
    cases hsome
  · intro hall
    obtain ⟨v', hfold, -⟩ := @foldlM_portStep devid vid _ ⟨0, 0, []⟩ hall
    rw [hfold]
    rfl

theorem vlanWrites_some {ws : List Write} (hc : ¬(devid = .devid5397 ∧ vid = 0))
    (h : vlanWrites devid ports vid = some ws) : ∃ v, Built devid vid (textsOf ports) ⟨0, 0, []⟩ v ∧
      ws = (textsOf ports).flatMap (tagWrites devid vid) ++ setupWrites devid vid (v.untag ||| v.member) := by
  have hnonneg := nonneg_iff.mp ((vlanWrites_isSome hc).mp (Option.isSome_of_eq_some h))
  obtain ⟨v, hfold, hbuilt⟩ := @foldlM_portStep devid vid _ ⟨0, 0, []⟩ hnonneg
  rw [vlanWrites_eq hc, hfold, Option.map_some, hbuilt.writes, Option.some_inj] at h
  exact ⟨v, hbuilt, h.symm⟩

theorem testBit_entry {v : Vlan} (h : Built devid vid (textsOf ports) ⟨0, 0, []⟩ v) {p : ℕ} (hp : p < devid.ports) :
    ((entry devid (v.untag ||| v.member)).toNat.testBit p = true ↔ Reads ports p) ∧
    ((entry devid (v.untag ||| v.member)).toNat.testBit (p + devid.ports) = true ↔ ReadsPlain devid ports p) := by
  have hports := ports_le devid
  have hentry : ∀ i, i < 20 → ((entry devid (v.untag ||| v.member)).toNat.testBit i = true ↔
      v.untag.toNat.testBit i = true ∨ v.member.toNat.testBit i = true) := by
    intro i hi
    have hor : (v.untag ||| v.member).toNat.testBit i = true ↔
        v.untag.toNat.testBit i = true ∨ v.member.toNat.testBit i = true := by
      rw [UInt32.toNat_or, Nat.testBit_or, Bool.or_eq_true]
    unfold entry
    split_ifs
    · rw [testBit_or_bit (by omega), hor]
      exact or_iff_left (by omega)
    · exact hor
  have hzero : ∀ i, (0 : UInt32).toNat.testBit i = false := Nat.zero_testBit
  rw [hentry p (by omega), hentry (p + devid.ports) (by omega), h.member, h.untag, h.member, h.untag, reads_iff,
    readsPlain_iff]
  simp only [hzero, Bool.false_eq_true, false_or]
  constructor
  · constructor
    · rintro (⟨q, -, hq, -⟩ | ⟨-, hread⟩)
      · omega
      · exact hread
    · exact fun hread => Or.inr ⟨hp, hread⟩
  · constructor
    · rintro (⟨q, -, hq, hread⟩ | ⟨hlt, -⟩)
      · cases Nat.add_right_cancel hq
        exact hread
      · omega
    · exact fun hread => Or.inl ⟨p, hp, rfl, hread⟩

end Vlan

/-- The registers of the table are no default tags. -/
theorem setup_ne_tag {devid : Devid} {vid p : ℕ} {val32 : UInt32} (hp : p < 9) :
    ∀ w ∈ setupWrites devid vid val32, (pageVlan, 0x10 + 2 * UInt8.ofNat p) ≠ (w.page, w.reg) := by
  have hwrite : ∀ p < 9, (0x10 + 2 * UInt8.ofNat p) ≠ regVlanWrite ∧ (0x10 + 2 * UInt8.ofNat p) ≠ regVlanAccess := by
    decide
  have hpage : pageVlan ≠ pageVtbl := by decide
  unfold setupWrites
  split_ifs
  · simp [(hwrite p hp).1, (hwrite p hp).2]
  · simp [hpage]

/-- What the writes of a VLAN do. -/
structure VlanSet (m : Machine) (ports : Option Bytes) (vid : ℕ) (f f' : File) : Prop where
  others : ∀ v, v ≠ vid → f'.table v = f.table v
  members : ∀ p < m.devid.ports, ((f'.table vid).toNat.testBit p = true ↔ Reads ports p)
  untagged : ∀ p < m.devid.ports,
    ((f'.table vid).toNat.testBit (p + m.devid.ports) = true ↔ ReadsPlain m.devid ports p)
  tag : ∀ p, p + 1 < m.devid.ports → Reads ports p → f'.tag p = vid
  tag_of_not : ∀ p, p + 1 < m.devid.ports → ¬Reads ports p → f'.tag p = f.tag p

theorem vlanSet_of_leads {m : Machine} {ports : Option Bytes} {vid : ℕ} {f f' : File} {ws : List Write}
    (hm : m.Straight) (hv : Configures m.devid vid) (hws : vlanWrites m.devid ports vid = some ws)
    (h : Leads m ws f f') : VlanSet m ports vid f f' := by
  obtain ⟨v, hbuilt, rfl⟩ := vlanWrites_some hv.2 hws
  obtain ⟨g, hg, h⟩ := leads_append.mp h
  have htable := setup_table hm hv.1 h
  have htags : ∀ p, p + 1 < m.devid.ports → f'.tag p = g.tag p := fun p hp => by
    unfold File.tag
    rw [leads_regs (setup_ne_tag (by have := ports_le m.devid; omega)) h]
  refine ⟨fun w hw => ?_, fun p hp => ?_, fun p hp => ?_, fun p hp hr => ?_, fun p hp hr => ?_⟩
  · rw [htable, Function.update_of_ne hw, tags_table hg]
  · rw [htable, Function.update_self]
    exact (testBit_entry hbuilt hp).1
  · rw [htable, Function.update_self]
    exact (testBit_entry hbuilt hp).2
  · rw [htags p hp, tags_lead hm hv.1 hp hg, if_pos (reads_iff.mp hr)]
  · rw [htags p hp, tags_lead hm hv.1 hp hg, if_neg (fun h => hr (reads_iff.mpr h))]

/-! ### The run -/

/-- The writes for a VLAN. -/
def block (devid : Devid) (ports : ℕ → Option Bytes) (v : ℕ) : List Write := (vlanWrites devid (ports v) v).getD []

/-- What the switch holds when the VLANs below `n` are done. -/
structure Ran (m : Machine) (ports : ℕ → Option Bytes) (n : ℕ) (f f' : File) : Prop where
  members : ∀ v < n, Configures m.devid v → ∀ p < m.devid.ports,
    ((f'.table v).toNat.testBit p = true ↔ Reads (ports v) p)
  untagged : ∀ v < n, Configures m.devid v → ∀ p < m.devid.ports,
    ((f'.table v).toNat.testBit (p + m.devid.ports) = true ↔ ReadsPlain m.devid (ports v) p)
  tag : ∀ p, p + 1 < m.devid.ports → ∀ v < n, Configures m.devid v → Reads (ports v) p →
    (∀ v' < n, v < v' → ¬Reads (ports v') p) → f'.tag p = v
  tag_of_not : ∀ p, p + 1 < m.devid.ports → (∀ v < n, Configures m.devid v → ¬Reads (ports v) p) → f'.tag p = f.tag p

section Run

variable {m : Machine} {ports : ℕ → Option Bytes} {f f' g : File} {n : ℕ}

/-- A VLAN that is not configured. -/
theorem Ran.skip (h : Ran m ports n f g) (hn : ¬Configures m.devid n) : Ran m ports (n + 1) f g where
  members v hv hc := h.members v (Nat.lt_of_le_of_ne (Nat.le_of_lt_succ hv) fun heq => hn (heq ▸ hc)) hc
  untagged v hv hc := h.untagged v (Nat.lt_of_le_of_ne (Nat.le_of_lt_succ hv) fun heq => hn (heq ▸ hc)) hc
  tag p hp v hv hc hr hall := h.tag p hp v (Nat.lt_of_le_of_ne (Nat.le_of_lt_succ hv) fun heq => hn (heq ▸ hc)) hc hr
    fun v' hv' => hall v' (Nat.lt_succ_of_lt hv')
  tag_of_not p hp hall := h.tag_of_not p hp fun v hv => hall v (Nat.lt_succ_of_lt hv)

/-- **A turn.** -/
theorem Ran.step (h : Ran m ports n f g) (hset : VlanSet m (ports n) n g f') (hc : Configures m.devid n) :
    Ran m ports (n + 1) f f' where
  members v hv hcv p hp := by
    rcases Nat.lt_succ_iff_lt_or_eq.mp hv with hlt | rfl
    · rw [hset.others v (by omega), h.members v hlt hcv p hp]
    · exact hset.members p hp
  untagged v hv hcv p hp := by
    rcases Nat.lt_succ_iff_lt_or_eq.mp hv with hlt | rfl
    · rw [hset.others v (by omega), h.untagged v hlt hcv p hp]
    · exact hset.untagged p hp
  tag p hp v hv hcv hr hall := by
    rcases Nat.lt_succ_iff_lt_or_eq.mp hv with hlt | rfl
    · rw [hset.tag_of_not p hp (hall n (Nat.lt_succ_self n) hlt)]
      exact h.tag p hp v hlt hcv hr fun v' hv' => hall v' (Nat.lt_succ_of_lt hv')
    · exact hset.tag p hp hr
  tag_of_not p hp hall := by
    rw [hset.tag_of_not p hp (hall n (Nat.lt_succ_self n) hc)]
    exact h.tag_of_not p hp fun v hv => hall v (Nat.lt_succ_of_lt hv)

theorem ran_of_leads (hm : m.Straight) (hsome : ∀ v < n, (vlanWrites m.devid (ports v) v).isSome = true) (hn : n ≤ 16)
    (h : Leads m ((List.range n).flatMap (block m.devid ports)) f f') : Ran m ports n f f' := by
  induction n generalizing f' with
  | zero =>
    exact ⟨fun _ hv => absurd hv (Nat.not_lt_zero _), fun _ hv => absurd hv (Nat.not_lt_zero _),
      fun _ _ _ hv => absurd hv (Nat.not_lt_zero _), fun _ _ _ => h ▸ rfl⟩
  | succ n ih =>
    rw [List.range_succ, List.flatMap_append, List.flatMap_singleton] at h
    obtain ⟨g, hg, h⟩ := leads_append.mp h
    have hran := ih (fun v hv => hsome v (Nat.lt_succ_of_lt hv)) (by omega) hg
    obtain ⟨ws, hws⟩ := Option.isSome_iff_exists.mp (hsome n (Nat.lt_succ_self n))
    rw [block, hws, Option.getD_some] at h
    by_cases hskip : m.devid = .devid5397 ∧ n = 0
    · have hnil : ws = [] := by
        unfold vlanWrites at hws
        rw [if_pos hskip] at hws
        exact (Option.some_inj.mp hws).symm
      rw [hnil] at h
      exact h ▸ hran.skip fun hc => hc.2 hskip
    · have hc : Configures m.devid n := ⟨by omega, hskip⟩
      exact hran.step (vlanSet_of_leads hm hc hws h) hc

end Run

theorem mapM_eq_some {α β : Type} {g : α → Option (List β)} : ∀ {l : List α} {ys : List (List β)},
    l.mapM g = some ys ↔ (∀ x ∈ l, (g x).isSome = true) ∧ ys = l.map fun x => (g x).getD []
  | [], ys => by
    rw [List.mapM_nil]
    exact ⟨fun h => ⟨nofun, (Option.some_inj.mp h).symm⟩, fun h => h.2 ▸ rfl⟩
  | x :: l, ys => by
    rw [List.mapM_cons, List.forall_mem_cons, List.map_cons]
    cases hx : g x with
    | none => exact iff_of_false nofun fun h => Bool.false_ne_true h.1.1
    | some y =>
      have ih := @mapM_eq_some _ _ g l
      cases hl : l.mapM g with
      | none =>
        have hnot : ¬∀ x ∈ l, (g x).isSome = true := fun hall => by
          have := ih.mpr ⟨hall, rfl⟩
          rw [hl] at this
          cases this
        exact iff_of_false nofun fun h => hnot h.1.2
      | some zs =>
        obtain ⟨hall, rfl⟩ := ih.mp hl
        simp only [Option.bind_eq_bind, Option.bind_some, Option.pure_def, Option.isSome_some, Option.getD_some,
          Option.some_inj]
        exact ⟨fun heq => ⟨⟨trivial, hall⟩, heq.symm⟩, fun heq => heq.2.symm⟩

theorem configWrites_eq_some {devid : Devid} {ports : ℕ → Option Bytes} {ws : List Write} :
    configWrites devid ports = some ws ↔ (∀ v < 16, (vlanWrites devid (ports v) v).isSome = true) ∧
      ws = ctrlWrites devid ++ (List.range 16).flatMap (block devid ports) ++ pmapWrites devid := by
  rw [configWrites, Option.map_eq_some_iff]
  constructor
  · rintro ⟨vlans, hvlans, rfl⟩
    obtain ⟨hall, rfl⟩ := mapM_eq_some.mp hvlans
    exact ⟨fun v hv => hall v (List.mem_range.mpr hv), by rw [← List.flatMap_def]; rfl⟩
  · rintro ⟨hall, rfl⟩
    refine ⟨_, mapM_eq_some.mpr ⟨fun v hv => hall v (List.mem_range.mp hv), rfl⟩, ?_⟩
    rw [← List.flatMap_def]
    rfl

theorem ctrl_tag {m : Machine} {f f' : File} (h : Leads m (ctrlWrites m.devid) f f') {p : ℕ} (hp : p < 9) :
    f'.tag p = f.tag p := by
  have hne : ∀ p < 9, ∀ devid : Devid, ∀ w ∈ ctrlWrites devid,
      (pageVlan, 0x10 + 2 * UInt8.ofNat p) ≠ (w.page, w.reg) := by
    intro p hp devid
    have hreg : ∀ p < 9, ∀ r ∈ [regVlanCtrl0, regVlanCtrl1, regVlanCtrl4, regVlanCtrl5],
        0x10 + 2 * UInt8.ofNat p ≠ r := by
      decide
    cases devid <;> simp [ctrlWrites, hreg p hp]
  unfold File.tag
  rw [leads_regs (hne p hp m.devid) h]

theorem ctrl_table {m : Machine} {f f' : File} (h : Leads m (ctrlWrites m.devid) f f') : f'.table = f.table := by
  have hne : ∀ devid : Devid, ∀ w ∈ ctrlWrites devid, (w.page, w.reg) ≠ devid.access := by
    intro devid
    cases devid <;> simp [ctrlWrites] <;> decide
  exact leads_table (hne m.devid) h

theorem pmap_spec {m : Machine} {f f' : File} (h : Leads m (pmapWrites m.devid) f f') :
    f'.table = f.table ∧ ∀ p, p + 1 < m.devid.ports → f'.tag p = f.tag p := by
  unfold pmapWrites at h
  split_ifs at h with hd
  · have hne : ∀ p < 5, 0x10 + 2 * UInt8.ofNat p ≠ regVlanPmap := by decide
    have haccess : (pageVlan, regVlanPmap) ≠ m.devid.access := by
      rw [hd]
      decide
    refine ⟨leads_table (by simpa using haccess) h, fun p hp => ?_⟩
    rw [hd] at hp
    unfold File.tag
    rw [leads_regs (by simpa using hne p (by simp [Devid.ports] at hp; omega)) h]
  · exact h ▸ ⟨rfl, fun _ _ => rfl⟩

theorem valid_append {ws ws' : List Write} : Valid (ws ++ ws') ↔ Valid ws ∧ Valid ws' := List.forall_mem_append

theorem valid_setup (devid : Devid) (vid : ℕ) (val32 : UInt32) : Valid (setupWrites devid vid val32) := by
  unfold setupWrites Valid
  split_ifs <;> simp <;> decide

theorem valid_tags (devid : Devid) (vid : ℕ) (texts : List Bytes) : Valid (texts.flatMap (tagWrites devid vid)) := by
  have hreg : ∀ p < 9, 0x10 + 2 * UInt8.ofNat p ≠ regSpiPage := by decide
  intro w hw
  obtain ⟨port, -, hw⟩ := List.mem_flatMap.mp hw
  obtain ⟨p, hp, -, rfl⟩ := mem_tagWrites hw
  exact ⟨hreg p (hp.trans_le (ports_le devid)), Or.inr (Or.inl rfl)⟩

/-- The writes for a VLAN that is configured. -/
theorem block_cases (devid : Devid) (ports : ℕ → Option Bytes) (v : ℕ) : block devid ports v = [] ∨
    ∃ val32, block devid ports v =
      (textsOf (ports v)).flatMap (tagWrites devid v) ++ setupWrites devid v val32 := by
  unfold block
  cases hws : vlanWrites devid (ports v) v with
  | none => exact Or.inl rfl
  | some ws =>
    by_cases hskip : devid = .devid5397 ∧ v = 0
    · unfold vlanWrites at hws
      rw [if_pos hskip] at hws
      exact Or.inl (Option.some_inj.mp hws).symm
    · obtain ⟨vlan, -, rfl⟩ := vlanWrites_some hskip hws
      exact Or.inr ⟨_, rfl⟩

theorem valid_config {devid : Devid} {ports : ℕ → Option Bytes} {ws : List Write}
    (h : configWrites devid ports = some ws) : Valid ws := by
  obtain ⟨-, rfl⟩ := configWrites_eq_some.mp h
  refine valid_append.mpr ⟨valid_append.mpr ⟨?_, fun w hw => ?_⟩, ?_⟩
  · unfold ctrlWrites Valid
    split_ifs <;> simp <;> decide
  · obtain ⟨v, -, hw⟩ := List.mem_flatMap.mp hw
    rcases block_cases devid ports v with hnil | ⟨val32, heq⟩
    · rw [hnil] at hw
      exact absurd hw List.not_mem_nil
    · rw [heq] at hw
      exact valid_append.mpr ⟨valid_tags devid v _, valid_setup devid v val32⟩ w hw
  · unfold pmapWrites Valid
    split_ifs
    · simp
      decide
    · exact nofun

/-- **The driver leads where the writes do.** -/
theorem configVlan_leads {m : Machine} {vars : List CStr} {nv : VarMap} {s s' : Robo} (hs : Coherent s)
    (h : configVlan m vars nv s = some s') : ∃ ws, configWrites m.devid (portsOf vars nv) = some ws ∧
      Leads m ws s.chip.file s'.chip.file := by
  obtain ⟨ws, hws, rfl⟩ := Option.map_eq_some_iff.mp h
  refine ⟨ws, hws, exec_leads (fun w hw => ?_) (valid_config hws)⟩
  obtain ⟨-, rfl⟩ := configWrites_eq_some.mp hws
  cases hw
  exact hs

/-! ### Bytes in the wrong order -/

section Swapped

variable {m : Machine} {f f' : File} {vid : ℕ}

theorem toNat_swapped : ∀ v < 16,
    (received (memory .big 2 (bit 13 ||| bit 12 ||| UInt32.ofNat v))).toNat = 256 * v + 0x30 ∧
    (received (memory .big 2 (UInt32.ofNat v))).toNat = 256 * v ∧ (256 * v + 0x30).testBit 13 = false := by
  decide

theorem setup_swapped (hm : m.bus = .spi ∧ m.order = .big) (hv : vid < 16) {val32 : UInt32}
    (h : Leads m (setupWrites m.devid vid val32) f f') : f'.table 1 = f.table 1 := by
  obtain ⟨haccess, hindex, hstart⟩ := toNat_swapped vid hv
  unfold setupWrites at h
  by_cases hd : m.devid = .devid5325
  · rw [if_pos hd] at h
    obtain ⟨x, hx, y, hy, rfl⟩ := h
    rw [Arrives, if_pos hm] at hy
    have hnot : y.toNat.testBit 13 = false := by
      rw [show y = _ from hy]
      dsimp only
      rw [haccess, hstart]
    dsimp only
    rw [table_write_idle hd hnot, table_write]
    rw [hd]
    decide
  · rw [if_neg hd] at h
    obtain ⟨x, hx, y, hy, z, hz, rfl⟩ := h
    rw [Arrives, if_pos hm] at hy hz
    have hone : y.toNat % 2 ^ 12 ≠ 1 := by
      rw [show y = _ from hy]
      dsimp only
      rw [hindex]
      omega
    have hcommand : z.toNat % 2 ^ 8 = 0x80 := by
      rw [show z = _ from hz]
      rfl
    dsimp only
    rw [write_access_539x hd hcommand, regs_write, if_pos ⟨rfl, rfl⟩, Function.update_of_ne hone.symm, table_write,
      table_write]
    · rw [access_539x hd]
      decide
    · rw [access_539x hd]
      decide

/-- What every VLAN keeps. -/
theorem Leads.flatMap_inv {P : File → Prop} {row : ℕ → List Write} {n : ℕ} (hstep : ∀ v < n, ∀ g g',
    Leads m (row v) g g' → P g → P g') (hf : P f) (h : Leads m ((List.range n).flatMap row) f f') : P f' := by
  induction n generalizing f' with
  | zero => exact h ▸ hf
  | succ n ih =>
    rw [List.range_succ, List.flatMap_append, List.flatMap_singleton] at h
    obtain ⟨g, hg, h⟩ := leads_append.mp h
    exact hstep n (Nat.lt_succ_self n) g f' h (ih (fun v hv => hstep v (Nat.lt_succ_of_lt hv)) hg)

theorem config_swapped (hm : m.bus = .spi ∧ m.order = .big) {ports : ℕ → Option Bytes} {ws : List Write}
    (hws : configWrites m.devid ports = some ws) (h : Leads m ws f f') : f'.table 1 = f.table 1 := by
  obtain ⟨-, rfl⟩ := configWrites_eq_some.mp hws
  obtain ⟨g₂, h, hpmap⟩ := leads_append.mp h
  obtain ⟨g₁, hctrl, h⟩ := leads_append.mp h
  rw [(pmap_spec hpmap).1, ← ctrl_table hctrl]
  refine h.flatMap_inv (P := fun g => g.table 1 = g₁.table 1) (fun v hv g g' hlead hg => ?_) rfl
  rcases block_cases m.devid ports v with hnil | ⟨val32, heq⟩
  · rw [hnil] at hlead
    exact hlead ▸ hg
  · rw [heq] at hlead
    obtain ⟨k, htags, hsetup⟩ := leads_append.mp hlead
    rw [setup_swapped hm hv hsetup, tags_table htags, hg]

end Swapped

/-! ### What the switch comes out as -/

theorem ran_of_config {m : Machine} {ports : ℕ → Option Bytes} {ws : List Write} {f f' : File} (hm : m.Straight)
    (hws : configWrites m.devid ports = some ws) (h : Leads m ws f f') : Ran m ports 16 f f' := by
  obtain ⟨hsome, rfl⟩ := configWrites_eq_some.mp hws
  obtain ⟨g₂, h, hpmap⟩ := leads_append.mp h
  obtain ⟨g₁, hctrl, h⟩ := leads_append.mp h
  have hran := ran_of_leads hm hsome le_rfl h
  obtain ⟨htable, htag⟩ := pmap_spec hpmap
  have hports := ports_le m.devid
  exact {
    members := fun v hv hc p hp => htable ▸ hran.members v hv hc p hp
    untagged := fun v hv hc p hp => htable ▸ hran.untagged v hv hc p hp
    tag := fun p hp v hv hc hr hall => (htag p hp).trans (hran.tag p hp v hv hc hr hall)
    tag_of_not := fun p hp hall =>
      (htag p hp).trans ((hran.tag_of_not p hp hall).trans (ctrl_tag hctrl (by omega))) }

/-- The bytes of the host arrive in order. -/
structure Good (m : Machine) (ports : ℕ → Option Bytes) : Prop where
  straight : m.bus = .mii ∨ m.order = .little
  readable : ∀ v, Configures m.devid v → Readable m.devid (ports v)
  higher : m.devid = .devid5397 → ∀ p, p + 1 < m.devid.ports → Lists (ports 0) p →
    ∃ v, 0 < v ∧ v < 16 ∧ Lists (ports v) p

section Follows

variable {m : Machine} {vars : List CStr} {nv : VarMap}

theorem lt_ports {devid : Devid} {p : ℕ} (hp : p + 1 < devid.ports) : p < devid.ports := by omega

/-- A VLAN above another one is configured. -/
theorem configures_of_lt {devid : Devid} {v v' : ℕ} (hv' : v' < 16) (h : v < v') : Configures devid v' :=
  ⟨hv', fun hc => by omega⟩

/-- **What is read is what is written.** -/
theorem follows_of_good (h : Good m (portsOf vars nv)) : Follows m vars nv := by
  intro s hs
  have hm : m.Straight := by
    rintro ⟨hbus, horder⟩
    rcases h.straight with hs | hs
    · rw [hbus] at hs
      cases hs
    · rw [horder] at hs
      cases hs
  have hsome : ∀ v < 16, (vlanWrites m.devid (portsOf vars nv v) v).isSome = true := by
    intro v hv
    by_cases hskip : m.devid = .devid5397 ∧ v = 0
    · unfold vlanWrites
      rw [if_pos hskip]
      rfl
    · exact (vlanWrites_isSome hskip).mpr (h.readable v ⟨hv, hskip⟩).nonneg
  have hws := configWrites_eq_some.mpr ⟨hsome, rfl⟩
  obtain ⟨s', hs'⟩ : ∃ s', configVlan m vars nv s = some s' := ⟨_, congrArg _ hws⟩
  obtain ⟨ws, hws, hlead⟩ := configVlan_leads hs hs'
  have hran := ran_of_config hm hws hlead
  refine ⟨s', hs', fun v hv p hp => ?_, fun v hv p hp => ?_, fun p hp v hv hlist hall => ?_⟩
  · exact (hran.members v hv.1 hv p hp).trans ((h.readable v hv).listed p hp)
  · exact (hran.untagged v hv.1 hv p hp).trans ((h.readable v hv).plain p hp)
  · have hc : Configures m.devid v := by
      refine ⟨hv, ?_⟩
      rintro ⟨hd, rfl⟩
      obtain ⟨v', hpos, hv', hlist'⟩ := h.higher hd p hp hlist
      exact hall v' hv' hpos hlist'
    refine hran.tag p hp v hv hc (((h.readable v hc).listed p (lt_ports hp)).mpr hlist) fun v' hv' hlt hr => ?_
    exact hall v' hv' hlt (((h.readable v' (configures_of_lt hv' hlt)).listed p (lt_ports hp)).mp hr)

/-- A switch before it is configured: the same in every register, the same in every entry. -/
def fresh (reg entry : UInt32) : Robo := ⟨0xff, 0xff, (0, 0), fun _ _ => reg, fun _ => entry⟩

theorem coherent_fresh (reg entry : UInt32) : Coherent (fresh reg entry) := fun h => absurd h (of_decide_eq_true rfl)

/-- Over SPI the bytes of a big-endian host leave VLAN 1 as it was. -/
theorem not_follows_of_swapped (hm : m.bus = .spi ∧ m.order = .big) : ¬Follows m vars nv := by
  intro h
  have hone : Configures m.devid 1 := ⟨by omega, fun hc => by omega⟩
  have hports : 0 < m.devid.ports := by cases m.devid <;> decide
  have hbit : ∀ entry : UInt32, entry.toNat.testBit 0 = true ↔ Lists (portsOf vars nv 1) 0 := by
    intro entry
    obtain ⟨s', hs', hconf⟩ := h (fresh 0 entry) (coherent_fresh 0 entry)
    obtain ⟨ws, hws, hlead⟩ := configVlan_leads (coherent_fresh 0 entry) hs'
    rw [← hconf.members 1 hone 0 hports, config_swapped hm hws hlead]
    rfl
  have hzero : Lists (portsOf vars nv 1) 0 := (hbit 1).mp (of_decide_eq_true rfl)
  exact Bool.false_ne_true ((hbit 0).mpr hzero)

theorem good_of_follows (h : Follows m vars nv) : Good m (portsOf vars nv) := by
  have hstraight : m.Straight := fun hm => not_follows_of_swapped hm h
  have hreads : ∀ v, Configures m.devid v → Readable m.devid (portsOf vars nv v) := by
    intro v hv
    obtain ⟨s', hs', hconf⟩ := h (fresh 0 0) (coherent_fresh 0 0)
    obtain ⟨ws, hws, hlead⟩ := configVlan_leads (coherent_fresh 0 0) hs'
    have hran := ran_of_config hstraight hws hlead
    refine ⟨?_, fun p hp => ?_, fun p hp => ?_⟩
    · exact (vlanWrites_isSome hv.2).mp ((configWrites_eq_some.mp hws).1 v hv.1)
    · exact (hran.members v hv.1 hv p hp).symm.trans (hconf.members v hv p hp)
    · exact (hran.untagged v hv.1 hv p hp).symm.trans (hconf.untagged v hv p hp)
  refine ⟨?_, hreads, fun hd p hp hlist => ?_⟩
  · cases hbus : m.bus with
    | mii => exact Or.inl rfl
    | spi =>
      cases horder : m.order with
      | little => exact Or.inr rfl
      | big => exact absurd ⟨hbus, horder⟩ hstraight
  · by_contra hnone
    have hnot : ∀ v, 0 < v → v < 16 → ¬Lists (portsOf vars nv v) p := fun v hpos hv hl => hnone ⟨v, hpos, hv, hl⟩
    obtain ⟨s', hs', hconf⟩ := h (fresh 1 0) (coherent_fresh 1 0)
    obtain ⟨ws, hws, hlead⟩ := configVlan_leads (coherent_fresh 1 0) hs'
    have hzero : s'.chip.file.tag p = 0 := hconf.tag p hp 0 (by omega) hlist fun v hv hpos => hnot v hpos hv
    have hkept : s'.chip.file.tag p = (fresh 1 0).chip.file.tag p :=
      (ran_of_config hstraight hws hlead).tag_of_not p hp fun v hv hc hr => by
        have hpos : 0 < v := Nat.pos_of_ne_zero fun hv0 => hc.2 ⟨hd, hv0⟩
        exact hnot v hpos hv (((hreads v hc).listed p (lt_ports hp)).mp hr)
    rw [hzero] at hkept
    exact absurd hkept (of_decide_eq_true rfl)

end Follows

/-- **The switch follows NVRAM exactly if** the host's bytes arrive in order and the texts can be read. -/
theorem follows_iff (m : Machine) (vars : List CStr) (nv : VarMap) :
    Follows m vars nv ↔ Good m (portsOf vars nv) := ⟨good_of_follows, follows_of_good⟩

/-- Over SPI a big-endian host writes no entry. -/
theorem swapped_not_follows : ¬∀ m vars nv, Follows m vars nv :=
  fun h => not_follows_of_swapped ⟨rfl, rfl⟩ (h ⟨.devid5325, .spi, .big⟩ [] ∅)

/-! ### Texts that can be read -/

theorem digit_facts : ∀ c : UInt8, isDigit c = true → bcmIsspace c = false ∧ c ≠ 45 ∧ c ≠ 43 ∧ bcmIsdigit c = true ∧
    bcmIsxdigit c = true ∧ (c - 48).toUInt32 < 10 ∧ (c - 48).toUInt32.toNat = c.toNat - 48 ∧ c.toNat - 48 < 10 :=
  forall_byte.mpr (by decide +kernel)

/-- The digit loop to base 10, where the number has room. -/
theorem toNat_strtoulDigits : ∀ {l : Bytes} {r : UInt32} (_ : (r.toNat + 1) * 10 ^ l.length ≤ 2 ^ 31),
    (strtoulDigits 10 r l).1.toNat = (l.takeWhile isDigit).foldl (fun n c => 10 * n + (c.toNat - 48)) r.toNat ∧
      (strtoulDigits 10 r l).1.toNat < 2 ^ 31
  | [], r, h => by
    rw [List.length_nil, pow_zero] at h
    have hlt : r.toNat < 2 ^ 31 := by omega
    exact ⟨rfl, hlt⟩
  | c :: l, r, h => by
    have hpow : 1 ≤ 10 ^ l.length := Nat.one_le_pow _ _ (by omega)
    rw [List.length_cons, pow_succ] at h
    have hr : (r.toNat + 1) * 10 ≤ 2 ^ 31 := by nlinarith
    unfold strtoulDigits
    dsimp only
    cases hc : isDigit c with
    | true =>
      obtain ⟨-, -, -, hdigit, hxdigit, hlt, hval, hten⟩ := digit_facts c hc
      have hstep : (r * 10 + (c - 48).toUInt32).toNat = 10 * r.toNat + (c.toNat - 48) := by
        rw [UInt32.toNat_add, UInt32.toNat_mul, hval]
        change (r.toNat * 10 % 2 ^ 32 + (c.toNat - 48)) % 2 ^ 32 = _
        omega
      have ih := @toNat_strtoulDigits l (r * 10 + (c - 48).toUInt32) (by rw [hstep]; nlinarith)
      rw [if_pos hdigit, hxdigit, decide_eq_true hlt, Bool.true_and, if_pos rfl, List.takeWhile_cons_of_pos hc,
        List.foldl_cons, ← hstep]
      exact ih
    | false =>
      have hstop : (bcmIsxdigit c &&
          (if bcmIsdigit c then (c - 48).toUInt32 else (bcmToupper c - 65 + 10).toUInt32) < 10) = false :=
        (isDigit_iff_digitIn (b := 10) (by omega) c).trans ((digitIn_ten c).trans hc)
      rw [hstop, if_neg Bool.false_ne_true,
        List.takeWhile_cons_of_neg (by rw [hc]; exact Bool.false_ne_true)]
      exact ⟨rfl, by dsimp only; omega⟩

theorem bcmAtoi_eq {s : Bytes} (hlen : s.length ≤ 4) (hne : s.takeWhile isDigit ≠ []) :
    bcmAtoi s = digitsVal (s.takeWhile isDigit) := by
  cases s with
  | nil => exact absurd rfl hne
  | cons c l =>
    cases hc : isDigit c with
    | false => exact absurd (List.takeWhile_cons_of_neg (by rw [hc]; exact Bool.false_ne_true)) hne
    | true =>
      obtain ⟨hspace, hminus, hplus, -⟩ := digit_facts c hc
      have hbound : ((0 : UInt32).toNat + 1) * 10 ^ (c :: l).length ≤ 2 ^ 31 := by
        have hpow : 10 ^ (c :: l).length ≤ 10 ^ 4 := Nat.pow_le_pow_right (by omega) hlen
        calc ((0 : UInt32).toNat + 1) * 10 ^ (c :: l).length
          _ = 10 ^ (c :: l).length := Nat.one_mul _
          _ ≤ 2 ^ 31 := by omega
      obtain ⟨hval, hlt⟩ := toNat_strtoulDigits hbound
      have hstr : (bcmStrtoul (c :: l) 10).1 = (strtoulDigits 10 0 (c :: l)).1 := by
        unfold bcmStrtoul
        rw [List.dropWhile_cons_of_neg (by rw [hspace]; exact Bool.false_ne_true)]
        simp [hminus, hplus]
      have hdouble : 2 * (strtoulDigits 10 0 (c :: l)).1.toNat < 2 ^ 32 := by omega
      have hint : (strtoulDigits 10 0 (c :: l)).1.toInt32.toInt = (strtoulDigits 10 0 (c :: l)).1.toNat :=
        BitVec.toInt_eq_toNat_of_lt hdouble
      rw [bcmAtoi, hstr, hint, hval]
      rfl

theorem mem_words {s token : Bytes} (hs : ∀ token ∈ tokens s, token.length ≤ 4) :
    token ∈ words 5 s ↔ token ∈ tokens s := by
  have hwords : words 5 s = tokens s := by
    unfold words tokens
    refine (List.map_congr_left fun w hw => List.take_of_length_le (hs w hw)).trans (List.map_id _)
  rw [hwords]

/-- Texts of a number and its flags, in four characters at most, are read as they are meant. -/
theorem readable_of_short (devid : Devid) {ports : Option Bytes}
    (h : ∀ s ∈ ports, ∀ token ∈ tokens s, token.length ≤ 4 ∧ token.takeWhile isDigit ≠ []) : Readable devid ports := by
  have hread : ∀ s ∈ ports, ∀ token ∈ tokens s, ∀ p : ℕ, bcmAtoi token = p ↔ number token = some p := by
    intro s hs token htoken p
    obtain ⟨hlen, hne⟩ := h s hs token htoken
    rw [bcmAtoi_eq hlen hne, number, if_neg hne, Option.some_inj, Int.natCast_inj]
  have hmem : ∀ s ∈ ports, ∀ token, token ∈ words 5 s ↔ token ∈ tokens s :=
    fun s hs token => mem_words fun token htoken => (h s hs token htoken).1
  refine ⟨fun s hs token htoken => ?_, fun p _ => ?_, fun p _ => ?_⟩
  · rw [hmem s hs] at htoken
    obtain ⟨hlen, hne⟩ := h s hs token htoken
    rw [bcmAtoi_eq hlen hne]
    exact Int.natCast_nonneg _
  · refine exists_congr fun s => and_congr_right fun hs => exists_congr fun token => ?_
    rw [hmem s hs]
    exact and_congr_right fun htoken => hread s hs token htoken p
  · refine exists_congr fun s => and_congr_right fun hs => exists_congr fun token => ?_
    rw [hmem s hs]
    exact and_congr_right fun htoken => and_congr_left fun _ => hread s hs token htoken p

end Vlans
end Bcm
end Router
