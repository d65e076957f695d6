/-
# The table of wireless profiles

`router/httpd/web_ex.c`: four slots `pf1_` to `pf4_`, each of fourteen variables, and the actions of the page that
save, delete and move a profile (`save_PROFILE_group`, `del_PROFILE_group`, `moveup_PROFILE_group`,
`movedown_PROFILE_group`). Slots are used from the last one on, and `PROFILE_compressing` is to close the gaps.

It does so for every variable but `passwd`, and its passes start further and further back, so a gap may stay.
`profiles_of_run` says which actions keep the table in order and each network with its own credentials.

What `nvram_set` returns is not looked at; whether it succeeds is an input (`room`). A text that does not fit its
array on the stack is `none`: what happens then C does not say. `strcmp` of a variable that the form does not have ends
the process, with NVRAM as it is then. What the actions return is left out. A `char` is signed.
-/
import RouterFirmware.Lib.Run
import RouterFirmware.Lib.Text
import RouterFirmware.Nvram.Refine

namespace Router
namespace Httpd

open CMem CText
open Nvram (VarMap)

/-! ### Variables -/

/-- The variables of a slot, in the order of the source. -/
inductive Field where
  | ssid
  | ssid2
  | authMode
  | wpaMode
  | crypto
  | wpaPsk
  | wepX
  | phrase
  | key1
  | key2
  | key3
  | key4
  | key
  | passwd
deriving DecidableEq

def Field.name : Field → String
  | ssid => "ssid"
  | ssid2 => "ssid2"
  | authMode => "auth_mode"
  | wpaMode => "wpa_mode"
  | crypto => "crypto"
  | wpaPsk => "wpa_psk"
  | wepX => "wep_x"
  | phrase => "phrase"
  | key1 => "key1"
  | key2 => "key2"
  | key3 => "key3"
  | key4 => "key4"
  | key => "key"
  | passwd => "passwd"

/-- `""`. -/
def noText : CStr := .lit ""

/-- `sprintf(tmpstr1, "pf%d_%s", idx, name)`. -/
def pfName (f : Field) (idx : ℕ) : CStr := cstr (bytes "pf" ++ decimal idx ++ bytes "_" ++ bytes f.name)

/-- `nvram_get_x("", name)`, which is `nvram_safe_get`. -/
def nvramGetX (nv : VarMap) (name : CStr) : CStr := (nv.lookup name).getD noText

/-- `nvram_get_i3(name, idx)`, for `idx` from 1 to 4. -/
def nvramGetI3 (nv : VarMap) (f : Field) (idx : ℕ) : CStr := nvramGetX nv (pfName f idx)

/-- Whether there is room for a variable. -/
abbrev Room := VarMap → CStr → CStr → Bool

/-- `nvram_set(name, value)`, where no value unsets. -/
def nvramSet (room : Room) (nv : VarMap) (name : CStr) : Option CStr → VarMap
  | some value => if room nv name value then nv.insert name value else nv
  | none => nv.erase name

/-- `nvram_set_i3(name, idx, value)`. -/
def nvramSetI3 (room : Room) (nv : VarMap) (f : Field) (idx : ℕ) (value : Option CStr) : VarMap :=
  if 1 ≤ idx ∧ idx ≤ 4 then nvramSet room nv (pfName f idx) value else nv

/-- Variables of one slot set, one after the other. -/
def setFields (room : Room) (idx : ℕ) (sets : List (Field × Option CStr)) (nv : VarMap) : VarMap :=
  sets.foldl (fun nv s => nvramSetI3 room nv s.1 idx s.2) nv

/-- Variables of one slot set to those of another, one after the other. -/
def copyFields (room : Room) (src dst : ℕ) (fs : List Field) (nv : VarMap) : VarMap :=
  fs.foldl (fun nv f => nvramSetI3 room nv f dst (some (nvramGetI3 nv f src))) nv

/-- What stands in a slot. -/
abbrev Table := ℕ → Field → CStr

def table (nv : VarMap) : Table := fun i f => nvramGetI3 nv f i

/-! ### SSIDs in ASCII -/

/-- `%.02X`, of a `char`. -/
def hexOf (c : UInt8) : Bytes :=
  let digit (n : ℕ) : UInt8 := if n < 10 then .ofNat (48 + n) else .ofNat (55 + n)
  (if 128 ≤ c then bytes "FFFFFF" else []) ++ [digit (c.toNat / 16), digit (c.toNat % 16)]

/-- A character that stays; an apostrophe does not, as it is compared with a string. -/
def stays (c : UInt8) : Bool :=
  isDigit c || (65 ≤ c && c ≤ 90) || (97 ≤ c && c ≤ 122) || c ∈ bytes "!*()_-."

/-- A turn of the loop of `char_to_ascii`: the array, and where `ptr` is. -/
def asciiStep (size : ℕ) (s : Mem × ℕ) (c : UInt8) : Option (Mem × ℕ) :=
  if stays c then if s.2 < size then some (write s.1 s.2 [c], s.2 + 1) else none
  else
    let tmp := 37 :: hexOf c ++ [0]
    if s.2 + tmp.length ≤ size then some (write s.1 s.2 tmp, s.2 + 3) else none

/-- `char_to_ascii(output, input)`, into an array of `size` zeros. -/
def charToAscii (size : ℕ) (input : CStr) : Option CStr := do
  let (output, ptr) ← input.bytes.foldlM (asciiStep size) (fun _ => 0, 0)
  if ptr + 1 < size then some (readStr (write output (ptr + 1) [0]) 0 size) else none

/-! ### `PROFILE_compressing` -/

/-- The variables that it copies, besides the SSID. -/
def compressed : List Field :=
  [.authMode, .wpaMode, .crypto, .wpaPsk, .wepX, .phrase, .key1, .key2, .key3, .key4, .key]

/-- The body of the inner loop. -/
def compressStep (room : Room) (nv : VarMap) (i : ℕ) : Option VarMap :=
  if nvramGetI3 nv .ssid i ≠ noText ∧ nvramGetI3 nv .ssid (i + 1) = noText then do
    let nv := copyFields room i (i + 1) [.ssid] nv
    let ssidStr ← charToAscii 128 (nvramGetI3 nv .ssid i)
    let nv := nvramSetI3 room nv .ssid2 (i + 1) (some ssidStr)
    let nv := copyFields room i (i + 1) compressed nv
    some (setFields room i ((.ssid :: .ssid2 :: compressed).map fun f => (f, some noText)) nv)
  else some nv

/-- `for (j=1; j<4; j++) for (i=j; i<4; i++)`. -/
def passes : List ℕ := (List.range' 1 3).flatMap fun j => List.range' j (4 - j)

/-- `PROFILE_compressing()`. -/
def profileCompressing (room : Room) (nv : VarMap) : Option VarMap :=
  if [1, 2, 3, 4].all fun i => nvramGetI3 nv .ssid i = noText then some nv
  else passes.foldlM (compressStep room) nv

/-! ### The actions -/

/-- `websGetVar(wp, var, NULL)`. -/
abbrev Form := String → Option CStr

/-- The slot that `save_PROFILE_group` takes: the one with the SSID, or the last that is empty. -/
def saveSlot (nv : VarMap) (ssid : CStr) : Option ℕ :=
  ([4, 3, 2, 1].find? fun i => nvramGetI3 nv .ssid i = ssid) <|>
    [4, 3, 2, 1].find? fun i => nvramGetI3 nv .ssid i = noText

/-- The variable of the key that an index chooses. -/
def keyField (key : CStr) : Option (Field × String) :=
  if key = .lit "1" then some (.key1, "wl_key1")
  else if key = .lit "2" then some (.key2, "wl_key2")
  else if key = .lit "3" then some (.key3, "wl_key3")
  else if key = .lit "4" then some (.key4, "wl_key4")
  else none

/-- What is set from the form behind the SSID, and whether the process comes to the end of it. The names in the form
end in `sfx`. -/
def savedFields (form : Form) (sfx : String) : List (Field × Option CStr) × Bool :=
  let get (name : String) := form (name ++ sfx)
  let auth := get "wl_auth_mode"
  match get "wl_wpa_mode" with
  | none => ([(.authMode, auth)], false)
  | some wpaMode =>
    let sets := [(.authMode, auth), (.wpaMode, some (if wpaMode = .lit "0" then .lit "1" else wpaMode)),
      (.crypto, get "wl_crypto"), (.wpaPsk, get "wl_wpa_psk"), (.wepX, get "wl_wep_x"),
      (.phrase, get "wl_phrase" <|> get "wl_wpa_psk")]
    match get "wl_key" with
    | none => (sets, false)
    | some key =>
      let chosen := (keyField key).map fun k => (k.1, get k.2)
      let sets := sets ++ chosen.toList ++ [(.key, some key)]
      match auth with
      | none => (sets, false)
      | some auth =>
        if auth = .lit "open" ∨ auth = .lit "shared" then
          (sets ++ (chosen.map fun k => (Field.passwd, k.2)).toList, true)
        else (sets ++ [(.passwd, get "wl_wpa_psk")], true)

/-- The first slot that has an SSID. -/
def firstUsed (nv : VarMap) : Option ℕ := [1, 2, 3, 4].find? fun i => nvramGetI3 nv .ssid i ≠ noText

/-- `wl_ap_ssid`, when it is empty. -/
def chooseAp (room : Room) (nv : VarMap) : VarMap :=
  if nvramGetX nv (.lit "wl_ap_ssid") = noText then
    match firstUsed nv with
    | some i => nvramSet room nv (.lit "wl_ap_ssid") (some (nvramGetI3 nv .ssid i))
    | none => nv
  else nv

/-- What `save_PROFILE_group` and `save_PROFILE_group_ure` have in common. -/
def saveProfile (sfx : String) (room : Room) (form : Form) (nv : VarMap) : Option VarMap := do
  let nv ← profileCompressing room nv
  match form ("wl_ssid" ++ sfx) with
  | none => some nv
  | some ssid =>
    match saveSlot nv ssid with
    | none => some nv
    | some idx =>
      let nv := nvramSetI3 room nv .ssid idx (some ssid)
      let ssidStr ← charToAscii 256 ssid
      let nv := nvramSetI3 room nv .ssid2 idx (some ssidStr)
      let (sets, done) := savedFields form sfx
      let nv := setFields room idx sets nv
      some (if done then chooseAp room nv else nv)

/-- The names in the form end in `_ure` on the page of the hot spot. -/
def saveSfx (url : CStr) (nv : VarMap) : String :=
  if url = .lit "Wizard_Gateway.asp" ∧ nvramGetX nv (.lit "wl_hotspot") = .lit "1" then "_ure" else ""

/-- `save_PROFILE_group`, where `current_url_glocal` is `url`. -/
def saveProfileGroup (url : CStr) (room : Room) (form : Form) (nv : VarMap) : Option VarMap :=
  saveProfile (saveSfx url nv) room form nv

/-- `save_PROFILE_group_ure`. -/
def saveProfileGroupUre (room : Room) (form : Form) (nv : VarMap) : Option VarMap := saveProfile "_ure" room form nv

/-- The slot that the form names, or 0. -/
def chosenSlot (form : Form) : ℕ :=
  if (form "pf1_delete").isSome then 1
  else if (form "pf2_delete").isSome then 2
  else if (form "pf3_delete").isSome then 3
  else if (form "pf4_delete").isSome then 4
  else 0

/-- What a slot is set to when it is deleted. -/
def cleared : List (Field × Option CStr) :=
  [(.ssid, some noText), (.ssid2, some noText), (.authMode, some (.lit "open")), (.wpaMode, some (.lit "1")),
    (.crypto, some (.lit "tkip")), (.wpaPsk, some (.lit "12345678")), (.wepX, some (.lit "0")),
    (.phrase, some noText), (.key1, some noText), (.key2, some noText), (.key3, some noText),
    (.key4, some noText), (.key, some (.lit "1")), (.passwd, some noText)]

/-- `wl_ap_ssid`, when no slot has it. The process ends at an SSID that is not set. -/
def replaceAp (room : Room) (nv : VarMap) : VarMap :=
  if nvramGetX nv (.lit "wl_connect_selected") = .lit "1" ∧ nvramGetX nv (.lit "wl_ap_ssid") ≠ noText then
    if [1, 2, 3, 4].all fun i => (nv.lookup (pfName .ssid i)).any (· ≠ nvramGetX nv (.lit "wl_ap_ssid")) then
      let ap := (firstUsed nv).map fun i => nvramGetI3 nv .ssid i
      nvramSet room nv (.lit "wl_ap_ssid") (some (ap.getD noText))
    else nv
  else nv

/-- `del_PROFILE_group`. -/
def delProfileGroup (room : Room) (form : Form) (nv : VarMap) : Option VarMap := do
  let nv ← profileCompressing room (setFields room (chosenSlot form) cleared nv)
  some (replaceAp room nv)

/-- All variables of a slot. -/
def allFields : List Field := [.ssid, .ssid2] ++ compressed ++ [.passwd]

/-- The arrays that the variables of a slot are copied into. -/
def bufSize : Field → ℕ
  | .ssid => 33
  | .ssid2 | .wpaPsk | .phrase | .key1 | .key2 | .key3 | .key4 | .passwd => 128
  | .authMode | .wpaMode | .crypto | .wepX | .key => 32

/-- `strcpy(ssid_str, nvram_get_i3("ssid", idx))` and so on. -/
def saveFields (nv : VarMap) (idx : ℕ) : Option (List (Field × Option CStr)) :=
  allFields.mapM fun f =>
    let value := nvramGetI3 nv f idx
    if value.length < bufSize f then some (f, some value) else none

/-- The contents of two slots, swapped through arrays. -/
def swapSlots (room : Room) (kept other : ℕ) (nv : VarMap) : Option VarMap := do
  let saved ← saveFields nv kept
  some (setFields room other saved (copyFields room other kept allFields nv))

/-- `moveup_PROFILE_group`. -/
def moveupProfileGroup (room : Room) (form : Form) (nv : VarMap) : Option VarMap :=
  let pfIdx := chosenSlot form
  if pfIdx = 1 ∨ pfIdx = 0 then some nv
  else if nvramGetI3 nv .ssid (pfIdx - 1) ≠ noText then swapSlots room (pfIdx - 1) pfIdx nv
  else some nv

/-- `movedown_PROFILE_group`. -/
def movedownProfileGroup (room : Room) (form : Form) (nv : VarMap) : Option VarMap :=
  let pfIdx := chosenSlot form
  if pfIdx = 4 ∨ pfIdx = 0 then some nv
  else if nvramGetI3 nv .ssid (pfIdx + 1) ≠ noText then swapSlots room (pfIdx + 1) pfIdx nv
  else some nv

end Httpd
end Router
