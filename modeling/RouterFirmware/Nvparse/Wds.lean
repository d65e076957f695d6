/-
# Security records of WDS links

`set_wds_wsec` and `get_wds_wsec` of `nvparse.c`: MAC, role, crypto, authentication, SSID and passphrase, with commas
between them, in a variable `wl0_wds0` and so on. Only the passphrase may have a comma. The writer puts the line
together in 10000 bytes and the reader takes it apart in 1000, where a longer one has no end (`getWdsWsec_iff`), so not
all that is set is read back (`wdsWsec_iff`).

A read behind the reader's array is an outcome of its own. The arguments of the caller are taken to be large enough.
-/
import RouterFirmware.Lib.Field
import RouterFirmware.Lib.Number
import RouterFirmware.Nvparse.Records

namespace Router
namespace Nvparse

open CMem CText
open Nvram (VarMap)

/-! ### The source -/

/-- The six arguments, of which the last two are the variable ones. -/
structure WdsWsec where
  mac : CStr
  role : CStr
  crypto : CStr
  auth : CStr
  ssid : CStr
  passphrase : CStr
deriving DecidableEq

/-- `snprintf(name, sizeof(name), "wl%d_wds%d", unit, which)`, where `name` has 21 bytes. -/
def wdsName (unit which : UInt32) : CStr :=
  cstr ((bytes "wl" ++ printInt unit ++ bytes "_wds" ++ printInt which).take 20)

/-- The line in `value[10000]` after both `snprintf`. -/
def wdsValue (w : WdsWsec) : Bytes :=
  let value := (w.mac.bytes ++ 44 :: (w.role.bytes ++ 44 :: (w.crypto.bytes ++ 44 :: w.auth.bytes))).take 9999
  let offset := value.length
  value ++ (44 :: (w.ssid.bytes ++ 44 :: w.passphrase.bytes)).take (10000 - offset - 1)

/-- `set_wds_wsec(unit, which, mac, role, crypto, auth, ...)`, where `nvram_set` fails if `ok` is false. -/
def setWdsWsec (ok : Bool) (nv : VarMap) (unit which : UInt32) (w : WdsWsec) : Bool × VarMap :=
  if w.auth.bytes = bytes "psk" then
    if ok then (true, nv.insert (wdsName unit which) (cstr (wdsValue w))) else (false, nv)
  else (false, nv)

/-- Why the reader does not return TRUE: it returns FALSE, or has read behind `value`. -/
inductive Failure where
  | returnsFalse
  | outside
deriving DecidableEq

/-- `strsep(&next, ",")`, and FALSE if nothing is left. -/
def nextField (next : Bytes) : Except Failure (Bytes × Bytes) :=
  match strsepIn 44 next with
  | none => .error .outside
  | some (_, none) => .error .returnsFalse
  | some (token, some next) => .ok (token, next)

/-- `strcpy` of what is left. -/
def lastField (next : Bytes) : Except Failure Bytes :=
  match strIn next with
  | none => .error .outside
  | some s => .ok s

/-- `get_wds_wsec(unit, which, mac, role, crypto, auth, ...)`. -/
def getWdsWsec (nv : VarMap) (unit which : UInt32) : Except Failure WdsWsec := do
  let next := strncpyArray 1000 (nvramSafeGet nv (wdsName unit which))
  let (mac, next) ← nextField next
  let (role, next) ← nextField next
  let (crypto, next) ← nextField next
  let (auth, next) ← nextField next
  if auth = bytes "psk" then
    let (ssid, next) ← nextField next
    let passphrase ← lastField next
    return ⟨cstr mac, cstr role, cstr crypto, cstr auth, cstr ssid, cstr passphrase⟩
  else throw .returnsFalse

/-! ### What is read -/

/-- `mac,role,crypto,auth,ssid,passphrase`. -/
def WdsWsec.line (w : WdsWsec) : Bytes :=
  w.mac.bytes ++ 44 :: (w.role.bytes ++ 44 :: (w.crypto.bytes ++ 44 :: (w.auth.bytes ++ 44 ::
    (w.ssid.bytes ++ 44 :: w.passphrase.bytes))))

/-- A comma stands in the passphrase only. -/
structure WdsWsec.Plain (w : WdsWsec) : Prop where
  mac : 44 ∉ w.mac.bytes
  role : 44 ∉ w.role.bytes
  crypto : 44 ∉ w.crypto.bytes
  ssid : 44 ∉ w.ssid.bytes

instance (w : WdsWsec) : Decidable w.Plain :=
  decidable_of_iff (44 ∉ w.mac.bytes ∧ 44 ∉ w.role.bytes ∧ 44 ∉ w.crypto.bytes ∧ 44 ∉ w.ssid.bytes)
    ⟨fun h => ⟨h.1, h.2.1, h.2.2.1, h.2.2.2⟩, fun h => ⟨h.mac, h.role, h.crypto, h.ssid⟩⟩

theorem bind_eq_ok {ε α β : Type} {x : Except ε α} {f : α → Except ε β} {b : β} :
    x >>= f = .ok b ↔ ∃ a, x = .ok a ∧ f a = .ok b := by
  cases x with
  | error e => simp [bind, Except.bind]
  | ok a => simp [bind, Except.bind]

theorem nextField_eq_ok {next token rest : Bytes} :
    nextField next = .ok (token, rest) ↔ 0 ∉ token ∧ 44 ∉ token ∧ next = token ++ 44 :: rest := by
  rw [← strsepIn_eq_some (by decide), nextField]
  cases strsepIn 44 next with
  | none => simp
  | some r =>
    obtain ⟨t, _ | r⟩ := r
    · simp
    · simp

theorem lastField_eq_ok {next s : Bytes} : lastField next = .ok s ↔ strIn next = some s := by
  rw [lastField]
  cases strIn next with
  | none => simp
  | some t => simp

variable {nv nv' : VarMap} {unit which : UInt32} {w : WdsWsec}

theorem nul_notMem_nvramSafeGet (nv : VarMap) (name : CStr) : 0 ∉ nvramSafeGet nv name := by
  unfold nvramSafeGet
  cases nv.lookup name with
  | none => exact List.not_mem_nil
  | some v => exact v.nul_notMem

theorem nul_notMem_line (w : WdsWsec) : 0 ∉ w.line := by
  simp [WdsWsec.line, w.mac.nul_notMem, w.role.nul_notMem, w.crypto.nul_notMem, w.auth.nul_notMem, w.ssid.nul_notMem,
    w.passphrase.nul_notMem]

theorem cstr_eq {s : Bytes} (h : 0 ∉ s) : cstr s = ⟨s, h⟩ := CStr.ext_bytes (cstr_bytes h)

/-- The reader takes a record's own line, if that is shorter than its array. -/
theorem getWdsWsec_iff : getWdsWsec nv unit which = .ok w ↔
    nvramSafeGet nv (wdsName unit which) = w.line ∧ w.line.length < 1000 ∧ w.Plain ∧ w.auth.bytes = bytes "psk" := by
  have harray : strIn (strncpyArray 1000 (nvramSafeGet nv (wdsName unit which))) = some w.line ↔
      nvramSafeGet nv (wdsName unit which) = w.line ∧ w.line.length < 1000 := by
    rw [strIn_strncpyArray (nul_notMem_nvramSafeGet nv _)]
    split_ifs with hlen
    · rw [Option.some.injEq]
      exact ⟨fun h => ⟨h, h ▸ hlen⟩, fun h => h.1⟩
    · refine iff_of_false nofun ?_
      rintro ⟨heq, hlt⟩
      exact hlen (heq ▸ hlt)
  rw [← and_assoc, ← harray, strIn_eq_some]
  constructor
  · intro h
    obtain ⟨⟨mac, next⟩, hgetmac, h⟩ := bind_eq_ok.mp h
    obtain ⟨⟨role, next⟩, hgetrole, h⟩ := bind_eq_ok.mp h
    obtain ⟨⟨crypto, next⟩, hgetcrypto, h⟩ := bind_eq_ok.mp h
    obtain ⟨⟨auth, next⟩, hgetauth, h⟩ := bind_eq_ok.mp h
    dsimp only at hgetrole hgetcrypto hgetauth h
    split_ifs at h with hpsk
    obtain ⟨⟨ssid, next⟩, hgetssid, h⟩ := bind_eq_ok.mp h
    obtain ⟨passphrase, hpass, h⟩ := bind_eq_ok.mp h
    dsimp only at hpass h
    cases h
    obtain ⟨hmac0, hmac, heq⟩ := nextField_eq_ok.mp hgetmac
    obtain ⟨hrole0, hrole, rfl⟩ := nextField_eq_ok.mp hgetrole
    obtain ⟨hcrypto0, hcrypto, rfl⟩ := nextField_eq_ok.mp hgetcrypto
    obtain ⟨hauth0, hauth, rfl⟩ := nextField_eq_ok.mp hgetauth
    obtain ⟨hssid0, hssid, rfl⟩ := nextField_eq_ok.mp hgetssid
    obtain ⟨hpass0, rest, rfl⟩ := strIn_eq_some.mp (lastField_eq_ok.mp hpass)
    rw [cstr_eq hmac0, cstr_eq hrole0, cstr_eq hcrypto0, cstr_eq hauth0, cstr_eq hssid0, cstr_eq hpass0]
    refine ⟨⟨nul_notMem_line _, rest, ?_⟩, ⟨hmac, hrole, hcrypto, hssid⟩, hpsk⟩
    rw [heq]
    simp [WdsWsec.line]
  · rintro ⟨⟨-, rest, heq⟩, hplain, hpsk⟩
    have hauth : 44 ∉ w.auth.bytes := by
      rw [hpsk]
      decide
    rw [WdsWsec.line] at heq
    simp only [List.append_assoc, List.cons_append] at heq
    refine bind_eq_ok.mpr ⟨_, nextField_eq_ok.mpr ⟨w.mac.nul_notMem, hplain.mac, heq⟩, ?_⟩
    refine bind_eq_ok.mpr ⟨_, nextField_eq_ok.mpr ⟨w.role.nul_notMem, hplain.role, rfl⟩, ?_⟩
    refine bind_eq_ok.mpr ⟨_, nextField_eq_ok.mpr ⟨w.crypto.nul_notMem, hplain.crypto, rfl⟩, ?_⟩
    refine bind_eq_ok.mpr ⟨_, nextField_eq_ok.mpr ⟨w.auth.nul_notMem, hauth, rfl⟩, ?_⟩
    dsimp only
    rw [if_pos hpsk]
    refine bind_eq_ok.mpr ⟨_, nextField_eq_ok.mpr ⟨w.ssid.nul_notMem, hplain.ssid, rfl⟩, ?_⟩
    refine bind_eq_ok.mpr ⟨_, lastField_eq_ok.mpr (strIn_eq_some.mpr ⟨w.passphrase.nul_notMem, rest, rfl⟩), ?_⟩
    dsimp only
    rw [cstr_eq w.mac.nul_notMem, cstr_eq w.role.nul_notMem, cstr_eq w.crypto.nul_notMem, cstr_eq w.auth.nul_notMem,
      cstr_eq w.ssid.nul_notMem, cstr_eq w.passphrase.nul_notMem]
    rfl

/-! ### What is set is read -/

/-- The line is cut where the writer's array ends. -/
theorem wdsValue_eq (w : WdsWsec) : wdsValue w = w.line.take 9999 := by
  have hline : w.line = (w.mac.bytes ++ 44 :: (w.role.bytes ++ 44 :: (w.crypto.bytes ++ 44 :: w.auth.bytes))) ++
      44 :: (w.ssid.bytes ++ 44 :: w.passphrase.bytes) := by
    simp [WdsWsec.line]
  have hcut (head tail : Bytes) :
      head.take 9999 ++ tail.take (10000 - (head.take 9999).length - 1) = (head ++ tail).take 9999 := by
    have hroom : 10000 - (head.take 9999).length - 1 = 9999 - head.length := by
      rw [List.length_take]
      omega
    rw [hroom, List.take_append]
  rw [hline]
  exact hcut _ _

theorem setWdsWsec_eq_true {ok : Bool} : setWdsWsec ok nv unit which w = (true, nv') ↔
    w.auth.bytes = bytes "psk" ∧ ok = true ∧ nv' = nv.insert (wdsName unit which) (cstr (wdsValue w)) := by
  unfold setWdsWsec
  split_ifs with hpsk hok
  · simp [hpsk, hok, eq_comm]
  · simp [hok]
  · simp [hpsk]

theorem setWdsWsec_psk (nv : VarMap) (unit which : UInt32) (hpsk : w.auth.bytes = bytes "psk") :
    setWdsWsec true nv unit which w = (true, nv.insert (wdsName unit which) (cstr (wdsValue w))) :=
  setWdsWsec_eq_true.mpr ⟨hpsk, rfl, rfl⟩

/-- **A record is read back as it was set, exactly when** only its passphrase has a comma and its line fits the
reader's array. -/
theorem wdsWsec_iff {ok : Bool} {nv nv' : VarMap} {unit which : UInt32} {w : WdsWsec}
    (hset : setWdsWsec ok nv unit which w = (true, nv')) :
    getWdsWsec nv' unit which = .ok w ↔ w.Plain ∧ w.line.length < 1000 := by
  obtain ⟨hpsk, -, rfl⟩ := setWdsWsec_eq_true.mp hset
  have hvalue : nvramSafeGet (nv.insert (wdsName unit which) (cstr (wdsValue w))) (wdsName unit which) =
      w.line.take 9999 := by
    have hnul : 0 ∉ w.line.take 9999 := fun h => nul_notMem_line w (List.mem_of_mem_take h)
    rw [nvramSafeGet, Finmap.lookup_insert, wdsValue_eq]
    exact cstr_bytes hnul
  rw [getWdsWsec_iff, hvalue]
  constructor
  · rintro ⟨-, hlen, hplain, -⟩
    exact ⟨hplain, hlen⟩
  · rintro ⟨hplain, hlen⟩
    exact ⟨List.take_of_length_le (by omega), hlen, hplain, hpsk⟩

/-- A record of a link. -/
def wdsLink : WdsWsec where
  mac := .lit "00:90:4c:00:00:01"
  role := .lit "auto"
  crypto := .lit "tkip"
  auth := .lit "psk"
  ssid := .lit "home"
  passphrase := .lit "a,b secret"

theorem wdsWsec_iff_link : ∃ nv', setWdsWsec true ∅ 0 1 wdsLink = (true, nv') ∧ getWdsWsec nv' 0 1 = .ok wdsLink :=
  ⟨_, setWdsWsec_psk ∅ 0 1 rfl, (wdsWsec_iff (setWdsWsec_psk ∅ 0 1 rfl)).mpr (by decide)⟩

/-- The SSID `home,5` is cut at its comma. -/
theorem getWdsWsec_comma : ¬ ∀ (ok : Bool) (nv nv' : VarMap) (unit which : UInt32) (w : WdsWsec),
    setWdsWsec ok nv unit which w = (true, nv') → getWdsWsec nv' unit which = .ok w := by
  intro h
  have hget := h true ∅ _ 0 1 { wdsLink with ssid := .lit "home,5" } (setWdsWsec_psk ∅ 0 1 rfl)
  exact absurd (getWdsWsec_iff.mp hget).2.2.1.ssid (by decide)

end Nvparse
end Router
