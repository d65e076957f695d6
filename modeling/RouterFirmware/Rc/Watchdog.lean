/-
# The watchdog

`watchdog` of `router/rc/watchdog.c`, which the timer calls four times a second, for the build of the WL-330gE: what the
process keeps between two calls, what it finds in NVRAM and in the drivers at each (`Tick`), and what it does (`Act`).
NVRAM is found as others have left it. The lights are left out.

Forty calls are a period. `ddns_timer` is meant to count the periods up to 360 * 12, but `%` binds as `*` does: it is
reduced by 360 and multiplied by 12. Its values after the first period are 12, 156, 1884, 1020, 3612, 156 and so on, and
it is not 0 again until DDNS is started for another reason (`Stuck.ne_zero`). So it counts only in a run in which every
period ends with such a start (`counts_iff`).
-/
import RouterFirmware.Rc.Rules

namespace Router
namespace Rc
namespace Watchdog

open CMem CText
open Nvram (VarMap)

/-! ### What is kept, found and done -/

/-- The `int_` variables, which `watchdog_main` sets. -/
structure Config where
  nasEnable : Bool
  wlModeEX : ℕ
  wl0Mode : ℕ
  wl0Akm : ℕ
  ureDisable : Bool
  wanNatX : Bool
  wl0Auth : Bool
  noProfile : Bool
  routerDisable : Bool
  ddnsEnableX : Bool

/-- The first of the values that the variable has, by its number, or else `other`. -/
def indexOf (nv : VarMap) (name : String) (values : List String) (other : ℕ) : ℕ :=
  (values.findIdx? (nvramMatch nv name)).getD other

def Config.read (nv : VarMap) : Config where
  nasEnable := nvramMatch nv "wl0_akm" "wpa" || nvramMatch nv "wl0_akm" "wpa2" || nvramMatch nv "wl0_auth_mode" "radius"
  wlModeEX := indexOf nv "wl_mode_EX" ["ap", "sta", "re"] 0
  wl0Mode := indexOf nv "wl0_mode" ["ap", "wds", "sta", "wet"] 0
  wl0Akm := indexOf nv "wl0_akm" ["psk", "psk2"] 2 + 1
  ureDisable := nvramMatch nv "ure_disable" "1"
  wanNatX := nvramMatch nv "wan_nat_X" "1"
  wl0Auth := nvramMatch nv "wl0_auth" "1"
  noProfile := !nvramMatch nv "no_profile" "0"
  routerDisable := nvramMatch nv "router_disable" "1"
  ddnsEnableX := nvramMatch nv "ddns_enable_x" "1"

inductive Act where
  /-- What is stopped to save memory. -/
  | stopServices
  /-- `erase /dev/mtd/3`. -/
  | eraseNvram
  /-- `kill(1, SIGTERM)`. -/
  | killInit
  /-- `wl disassoc`. -/
  | disassoc
  /-- `WLC_SET_SSID`. -/
  | setSsid
  /-- `WLC_SET_AUTH`. -/
  | setAuth
  /-- `time(&now)`, at the end of a period. -/
  | time
  /-- `WLC_DOWN`, `WLC_UP`. -/
  | restartWl
  | startDdns
  /-- `ddns_timer=0`. -/
  | clearDdnsTimer
  | restartUpnp
  | refreshNtpc
  | svcTimecheck
  | httpProcesscheck
  | nasProcesscheck
deriving DecidableEq

structure State where
  watchdogPeriod : ℕ
  wlcheckPeriod : ℕ
  ddnsTimer : ℕ
  stacheckTimer : ℕ
  wlResetTimer : ℕ
  wlResetTimerUre : ℕ
  assocAfterBoot : ℤ
  rebootCount : ℕ
  btnPressed : ℕ
  btnCount : ℕ
  btnPressedFlag : ℕ
  btnPressedSetup : ℕ
  btnCountSetup : ℕ
  syncInterval : ℤ
  ntpFirstRefresh : Bool
  nv : VarMap
  acts : List Act

/-- The process when the timer is set. -/
def State.start : State where
  watchdogPeriod := 0
  wlcheckPeriod := 0
  ddnsTimer := 0
  stacheckTimer := 0
  wlResetTimer := 0
  wlResetTimerUre := 0
  assocAfterBoot := -1
  rebootCount := 0
  btnPressed := 0
  btnCount := 0
  btnPressedFlag := 0
  btnPressedSetup := 0
  btnCountSetup := 0
  syncInterval := 1
  ntpFirstRefresh := false
  nv := ∅
  acts := []

/-- What `WLC_GET_BSSID` and `WLC_GET_BSS_INFO` say. -/
inductive Bss where
  | failed
  | zero
  | ap (mac : CStr)

/-- What a call finds. -/
structure Tick where
  nv : VarMap
  /-- The reset button is down. -/
  button : Bool
  /-- `WLC_GET_RADIO` says 1. -/
  radioOff : Bool
  bss : Bss
  /-- `WLC_GET_ASSOCLIST` has an entry. -/
  assoc : Bool
  /-- The number of entries of `autho_sta_list`. -/
  authoStaList : Option ℕ
  mssid : Bool
  /-- The year is not before 2001. -/
  clockSet : Bool

def State.act (s : State) (as : List Act) : State := { s with acts := s.acts ++ as }

/-- `nvram_set(name, value)`. -/
def State.set (s : State) (name : String) (value : CStr) : State :=
  { s with nv := s.nv.insert (cstr (bytes name)) value }

def text (value : String) : CStr := cstr (bytes value)

/-! ### The wireless side -/

section Code

variable (c : Config) (t : Tick) (s : State)

/-- An access point has been found. -/
def associated (mac : CStr) : State :=
  { (s.set "wl_sta_mac" mac).set "wl_sta_state" (text "associated") with
    assocAfterBoot := if s.assocAfterBoot = 0 ∨ s.assocAfterBoot = -1 then 1 else s.assocAfterBoot }

/-- `wl_sta_status`. -/
def wlStaStatus : ℤ × State :=
  match t.bss with
  | .failed => (0, s)
  | .zero => (0, if c.wlModeEX ≠ 0 ∧ c.wanNatX then s.set "wan_status_t" (text "Disconnected") else s)
  | .ap mac =>
    let s := associated s mac
    if c.ureDisable then (1, if c.wanNatX ∧ c.wlModeEX = 1 then s.set "wan_status_t" (text "Connected") else s)
    else (3, if c.wanNatX then s.set "wan_status_t" (text "Connected") else s)

/-- `wl_status`. -/
def wlStatus : ℤ × State :=
  if t.radioOff then (-1, s)
  else if c.wl0Mode = 2 ∨ c.wl0Mode = 3 then wlStaStatus c t s
  else (if t.assoc then 2 else 0, s)

/-- The status is looked at four times in a period. -/
def wlCheck : State :=
  let s := { s with wlcheckPeriod := (s.watchdogPeriod + 39) % 40 }
  if (c.wlModeEX ≠ 1 ∨ s.btnPressed = 0) ∧ s.wlcheckPeriod ∈ [0, 10, 20, 30] then
    let (wlOn, s) := wlStatus c t s
    if wlOn = 0 ∧ c.wlModeEX ≠ 0 then (s.set "wl_sta_mac" (text "")).set "wl_sta_state" (text "scanning") else s
  else s

/-- The station joins. -/
def join : List Act :=
  let ssid := nvramText s.nv "wl0_ssid"
  (if s.assocAfterBoot = 1 then [.disassoc] else []) ++
    (if s.assocAfterBoot ≠ -1 ∧ ssid ≠ [] ∧ ssid.length ≤ 32 then [.setSsid] else []) ++
    if s.assocAfterBoot = 1 ∧ c.wl0Auth then [.setAuth] else []

/-- `sta_check`. -/
def staCheck : State :=
  if nvramInvmatch s.nv "wl_sta_mac" "" then
    if c.wl0Akm = 1 ∨ c.wl0Akm = 2 then
      match t.authoStaList with
      | none => s
      | some count =>
        if 0 < count then { s.set "wl_sta_state" (text "authorized") with stacheckTimer := 0 }
        else s.set "wl_sta_state" (text "associated")
    else { s with stacheckTimer := 0 }
  else s.act (join c s)

/-- The station is looked after. -/
def station : State :=
  if c.noProfile = false ∧ c.wlModeEX ≠ 0 ∧
      (s.wlcheckPeriod = 0 ∧ s.stacheckTimer = 0 ∨
        (c.wl0Akm = 1 ∨ c.wl0Akm = 2) ∧ nvramInvmatch s.nv "wl_sta_mac" "" ∧
          nvramInvmatch s.nv "wl_sta_state" "authorized" ∧ s.wlcheckPeriod ∈ [0, 10, 20, 30] ∨
        nvramMatch s.nv "wl_sta_mac" "" ∧ s.wlcheckPeriod ∈ [0, 13, 27]) then staCheck c t s
  else s

/-! ### The buttons -/

/-- `btn_check`, as far as the reset button goes. -/
def resetButton : State :=
  if t.button then
    let s := if (s.nv.lookup (cstr (bytes "RESET_PRESSED"))).isNone ∨ nvramMatch s.nv "RESET_PRESSED" "0" then
      s.set "RESET_PRESSED" (text "1") else s
    if s.btnPressed = 0 then { s with btnPressed := 1, btnCount := 0 }
    else if s.btnCount + 1 > 30 then { s with btnCount := s.btnCount + 1, btnPressed := 2 }
    else { s with btnCount := s.btnCount + 1 }
  else if s.btnPressed = 1 then { s with btnCount := 0, btnPressed := 0 }
  else if s.btnPressed = 2 then s.act [.eraseNvram, .killInit]
  else s

/-- The numbers of `BTNSETUP_DETECT` and `BTNSETUP_START`. -/
def btnsetupDetect : ℕ := 1

def btnsetupStart : ℕ := 2

/-- `btn_check`. -/
def btnCheck : State :=
  let s := if s.btnPressedFlag ≠ 0 then
      if s.btnPressedFlag + 1 = 10 then
        { s with btnPressedFlag := 0, btnPressedSetup := btnsetupStart, btnCountSetup := 0 }
      else { s with btnPressedFlag := s.btnPressedFlag + 1 }
    else s
  let s := if s.btnPressedSetup = 0 then resetButton t s else s
  if s.btnPressed ≠ 0 then s
  else if s.btnPressedSetup < btnsetupStart then
    if s.btnPressedSetup = btnsetupDetect then { s with btnPressedSetup := 0, btnCountSetup := 0 } else s
  else
    let s := { s with btnCountSetup := (s.btnCountSetup + 1) % 20 }
    if s.btnCountSetup = 0 ∧ nvramMatch s.nv "bs_mode" "1" then
      { s.set "bs_mode" (text "") with btnPressedSetup := 0, btnCountSetup := 0 }
    else s

/-! ### The services -/

/-- `ntp_timesync`. -/
def ntpTimesync : State :=
  if s.syncInterval ≠ -1 then
    let s := { s with syncInterval := s.syncInterval - 1 }
    if s.ntpFirstRefresh = false ∧ nvramMatch s.nv "ntp_ready" "1" then
      let s := { s with ntpFirstRefresh := true, syncInterval := 4320 }
      if c.routerDisable = false ∧ c.ddnsEnableX ∧ nvramMatch s.nv "ddns_updated" "0" then s.act [.startDdns] else s
    else if s.syncInterval = 0 then
      if t.clockSet then { s.act [.restartUpnp, .refreshNtpc] with syncInterval := 4320 }
      else { s.act [.refreshNtpc] with syncInterval := 3 }
    else s
  else s

/-- The address of the WAN side is known. -/
def wanReady (nv : VarMap) : Bool :=
  (nv.lookup (cstr (bytes "wan_ipaddr_t"))).isSome && nvramInvmatch nv "wan_ipaddr_t" ""

/-- DDNS is refreshed. -/
def refreshDdns : State :=
  if c.routerDisable = false ∧ c.ddnsEnableX ∧ wanReady s.nv ∧
      (nvramMatch s.nv "ddns_updated" "0" ∨ s.ddnsTimer = 0) then
    { s.act [.startDdns, .clearDdnsTimer] with ddnsTimer := 0 }
  else s

/-- Time and DDNS. -/
def wanServices : State :=
  if c.wanNatX then
    let s := if !nvramMatch s.nv "wan_dns_t" "" && !nvramMatch s.nv "wan_gateway_t" "" then ntpTimesync c t s else s
    (refreshDdns c s).act [.svcTimecheck]
  else if !nvramMatch s.nv "lan_dns_t" "" && !nvramMatch s.nv "lan_gateway_t" "" then ntpTimesync c t s
  else s

/-- The processes are looked after. -/
def processes : State :=
  let s := if ["ap_scanning", "updating", "ap_selecting", "uploading"].all fun name => nvramInvmatch s.nv name "1" then
    s.act [.httpProcesscheck] else s
  if c.nasEnable then s.act [.nasProcesscheck] else s

/-- What is done at the end of a period, behind the timers. -/
def afterTimers : State :=
  let s := if c.wlModeEX = 0 then if s.wlResetTimer = 0 ∧ t.mssid then s.act [.restartWl] else s
    else if s.assocAfterBoot = -1 then { s with assocAfterBoot := 0 } else s
  if s.btnPressedSetup ≥ btnsetupStart then s
  else if nvramInvmatch s.nv "more_mem" "0" then s
  else processes c (wanServices c t s)

/-- The end of a period. -/
def period : State :=
  let s := { s.act [.time] with
    wlResetTimer := (s.wlResetTimer + 1) % 60
    ddnsTimer := (s.ddnsTimer + 1) % 360 * 12
    stacheckTimer := (s.stacheckTimer + 1) % 3 }
  if c.noProfile = false ∧ c.wlModeEX = 2 ∧ nvramMatch s.nv "wl_sta_mac" "" then
    if s.wlResetTimerUre + 1 ≥ 3 then
      { s.act [.restartWl] with
        wlcheckPeriod := 0, assocAfterBoot := -1, wlResetTimer := 0, wlResetTimerUre := 0 }
    else afterTimers c t { s with wlResetTimerUre := s.wlResetTimerUre + 1 }
  else afterTimers c t { s with wlResetTimerUre := 0 }

/-- Memory is saved. -/
def moreMem : State :=
  if nvramMatch s.nv "more_mem" "1" then (s.act [.stopServices]).set "more_mem" (text "2") else s

/-- A reboot has been asked for; the second time `init` is told. -/
def rebootCheck : State :=
  if nvramMatch s.nv "reboot" "1" then
    { s.act (if s.rebootCount + 1 ≥ 2 then [.killInit] else []) with rebootCount := s.rebootCount + 1 }
  else s

/-- `watchdog`. -/
def watchdog : State :=
  let s := moreMem (btnCheck t (wlCheck c t s))
  if nvramMatch s.nv "reboot" "0" then s
  else
    let s := station c t (rebootCheck s)
    let s : State := { s with watchdogPeriod := (s.watchdogPeriod + 1) % 40 }
    if s.watchdogPeriod ≠ 0 then s else period c t s

end Code

/-! ### Runs -/

/-- A call of the timer. -/
def step (c : Config) (s : State) (t : Tick) : State := watchdog c t { s with nv := t.nv, acts := [] }

/-- A call, and the periods that have been completed since `ddns_timer` was set to 0. -/
def tick (c : Config) (x : State × ℕ) (t : Tick) : State × ℕ :=
  let s := step c x.1 t
  (s, if .clearDdnsTimer ∈ s.acts then 0 else if .time ∈ s.acts then x.2 + 1 else x.2)

/-- The calls, one after the other. -/
def run (c : Config) (ts : List Tick) : State × ℕ := ts.foldl (tick c) (.start, 0)

/-- The timer counts the periods, in every state of the run. -/
def Counts (c : Config) (ts : List Tick) : Prop :=
  ∀ pre, pre <+: ts → (run c pre).1.ddnsTimer = (run c pre).2 % (360 * 12)

/-- A call completes a period. -/
def Ends (s : State) (t : Tick) : Prop := s.watchdogPeriod = 39 ∧ nvramMatch t.nv "reboot" "0" = false

/-- At the end of a period DDNS is started because it has to be updated. -/
structure Starts (c : Config) (s : State) (t : Tick) : Prop where
  nat : c.wanNatX = true
  router : c.routerDisable = false
  enabled : c.ddnsEnableX = true
  moreMem : nvramInvmatch t.nv "more_mem" "0" = false
  wan : wanReady t.nv = true
  update : nvramMatch t.nv "ddns_updated" "0" = true
  /-- The radio is not restarted instead. -/
  station : ¬(c.noProfile = false ∧ c.wlModeEX = 2 ∧ nvramMatch t.nv "wl_sta_mac" "" = true ∧ 2 ≤ s.wlResetTimerUre)

/-! ### What a part of the call leaves alone -/

/-- The timer, the period and the EZSetup button are as they were, and nothing is done that has to do with them. -/
structure Same (s s' : State) : Prop where
  timer : s'.ddnsTimer = s.ddnsTimer
  period : s'.watchdogPeriod = s.watchdogPeriod
  time : .time ∈ s'.acts ↔ .time ∈ s.acts
  clear : .clearDdnsTimer ∈ s'.acts ↔ .clearDdnsTimer ∈ s.acts
  flag : s'.btnPressedFlag = s.btnPressedFlag
  setup : s'.btnPressedSetup = s.btnPressedSetup
  reboot : ∀ v, nvramMatch s'.nv "reboot" v = nvramMatch s.nv "reboot" v

namespace Same

variable {s s' s'' : State}

theorem rfl : Same s s :=
  ⟨by rfl, by rfl, Iff.rfl, Iff.rfl, by rfl, by rfl, fun _ => by rfl⟩

theorem trans (h : Same s s') (h' : Same s' s'') : Same s s'' where
  timer := h'.timer.trans h.timer
  period := h'.period.trans h.period
  time := h'.time.trans h.time
  clear := h'.clear.trans h.clear
  flag := h'.flag.trans h.flag
  setup := h'.setup.trans h.setup
  reboot v := (h'.reboot v).trans (h.reboot v)

/-- Another variable is set. -/
theorem set (h : Same s s') (name : String) (hname : cstr (bytes name) ≠ cstr (bytes "reboot")) (value : CStr) :
    Same s (s'.set name value) := by
  refine ⟨h.timer, h.period, h.time, h.clear, h.flag, h.setup, fun v => ?_⟩
  rw [← h.reboot v]
  unfold nvramMatch State.set
  rw [Finmap.lookup_insert_of_ne _ hname.symm]

/-- Something else is done. -/
theorem act (h : Same s s') (as : List Act) (htime : .time ∉ as) (hclear : .clearDdnsTimer ∉ as) :
    Same s (s'.act as) := by
  refine ⟨h.timer, h.period, ?_, ?_, h.flag, h.setup, h.reboot⟩
  · simp [State.act, htime, h.time]
  · simp [State.act, hclear, h.clear]

/-- The other fields. -/
theorem with_fields (h : Same s s') (wlcheckPeriod stacheckTimer wlResetTimer wlResetTimerUre : ℕ) (assocAfterBoot : ℤ)
    (rebootCount btnPressed btnCount btnCountSetup : ℕ) (syncInterval : ℤ) (ntpFirstRefresh : Bool) :
    Same s { s' with
      wlcheckPeriod, stacheckTimer, wlResetTimer, wlResetTimerUre, assocAfterBoot, rebootCount, btnPressed, btnCount,
      btnCountSetup, syncInterval, ntpFirstRefresh } :=
  ⟨h.timer, h.period, h.time, h.clear, h.flag, h.setup, h.reboot⟩

end Same

section Parts

variable {c : Config} {t : Tick} {s s₀ : State}

theorem same_wlStaStatus (h : Same s₀ s) : Same s₀ (wlStaStatus c t s).2 := by
  unfold wlStaStatus
  split
  · exact h
  · dsimp only
    split_ifs
    · exact h.set _ (by decide) _
    · exact h
  · next mac _ =>
    have hfound : Same s₀ (associated s mac) :=
      ((h.set "wl_sta_mac" (by decide) mac).set "wl_sta_state" (by decide)
        (text "associated")).with_fields _ _ _ _ _ _ _ _ _ _ _
    dsimp only
    split_ifs
    · exact hfound.set _ (by decide) _
    · exact hfound
    · exact hfound.set _ (by decide) _
    · exact hfound

theorem same_wlStatus (h : Same s₀ s) : Same s₀ (wlStatus c t s).2 := by
  unfold wlStatus
  split_ifs
  · exact h
  · exact same_wlStaStatus h
  · exact h
  · exact h

theorem same_wlCheck (h : Same s₀ s) : Same s₀ (wlCheck c t s) := by
  have hperiod : Same s₀ { s with wlcheckPeriod := (s.watchdogPeriod + 39) % 40 } :=
    h.with_fields _ _ _ _ _ _ _ _ _ _ _
  unfold wlCheck
  dsimp only
  split_ifs
  · exact ((same_wlStatus hperiod).set _ (by decide) _).set _ (by decide) _
  · exact same_wlStatus hperiod
  · exact hperiod

theorem notMem_join {a : Act} (h : a ∉ [.disassoc, .setSsid, .setAuth]) : a ∉ join c s := by
  simp only [List.mem_cons, List.not_mem_nil, or_false, not_or] at h
  unfold join
  dsimp only
  simp only [List.mem_append, not_or]
  refine ⟨⟨?_, ?_⟩, ?_⟩
  · split_ifs <;> simp [h]
  · split_ifs <;> simp [h]
  · split_ifs <;> simp [h]

theorem same_staCheck (h : Same s₀ s) : Same s₀ (staCheck c t s) := by
  unfold staCheck
  split_ifs
  · split
    · exact h
    · split_ifs
      · exact (h.set "wl_sta_state" (by decide) _).with_fields _ _ _ _ _ _ _ _ _ _ _
      · exact h.set _ (by decide) _
  · exact h.with_fields _ _ _ _ _ _ _ _ _ _ _
  · exact h.act _ (notMem_join (by decide)) (notMem_join (by decide))

theorem same_station (h : Same s₀ s) : Same s₀ (station c t s) := by
  unfold station
  split_ifs
  · exact same_staCheck h
  · exact h

theorem same_resetButton (h : Same s₀ s) : Same s₀ (resetButton t s) := by
  unfold resetButton
  by_cases hbutton : t.button = true
  · rw [if_pos hbutton]
    extract_lets s'
    have hpressed : Same s₀ s' := by
      unfold s'
      split_ifs
      · exact h.set _ (by decide) _
      · exact h
    split_ifs
    · exact hpressed.with_fields _ _ _ _ _ _ _ _ _ _ _
    · exact hpressed.with_fields _ _ _ _ _ _ _ _ _ _ _
    · exact hpressed.with_fields _ _ _ _ _ _ _ _ _ _ _
  · rw [if_neg hbutton]
    split_ifs
    · exact h.with_fields _ _ _ _ _ _ _ _ _ _ _
    · exact h.act _ (by decide) (by decide)
    · exact h

/-- The EZSetup button has not been pressed. -/
def Quiet (s : State) : Prop := s.btnPressedFlag = 0 ∧ s.btnPressedSetup = 0

theorem btnCheck_eq (hq : Quiet s) : btnCheck t s = resetButton t s := by
  obtain ⟨hflag, hsetup⟩ := hq
  have hnone : (resetButton t s).btnPressedSetup = 0 := by
    rw [(same_resetButton Same.rfl).setup, hsetup]
  unfold btnCheck
  rw [if_neg (not_not.mpr hflag)]
  dsimp only
  rw [if_pos hsetup]
  by_cases hpressed : (resetButton t s).btnPressed = 0
  · rw [if_neg (not_not.mpr hpressed), hnone, if_pos (by decide), if_neg (by decide)]
  · rw [if_pos hpressed]

theorem same_moreMem (h : Same s₀ s) : Same s₀ (moreMem s) := by
  unfold moreMem
  split_ifs
  · exact (h.act _ (by decide) (by decide)).set _ (by decide) _
  · exact h

theorem same_rebootCheck (h : Same s₀ s) : Same s₀ (rebootCheck s) := by
  unfold rebootCheck
  split_ifs
  · exact (h.act [.killInit] (by decide) (by decide)).with_fields _ _ _ _ _ _ _ _ _ _ _
  · exact (h.act [] (by decide) (by decide)).with_fields _ _ _ _ _ _ _ _ _ _ _
  · exact h

end Parts

/-! ### The end of a period -/

section Period

variable {c : Config} {t : Tick} {s : State}

/-- The timer has been set to 0. -/
structure Cleared (s s' : State) : Prop where
  timer : s'.ddnsTimer = 0
  period : s'.watchdogPeriod = s.watchdogPeriod
  time : .time ∈ s'.acts ↔ .time ∈ s.acts
  clear : .clearDdnsTimer ∈ s'.acts
  flag : s'.btnPressedFlag = s.btnPressedFlag
  setup : s'.btnPressedSetup = s.btnPressedSetup

theorem Same.cleared {s' s'' : State} (h : Same s s') (h' : Cleared s' s'') : Cleared s s'' where
  timer := h'.timer
  period := h'.period.trans h.period
  time := h'.time.trans h.time
  clear := h'.clear
  flag := h'.flag.trans h.flag
  setup := h'.setup.trans h.setup

theorem Cleared.same {s' s'' : State} (h : Cleared s s') (h' : Same s' s'') : Cleared s s'' where
  timer := h'.timer.trans h.timer
  period := h'.period.trans h.period
  time := h'.time.trans h.time
  clear := h'.clear.mpr h.clear
  flag := h'.flag.trans h.flag
  setup := h'.setup.trans h.setup

/-- DDNS has to be refreshed. -/
def Due (c : Config) (s : State) : Prop :=
  c.routerDisable = false ∧ c.ddnsEnableX = true ∧ wanReady s.nv = true ∧
    (nvramMatch s.nv "ddns_updated" "0" = true ∨ s.ddnsTimer = 0)

theorem refreshDdns_of_due (h : Due c s) :
    refreshDdns c s = { s.act [.startDdns, .clearDdnsTimer] with ddnsTimer := 0 } := if_pos h

theorem refreshDdns_of_not_due (h : ¬Due c s) : refreshDdns c s = s := if_neg h

theorem cleared_refreshDdns (h : Due c s) : Cleared s (refreshDdns c s) := by
  rw [refreshDdns_of_due h]
  exact ⟨rfl, rfl, by simp [State.act], by simp [State.act], rfl, rfl⟩

theorem same_ntpTimesync (c : Config) (t : Tick) (s : State) : Same s (ntpTimesync c t s) := by
  unfold ntpTimesync
  by_cases hsync : s.syncInterval ≠ -1
  · rw [if_pos hsync]
    have hfields := fun (n : ℤ) (b : Bool) => (Same.rfl (s := s)).with_fields s.wlcheckPeriod s.stacheckTimer
      s.wlResetTimer s.wlResetTimerUre s.assocAfterBoot s.rebootCount s.btnPressed s.btnCount s.btnCountSetup n b
    dsimp only
    split_ifs
    · exact (hfields 4320 true).act _ (by decide) (by decide)
    · exact hfields 4320 true
    · exact ((hfields _ _).act [.restartUpnp, .refreshNtpc] (by decide) (by decide)).with_fields
        _ _ _ _ _ _ _ _ _ _ _
    · exact ((hfields _ _).act [.refreshNtpc] (by decide) (by decide)).with_fields _ _ _ _ _ _ _ _ _ _ _
    · exact hfields _ _
  · rw [if_neg hsync]
    exact Same.rfl

theorem nv_ntpTimesync (c : Config) (t : Tick) (s : State) : (ntpTimesync c t s).nv = s.nv := by
  unfold ntpTimesync
  dsimp only
  split_ifs <;> rfl

theorem same_processes (c : Config) (s : State) : Same s (processes c s) := by
  unfold processes
  extract_lets s'
  have hhttp : Same s s' := by
    unfold s'
    split_ifs
    · exact Same.rfl.act _ (by decide) (by decide)
    · exact Same.rfl
  split_ifs
  · exact hhttp.act _ (by decide) (by decide)
  · exact hhttp

/-- The timer is set to 0 if DDNS has to be refreshed, on a router that translates addresses. -/
theorem wanServices_cases (c : Config) (t : Tick) (s : State) :
    (c.wanNatX = true ∧ Due c s) ∧ Cleared s (wanServices c t s) ∨
      ¬(c.wanNatX = true ∧ Due c s) ∧ Same s (wanServices c t s) := by
  unfold wanServices
  by_cases hnat : c.wanNatX = true
  · rw [if_pos hnat]
    extract_lets s'
    have hntp : Same s s' ∧ s'.nv = s.nv := by
      unfold s'
      split_ifs
      · exact ⟨same_ntpTimesync c t s, nv_ntpTimesync c t s⟩
      · exact ⟨Same.rfl, rfl⟩
    have hdue : Due c s' ↔ Due c s := by rw [Due, Due, hntp.2, hntp.1.timer]
    by_cases h : Due c s
    · exact Or.inl ⟨⟨hnat, h⟩, (hntp.1.cleared (cleared_refreshDdns (hdue.mpr h))).same
        (Same.rfl.act _ (by decide) (by decide))⟩
    · refine Or.inr ⟨fun hboth => h hboth.2, ?_⟩
      rw [refreshDdns_of_not_due (mt hdue.mp h)]
      exact hntp.1.act _ (by decide) (by decide)
  · rw [if_neg hnat]
    refine Or.inr ⟨fun hboth => hnat hboth.1, ?_⟩
    split_ifs
    · exact same_ntpTimesync c t s
    · exact Same.rfl

/-- DDNS is refreshed, unless memory is to be saved. -/
theorem afterTimers_cases (c : Config) (t : Tick) (hsetup : s.btnPressedSetup = 0) :
    (nvramInvmatch s.nv "more_mem" "0" = false ∧ c.wanNatX = true ∧ Due c s) ∧ Cleared s (afterTimers c t s) ∨
      ¬(nvramInvmatch s.nv "more_mem" "0" = false ∧ c.wanNatX = true ∧ Due c s) ∧ Same s (afterTimers c t s) := by
  unfold afterTimers
  extract_lets s'
  have hwl : Same s s' ∧ s'.nv = s.nv := by
    unfold s'
    split_ifs
    · exact ⟨Same.rfl.act _ (by decide) (by decide), rfl⟩
    · exact ⟨Same.rfl, rfl⟩
    · exact ⟨Same.rfl.with_fields _ _ _ _ _ _ _ _ _ _ _, rfl⟩
    · exact ⟨Same.rfl, rfl⟩
  have hdue : Due c s' ↔ Due c s := by rw [Due, Due, hwl.2, hwl.1.timer]
  rw [if_neg (by rw [hwl.1.setup, hsetup]; decide)]
  by_cases hmem : nvramInvmatch s.nv "more_mem" "0" = true
  · rw [if_pos (by rwa [hwl.2])]
    exact Or.inr ⟨fun h => Bool.false_ne_true (h.1.symm.trans hmem), hwl.1⟩
  · rw [if_neg (by rwa [hwl.2])]
    have hmem' := Bool.eq_false_iff.mpr hmem
    rcases wanServices_cases c t s' with ⟨hpos, hres⟩ | ⟨hneg, hres⟩
    · exact Or.inl ⟨⟨hmem', hpos.1, hdue.mp hpos.2⟩, (hwl.1.cleared hres).same (same_processes c _)⟩
    · exact Or.inr ⟨fun h => hneg ⟨h.2.1, hdue.mpr h.2.2⟩, (hwl.1.trans hres).trans (same_processes c _)⟩

/-- The timers have been advanced. -/
def advanced (s : State) : State :=
  { s.act [.time] with
    wlResetTimer := (s.wlResetTimer + 1) % 60
    ddnsTimer := (s.ddnsTimer + 1) % 360 * 12
    stacheckTimer := (s.stacheckTimer + 1) % 3 }

/-- The radio is restarted, and the period is over. -/
def Restarts (c : Config) (s : State) : Prop :=
  c.noProfile = false ∧ c.wlModeEX = 2 ∧ nvramMatch s.nv "wl_sta_mac" "" = true ∧ 2 ≤ s.wlResetTimerUre

theorem period_cases (c : Config) (t : Tick) (hsetup : s.btnPressedSetup = 0) :
    (¬Restarts c s ∧ nvramInvmatch s.nv "more_mem" "0" = false ∧ c.wanNatX = true ∧ Due c (advanced s)) ∧
        Cleared (advanced s) (period c t s) ∨
      ¬(¬Restarts c s ∧ nvramInvmatch s.nv "more_mem" "0" = false ∧ c.wanNatX = true ∧ Due c (advanced s)) ∧
        Same (advanced s) (period c t s) := by
  have hperiod : period c t s = if c.noProfile = false ∧ c.wlModeEX = 2 ∧ nvramMatch s.nv "wl_sta_mac" "" then
        if s.wlResetTimerUre + 1 ≥ 3 then
          { (advanced s).act [.restartWl] with
            wlcheckPeriod := 0, assocAfterBoot := -1, wlResetTimer := 0, wlResetTimerUre := 0 }
        else afterTimers c t { advanced s with wlResetTimerUre := s.wlResetTimerUre + 1 }
      else afterTimers c t { advanced s with wlResetTimerUre := 0 } := rfl
  have hure : ∀ n, Same (advanced s) { advanced s with wlResetTimerUre := n } := fun n =>
    Same.rfl.with_fields _ _ _ _ _ _ _ _ _ _ _
  have hafter : ∀ n, ¬Restarts c s →
      (¬Restarts c s ∧ nvramInvmatch s.nv "more_mem" "0" = false ∧ c.wanNatX = true ∧ Due c (advanced s)) ∧
          Cleared (advanced s) (afterTimers c t { advanced s with wlResetTimerUre := n }) ∨
        ¬(¬Restarts c s ∧ nvramInvmatch s.nv "more_mem" "0" = false ∧ c.wanNatX = true ∧ Due c (advanced s)) ∧
          Same (advanced s) (afterTimers c t { advanced s with wlResetTimerUre := n }) := by
    intro n hno
    rcases afterTimers_cases (s := { advanced s with wlResetTimerUre := n }) c t hsetup with ⟨hpos, hres⟩ | ⟨hneg, hres⟩
    · exact Or.inl ⟨⟨hno, hpos⟩, (hure n).cleared hres⟩
    · exact Or.inr ⟨fun h => hneg h.2, (hure n).trans hres⟩
  rw [hperiod]
  split_ifs with hsta hthree
  · refine Or.inr ⟨fun h => h.1 ⟨hsta.1, hsta.2.1, hsta.2.2, by omega⟩, ?_⟩
    exact (Same.rfl.act [.restartWl] (by decide) (by decide)).with_fields _ _ _ _ _ _ _ _ _ _ _
  · exact hafter _ fun h => hthree (by have := h.2.2.2; omega)
  · exact hafter _ fun h => hsta ⟨h.1, h.2.1, h.2.2.1⟩

end Period

/-! ### A call -/

section Call

variable {c : Config} {t : Tick} {s : State}

/-- A call up to the question whether it counts: the radio, the button and memory. -/
def before (c : Config) (t : Tick) (s : State) : State := moreMem (btnCheck t (wlCheck c t s))

/-- A call up to the period: the reboot that has been asked for, and the station. -/
def counted (c : Config) (t : Tick) (s : State) : State := station c t (rebootCheck (before c t s))

theorem watchdog_eq (c : Config) (t : Tick) (s : State) : watchdog c t s =
    if nvramMatch (before c t s).nv "reboot" "0" then before c t s
    else if ((counted c t s).watchdogPeriod + 1) % 40 ≠ 0 then
      { counted c t s with watchdogPeriod := ((counted c t s).watchdogPeriod + 1) % 40 }
    else period c t { counted c t s with watchdogPeriod := ((counted c t s).watchdogPeriod + 1) % 40 } := rfl

theorem quiet_wlCheck (hq : Quiet s) : Quiet (wlCheck c t s) := by
  have hcheck := same_wlCheck (c := c) (t := t) (Same.rfl (s := s))
  exact ⟨hcheck.flag.trans hq.1, hcheck.setup.trans hq.2⟩

theorem same_before (hq : Quiet s) : Same s (before c t s) := by
  rw [before, btnCheck_eq (quiet_wlCheck hq)]
  exact same_moreMem (same_resetButton (same_wlCheck Same.rfl))

theorem same_counted (hq : Quiet s) : Same s (counted c t s) :=
  same_station (same_rebootCheck (same_before hq))

/-- What the end of a period looks at is as it was. -/
structure Kept (s s' : State) : Prop where
  wlcheck : s'.wlcheckPeriod = s.wlcheckPeriod
  ure : s'.wlResetTimerUre = s.wlResetTimerUre
  moreMem : nvramInvmatch s'.nv "more_mem" "0" = nvramInvmatch s.nv "more_mem" "0"
  lookup : ∀ name, cstr (bytes name) ≠ cstr (bytes "RESET_PRESSED") → cstr (bytes name) ≠ cstr (bytes "more_mem") →
    s'.nv.lookup (cstr (bytes name)) = s.nv.lookup (cstr (bytes name))

theorem Kept.trans {s' s'' : State} (h : Kept s s') (h' : Kept s' s'') : Kept s s'' where
  wlcheck := h'.wlcheck.trans h.wlcheck
  ure := h'.ure.trans h.ure
  moreMem := h'.moreMem.trans h.moreMem
  lookup name hr hm := (h'.lookup name hr hm).trans (h.lookup name hr hm)

theorem kept_resetButton : Kept s (resetButton t s) := by
  have hset : Kept s (s.set "RESET_PRESSED" (text "1")) := by
    refine ⟨rfl, rfl, ?_, fun name hr _ => Finmap.lookup_insert_of_ne _ hr⟩
    unfold nvramInvmatch State.set
    rw [Finmap.lookup_insert_of_ne _ (by decide)]
  unfold resetButton
  by_cases hbutton : t.button = true
  · rw [if_pos hbutton]
    extract_lets s'
    have hkept : Kept s s' := by
      unfold s'
      split_ifs
      · exact hset
      · exact ⟨rfl, rfl, rfl, fun _ _ _ => rfl⟩
    split_ifs <;> exact ⟨hkept.wlcheck, hkept.ure, hkept.moreMem, hkept.lookup⟩
  · rw [if_neg hbutton]
    split_ifs <;> exact ⟨rfl, rfl, rfl, fun _ _ _ => rfl⟩

/-- Memory that has been saved is still to be saved. -/
theorem kept_moreMem : Kept s (moreMem s) := by
  unfold Watchdog.moreMem
  split_ifs with h
  · refine ⟨rfl, rfl, ?_, fun name _ hm => Finmap.lookup_insert_of_ne _ hm⟩
    obtain ⟨v, hv, hone⟩ := (Option.any_eq_true _ _).mp h
    rw [beq_iff_eq] at hone
    have hbefore : nvramInvmatch s.nv "more_mem" "0" = true := by
      rw [nvramInvmatch, hv, Option.any_some, hone]
      rfl
    rw [hbefore]
    unfold nvramInvmatch State.set
    rw [Finmap.lookup_insert]
    rfl
  · exact ⟨rfl, rfl, rfl, fun _ _ _ => rfl⟩

theorem kept_rebootCheck : Kept s (rebootCheck s) := by
  unfold rebootCheck
  split_ifs <;> exact ⟨rfl, rfl, rfl, fun _ _ _ => rfl⟩

/-- In the last call of a period nobody looks at the radio. -/
theorem kept_counted (hq : Quiet s) (hlast : s.watchdogPeriod = 39) :
    Kept { s with wlcheckPeriod := 38 } (counted c t s) := by
  have hcheck : wlCheck c t s = { s with wlcheckPeriod := 38 } := by
    unfold wlCheck
    rw [hlast, if_neg]
    rintro ⟨-, hmem⟩
    exact absurd (show 38 ∈ [0, 10, 20, 30] from hmem) (by decide)
  have hkept : Kept { s with wlcheckPeriod := 38 } (rebootCheck (before c t s)) := by
    rw [before, btnCheck_eq (quiet_wlCheck hq), hcheck]
    exact (kept_resetButton.trans kept_moreMem).trans kept_rebootCheck
  unfold counted station
  rw [if_neg]
  · exact hkept
  · have h38 : (rebootCheck (before c t s)).wlcheckPeriod = 38 := hkept.wlcheck
    rw [h38]
    rintro ⟨-, -, ⟨h, -⟩ | ⟨-, -, -, h⟩ | ⟨-, h⟩⟩
    · exact absurd h (by decide)
    · exact absurd h (by decide)
    · exact absurd h (by decide)

/-- What a call does to the timer and the period, in a process whose EZSetup button has not been pressed. -/
inductive Turn (c : Config) (s : State) (t : Tick) (s' : State) : Prop
  /-- The call does not count. -/
  | skipped (hreboot : nvramMatch t.nv "reboot" "0" = true) (period : s'.watchdogPeriod = s.watchdogPeriod)
      (timer : s'.ddnsTimer = s.ddnsTimer) (time : .time ∉ s'.acts) (clear : .clearDdnsTimer ∉ s'.acts)
  /-- The period goes on. -/
  | counted (hreboot : nvramMatch t.nv "reboot" "0" = false) (hlast : s.watchdogPeriod ≠ 39)
      (period : s'.watchdogPeriod = s.watchdogPeriod + 1) (timer : s'.ddnsTimer = s.ddnsTimer) (time : .time ∉ s'.acts)
      (clear : .clearDdnsTimer ∉ s'.acts)
  /-- The period ends, and DDNS is started. -/
  | started (hends : Ends s t) (period : s'.watchdogPeriod = 0)
      (hdue : Starts c s t ∨ (s.ddnsTimer + 1) % 360 * 12 = 0) (timer : s'.ddnsTimer = 0) (time : .time ∈ s'.acts)
      (clear : .clearDdnsTimer ∈ s'.acts)
  /-- The period ends. -/
  | ended (hends : Ends s t) (period : s'.watchdogPeriod = 0) (hdue : ¬Starts c s t)
      (timer : s'.ddnsTimer = (s.ddnsTimer + 1) % 360 * 12) (time : .time ∈ s'.acts) (clear : .clearDdnsTimer ∉ s'.acts)

theorem Kept.nvramMatch {s₁ : State} (h : Kept s s₁) {name : String}
    (hr : cstr (bytes name) ≠ cstr (bytes "RESET_PRESSED")) (hm : cstr (bytes name) ≠ cstr (bytes "more_mem"))
    (value : String) : Rc.nvramMatch s₁.nv name value = Rc.nvramMatch s.nv name value := by
  unfold Rc.nvramMatch
  rw [h.lookup name hr hm]

/-- What the end of a period asks for is what the call has found. -/
theorem restarts_or_due {s₁ : State} (h : Kept { s with wlcheckPeriod := 38, nv := t.nv, acts := [] } s₁) :
    (¬Restarts c s₁ ∧ nvramInvmatch s₁.nv "more_mem" "0" = false ∧ c.wanNatX = true ∧ Due c (advanced s₁) →
      Starts c s t ∨ (s₁.ddnsTimer + 1) % 360 * 12 = 0) ∧
    (Starts c s t →
      ¬Restarts c s₁ ∧ nvramInvmatch s₁.nv "more_mem" "0" = false ∧ c.wanNatX = true ∧ Due c (advanced s₁)) := by
  have hsta : Restarts c s₁ ↔
      c.noProfile = false ∧ c.wlModeEX = 2 ∧ nvramMatch t.nv "wl_sta_mac" "" = true ∧ 2 ≤ s.wlResetTimerUre := by
    rw [Restarts, h.nvramMatch (by decide) (by decide), h.ure]
  have hupdate : nvramMatch s₁.nv "ddns_updated" "0" = nvramMatch t.nv "ddns_updated" "0" :=
    h.nvramMatch (by decide) (by decide) "0"
  have hwan : wanReady s₁.nv = wanReady t.nv := by
    unfold wanReady nvramInvmatch
    rw [h.lookup "wan_ipaddr_t" (by decide) (by decide)]
  have hmem : nvramInvmatch s₁.nv "more_mem" "0" = nvramInvmatch t.nv "more_mem" "0" := h.moreMem
  rw [hsta, hmem]
  constructor
  · rintro ⟨hno, hmore, hnat, hrouter, hddns, hready, hdue⟩
    rcases hdue with hdue | hdue
    · exact Or.inl ⟨hnat, hrouter, hddns, hmore, hwan.symm.trans hready, hupdate.symm.trans hdue, hno⟩
    · exact Or.inr hdue
  · intro hstarts
    exact ⟨hstarts.station, hstarts.moreMem, hstarts.nat, hstarts.router, hstarts.enabled, hwan.trans hstarts.wan,
      Or.inl (hupdate.trans hstarts.update)⟩

/-- **What a call does.** -/
theorem step_turn (hq : Quiet s) (hlt : s.watchdogPeriod < 40) : Turn c s t (step c s t) := by
  have hq' : Quiet { s with nv := t.nv, acts := [] } := hq
  have hbefore := same_before (c := c) (t := t) hq'
  have hcounted := same_counted (c := c) (t := t) hq'
  unfold step
  rw [watchdog_eq, hbefore.reboot, hcounted.period]
  dsimp only
  split_ifs with hreboot hend
  · exact .skipped hreboot hbefore.period hbefore.timer (hbefore.time.not.mpr (by simp))
      (hbefore.clear.not.mpr (by simp))
  · refine .counted (Bool.eq_false_iff.mpr hreboot) (by omega) ?_ hcounted.timer (hcounted.time.not.mpr (by simp))
      (hcounted.clear.not.mpr (by simp))
    dsimp only
    omega
  · have hlast : s.watchdogPeriod = 39 := by omega
    have hkept := kept_counted (c := c) (t := t) hq' hlast
    have hends : Ends s t := ⟨hlast, Bool.eq_false_iff.mpr hreboot⟩
    have hzero : (s.watchdogPeriod + 1) % 40 = 0 := by omega
    rw [hzero]
    -- the process at the end of the period
    generalize hs₁ : { counted c t { s with nv := t.nv, acts := [] } with watchdogPeriod := 0 } = s₁
    have hkept₁ : Kept { s with wlcheckPeriod := 38, nv := t.nv, acts := [] } s₁ := by
      rw [← hs₁]
      exact ⟨hkept.wlcheck, hkept.ure, hkept.moreMem, hkept.lookup⟩
    have hsetup : s₁.btnPressedSetup = 0 := by
      rw [← hs₁]
      exact hcounted.setup.trans hq.2
    have htimer : s₁.ddnsTimer = s.ddnsTimer := by
      rw [← hs₁]
      exact hcounted.timer
    have hperiod : (advanced s₁).watchdogPeriod = 0 := by
      rw [← hs₁]
      rfl
    have hclear : .clearDdnsTimer ∉ (advanced s₁).acts := by
      have hnone : .clearDdnsTimer ∉ s₁.acts := by
        rw [← hs₁]
        exact hcounted.clear.not.mpr (by simp)
      simp [advanced, State.act, hnone]
    have htime : .time ∈ (advanced s₁).acts := by simp [advanced, State.act]
    obtain ⟨hpos, hneg⟩ := restarts_or_due (c := c) hkept₁
    rw [htimer] at hpos
    rcases period_cases c t hsetup with ⟨hdue, hres⟩ | ⟨hdue, hres⟩
    · exact .started hends (hres.period.trans hperiod) (hpos hdue) hres.timer (hres.time.mpr htime) hres.clear
    · refine .ended hends (hres.period.trans hperiod) (fun h => hdue (hneg h)) ?_ (hres.time.mpr htime)
        (hres.clear.not.mpr hclear)
      rw [hres.timer, ← htimer]
      rfl

theorem quiet_step (hq : Quiet s) : Quiet (step c s t) := by
  have hq' : Quiet { s with nv := t.nv, acts := [] } := hq
  have hbefore := same_before (c := c) (t := t) hq'
  have hcounted := same_counted (c := c) (t := t) hq'
  unfold step
  rw [watchdog_eq]
  split_ifs
  · exact ⟨hbefore.flag.trans hq.1, hbefore.setup.trans hq.2⟩
  · exact ⟨hcounted.flag.trans hq.1, hcounted.setup.trans hq.2⟩
  · have hsetup := hcounted.setup.trans hq.2
    rcases period_cases (s := { counted c t { s with nv := t.nv, acts := [] } with
      watchdogPeriod := ((counted c t { s with nv := t.nv, acts := [] }).watchdogPeriod + 1) % 40 }) c t hsetup with
      ⟨-, hres⟩ | ⟨-, hres⟩
    · exact ⟨hres.flag.trans (hcounted.flag.trans hq.1), hres.setup.trans hsetup⟩
    · exact ⟨hres.flag.trans (hcounted.flag.trans hq.1), hres.setup.trans hsetup⟩

end Call

/-! ### Every run -/

section Run

variable {c : Config} {ts : List Tick}

theorem run_snoc (c : Config) (pre : List Tick) (t : Tick) : run c (pre ++ [t]) = tick c (run c pre) t :=
  List.foldl_append

/-- In every state that is reached. -/
theorem run_quiet (c : Config) (ts : List Tick) : Quiet (run c ts).1 := by
  induction ts using List.reverseRecOn with
  | nil => exact ⟨rfl, rfl⟩
  | append_singleton pre t ih =>
    rw [run_snoc]
    exact quiet_step ih

theorem Turn.period_lt {s s' : State} {t : Tick} (h : Turn c s t s') (hlt : s.watchdogPeriod < 40) :
    s'.watchdogPeriod < 40 := by
  cases h with
  | skipped _ hperiod => omega
  | counted _ hlast hperiod => omega
  | started _ hperiod => omega
  | ended _ hperiod => omega

theorem run_period_lt (c : Config) (ts : List Tick) : (run c ts).1.watchdogPeriod < 40 := by
  induction ts using List.reverseRecOn with
  | nil => exact Nat.zero_lt_succ 39
  | append_singleton pre t ih =>
    rw [run_snoc]
    exact (step_turn (run_quiet c pre) ih).period_lt ih

theorem run_turn (c : Config) (pre : List Tick) (t : Tick) :
    Turn c (run c pre).1 t (run c (pre ++ [t])).1 := by
  rw [run_snoc]
  exact step_turn (run_quiet c pre) (run_period_lt c pre)

/-- **A period is forty calls** that have not been stopped by a reboot. -/
theorem run_period (c : Config) (ts : List Tick) :
    (run c ts).1.watchdogPeriod = ts.countP (fun t => !nvramMatch t.nv "reboot" "0") % 40 := by
  induction ts using List.reverseRecOn with
  | nil => rfl
  | append_singleton pre t ih =>
    have hlt := run_period_lt c pre
    rw [List.countP_append, List.countP_singleton]
    cases run_turn c pre t with
    | skipped hreboot hperiod => rw [hperiod, ih, if_neg (by simp [hreboot]), Nat.add_zero]
    | counted hreboot hlast hperiod =>
      rw [if_pos (by simp [hreboot])]
      omega
    | started hends hperiod =>
      rw [if_pos (by simp [hends.2])]
      have := hends.1
      omega
    | ended hends hperiod =>
      rw [if_pos (by simp [hends.2])]
      have := hends.1
      omega

/-- What the count of the periods becomes. -/
theorem run_count (c : Config) (pre : List Tick) (t : Tick) : (run c (pre ++ [t])).2 =
    if .clearDdnsTimer ∈ (run c (pre ++ [t])).1.acts then 0
    else if .time ∈ (run c (pre ++ [t])).1.acts then (run c pre).2 + 1 else (run c pre).2 := by
  rw [run_snoc]
  rfl

/-- As long as every period ends with a start, both stay 0. -/
theorem run_zero (h : ∀ pre t, pre ++ [t] <+: ts → Ends (run c pre).1 t → Starts c (run c pre).1 t) :
    ∀ pre, pre <+: ts → (run c pre).1.ddnsTimer = 0 ∧ (run c pre).2 = 0 := by
  intro pre
  induction pre using List.reverseRecOn with
  | nil => exact fun _ => ⟨rfl, rfl⟩
  | append_singleton pre t ih =>
    intro hpre
    obtain ⟨htimer, hcount⟩ := ih ((List.prefix_append pre [t]).trans hpre)
    rw [run_count]
    cases run_turn c pre t with
    | skipped _ _ hsame htime hclear => rw [hsame, if_neg hclear, if_neg htime]; exact ⟨htimer, hcount⟩
    | counted _ _ _ hsame htime hclear => rw [hsame, if_neg hclear, if_neg htime]; exact ⟨htimer, hcount⟩
    | started _ _ _ hzero _ hclear => exact ⟨hzero, if_pos hclear⟩
    | ended hends _ hdue => exact absurd (h pre t hpre hends) hdue

/-- A period that ends without a start leaves 12, where there should be 1. -/
theorem starts_of_counts (h : Counts c ts) : ∀ q, q <+: ts →
    ∀ pre t, pre ++ [t] <+: q → Ends (run c pre).1 t → Starts c (run c pre).1 t := by
  intro q
  induction q using List.reverseRecOn with
  | nil =>
    intro _ pre t hpre
    exact absurd (List.prefix_nil.mp hpre) (by simp)
  | append_singleton q u ih =>
    intro hq pre t hpre hends
    have hq' := (List.prefix_append q [u]).trans hq
    rcases List.prefix_concat_iff.mp hpre with heq | hpre
    · obtain ⟨rfl, hu⟩ := List.append_inj' heq rfl
      cases hu
      obtain ⟨htimer, hcount⟩ := run_zero (ih hq') pre (List.prefix_refl pre)
      cases run_turn c pre u with
      | skipped hreboot => exact absurd (hends.2.symm.trans hreboot) Bool.false_ne_true
      | counted _ hlast => exact absurd hends.1 hlast
      | started _ _ hdue => exact hdue.resolve_right (by rw [htimer]; decide)
      | ended _ _ _ htwelve htime hclear =>
        have hcounts := h _ hq
        rw [run_count, if_neg hclear, if_pos htime, htwelve, htimer, hcount] at hcounts
        exact absurd hcounts (by decide)
    · exact ih hq' pre t hpre hends

/-- **When the timer counts**: in a run in which DDNS is started at the end of each period. -/
theorem counts_iff (c : Config) (ts : List Tick) :
    Counts c ts ↔ ∀ pre t, pre ++ [t] <+: ts → Ends (run c pre).1 t → Starts c (run c pre).1 t := by
  constructor
  · intro h
    exact starts_of_counts h ts (List.prefix_refl ts)
  · intro h pre hpre
    obtain ⟨htimer, hcount⟩ := run_zero h pre hpre
    rw [htimer, hcount]

/-- A call that finds nothing. -/
def idle : Tick := ⟨∅, false, true, .failed, false, none, false, false⟩

/-- Forty calls without DDNS: the timer is 12. -/
theorem forty_not_counted : ¬Counts (.read ∅) (List.replicate 40 idle) := by
  intro h
  have hends : Ends (run (.read ∅) (List.replicate 39 idle)).1 idle := by
    refine ⟨?_, rfl⟩
    rw [run_period, List.countP_replicate]
    rfl
  have hstarts := starts_of_counts h _ (List.prefix_refl _) (List.replicate 39 idle) idle
    (by rw [← List.replicate_succ']) hends
  exact Bool.false_ne_true hstarts.nat

/-- What the timer is from the first period on. -/
def Stuck (n : ℕ) : Prop := n ∈ [12, 156, 1884, 1020, 3612]

instance : DecidablePred Stuck := fun n => inferInstanceAs (Decidable (n ∈ [12, 156, 1884, 1020, 3612]))

theorem Stuck.next {n : ℕ} (h : Stuck n) : Stuck ((n + 1) % 360 * 12) := by
  have hall : ∀ n ∈ [12, 156, 1884, 1020, 3612], (n + 1) % 360 * 12 ∈ [12, 156, 1884, 1020, 3612] := by decide
  exact hall n h

theorem Stuck.ne_zero {n : ℕ} (h : Stuck n) : n ≠ 0 := by
  rintro rfl
  exact absurd h (by decide)

/-- **DDNS is never refreshed for its age**: the timer does not become 0 again by itself, in however many periods. -/
theorem stuck_run {pre : List Tick} (h : Stuck (run c pre).1.ddnsTimer) : ∀ post,
    (∀ mid t, mid ++ [t] <+: post → ¬Starts c (run c (pre ++ mid)).1 t) →
      Stuck (run c (pre ++ post)).1.ddnsTimer := by
  intro post
  induction post using List.reverseRecOn with
  | nil =>
    intro _
    rwa [List.append_nil]
  | append_singleton post t ih =>
    intro hnot
    have hstuck := ih fun mid u hmid => hnot mid u (hmid.trans (List.prefix_append post [t]))
    rw [← List.append_assoc]
    cases run_turn c (pre ++ post) t with
    | skipped _ _ hsame => rwa [hsame]
    | counted _ _ _ hsame => rwa [hsame]
    | started _ _ hdue =>
      rcases hdue with hdue | hdue
      · exact absurd hdue (hnot post t (List.prefix_refl _))
      · exact absurd hdue hstuck.next.ne_zero
    | ended _ _ _ htimer =>
      rw [htimer]
      exact hstuck.next

end Run

end Watchdog
end Rc
end Router
