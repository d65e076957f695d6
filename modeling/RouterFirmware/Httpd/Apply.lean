/-
# Applying a page

`router/httpd/web_ex.c`: `do_apply_cgi` scans a query for deletions, makes variables of it and calls `apply_cgi`, which
copies some of them into arrays of a fixed size and, for each service that the query names, goes through the variables of
that service. `apply_iff` says for which requests all of it is safe: `ScanFits` is about the parameters, `Fits` about the
variables. The build is the one without USB.

What `apply_cgi` does besides (`nvram_set`, scripts, redirects, the profiles) is left out, and of `validate_cgi`,
`apply_cgi_group` and `modify_SSID_group` all but their loops over the variables. The values of a query do not overlap,
so that the NULs which `svc_pop_list` writes into one of them change no other.
-/
import RouterFirmware.Httpd.Cgi
import RouterFirmware.Httpd.Scan

namespace Router
namespace Httpd
namespace Apply

open CMem CText

/-! ### The services of a page -/

/-- `svc_pop_list(value, ';')`, and what stands behind. -/
def svcPopList (value : Bytes) : Option (Bytes × Bytes) :=
  match strsep [59] value with
  | (buf, some rest) => some (buf, rest)
  | (_, none) => none

/-- `while ((serviceId = svc_pop_list(sid_list, ';')))`, in `n` turns at most: what is used, and whether `apply_cgi`
returns from it. -/
def services (body : Bytes → List Event × Bool) : ℕ → Bytes → List Event × Bool
  | 0, _ => ([], false)
  | n + 1, sidList =>
    match svcPopList sidList with
    | none => ([], false)
    | some (serviceId, rest) =>
      let r := body serviceId
      if r.2 then r
      else
        let t := services body n rest
        (r.1 ++ t.1, t.2)

/-- The loop of `validate_cgi`. -/
def validateCgi (sid : ℕ) : List Event := (forVariables (fun _ => false) 0 (getVariables sid)).map (.entry sid)

/-- The loop of `apply_cgi_group` and `modify_SSID_group`. -/
def findGroup (sid : ℕ) (groupName : CStr) : List Event :=
  (forVariables (fun name => bytes name == groupName.bytes) 0 (getVariables sid)).map (.entry sid)

/-! ### `apply_cgi` -/

/-- `strcpy(buf, s)`. -/
def copy (buf : Buf) (s : CStr) : Event := .write buf 0 (s.length + 1)

/-- `!strncmp(s, text, strlen(text))`. -/
def starts (s : CStr) (text : String) : Bool := (bytes text).isPrefixOf s.bytes

/-- The modes for which `apply_cgi` returns at once. -/
def leaving : List CStr :=
  [.lit " Clear ", .lit "NEXT", .lit " Hot_Spot ", .lit " Select_LANG ", .lit "Save&Restart ", .lit "Restore",
    .lit "WlanUpdate "]

/-- The modes for which the variables of the services are set. -/
def setting : List CStr :=
  [.lit "  Save  ", .lit " Apply ", .lit "Set", .lit "Unset", .lit "Update", .lit "Eject", .lit " Finish "]

def wizards : List CStr :=
  [.lit "Wizard_Gateway.asp", .lit "Wizard_AP.asp", .lit "Wizard_Adapter.asp", .lit "Wizard_Repeater.asp"]

/-- The modes that are about the profiles. -/
def onProfile (mode : CStr) : Bool :=
  [" SaveProfile ", " DelProfile ", " MoveUp ", " MoveDown "].any (starts mode)

/-- The modes that are about a group. -/
def onGroup (mode : CStr) : Bool := [" Save ", " Delete ", " Add ", " Del ", " Refresh "].any (starts mode)

variable (get : CStr → Option CStr)

/-- `websGetVar(wp, name, "")`. -/
def websGetVar (name : CStr) : CStr := (get name).getD (.lit "")

def actionMode : CStr := websGetVar get (.lit "action_mode")

def currentPage : CStr := websGetVar get (.lit "current_page")

def nextPage : CStr := websGetVar get (.lit "next_page")

def groupId : CStr := websGetVar get (.lit "group_id")

def exmode : CStr := websGetVar get (.lit "exmode")

def sidList : CStr := websGetVar get (.lit "sid_list")

/-- Behind "group ?". -/
def groupBody (sid : ℕ) : List Event × Bool :=
  match get (.lit "action_mode") with
  | none => ([copy .groupId (groupId get)], false)
  | some value1 =>
    if onProfile value1 then
      let url : List Event :=
        if exmode get = .lit "sta" then
          [.write .urlStr 0 ((bytes "Advanced_WirelessSTA_Content.asp#").length + (groupId get).length + 1)]
        else if exmode get = .lit "re" then
          [.write .urlStr 0 ((bytes "Advanced_WirelessURE_Content.asp#").length + (groupId get).length + 1)]
        else []
      (copy .groupId (groupId get) :: url, true)
    else
      (copy .groupId (groupId get) :: ((if onGroup value1 then findGroup sid (groupId get) else []) ++
        .write .urlStr 0 ((currentPage get).length + 1 + (groupId get).length + 1) :: validateCgi sid), false)

/-- The body of the loop over the services. -/
def serviceBody (serviceId : Bytes) : List Event × Bool :=
  let sid := lookupServiceId serviceId
  if actionMode get = .lit " Restore " then ([], false)
  else if actionMode get ∈ setting then (validateCgi sid, false)
  else groupBody get sid

/-- Behind the loop. -/
def finish : List Event :=
  if actionMode get = .lit "  Save  " ∧ currentPage get ∈ wizards then []
  else if actionMode get = .lit "  Save  " ∨ actionMode get = .lit " Apply " then
    copy .urlcache (nextPage get) ::
      if currentPage get = .lit "Advanced_WAdvanced_Content.asp" then [copy .urlcache2 (currentPage get)] else []
  else if actionMode get = .lit " Finish " ∧ currentPage get = .lit "Advanced_WAdvanced_Content.asp" then
    [copy .urlcache (nextPage get), copy .urlcache2 (currentPage get)]
  else []

def applyCgi : List Event :=
  [.write .urlStr 0 1, .write .currentUrlGlocal 0 256, copy .currentUrlGlocal (currentPage get)] ++
    if actionMode get = .lit " Refresh " then [copy .systemCmd (websGetVar get (.lit "SystemCmd"))]
    else if actionMode get ∈ leaving then []
    else
      let r := services (serviceBody get) ((sidList get).length + 1) (sidList get).bytes
      r.1 ++ if r.2 then [] else finish get

/-- `do_apply_cgi`, for the text at `url` in the array of the request line. -/
def doApplyCgi (junk : ℕ → UInt8) (htab : Option (List Cgi.Entry)) (line : Mem) (url : ℕ) : List Event :=
  Scan.websScan (scan line url (10000 - url)) ++
    match strsepAt 10000 (bytes "?") line url with
    | (_, none) => []
    | (line, some query) => applyCgi (Cgi.getCgi 10000 (Cgi.initCgi 10000 junk ⟨line, htab⟩ (some query)))

/-! ### What is to fit -/

/-- The services with a ';' behind them. -/
def serviceIds : List Bytes := ((sidList get).bytes.splitOn 59).dropLast

/-- A mode that is none of those of `apply_cgi`. -/
def OtherMode : Prop :=
  actionMode get ≠ .lit " Refresh " ∧ actionMode get ∉ leaving ∧ actionMode get ≠ .lit " Restore " ∧
    actionMode get ∉ setting

/-- There is a service for it. -/
def ActsOnGroup : Prop := OtherMode get ∧ serviceIds get ≠ []

/-- The group is shown by its page in the end. -/
def ShowsGroup : Prop :=
  ActsOnGroup get ∧ get (.lit "action_mode") ≠ none ∧ onProfile (actionMode get) = false

/-- A page of the client stations or of the repeater is shown. -/
def ShowsProfile : Prop :=
  ActsOnGroup get ∧ get (.lit "action_mode") ≠ none ∧ onProfile (actionMode get) = true ∧
    (exmode get = .lit "sta" ∨ exmode get = .lit "re")

/-- The next page is remembered. -/
def ShowsNext : Prop :=
  actionMode get = .lit "  Save  " ∧ currentPage get ∉ wizards ∨ actionMode get = .lit " Apply " ∨
    actionMode get = .lit " Finish " ∧ currentPage get = .lit "Advanced_WAdvanced_Content.asp"

/-- The variables fit where they are copied to, and the services that are acted on are there. -/
structure Fits : Prop where
  current : (currentPage get).length < 256
  command : actionMode get = .lit " Refresh " → (websGetVar get (.lit "SystemCmd")).length < 64
  group : ActsOnGroup get → (groupId get).length < 64
  profile : ShowsProfile get → (groupId get).length < 31
  shown : ShowsGroup get → (currentPage get).length + (groupId get).length < 63
  next : ShowsNext get → (nextPage get).length < 128
  listed : actionMode get ∈ setting ∨ ShowsGroup get → ∀ id ∈ serviceIds get, Listed id

/-! ### The loop -/

variable {get : CStr → Option CStr}

theorem svcPopList_append {id rest : Bytes} (h : 59 ∉ id) : svcPopList (id ++ 59 :: rest) = some (id, rest) := by
  unfold svcPopList
  rw [strsep_append List.mem_cons_self rest]
  intro x hx hc
  rw [List.mem_singleton] at hc
  exact h (hc ▸ hx)

theorem svcPopList_none {s : Bytes} (h : 59 ∉ s) : svcPopList s = none := by
  unfold svcPopList
  rw [strsep_eq_none]
  intro x hx hc
  rw [List.mem_singleton] at hc
  exact h (hc ▸ hx)

/-- The body is run for each service up to one from which it returns. -/
theorem services_eq {body : Bytes → List Event × Bool} : ∀ {n : ℕ} {s : Bytes}, s.length < n →
    services body n s = ((s.splitOn 59).dropLast.foldr (fun id t =>
      if (body id).2 then body id else ((body id).1 ++ t.1, t.2)) ([], false))
  | n + 1, s, hlen => by
    by_cases hmem : 59 ∈ s
    · obtain ⟨id, rest, hid, rfl⟩ := Scan.first_of_mem hmem
      have hrest : rest.length < n := by
        rw [List.length_append, List.length_cons] at hlen
        omega
      rw [services, svcPopList_append hid]
      dsimp only
      rw [services_eq hrest, List.splitOn_append_cons_self_of_not_mem hid,
        List.dropLast_cons_of_ne_nil (List.splitOn_ne_nil _ _), List.foldr_cons]
    · rw [services, svcPopList_none hmem, List.splitOn_eq_singleton hmem]
      rfl

/-- A body that never returns. -/
theorem services_all {body : Bytes → List Event × Bool} {n : ℕ} {s : Bytes} (hlen : s.length < n)
    (h : ∀ id, (body id).2 = false) :
    (services body n s).2 = false ∧
      (Safe (services body n s).1 ↔ ∀ id ∈ (s.splitOn 59).dropLast, Safe (body id).1) := by
  rw [services_eq hlen]
  induction (s.splitOn 59).dropLast with
  | nil => simp
  | cons id ids ih =>
    rw [List.foldr_cons, if_neg (by simp [h id]), safe_append, List.forall_mem_cons, ih.2]
    exact ⟨ih.1, Iff.rfl⟩

/-- A body that always returns. -/
theorem services_first {body : Bytes → List Event × Bool} {events : List Event} {n : ℕ} {s : Bytes}
    (hlen : s.length < n) (h : ∀ id, body id = (events, true)) :
    services body n s = if (s.splitOn 59).dropLast = [] then ([], false) else (events, true) := by
  rw [services_eq hlen]
  cases (s.splitOn 59).dropLast with
  | nil => rfl
  | cons id ids =>
    rw [List.foldr_cons, h id]
    rfl

/-! ### The variables of a service -/

theorem safe_entries {stop : String → Bool} {sid : ℕ} :
    Safe ((forVariables stop 0 (getVariables sid)).map (.entry sid)) ↔
      none ∈ getVariables sid ∨ ∃ name, some name ∈ getVariables sid ∧ stop name = true := by
  rw [← forVariables_inside (Nat.zero_add _)]
  exact List.forall_mem_map

theorem safe_validateCgi {serviceId : Bytes} : Safe (validateCgi (lookupServiceId serviceId)) ↔ Listed serviceId := by
  rw [listed_iff, validateCgi, safe_entries]
  simp

theorem safe_findGroup {serviceId : Bytes} (groupName : CStr) (h : Listed serviceId) :
    Safe (findGroup (lookupServiceId serviceId) groupName) :=
  safe_entries.mpr (.inl (listed_iff.mp h))

theorem safe_copy {buf : Buf} {s : CStr} : (copy buf s).Safe ↔ s.length < buf.size := by
  simp [copy]

/-- What is behind "group ?" for a mode that is not about the profiles. -/
theorem safe_groupBody {serviceId : Bytes} {value1 : CStr} (hmode : get (.lit "action_mode") = some value1)
    (hprofile : onProfile value1 = false) :
    (groupBody get (lookupServiceId serviceId)).2 = false ∧
      (Safe (groupBody get (lookupServiceId serviceId)).1 ↔ (groupId get).length < 64 ∧
        (currentPage get).length + (groupId get).length < 63 ∧ Listed serviceId) := by
  have hurl : (Event.write .urlStr 0 ((currentPage get).length + 1 + (groupId get).length + 1)).Safe ↔
      (currentPage get).length + (groupId get).length < 63 := by
    simp [Buf.size]
    omega
  have hfind : Listed serviceId →
      Safe (if onGroup value1 then findGroup (lookupServiceId serviceId) (groupId get) else []) := by
    intro h
    split_ifs
    · exact safe_findGroup _ h
    · exact safe_nil
  unfold groupBody
  rw [hmode]
  simp only [hprofile, Bool.false_eq_true, if_false]
  rw [safe_cons, safe_copy, safe_append, safe_cons, hurl, safe_validateCgi]
  exact ⟨trivial, and_congr Iff.rfl ⟨fun h => h.2, fun h => ⟨hfind h.2, h⟩⟩⟩

/-- For one that is, with the page that is shown. -/
theorem groupBody_profile {value1 : CStr} (hmode : get (.lit "action_mode") = some value1)
    (hprofile : onProfile value1 = true) : ∃ events, (∀ sid, groupBody get sid = (events, true)) ∧
      (Safe events ↔ (groupId get).length < 64 ∧
        (exmode get = .lit "sta" ∨ exmode get = .lit "re" → (groupId get).length < 31)) := by
  unfold groupBody
  rw [hmode]
  simp only [hprofile, if_true]
  refine ⟨_, fun _ => rfl, ?_⟩
  rw [safe_cons, safe_copy]
  apply and_congr Iff.rfl
  have hsta : (bytes "Advanced_WirelessSTA_Content.asp#").length = 33 := by decide
  have hre : (bytes "Advanced_WirelessURE_Content.asp#").length = 33 := by decide
  rw [hsta, hre]
  by_cases h1 : exmode get = .lit "sta"
  · simp [h1, Buf.size]
    omega
  by_cases h2 : exmode get = .lit "re"
  · rw [if_neg h1, if_pos h2]
    simp [h2, Buf.size]
    omega
  · rw [if_neg h1, if_neg h2]
    simp [h1, h2]

/-! ### The modes -/

theorem setting_spec : ∀ mode ∈ setting, mode ≠ .lit " Refresh " ∧ mode ≠ .lit " Restore " ∧ mode ∉ leaving := by
  decide

theorem leaving_spec : ∀ mode ∈ leaving, mode ∉ setting := fun mode hmem hset => (setting_spec mode hset).2.2 hmem

theorem ShowsNext.mem_setting (h : ShowsNext get) : actionMode get ∈ setting := by
  rcases h with ⟨h, -⟩ | h | ⟨h, -⟩
  · rw [h]
    decide
  · rw [h]
    decide
  · rw [h]
    decide

theorem not_actsOnGroup (h : actionMode get ∈ setting) : ¬ActsOnGroup get := fun hg => hg.1.2.2.2 h

theorem safe_finish : Safe (finish get) ↔ (ShowsNext get → (nextPage get).length < 128) := by
  have hsave : CStr.lit "  Save  " ≠ .lit " Apply " ∧ CStr.lit "  Save  " ≠ .lit " Finish " := by decide
  have hpage : currentPage get = .lit "Advanced_WAdvanced_Content.asp" → (copy .urlcache2 (currentPage get)).Safe := by
    intro h
    rw [safe_copy, h]
    decide
  unfold finish
  split_ifs with h1 h2 h3 h4
  · have hnot : ¬ShowsNext get := by
      rintro (⟨-, hpages⟩ | hmode | ⟨hmode, -⟩)
      · exact hpages h1.2
      · exact hsave.1 (h1.1 ▸ hmode)
      · exact hsave.2 (h1.1 ▸ hmode)
    simp [hnot]
  · have hshows : ShowsNext get := by
      rcases h2 with hmode | hmode
      · exact .inl ⟨hmode, fun hpages => h1 ⟨hmode, hpages⟩⟩
      · exact .inr (.inl hmode)
    simp only [safe_cons, safe_copy, safe_nil, and_true, hshows, forall_const]
    exact and_iff_left (safe_copy.mp (hpage h3))
  · have hshows : ShowsNext get := by
      rcases h2 with hmode | hmode
      · exact .inl ⟨hmode, fun hpages => h1 ⟨hmode, hpages⟩⟩
      · exact .inr (.inl hmode)
    simp only [safe_cons, safe_copy, safe_nil, and_true, hshows, forall_const]
    rfl
  · have hshows : ShowsNext get := .inr (.inr h4)
    simp only [safe_cons, safe_copy, safe_nil, and_true, hshows, forall_const]
    exact and_iff_left (safe_copy.mp (hpage h4.2))
  · have hnot : ¬ShowsNext get := by
      rintro (⟨hmode, -⟩ | hmode | hmode)
      · exact h2 (.inl hmode)
      · exact h2 (.inr hmode)
      · exact h4 hmode
    simp [hnot]

/-- A mode for which nothing is done with the services. -/
theorem fits_of_idle (hset : actionMode get ∉ setting) (hgroup : ¬ActsOnGroup get) :
    Fits get ↔ (currentPage get).length < 256 ∧
      (actionMode get = .lit " Refresh " → (websGetVar get (.lit "SystemCmd")).length < 64) := by
  constructor
  · intro h
    exact ⟨h.current, h.command⟩
  · intro h
    refine ⟨h.1, h.2, fun hg => absurd hg hgroup, fun hg => absurd hg.1 hgroup, fun hg => absurd hg.1 hgroup,
      fun hn => absurd hn.mem_setting hset, ?_⟩
    rintro (hmem | hg)
    · exact absurd hmem hset
    · exact absurd hg.1 hgroup

theorem fits_of_setting (hset : actionMode get ∈ setting) : Fits get ↔ (currentPage get).length < 256 ∧
    (∀ id ∈ serviceIds get, Listed id) ∧ (ShowsNext get → (nextPage get).length < 128) := by
  have hgroup := not_actsOnGroup hset
  constructor
  · intro h
    exact ⟨h.current, h.listed (.inl hset), h.next⟩
  · intro h
    exact ⟨h.1, fun hmode => absurd hmode (setting_spec _ hset).1, fun hg => absurd hg hgroup,
      fun hg => absurd hg.1 hgroup, fun hg => absurd hg.1 hgroup, h.2.2, fun _ => h.2.1⟩

theorem forall_mem_const {l : List Bytes} {P : Prop} : (∀ id ∈ l, P) ↔ (l ≠ [] → P) := by
  constructor
  · intro h hne
    obtain ⟨id, hid⟩ := List.exists_mem_of_ne_nil l hne
    exact h id hid
  · intro h id hid
    exact h (List.ne_nil_of_mem hid)

theorem services_other (h : OtherMode get) {n : ℕ} (hlen : (sidList get).length < n) :
    Safe (services (serviceBody get) n (sidList get).bytes).1 ↔
      (ActsOnGroup get → (groupId get).length < 64) ∧ (ShowsProfile get → (groupId get).length < 31) ∧
        (ShowsGroup get → (currentPage get).length + (groupId get).length < 63) ∧
          (ShowsGroup get → ∀ id ∈ serviceIds get, Listed id) := by
  have hacts : ActsOnGroup get ↔ serviceIds get ≠ [] := and_iff_right h
  have hbody : ∀ id, serviceBody get id = groupBody get (lookupServiceId id) := by
    intro id
    unfold serviceBody
    rw [if_neg h.2.2.1, if_neg h.2.2.2]
  cases hmode : get (.lit "action_mode") with
  | none =>
    have hgroup : ∀ id, serviceBody get id = ([copy .groupId (groupId get)], false) := by
      intro id
      rw [hbody, groupBody, hmode]
    obtain ⟨-, hsafe⟩ := services_all hlen fun id => congrArg Prod.snd (hgroup id)
    rw [hsafe]
    simp only [hgroup, ShowsProfile, ShowsGroup, hmode, ne_eq, not_true_eq_false, false_and, and_false,
      false_imp_iff, and_true, safe_cons, safe_nil, safe_copy]
    rw [forall_mem_const, hacts]
    rfl
  | some value1 =>
    have hvalue : actionMode get = value1 := by
      unfold actionMode websGetVar
      rw [hmode, Option.getD_some]
    cases hprofile : onProfile value1 with
    | false =>
      have hgroup := fun id => hbody id ▸ @safe_groupBody get id value1 hmode hprofile
      obtain ⟨-, hsafe⟩ := services_all hlen fun id => (hgroup id).1
      have hshows : ShowsGroup get ↔ serviceIds get ≠ [] := by
        simp [ShowsGroup, hacts, hmode, hvalue, hprofile]
      have hno : ¬ShowsProfile get := by simp [ShowsProfile, hvalue, hprofile]
      have hlisted : (serviceIds get ≠ [] → ∀ id ∈ serviceIds get, Listed id) ↔ ∀ id ∈ serviceIds get, Listed id :=
        ⟨fun hall id hid => hall (List.ne_nil_of_mem hid) id hid, fun hall _ => hall⟩
      rw [hsafe, hshows, hacts, hlisted]
      simp only [(hgroup _).2, hno, false_imp_iff, true_and]
      show (∀ id ∈ serviceIds get, _) ↔ _
      rw [forall₂_and, forall₂_and, forall_mem_const, forall_mem_const]
    | true =>
      obtain ⟨events, hevents, hsafe⟩ := groupBody_profile hmode hprofile
      have hno : ¬ShowsGroup get := by simp [ShowsGroup, hvalue, hprofile]
      have hshows : ShowsProfile get ↔ serviceIds get ≠ [] ∧ (exmode get = .lit "sta" ∨ exmode get = .lit "re") := by
        simp [ShowsProfile, hacts, hmode, hvalue, hprofile]
      rw [services_first hlen fun id => (hbody id).trans (hevents _), hshows, hacts]
      simp only [hno, false_imp_iff, and_true]
      by_cases hids : serviceIds get = []
      · have hids' : ((sidList get).bytes.splitOn 59).dropLast = [] := hids
        simp [hids, hids']
      · have hids' : ((sidList get).bytes.splitOn 59).dropLast ≠ [] := hids
        rw [if_neg hids', hsafe]
        simp [hids]

/-- What becomes of the variables is safe if they fit. -/
theorem applyCgi_iff : Safe (applyCgi get) ↔ Fits get := by
  have hstart : Safe [.write .urlStr 0 1, .write .currentUrlGlocal 0 256, copy .currentUrlGlocal (currentPage get)] ↔
      (currentPage get).length < 256 := by
    rw [safe_cons, safe_cons, safe_cons, safe_copy]
    simp [Buf.size]
  have hlen : (sidList get).bytes.length < (sidList get).length + 1 := Nat.lt_succ_self _
  unfold applyCgi
  rw [safe_append, hstart]
  by_cases hrefresh : actionMode get = .lit " Refresh "
  · have hset : actionMode get ∉ setting := fun hmem => (setting_spec _ hmem).1 hrefresh
    rw [if_pos hrefresh, fits_of_idle hset fun hg => hg.1.1 hrefresh, safe_cons, safe_copy]
    simp [hrefresh, Buf.size]
  rw [if_neg hrefresh]
  by_cases hleave : actionMode get ∈ leaving
  · rw [if_pos hleave, fits_of_idle (leaving_spec _ hleave) fun hg => hg.1.2.1 hleave]
    simp [hrefresh]
  rw [if_neg hleave]
  dsimp only
  by_cases hset : actionMode get ∈ setting
  · have hbody : ∀ id, serviceBody get id = (validateCgi (lookupServiceId id), false) := by
      intro id
      unfold serviceBody
      rw [if_neg (setting_spec _ hset).2.1, if_pos hset]
    obtain ⟨hreturn, hsafe⟩ := services_all hlen fun id => congrArg Prod.snd (hbody id)
    rw [hreturn, safe_append, hsafe, if_neg Bool.false_ne_true, safe_finish, fits_of_setting hset]
    simp only [hbody, safe_validateCgi]
    rfl
  have hfinish : Safe (finish get) := safe_finish.mpr fun hn => absurd hn.mem_setting hset
  by_cases hrestore : actionMode get = .lit " Restore "
  · have hbody : ∀ id, serviceBody get id = ([], false) := by
      intro id
      unfold serviceBody
      rw [if_pos hrestore]
    obtain ⟨hreturn, hsafe⟩ := services_all hlen fun id => congrArg Prod.snd (hbody id)
    rw [hreturn, safe_append, hsafe, if_neg Bool.false_ne_true, fits_of_idle hset fun hg => hg.1.2.2.1 hrestore]
    simp [hbody, hfinish, hrefresh]
  · have hother : OtherMode get := ⟨hrefresh, hleave, hrestore, hset⟩
    have hdone : ∀ b : Bool, Safe (if b = true then [] else finish get) := by
      intro b
      split_ifs
      · exact safe_nil
      · exact hfinish
    rw [safe_append, services_other hother hlen, and_iff_left (hdone _)]
    constructor
    · rintro ⟨h1, h2, h3, h4, h5⟩
      exact ⟨h1, fun hmode => absurd hmode hrefresh, h2, h3, h4, fun hn => absurd hn.mem_setting hset,
        fun hl => h5 (hl.resolve_left hset)⟩
    · intro h
      exact ⟨h.current, h.group, h.profile, h.shown, fun hg => h.listed (.inr hg)⟩

/-! ### Requests -/

/-- The variables of a query behind `path`. -/
def variablesOf (junk : ℕ → UInt8) (htab : Option (List Cgi.Entry)) (line : Mem) (url : ℕ) (path : Bytes) :
    CStr → Option CStr :=
  Cgi.getCgi 10000
    (Cgi.initCgi 10000 junk ⟨write line (url + path.length) [0], htab⟩ (some (url + path.length + 1)))

theorem doApplyCgi_query {junk : ℕ → UInt8} {htab : Option (List Cgi.Entry)} {line : Mem} {url : ℕ} {path query : Bytes}
    (h : scan line url (10000 - url) = path ++ 63 :: query) (hpath : 63 ∉ path) :
    doApplyCgi junk htab line url =
      Scan.websScan (path ++ 63 :: query) ++ applyCgi (variablesOf junk htab line url path) := by
  have hquery : strsepAt 10000 (bytes "?") line url =
      (write line (url + path.length) [0], some (url + path.length + 1)) := by
    unfold strsepAt
    rw [h, show bytes "?" = [63] from rfl, strpbrk_singleton hpath]
  unfold doApplyCgi
  rw [hquery, h]
  rfl

/-- A request is applied safely if the parameters of its query fit the scan, and its variables what they are copied
to. -/
theorem apply_iff (junk : ℕ → UInt8) (htab : Option (List Cgi.Entry)) (line : Mem) (url : ℕ) :
    Safe (doApplyCgi junk htab line url) ↔
      ∀ path query, scan line url (10000 - url) = path ++ 63 :: query → 63 ∉ path →
        Scan.ScanFits none 0 (query.splitOn 38) ∧ Fits (variablesOf junk htab line url path) := by
  constructor
  · intro h path query hscan hpath
    rw [doApplyCgi_query hscan hpath, safe_append, Scan.websScan_iff hpath, applyCgi_iff] at h
    exact h
  · intro h
    by_cases hmem : 63 ∈ scan line url (10000 - url)
    · obtain ⟨path, query, hpath, hscan⟩ := Scan.first_of_mem hmem
      rw [doApplyCgi_query hscan hpath, safe_append, Scan.websScan_iff hpath, applyCgi_iff]
      exact h path query hscan hpath
    · have hquery : strsepAt 10000 (bytes "?") line url = (line, none) := by
        unfold strsepAt
        rw [strpbrk_eq_none]
        intro x hx hc
        have hx63 : x = 63 := by simpa [bytes] using hc
        exact hmem (hx63 ▸ hx)
      unfold doApplyCgi
      rw [hquery, Scan.websScan_path hmem]
      simp [Buf.size]

/-- A request with a parameter that has no '='. -/
def noEquals : Mem := write (fun _ => 0) 0 (bytes "apply.cgi?x" ++ [0])

theorem missing_used : ¬ ∀ junk htab line url, Safe (doApplyCgi junk htab line url) := by
  intro h
  have hused : Event.missing ∈ Scan.websScan (scan noEquals 0 10000) := by decide +kernel
  exact (safe_append.mp (h (fun _ => 0) none noEquals 0)).1 _ hused

end Apply
end Httpd
end Router
