/-
# Settings saved and restored

`nvram save` writes the dump of the variables to a file, under a header with its padded length; `nvram restore` reads
the file back and sets every variable whose name contains the name of a router default. It sets them with the
`nvram_set` of user programs, which writes another value for `wl_key1` and for a long `wl_ssid` while `wsc_set` is
`"1"`, and through a kernel that takes a name with the prefix of the boot loader for the rest of it.

The restore is written over an interface to `/dev/nvram` (`Device`), for the store and for the map of its variables.
A file of `nvram_save` restored is a fold over the variables that were saved (`nvramRestore_save`).
-/
import RouterFirmware.Lib.Search
import RouterFirmware.Nvram.Survive

namespace Router
namespace Nvram

open CMem CText

/-! ### The dump -/

/-- The inner loop of `_nvram_getall`; a tuple that does not fit ends the chain. -/
def getallChain (st : Store) (count : ℕ) : List Tuple → Mem × ℕ → Mem × ℕ
  | [], s => s
  | t :: ts, (buf, len) =>
    let value := st.str t.value
    if count - len > t.name.length + 1 + value.length + 1 then
      getallChain st count ts (write buf len (entry t.name value), len + (t.name.length + 1 + value.length) + 1)
    else (buf, len)

/-- `_nvram_getall`: the buffer it leaves. -/
def _nvramGetall (st : Store) (count : ℕ) (buf : Mem) : Mem :=
  ((List.finRange hashSize).foldl (fun s i => getallChain st count (st.nvramHash i) s)
    (write buf 0 (List.replicate count 0), 0)).1

/-! ### `/dev/nvram` -/

/-- What a user program does with the variables. A write of a name without a value unsets it; it is `none` when it
returns an error. -/
structure Device (σ : Type*) where
  get : σ → CStr → Option CStr
  write : σ → CStr → Option CStr → Option σ

/-- The variable that the kernel's `nvram_set` sets for a name: one with the boot loader's prefix goes without it, and
two of those set nothing. -/
def kernelName (name : CStr) : Option CStr :=
  if isCfeName name then
    if name = cfeNvramCommit ∨ name = cfeNvramWatchdog then none else some (CStr.skip name cfeNvramPrefix.length)
  else some name

/-- The variables themselves, where no set fails. -/
def mapDevice : Device VarMap where
  get m name := m.lookup name
  write m name
    | some value => some ((kernelName name).elim m fun n => m.insert n value)
    | none => some (m.erase name)

/-- The store, with the answers of `kmalloc` that are to come. A set fails if `_nvram_set` does at its first try. -/
def storeDevice (kmalloc : ℕ → Bool) : Device (Store × ℕ) where
  get s name := s.1.getStr name
  write s name
    | some value =>
      match kernelName name with
      | none => some s
      | some n =>
        let r := _nvramSet (kmalloc s.2) s.1 n value
        if r.2 = 0 then some (r.1, s.2 + 1) else none
    | none => some ((_nvramUnset s.1 (some name)).1, s.2)

/-! ### The program -/

/-- The names in `router_defaults`, as they are compiled for a device with NAT. -/
def routerDefaults : List String :=
  ["os_name", "os_version", "os_date", "timer_interval", "ntp_server", "log_level", "upnp_enable", "ezc_enable",
    "ezc_version", "is_default", "os_server", "stats_server", "console_loglevel", "router_disable", "ure_disable",
    "fw_disable", "log_ipaddr", "lan_ifname", "lan_ifnames", "lan_hwnames", "lan_hwaddr", "lan_dhcp", "lan_ipaddr",
    "lan_netmask", "lan_proto", "lan_wins", "lan_domain", "lan_lease", "lan_stp", "lan_route", "wan_ifname",
    "wan_ifnames", "wan_hwname", "wan_hwaddr", "wan_proto", "wan_ipaddr", "wan_netmask", "wan_gateway", "wan_dns",
    "wan_wins", "wan_hostname", "wan_domain", "wan_lease", "wan_pppoe_ifname", "wan_pppoe_username",
    "wan_pppoe_passwd", "wan_pppoe_keepalive", "wan_pppoe_demand", "wan_pppoe_mru", "wan_pppoe_mtu",
    "wan_pppoe_service", "wan_pppoe_ac", "wan_desc", "wan_route", "wan_primary", "wan_unit", "filter_maclist",
    "filter_macmode", "filter_client0", "dmz_ipaddr", "forward_port0", "autofw_port0", "dhcp_start", "dhcp_end",
    "dhcp_domain", "dhcp_wins", "http_username", "http_passwd", "http_wanport", "http_lanport", "wl_ifname",
    "wl_hwaddr", "wl_phytype", "wl_corerev", "wl_phytypes", "wl_radioids", "wl_country_code", "wl_radio",
    "wl_closed", "wl_ap_isolate", "wl_mode", "wl_lazywds", "wl_wds", "wl_wds_timeout", "wl_wep", "wl_auth",
    "wl_key", "wl_key1", "wl_key2", "wl_key3", "wl_key4", "wl_maclist", "wl_macmode", "wl_channel", "wl_reg_mode",
    "wl_dfs_preism", "wl_dfs_postism", "wl_rate", "wl_mrate", "wl_rateset", "wl_frag", "wl_rts", "wl_dtim",
    "wl_bcn", "wl_plcphdr", "wl_gmode", "wl_gmode_protection", "wl_afterburner", "wl_frameburst", "wl_wme",
    "wl_antdiv", "wl_infra", "wl_nbw", "wl_nctrlsb", "wl_nband", "wl_nmcsidx", "wl_nmode", "wl_nreqd",
    "wl_vlan_prio_mode", "wl_leddc", "wl_auth_mode", "wl_wpa_gtk_rekey", "wl_radius_ipaddr", "wl_radius_key",
    "wl_radius_port", "wl_crypto", "wl_net_reauth", "wl_akm", "wl_wme_sta_be", "wl_wme_sta_bk", "wl_wme_sta_vi",
    "wl_wme_sta_vo", "wl_wme_ap_be", "wl_wme_ap_bk", "wl_wme_ap_vi", "wl_wme_ap_vo", "wl_wme_no_ack",
    "wl_wme_apsd", "wl_maxassoc", "wl_unit", "wl_sta_retry_time", "restore_defaults", "http_username",
    "http_passwd", "wan_mode_x", "wan_etherspeed_x", "wan_route_x", "wan_nat_x", "wan_ipaddr", "wan_netmask",
    "wan_gateway", "wan_dnsenable_x", "wan_dns1_x", "wan_dns2_x", "dmz_ip", "sp_battle_ips", "vts_enable_x",
    "vts_num_x", "vts_port_x", "vts_ipaddr_x", "vts_lport_x", "vts_proto_x", "vts_protono_x", "vts_desc_x",
    "autofw_enable_x", "autofw_num_x", "autofw_outport_x", "autofw_outproto_x", "autofw_inport_x",
    "autofw_inproto_x", "autofw_desc_x", "wan_pppoe_idletime", "wan_pppoe_txonly_x", "wan_pppoe_relay_x",
    "wan_hwaddr_x", "wan_heartbeat_x", "wan_proto_t", "wan_ipaddr_t", "wan_netmask_t", "wan_gateway_t",
    "wan_dns_t", "wan_status_t", "fw_enable_x", "fw_log_x", "misc_natlog_x", "misc_http_x", "misc_httpport_x",
    "misc_lpr_x", "misc_ping_x", "misc_conntrack_x", "fw_wl_enable_x", "filter_wl_date_x", "filter_wl_time_x",
    "filter_wl_default_x", "filter_wl_icmp_x", "fw_lw_enable_x", "filter_lw_date_x", "filter_lw_time_x",
    "filter_lw_default_x", "filter_lw_icmp_x", "url_enable_x", "url_date_x", "url_time_x", "url_num_x",
    "filter_wl_num_x", "filter_lw_num_x", "macfilter_enable_x", "macfilter_num_x", "filter_wl_srcip_x",
    "filter_wl_srcport_x", "filter_wl_dstip_x", "filter_wl_dstport_x", "filter_wl_proto_x", "filter_lw_srcip_x",
    "filter_lw_srcport_x", "filter_lw_dstip_x", "filter_lw_dstport_x", "filter_lw_proto_x", "url_keyword_x",
    "macfilter_list_x", "sr_enable_x", "sr_rip_x", "sr_num_x", "dr_static_rip_x", "dr_static_matric_x",
    "dr_default_x", "dr_staticnum_x", "sr_ipaddr_x", "sr_netmask_x", "sr_gateway_x", "sr_matric_x", "sr_if_x",
    "dr_staticipaddr_x", "dr_staticnetmask_x", "dr_staticgateway_x", "lan_proto_x", "lan_ipaddr", "lan_netmask",
    "lan_ipaddr_t", "lan_netmask_t", "lan_gateway_t", "lan_hostname", "lan_gateway", "dhcp_enable_x", "dhcp_lease",
    "dhcp_gateway_x", "dhcp_dns1_x", "dhcp_wins_x", "dhcp_static_x", "dhcp_staticnum_x", "time_zone",
    "time_interval", "ntp_server1", "ntp_server0", "ddns_enable_x", "ddns_server_x", "ddns_username_x",
    "ddns_passwd_x", "ddns_hostname_x", "ddns_wildcard_x", "ddns_status_t", "dhcp_staticmac_x", "dhcp_staticip_x",
    "wl_macapply_x", "wl_macnum_x", "wl_maclist_x", "wl_ssid", "wl_ssid2", "wl_mode_x", "wl_wdsapply_x",
    "wl_wdsnum_x", "wl_gmode", "wl_gmode_protection_x", "wl_auth_mode", "wl_wpa_mode", "wl_wpa_psk", "wl_wep_x",
    "wl_phrase_x", "wl_key_type", "wl_connect_none_default", "wl_connect_selected", "wl_ap_ssid", "wl_ap_order",
    "wl_individual_ure", "wl_hotspot", "wl_mode_ex", "wl_radio_x", "wl_radio_date_x", "wl_radio_time_x",
    "wl_radio_power_x", "wl_preauth", "wl_wdslist_x", "usb_webenable_x", "usb_webmode_x", "usb_webdriver_x",
    "usb_webimage_x", "usb_websense_x", "usb_webrectime_x", "usb_webfresh_x", "usb_webcaption_x",
    "usb_webhttpport_x", "usb_webhttpcheck_x", "usb_webactivex_x", "usb_websecurity_x", "usb_websecurity_date_x",
    "usb_websecurity_time_x", "usb_websendto_x", "usb_webmserver_x", "usb_websubject_x", "usb_webattach_x",
    "usb_webremote_x", "usb_webremote1_x", "usb_webremote2_x", "usb_webremote3_x", "usb_webremote4_x",
    "usb_webremote5_x", "usb_webremote6_x", "usb_ftpenable_x", "usb_ftpanonymous_x", "usb_ftpsuper_x",
    "usb_ftpport_x", "usb_ftpmax_x", "usb_ftptimeout_x", "usb_ftpstaytimeout_x", "usb_ftpscript_x", "usb_ftpnum_x",
    "usb_bannum_x", "usb_ftpusername_x", "usb_ftppasswd_x", "usb_ftpmaxuser_x", "usb_ftprights_x",
    "usb_ftpbanip_x", "wl_guest_enable", "wl_guest_ssid_1", "wl_guest_ssid_2", "wl_guest_auth_mode_1",
    "wl_guest_wpa_mode", "wl_guest_crypto_1", "wl_guest_wpa_psk_1", "wl_guest_wep_x_1", "wl_guest_key_type_1",
    "wl_guest_phrase_x_1", "wl_guest_key1_1", "wl_guest_key2_1", "wl_guest_key3_1", "wl_guest_key4_1",
    "wl_guest_key_1", "wl_guest_wpa_gtk_rekey_1", "lan1_ipaddr", "lan1_netmask", "dhcp1_enable_x", "dhcp1_start",
    "dhcp1_end", "lan1_lease", "temp_lang", "preferred_lang", "httpd_die_reboot", "threshold_a", "threshold_b",
    "threshold_c", "threshold_d", "threshold_e", "mssid_enable", "vlans_enable", "mssidnum_x", "lang_list",
    "ap_scanning", "ap_selecting", "updating", "pf1_ssid", "pf1_ssid2", "pf1_auth_mode", "pf1_wpa_mode",
    "pf1_crypto", "pf1_wpa_psk", "pf1_wep_x", "pf1_phrase", "pf1_key1", "pf1_key2", "pf1_key3", "pf1_key4",
    "pf1_key", "pf1_passwd", "pf2_ssid", "pf2_ssid2", "pf2_auth_mode", "pf2_wpa_mode", "pf2_crypto", "pf2_wpa_psk",
    "pf2_wep_x", "pf2_phrase", "pf2_key1", "pf2_key2", "pf2_key3", "pf2_key4", "pf2_key", "pf2_passwd", "pf3_ssid",
    "pf3_ssid2", "pf3_auth_mode", "pf3_wpa_mode", "pf3_crypto", "pf3_wpa_psk", "pf3_wep_x", "pf3_phrase",
    "pf3_key1", "pf3_key2", "pf3_key3", "pf3_key4", "pf3_key", "pf3_passwd", "pf4_ssid", "pf4_ssid2",
    "pf4_auth_mode", "pf4_wpa_mode", "pf4_crypto", "pf4_wpa_psk", "pf4_wep_x", "pf4_phrase", "pf4_key1",
    "pf4_key2", "pf4_key3", "pf4_key4", "pf4_key", "pf4_passwd", "DEV_MFR", "DEV_MFR_URL", "DEV_MODEL_URL"]

def issyspara (p : CStr) : Bool := routerDefaults.any fun t => (strstr (bytes t) p.bytes).isSome

def wscSet : CStr := .lit "wsc_set"
def wlKey1 : CStr := .lit "wl_key1"
def wlSsid : CStr := .lit "wl_ssid"
def xSetting : CStr := .lit "x_Setting"
def one : CStr := .lit "1"

/-- A digit of `%02X`. -/
def upperHex (n : ℕ) : UInt8 := if n < 10 then .ofNat (48 + n) else .ofNat (55 + n)

/-- The 13 bytes from `value` on, each as two digits, whether they belong to the value or not. -/
def hexKey (buf : Mem) (value : ℕ) : Bytes :=
  (load buf value 13).flatMap fun c => [upperHex (c.toNat / 16), upperHex (c.toNat % 16)]

/-- What `_nvram_set` writes for a value, given the 26 digits it would write for a key. -/
def written (wsc : Bool) (name value hex : CStr) : CStr :=
  if wsc ∧ name.bytes.take 7 = wlKey1.bytes then hex
  else if wsc ∧ name = wlSsid ∧ 32 < value.length then cstr (value.bytes.take 32)
  else value

section Program

variable {σ : Type*} (dev : Device σ)

/-- Whether `wsc_set` is `"1"`. -/
def wscIsSet (s : σ) : Bool := dev.get s wscSet == some one

/-- `nvram_set(name, value)` of a user program, for the value at `value` in `buf`. -/
def userNvramSet (s : σ) (name : CStr) (buf : Mem) (value : ℕ) : Option σ :=
  dev.write s name (some (written (wscIsSet dev s) name (readStr buf value (nvramSpace - value))
    (cstr (hexKey buf value))))

/-- The loop of `nvram_restore`, from `p`. -/
def restoreLoop : ℕ → Mem → ℕ → σ → Option σ
  | 0, _, _, _ => none
  | fuel + 1, buf, p, s =>
    if buf p = 0 then some s
    else
      match strchr buf 61 p (nvramSpace - p) with
      | some v =>
        let buf := write buf v [0]
        let name := readStr buf p (nvramSpace - p)
        let next := v + 1 + (readStr buf (v + 1) (nvramSpace - (v + 1))).length + 1
        (if issyspara name then userNvramSet dev s name buf (v + 1) else some s).bind
          fun s => restoreLoop fuel buf next s
      | none => (dev.write s (readStr buf p (nvramSpace - p)) none).bind fun s => restoreLoop fuel buf (p + 1) s

/-- `nvram_restore`, for a file that can be opened; `stack` is what `buf` holds before. -/
def nvramRestore (s : σ) (stack : Mem) (file : Bytes) : Option σ :=
  let header := write (fun _ => 0) 0 (file.take 8)
  let buf :=
    if 8 ≤ file.length ∧ file.take 4 = bytes "HDR1" then
      write stack 0 ((file.drop 8).take (le32 header 4).toNat)
    else stack
  (restoreLoop dev nvramSpace buf 0 s).bind fun s => userNvramSet dev s xSetting (strcpy (fun _ => 0) 0 one) 0

end Program

/-- The loop of `nvram_save` over the strings of `buf`: where it stops. -/
def savedCount : ℕ → Mem → ℕ → ℕ
  | 0, _, name => name
  | fuel + 1, buf, name =>
    if buf name = 0 then name else savedCount fuel buf (name + (scan buf name (nvramSpace - name)).length + 1)

/-- `nvram_save`: the file, for one that can be opened. -/
def nvramSave (buf : Mem) : Bytes :=
  let count := savedCount nvramSpace buf 0
  let filelen := count + (1024 - count % 1024)
  bytes "HDR1" ++ (bytes32 (UInt32.ofNat filelen) ++ (load buf 0 count ++ List.replicate (filelen - count) (buf count)))

/-! ### What is in the file -/

/-- The tuples of a chain that the dump copies, from `len` on. -/
def Store.copyChain (st : Store) (count : ℕ) : ℕ → List Tuple → List Tuple
  | _, [] => []
  | len, t :: ts => if len + st.size t < count then t :: st.copyChain count (len + st.size t) ts else []

/-- The tuples of the chains `is` that it copies. -/
def Store.copyFrom (st : Store) (count : ℕ) : ℕ → List (Fin hashSize) → List Tuple
  | _, [] => []
  | len, i :: is =>
    let ts := st.copyChain count len (st.nvramHash i)
    ts ++ st.copyFrom count (len + (ts.map st.size).sum) is

/-- The tuples it copies, in their order. -/
def Store.copied (st : Store) (count : ℕ) : List Tuple := st.copyFrom count 0 (List.finRange hashSize)

theorem getallChain_eq (st : Store) (count : ℕ) : ∀ (ts : List Tuple) (buf : Mem) (len : ℕ),
    getallChain st count ts (buf, len) = (write buf len (area ((st.copyChain count len ts).map st.pair)),
      len + ((st.copyChain count len ts).map st.size).sum)
  | [], buf, len => by simp [getallChain, Store.copyChain, write_nil]
  | t :: ts, buf, len => by
    have hs : len + (t.name.length + 1 + (st.str t.value).length) + 1 = len + st.size t := by
      unfold Store.size
      omega
    have hfit : count - len > t.name.length + 1 + (st.str t.value).length + 1 ↔ len + st.size t < count := by
      unfold Store.size
      omega
    unfold getallChain Store.copyChain
    simp only [hs, hfit]
    split_ifs with h
    · rw [getallChain_eq st count ts, List.map_cons, List.map_cons, List.sum_cons, area_cons]
      have hl : len + st.size t = len + (entry t.name (st.str t.value)).length := by
        rw [length_entry]
        rfl
      rw [hl, write_write, ← hl, Nat.add_assoc]
      rfl
    · simp [write_nil]

theorem getallFrom_eq (st : Store) (count : ℕ) : ∀ (is : List (Fin hashSize)) (buf : Mem) (len : ℕ),
    is.foldl (fun s i => getallChain st count (st.nvramHash i) s) (buf, len) =
      (write buf len (area ((st.copyFrom count len is).map st.pair)),
        len + ((st.copyFrom count len is).map st.size).sum)
  | [], buf, len => by simp [Store.copyFrom, write_nil]
  | i :: is, buf, len => by
    rw [List.foldl_cons, getallChain_eq, getallFrom_eq st count is]
    simp only [Store.copyFrom, List.map_append, area_append, List.sum_append]
    rw [← length_area_pair st (st.copyChain count len (st.nvramHash i)), write_write, length_area_pair, Nat.add_assoc]

/-- Room for a NUL stays behind what is copied. -/
theorem copyChain_lt (st : Store) {count : ℕ} : ∀ (ts : List Tuple) (len : ℕ), len < count →
    len + ((st.copyChain count len ts).map st.size).sum < count
  | [], len, h => by simpa [Store.copyChain] using h
  | t :: ts, len, h => by
    unfold Store.copyChain
    split_ifs with hfit
    · rw [List.map_cons, List.sum_cons, ← Nat.add_assoc]
      exact copyChain_lt st ts _ hfit
    · simpa using h

theorem copyFrom_lt (st : Store) {count : ℕ} : ∀ (is : List (Fin hashSize)) (len : ℕ), len < count →
    len + ((st.copyFrom count len is).map st.size).sum < count
  | [], len, h => by simpa [Store.copyFrom] using h
  | i :: is, len, h => by
    simp only [Store.copyFrom, List.map_append, List.sum_append]
    rw [← Nat.add_assoc]
    exact copyFrom_lt st is _ (copyChain_lt st _ len h)

theorem copyChain_sublist (st : Store) {count : ℕ} : ∀ (ts : List Tuple) (len : ℕ),
    (st.copyChain count len ts).Sublist ts
  | [], _ => List.Sublist.refl _
  | t :: ts, len => by
    unfold Store.copyChain
    split_ifs
    · exact (copyChain_sublist st ts _).cons_cons t
    · exact List.nil_sublist _

theorem copyFrom_sublist (st : Store) {count : ℕ} : ∀ (is : List (Fin hashSize)) (len : ℕ),
    (st.copyFrom count len is).Sublist (is.flatMap st.nvramHash)
  | [], _ => List.Sublist.refl _
  | i :: is, len => by
    rw [List.flatMap_cons]
    exact (copyChain_sublist st _ len).append (copyFrom_sublist st is _)

theorem copyChain_eq_self (st : Store) {count : ℕ} : ∀ (ts : List Tuple) (len : ℕ),
    len + (ts.map st.size).sum < count → st.copyChain count len ts = ts
  | [], _, _ => rfl
  | t :: ts, len, h => by
    rw [List.map_cons, List.sum_cons] at h
    rw [Store.copyChain, if_pos (by omega), copyChain_eq_self st ts _ (by omega)]

theorem copyFrom_eq_self (st : Store) {count : ℕ} : ∀ (is : List (Fin hashSize)) (len : ℕ),
    len + ((is.flatMap st.nvramHash).map st.size).sum < count → st.copyFrom count len is = is.flatMap st.nvramHash
  | [], _, _ => rfl
  | i :: is, len, h => by
    rw [List.flatMap_cons, List.map_append, List.sum_append] at h
    simp only [Store.copyFrom]
    rw [copyChain_eq_self st _ _ (by omega), copyFrom_eq_self st is _ (by omega), List.flatMap_cons]

/-- If everything fits, everything is copied. -/
theorem copied_eq_tuples {st : Store} {count : ℕ} (h : (st.tuples.map st.size).sum < count) :
    st.copied count = st.tuples :=
  copyFrom_eq_self st _ 0 (by rw [Nat.zero_add]; exact h)

/-- The variables of a store, as the dump lists them. -/
def Store.dumped (st : Store) : List (CStr × CStr) := st.tuples.map st.pair

theorem length_dumped (st : Store) : (area st.dumped).length = (st.tuples.map st.size).sum :=
  length_area_pair st _

theorem nvramGetall_eq (st : Store) (count : ℕ) (buf : Mem) : _nvramGetall st count buf =
    write (write buf 0 (List.replicate count 0)) 0 (area ((st.copied count).map st.pair)) := by
  unfold _nvramGetall
  rw [getallFrom_eq]
  rfl

/-- What the dump leaves of a buffer is zero. -/
theorem nvramGetall_behind (st : Store) {count : ℕ} (buf : Mem) {i : ℕ}
    (hi : (area ((st.copied count).map st.pair)).length ≤ i) (hlt : i < count) :
    _nvramGetall st count buf i = 0 := by
  rw [nvramGetall_eq, write_of_ge (by rwa [Nat.zero_add])]
  have hz := holds_iff.mp (holds_write_same buf 0 (List.replicate count 0)) i (by simpa using hlt)
  simpa using hz

/-- The dump: the variables it copied, and a NUL behind them. -/
theorem nvramGetall_copied (st : Store) {count : ℕ} (hpos : 0 < count) (buf : Mem) :
    Holds (_nvramGetall st count buf) 0 (area ((st.copied count).map st.pair) ++ [0]) := by
  have hlt : (area ((st.copied count).map st.pair)).length < count := by
    have h := copyFrom_lt st (List.finRange hashSize) 0 hpos
    rw [Nat.zero_add] at h
    exact (length_area_pair st _).trans_lt h
  refine holds_append.mpr ⟨?_, ?_, trivial⟩
  · rw [nvramGetall_eq]
    exact holds_write_same _ _ _
  · rw [Nat.zero_add]
    exact nvramGetall_behind st buf le_rfl hlt

/-- The dump of a store that fits is complete. -/
theorem nvramGetall_holds {st : Store} {count : ℕ} (hfit : (st.tuples.map st.size).sum < count) (buf : Mem) :
    Holds (_nvramGetall st count buf) 0 (area st.dumped ++ [0]) := by
  have h := nvramGetall_copied st (Nat.zero_lt_of_lt hfit) buf
  rwa [copied_eq_tuples hfit] at h

theorem savedCount_eq : ∀ (es : List (CStr × CStr)) (fuel : ℕ) (buf : Mem) (p : ℕ),
    Holds buf p (area es ++ [0]) → p + (area es).length < nvramSpace → es.length < fuel →
    savedCount fuel buf p = p + (area es).length
  | [], fuel + 1, buf, p, h, _, _ => by
    have h0 : buf p = 0 := h.1
    simp [savedCount, h0]
  | (n, v) :: es, fuel + 1, buf, p, h, hle, hf => by
    have hnv := length_entry n v
    rw [area_cons, List.append_assoc] at h
    rw [area_cons, List.length_append] at hle ⊢
    simp only at hle h ⊢
    obtain ⟨hent, hrest⟩ := holds_append.mp h
    have hcut : entry n v = (n.bytes ++ 61 :: v.bytes) ++ [0] := by simp [entry, CStr.withNul]
    have hscan : scan buf p (nvramSpace - p) = n.bytes ++ 61 :: v.bytes := by
      refine scan_of_holds ?_ (hcut ▸ hent) ?_
      · simp only [List.mem_append, List.mem_cons, not_or]
        exact ⟨n.nul_notMem, by decide, v.nul_notMem⟩
      · simp only [List.length_append, List.length_cons]
        simp only [CStr.length] at hnv
        omega
    have hp : buf p ≠ 0 := by
      intro h0
      cases hr : nvramSpace - p with
      | zero => omega
      | succ k =>
        rw [hr, scan, if_pos h0] at hscan
        simp at hscan
    have hnext : p + (scan buf p (nvramSpace - p)).length + 1 = p + (entry n v).length := by
      rw [hscan, hcut]
      simp
      omega
    rw [savedCount, if_neg hp, hnext, savedCount_eq es fuel buf _ hrest (by omega) (by simpa using hf)]
    omega

/-- The file of a dump of the variables `es`. -/
theorem nvramSave_eq {es : List (CStr × CStr)} {buf : Mem} (h : Holds buf 0 (area es ++ [0]))
    (hle : (area es).length < nvramSpace) : ∃ k, (area es).length + (k + 1) ≤ nvramSpace ∧
      nvramSave buf = bytes "HDR1" ++ (bytes32 (UInt32.ofNat ((area es).length + (k + 1))) ++
        (area es ++ List.replicate (k + 1) 0)) := by
  have hlen : es.length < nvramSpace := by
    have := sum_values_le es
    omega
  have hcount : savedCount nvramSpace buf 0 = (area es).length := by
    simpa using savedCount_eq es nvramSpace buf 0 h (by simpa using hle) hlen
  obtain ⟨harea, h0, -⟩ := holds_append.mp h
  have hzero : buf (area es).length = 0 := by simpa using h0
  refine ⟨1024 - (area es).length % 1024 - 1, ?_, ?_⟩
  · unfold nvramSpace at hle ⊢
    omega
  · have hk : 1024 - (area es).length % 1024 - 1 + 1 = 1024 - (area es).length % 1024 := by omega
    rw [nvramSave, hcount, hzero, load_of_holds harea, hk, Nat.add_sub_cancel_left]

/-! ### The restore, variable by variable -/

/-- The variables of a dump that stands at `p`, each with the digits `_nvram_set` would make of its value there. -/
def annotate (buf : Mem) : ℕ → List (CStr × CStr) → List ((CStr × CStr) × CStr)
  | _, [] => []
  | p, e :: es => (e, cstr (hexKey buf (p + e.1.length + 1))) :: annotate buf (p + (entry e.1 e.2).length) es

theorem map_annotate (buf : Mem) : ∀ (es : List (CStr × CStr)) (p : ℕ), (annotate buf p es).map Prod.fst = es
  | [], _ => rfl
  | e :: es, p => by simp [annotate, map_annotate buf es]

section Restore

variable {σ : Type*} (dev : Device σ)

/-- What the restore does with one variable. -/
def restoreEntry (s : σ) (a : (CStr × CStr) × CStr) : Option σ :=
  if issyspara a.1.1 then dev.write s a.1.1 (some (written (wscIsSet dev s) a.1.1 a.1.2 a.2)) else some s

theorem load_congr {m m' : Mem} {p n : ℕ} (h : ∀ i, p ≤ i → m i = m' i) : load m p n = load m' p n := by
  unfold load
  exact List.map_congr_left fun i _ => h (p + i) (by omega)

theorem annotate_congr {m m' : Mem} : ∀ {es : List (CStr × CStr)} {p : ℕ}, (∀ i, p ≤ i → m i = m' i) →
    annotate m p es = annotate m' p es
  | [], _, _ => rfl
  | e :: es, p, h => by
    have hkey : hexKey m (p + e.1.length + 1) = hexKey m' (p + e.1.length + 1) := by
      rw [hexKey, hexKey, load_congr fun i hi => h i (by omega)]
    rw [annotate, annotate, hkey, annotate_congr fun i hi => h i (by omega)]

theorem restoreLoop_area : ∀ (es : List (CStr × CStr)) (fuel : ℕ) (buf : Mem) (p : ℕ) (s : σ),
    (∀ e ∈ es, (61 : UInt8) ∉ e.1.bytes) → Holds buf p (area es ++ [0]) →
    p + (area es).length < nvramSpace → es.length < fuel →
    restoreLoop dev fuel buf p s = (annotate buf p es).foldlM (restoreEntry dev) s
  | [], fuel + 1, buf, p, s, _, h, _, _ => by
    have h0 : buf p = 0 := h.1
    simp [restoreLoop, h0, annotate]
  | (n, v) :: es, fuel + 1, buf, p, s, hne, h, hle, hf => by
    have hnv := length_entry n v
    rw [area_cons, List.append_assoc] at h
    rw [area_cons, List.length_append] at hle
    simp only at hle
    obtain ⟨hp, hchr, heq, hname, hv, hread, hrest⟩ :=
      entry_read (hne (n, v) List.mem_cons_self) h (by simp only; omega)
    simp only at hp hchr heq hname hv hread hrest
    -- the NUL in place of the '=' ends the name, and what is behind it stays
    have hbehind : ∀ i, p + n.length + 1 ≤ i → write buf (p + n.length) [0] i = buf i :=
      fun i hi => write_of_ge (by simpa using hi)
    have hn' : readStr (write buf (p + n.length) [0]) p (nvramSpace - p) = n := by
      refine readStr_of_holds (holds_append.mpr ⟨holds_write_of_le hname (le_refl _), ?_⟩) (by omega)
      exact holds_write_same _ _ _
    have hv' : readStr (write buf (p + n.length) [0]) (p + n.length + 1) (nvramSpace - (p + n.length + 1)) = v :=
      readStr_of_holds (hv.congr fun i hi _ => hbehind i hi) (by omega)
    have hkey : hexKey (write buf (p + n.length) [0]) (p + n.length + 1) = hexKey buf (p + n.length + 1) := by
      rw [hexKey, hexKey, load_congr hbehind]
    have hnext : p + n.length + 1 + v.length + 1 = p + (entry n v).length := by omega
    have hloop : ∀ s', restoreLoop dev fuel (write buf (p + n.length) [0]) (p + (entry n v).length) s' =
        (annotate buf (p + (entry n v).length) es).foldlM (restoreEntry dev) s' := by
      intro s'
      rw [restoreLoop_area es fuel _ _ s' (fun e he => hne e (List.mem_cons_of_mem _ he))
        ((hnext ▸ hrest).congr fun i hi _ => hbehind i (by omega)) (by omega) (by simpa using hf),
        annotate_congr fun i hi => hbehind i (by omega)]
    rw [restoreLoop, if_neg hp, hchr]
    simp only [hn', hv', hnext, hloop, userNvramSet, hkey]
    rw [annotate, List.foldlM_cons]
    rfl

/-- A file of `nvram_save` restored: every variable of the dump, then `x_Setting`. -/
theorem nvramRestore_save {es : List (CStr × CStr)} {buf : Mem} (hne : ∀ e ∈ es, (61 : UInt8) ∉ e.1.bytes)
    (h : Holds buf 0 (area es ++ [0])) (hle : (area es).length < nvramSpace) (stack : Mem) :
    ∃ buf', Holds buf' 0 (area es ++ [0]) ∧ ∀ s : σ, nvramRestore dev s stack (nvramSave buf) =
      ((annotate buf' 0 es).foldlM (restoreEntry dev) s).bind fun s =>
        dev.write s xSetting (some one) := by
  obtain ⟨k, hk, hsave⟩ := nvramSave_eq h hle
  have hlen : es.length < nvramSpace := by
    have := sum_values_le es
    omega
  have hdrop : (nvramSave buf).drop 8 = area es ++ List.replicate (k + 1) 0 := by
    rw [hsave, ← List.append_assoc, List.drop_left' (by simp [bytes])]
  have htake : (nvramSave buf).take 8 = bytes "HDR1" ++ bytes32 (UInt32.ofNat ((area es).length + (k + 1))) := by
    rw [hsave, ← List.append_assoc, List.take_left' (by simp [bytes])]
  have htake4 : (nvramSave buf).take 4 = bytes "HDR1" := by
    rw [hsave, List.take_left' (by simp [bytes])]
  have hlen8 : 8 ≤ (nvramSave buf).length := by
    rw [hsave]
    simp [bytes]
  have hfilelen : (le32 (write (fun _ => 0) 0 ((nvramSave buf).take 8)) 4).toNat = (area es).length + (k + 1) := by
    have hh : Holds (write (fun _ => 0) 0 ((nvramSave buf).take 8)) 0
        (bytes "HDR1" ++ bytes32 (UInt32.ofNat ((area es).length + (k + 1)))) :=
      htake ▸ holds_write_same _ _ _
    have hle32 := le32_of_holds (holds_append.mp hh).2
    have h4 : 0 + (bytes "HDR1").length = 4 := by decide
    rw [h4] at hle32
    rw [hle32, UInt32.toNat_ofNat']
    unfold nvramSpace at hk
    omega
  have hbuf : Holds (write stack 0 (area es ++ List.replicate (k + 1) 0)) 0 (area es ++ [0]) := by
    have hw := holds_write_same stack 0 (area es ++ List.replicate (k + 1) 0)
    rw [List.replicate_succ, holds_append] at hw
    rw [List.replicate_succ, holds_append]
    exact ⟨hw.1, hw.2.1, trivial⟩
  have hone : readStr (strcpy (fun _ => 0) 0 one) 0 (nvramSpace - 0) = one :=
    readStr_of_holds (holds_write_same _ _ _) (by decide)
  have hset : ∀ wsc hex, written wsc xSetting one hex = one := by
    intro wsc hex
    have h7 : xSetting.bytes.take 7 ≠ wlKey1.bytes := by decide
    have hss : xSetting ≠ wlSsid := by decide
    simp [written, h7, hss]
  refine ⟨write stack 0 (area es ++ List.replicate (k + 1) 0), hbuf, fun s => ?_⟩
  unfold nvramRestore
  simp only [hfilelen, hdrop]
  rw [if_pos ⟨hlen8, htake4⟩, List.take_of_length_le (by simp),
    restoreLoop_area dev es nvramSpace _ 0 s hne hbuf (by simpa using hle) hlen]
  simp only [userNvramSet, hone, hset]

end Restore

end Nvram
end Router
