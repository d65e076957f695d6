/-
# Services and their variables

`router/httpd/common.c` and `variables.c`, of the build without USB: `svcLinks` lists the services, each with an array of
variables. A loop over the variables ends at the entry without a name (`forVariables`), and goes on behind the array when
there is none, as in that of LANGUAGE.

An entry of an array is its name here. The other fields of a variable, and its group, are left out.
-/
import RouterFirmware.Lib.Text

namespace Router
namespace Httpd

open CMem CText

structure SvcLink where
  serviceId : String
  vars : List (Option String)

/-- An array with `{0,0,0,0,0}` behind the variables. -/
def ended (names : List String) : List (Option String) := names.map some ++ [none]

def variablesGeneral : List (Option String) :=
  ended
    ["http_username", "http_passwd", "x_SystemUpTime", "x_ProductID", "x_FirmwareVersion", "x_HardwareVersion",
      "x_BootloaderVersion"]

def variablesLANHostConfig : List (Option String) :=
  ended
    ["", "lan_proto_x", "lan_ipaddr", "lan_netmask", "x_LANIPAddress", "x_LANSubnetMask", "x_LANGateway",
      "lan_hostname", "lan_gateway", "dhcp_enable_x", "lan_domain", "dhcp_start", "dhcp_end", "dhcp_lease",
      "dhcp_gateway_x", "dhcp_dns1_x", "x_LDNSServer2", "dhcp_wins_x", "dhcp_static_x", "dhcp_staticnum_x", "",
      "DHCPLog", "DmzDHCPLog", "upnp_enable", "log_ipaddr", "time_zone", "time_interval", "ntp_server0",
      "ntp_server1", "ddns_enable_x", "ddns_server_x", "ddns_username_x", "ddns_passwd_x", "ddns_hostname_x",
      "ddns_wildcard_x", "x_DDNSStatus", "ManualDHCPList"]

def variablesLayer3Forwarding : List (Option String) := ended ["", "wan_proto", "wan_mode_x", "wan_etherspeed_x"]

def variablesWANCommonInterface : List (Option String) := ended []

def variablesIPConnection : List (Option String) :=
  ended
    ["wan_route_x", "", "ConnectionStatus", "Uptime", "", "wan_nat_x", "", "wan_ipaddr", "wan_netmask", "wan_gateway",
      "wan_dnsenable_x", "wan_dns1_x", "wan_dns2_x", "IPTablesInfo", "", "", "wan_nat_x", "dmz_ip", "sp_battle_ips",
      "", "vts_enable_x", "vts_num_x", "autofw_enable_x", "autofw_num_x", "ExposedIPList", "VSList", "TriggerList"]

def variablesPPPConnection : List (Option String) :=
  ended
    ["wan_pppoe_username", "wan_pppoe_passwd", "ConnectionStatus", "wan_pppoe_idletime", "wan_pppoe_txonly_x",
      "wan_pppoe_mtu", "wan_pppoe_mru", "", "wan_pppoe_service", "wan_pppoe_ac", "wan_pppoe_relay_x", "wan_hostname",
      "wan_hwaddr_x", "wan_heartbeat_x", "x_WANType", "x_WANIPAddress", "x_WANSubnetMask", "x_WANGateway",
      "x_WANDNSServer", "x_WANLink", "", "x_DDNSStatus"]

def variablesEthernetLink : List (Option String) := ended []

def variablesFirewallConfig : List (Option String) :=
  ended
    ["fw_enable_x", "fw_log_x", "misc_natlog_x", "misc_http_x", "misc_httpport_x", "misc_lpr_x", "misc_ping_x",
      "fw_wl_enable_x", "filter_wl_date_x", "filter_wl_time_x", "filter_wl_default_x", "filter_wl_icmp_x", "",
      "fw_lw_enable_x", "filter_lw_date_x", "filter_lw_time_x", "filter_lw_default_x", "filter_lw_icmp_x",
      "FirewallLog", "SystemLog", "SystemCmd", "url_enable_x", "url_date_x", "url_time_x", "", "url_num_x",
      "filter_wl_num_x", "filter_lw_num_x", "macfilter_enable_x", "macfilter_num_x", "WLFilterList", "LWFilterList",
      "UrlList", "MFList"]

def variablesRouterConfig : List (Option String) :=
  ended
    ["sr_enable_x", "sr_rip_x", "sr_num_x", "dr_static_rip_x", "dr_static_matric_x", "dr_default_x", "RouteInfo",
      "dr_static_rip_x", "dr_staticnum_x", "GWStatic"]

def variablesWLANConfig11a : List (Option String) := ended ["WirelessLog"]

def variablesDeviceSecurity11a : List (Option String) :=
  ended
    ["", "wl_macmode", "wl_macapply_x", "wl_macnum_x", "", "", "ACLList"]

def variablesWLANAuthentication11a : List (Option String) :=
  ended
    ["", "wl_radius_ipaddr", "wl_radius_port", "wl_radius_key"]

def variablesWLANConfig11b : List (Option String) :=
  ended
    ["", "wl_country_code", "wl_ssid", "wl_ssid2", "", "wl_mode_x", "wl_channel", "wl_wdsapply_x", "wl_lazywds",
      "wl_wdsnum_x", "wl_gmode", "wl_gmode_protection_x", "wl_auth_mode", "wl_wpa_mode", "wl_hotspot", "wl_crypto",
      "wl_wpa_psk", "wl_wep_x", "wl_phrase_x", "wl_key1", "wl_key2", "wl_key3", "wl_key4", "wl_key", "wl_key_type",
      "wl_wpa_gtk_rekey", "wl_connect_none_default", "wl_connect_selected", "wl_ap_ssid", "wl_ap_order",
      "wl_individual_ure", "", "wl_afterburner", "wl_closed", "wl_ap_isolate", "wl_rate", "wl_rateset", "wl_frag",
      "wl_rts", "wl_dtim", "wl_bcn", "wl_frameburst", "wl_mode_ex", "wl_radio_x", "wl_radio_date_x",
      "wl_radio_time_x", "wl_radio_power_x", "WirelessLog", "", "wl_wme", "wl_wme_no_ack", "wl_wme_ap_bk",
      "wl_wme_ap_be", "wl_wme_ap_vi", "wl_wme_ap_vo", "wl_wme_sta_bk", "wl_wme_sta_be", "wl_wme_sta_vi",
      "wl_wme_sta_vo", "wl_preauth", "wl_net_reauth", "wl_guest_enable", "wl_guest_ssid_1", "wl_guest_ssid_2",
      "wl_guest_auth_mode_1", "wl_guest_wpa_mode", "wl_guest_crypto_1", "wl_guest_wpa_psk_1", "wl_guest_wep_x_1",
      "wl_guest_key_type_1", "wl_guest_phrase_x_1", "wl_guest_key1_1", "wl_guest_key2_1", "wl_guest_key3_1",
      "wl_guest_key4_1", "wl_guest_key_1", "wl_guest_wpa_gtk_rekey_1", "lan1_ipaddr", "lan1_netmask",
      "dhcp1_enable_x", "dhcp1_start", "dhcp1_end", "lan1_lease", "mssid_enable", "vlans_enable", "mssidnum_x",
      "RBRList", "MSSIDList"]

def variablesDeviceSecurity11b : List (Option String) :=
  ended
    ["", "wl_macmode", "wl_macapply_x", "wl_macnum_x", "", "", "ACLList"]

def variablesWLANAuthentication11b : List (Option String) :=
  ended
    ["", "wl_radius_ipaddr", "wl_radius_port", "wl_radius_key"]

def variablesPrinterStatus : List (Option String) := ended ["x_PrinterModel", "x_PrinterStatus", "x_PrinterUser", ""]

/-- Without an end. -/
def variablesLanguage : List (Option String) := [some "preferred_lang"]

def svcLinks : List SvcLink :=
  [⟨"General", variablesGeneral⟩,
    ⟨"LANHostConfig", variablesLANHostConfig⟩,
    ⟨"Layer3Forwarding", variablesLayer3Forwarding⟩,
    ⟨"WANCommonInterface", variablesWANCommonInterface⟩,
    ⟨"IPConnection", variablesIPConnection⟩,
    ⟨"PPPConnection", variablesPPPConnection⟩,
    ⟨"EthernetLink", variablesEthernetLink⟩,
    ⟨"FirewallConfig", variablesFirewallConfig⟩,
    ⟨"RouterConfig", variablesRouterConfig⟩,
    ⟨"WLANConfig11a", variablesWLANConfig11a⟩,
    ⟨"DeviceSecurity11a", variablesDeviceSecurity11a⟩,
    ⟨"WLANAuthentication11a", variablesWLANAuthentication11a⟩,
    ⟨"WLANConfig11b", variablesWLANConfig11b⟩,
    ⟨"DeviceSecurity11b", variablesDeviceSecurity11b⟩,
    ⟨"WLANAuthentication11b", variablesWLANAuthentication11b⟩,
    ⟨"PrinterStatus", variablesPrinterStatus⟩,
    ⟨"LANGUAGE", variablesLanguage⟩]

/-- `GetVariables(sid)`; the entry behind the last service has `NULL`. -/
def getVariables (sid : ℕ) : List (Option String) := ((svcLinks[sid]?).map SvcLink.vars).getD []

/-- Up to the service, or to the entry behind the last. -/
def lookupServiceId (serviceId : Bytes) : ℕ := svcLinks.findIdx fun link => bytes link.serviceId == serviceId

/-- `for (v = GetVariables(sid); v->name != NULL; v++)`, from the `k`th entry on: the entries that are looked at, up to
a name with which the loop stops. -/
def forVariables (stop : String → Bool) : ℕ → List (Option String) → List ℕ
  | k, some name :: rest => k :: if stop name then [] else forVariables stop (k + 1) rest
  | k, _ => [k]

/-- The service is there, and its array has an end. -/
def Listed (serviceId : Bytes) : Prop :=
  ∃ link, svcLinks.find? (fun link => bytes link.serviceId == serviceId) = some link ∧ none ∈ link.vars

theorem none_mem_ended (names : List String) : none ∈ ended names := List.mem_append_right _ List.mem_cons_self

/-- All arrays but one have an end. -/
theorem ended_iff : ∀ link ∈ svcLinks, none ∈ link.vars ↔ link.serviceId ≠ "LANGUAGE" := by
  have hlanguage : none ∉ variablesLanguage := by simp [variablesLanguage]
  simp only [svcLinks, List.forall_mem_cons, hlanguage, false_iff]
  simp
  exact ⟨none_mem_ended _, none_mem_ended _, none_mem_ended _, none_mem_ended _, none_mem_ended _, none_mem_ended _,
    none_mem_ended _, none_mem_ended _, none_mem_ended _, none_mem_ended _, none_mem_ended _, none_mem_ended _,
    none_mem_ended _, none_mem_ended _, none_mem_ended _, none_mem_ended _⟩

theorem listed_iff {serviceId : Bytes} : Listed serviceId ↔ none ∈ getVariables (lookupServiceId serviceId) := by
  unfold Listed getVariables lookupServiceId
  rw [← List.find?_eq_getElem?_findIdx]
  cases svcLinks.find? fun link => bytes link.serviceId == serviceId <;> simp

/-- A loop stays in the array if there is an end, or a name with which it stops. -/
theorem forVariables_inside {stop : String → Bool} {n : ℕ} : ∀ {k : ℕ} {vars : List (Option String)},
    k + vars.length = n →
      ((∀ i ∈ forVariables stop k vars, i < n) ↔ none ∈ vars ∨ ∃ name, some name ∈ vars ∧ stop name = true)
  | k, [], h => by
    have hk : ¬k < n := by
      rw [← h]
      simp
    simp [forVariables, hk]
  | k, none :: rest, h => by
    have hk : k < n := by
      rw [← h, List.length_cons]
      omega
    simp [forVariables, hk]
  | k, some name :: rest, h => by
    have hk : k < n := by
      rw [← h, List.length_cons]
      omega
    rw [List.length_cons] at h
    rw [forVariables, List.forall_mem_cons]
    by_cases hstop : stop name = true
    · rw [if_pos hstop]
      simp only [hk, List.not_mem_nil, false_imp_iff, implies_true, and_self, true_iff]
      exact .inr ⟨name, List.mem_cons_self, hstop⟩
    · rw [if_neg hstop, forVariables_inside (by omega)]
      simp [hk, hstop]

end Httpd
end Router
