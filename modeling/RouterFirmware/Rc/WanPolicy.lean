/-
# From the WAN to the LAN

What the FORWARD chain decides of a new connection from the WAN to the LAN, with the filter for that on. It should accept
only what a rule of the filter or a forwarding rule accepts, or what the default accepts.

The rules against denial of service come first, and accept what they let through. `wan_policy_iff` says that this is all
that goes wrong.
-/
import RouterFirmware.Rc.LanPolicy

namespace Router
namespace Rc

open CMem CText Netconf Chain
open Nvram (VarMap)
open Nvparse (Libc Undef dottedLibc vars)

/-! ### The policy -/

/-- A forwarding rule takes the packet. -/
def forwardMatches (R : Reading) (token : ℕ → Bool) (forwards : List Line) (p : Packet) : Bool :=
  forwards.any fun l => meets R token p l.parts

/-- A rule of the filter accepts the packet. -/
def filterAccepts (R : Reading) (token : ℕ → Bool) (nv : VarMap) (p : Packet) : Bool :=
  dropsRest nv "filter_wl" && ruleMatches R token nv "filter_wl" p

/-- A rule against denial of service lets the packet through: it is of its kind, and the limiter has a token. -/
def dosMatches (R : Reading) (token : ℕ → Bool) (p : Packet) : Bool := dosParts.any (meets R token p)

/-- What is accepted is accepted by a rule, by a forwarding rule or by default. -/
def WanPolicy (R : Reading) (token : ℕ → Bool) (forwards lines : List Line) (nv : VarMap) (p : Packet) : Prop :=
  forwarded R token lines p = some .accept →
    filterAccepts R token nv p = true ∨ forwardMatches R token forwards p = true ∨ dropsRest nv "filter_wl" = false

/-! ### Parts of the chain -/

section Parts

variable {R : Reading} {token : ℕ → Bool} {e : ChainName → Outcome Verdict} (he : Logs e) {p : Packet}
  {nv : VarMap} {wanIf lanIf : Bytes} (hp : NewFrom wanIf lanIf p) (hif : Interfaces wanIf lanIf)

include hp hif

/-- What comes from the WAN is none of the MAC filter's business. -/
theorem walk_macLines_other (logaccept logdrop : Action) (c : ChainName) :
    walk R token e p c (macLines lanIf logaccept logdrop nv) = .off := by
  refine walk_other R token e p fun l hl _ => ?_
  have hlan : p.indev.str.bytes ≠ lanIf := fun h => hif.ne (h.symm.trans hp.indev)
  have hguest : p.indev.str.bytes ≠ guestIf := hp.indev ▸ hif.wan
  unfold macLines at hl
  by_cases hon : nvramInvmatch nv "macfilter_enable_x" "0" = true
  · rw [if_pos hon] at hl
    obtain ⟨i, -, hl⟩ := List.mem_flatMap.mp hl
    simp only [List.mem_append, List.mem_ite_nil_right, List.mem_cons, List.not_mem_nil, or_false] at hl
    rcases hl with (rfl | rfl) | ⟨-, rfl | rfl⟩ <;> simp [add, meets, Match.holds, hlan, hguest]
  · rw [if_neg hon] at hl
    cases hl

theorem walk_lanWanLines_other {lanWan : List Line}
    (hlan : lanWanLines wanIf lanIf (logAccept nv) (logDrop nv) nv = some lanWan) (c : ChainName) :
    walk R token e p c lanWan = .off := by
  have hne : wanIf ≠ lanIf := hif.ne.symm
  unfold lanWanLines at hlan
  split_ifs at hlan
  · obtain ⟨rules, hrules, hlan⟩ := Option.bind_eq_some_iff.mp hlan
    rw [← Option.some.inj hlan, walk_append, walk_filterLines_other hp hne hrules, walk_restLine_other hp hne]
    rfl
  · rw [← Option.some.inj hlan]
    simp [meets, Match.holds, hp.indev, hne]
  · rw [← Option.some.inj hlan]
    rfl

include he

omit hif in
theorem walk_dosLines_wan : walk R token e p .forward (dosLines wanIf (logAccept nv) nv) =
    if nvramMatch nv "fw_enable_x" "1" && dosMatches R token p then .verdict .accept else .off := by
  have hfront : meets R token p [.inIf wanIf] = true := by simp [meets, Match.holds, hp.indev]
  have haccept : (logAccept nv).target.reach e = .verdict .accept := reach_logAccept he
  have hlines : walk R token e p .forward (dosParts.map fun parts => add .forward (.inIf wanIf :: parts) (logAccept nv)) =
      if meets R token p [.inIf wanIf] && dosMatches R token p then .verdict .accept else .off :=
    walk_same R token e p haccept [.inIf wanIf] dosParts
  rw [hfront] at hlines
  unfold dosLines
  cases nvramMatch nv "fw_enable_x" "1" with
  | true => exact hlines
  | false => rfl

omit hif in
theorem walk_wanLan {wanLan : List Line} (hon : nvramMatch nv "fw_wl_enable_x" "1" = true)
    (hwan : wanLanLines wanIf lanIf (logAccept nv) (logDrop nv) nv = some wanLan) :
    walk R token e p .forward wanLan = (if ruleMatches R token nv "filter_wl" p then
      .verdict (if dropsRest nv "filter_wl" then .accept else .drop) else .off) ∧
      walk R token e p .forward (wanLanRest wanIf lanIf (logAccept nv) (logDrop nv) nv) =
        .verdict (if dropsRest nv "filter_wl" then .drop else .accept) := by
  unfold wanLanLines at hwan
  unfold wanLanRest
  rw [if_pos hon] at hwan ⊢
  exact ⟨walk_filterLines he hp hwan, walk_restLine he hp _ _⟩

end Parts

/-! ### The decision -/

/-- **From the WAN to the LAN.** A new connection is accepted only as the policy says, unless by default it is dropped,
and a rule against denial of service lets through what no other rule accepts. -/
theorem wan_policy_iff {L : Libc} {u : Undef} {wanIf wanIp lanIf lanIp : Bytes} {nv : VarMap}
    {nats forwards lines : List Line}
    (hrun : startFirewallEx L u wanIf wanIp lanIf lanIp nv = some (nats, lines))
    (hnat : natSetting L u wanIf wanIp lanIf lanIp (logAccept nv) nv = some (nats, forwards))
    (hon : nvramMatch nv "fw_wl_enable_x" "1" = true) (R : Reading) (token : ℕ → Bool) {p : Packet}
    (hp : NewFrom wanIf lanIf p) (hif : Interfaces wanIf lanIf) :
    WanPolicy R token forwards lines nv p ↔
      ¬(dropsRest nv "filter_wl" = true ∧ nvramMatch nv "fw_enable_x" "1" = true ∧ dosMatches R token p = true ∧
        filterAccepts R token nv p = false ∧ forwardMatches R token forwards p = false) := by
  have hin : p.indev.str.bytes ≠ guestIf := hp.indev ▸ hif.wan
  have hout : p.outdev.str.bytes ≠ guestIf := hp.outdev ▸ hif.lan
  have he := enter_logs hrun R token hin hout 1
  rw [WanPolicy, forwarded, outcome, enter_eq R token p (quiet_lines hrun R token hin hout (by decide) _)]
  obtain ⟨bigpond, lanWan, wanLan, forwards', hbig, hlan, hwan, hnat', rfl⟩ := startFirewallEx_eq hrun
  obtain rfl : forwards = forwards' := (Prod.mk.inj (Option.some.inj (hnat.symm.trans hnat'))).2
  generalize enter _ p 2 = e at he ⊢
  have hbigpond : walk R token e p .forward bigpond = .off :=
    walk_other R token e p fun l hl hchain => absurd ((hbig l hl).symm.trans hchain) (by decide)
  have hstate := @walk_stateLines R token e p nv lanIf _ _ hp (fun h => absurd h.symm hif.ne) hif.wan (logAccept nv)
    (logDrop nv) .forward
  have hforwards := @walk_forwards R token e p _ (reach_logAccept he) forwards (natSetting_forwards hnat)
  obtain ⟨hfilter, hrest⟩ := @walk_wanLan R token e he p nv wanIf lanIf hp wanLan hon hwan
  simp only [walk_append, hbigpond, walk_macLines_other hp hif,
    walk_localLines _ _ (show ChainName.forward ≠ .input by decide), hstate, walk_mssLines, walk_dosLines_wan he hp,
    walk_lanWanLines_other hp hif hlan, hfilter, hforwards, hrest,
    walk_logLines (show ChainName.forward ≠ .logaccept by decide) (show ChainName.forward ≠ .logdrop by decide),
    Outcome.off_andThen, Outcome.andThen_off]
  rw [filterAccepts, forwardMatches]
  cases dropsRest nv "filter_wl" <;> cases nvramMatch nv "fw_enable_x" "1" <;> cases dosMatches R token p <;>
    cases ruleMatches R token nv "filter_wl" p <;> cases forwards.any (fun l => meets R token p l.parts) <;> decide

/-! ### A connection that nothing allows -/

/-- The flags that a text names. -/
def flagBits (text : Bytes) : BitVec 8 :=
  ([("FIN", 0x01), ("SYN", 0x02), ("RST", 0x04), ("PSH", 0x08), ("ACK", 0x10), ("URG", 0x20), ("ALL", 0x3f)].filter
    fun flag => (text.splitOn 44).contains (bytes flag.1)).foldl (fun bits flag => bits ||| flag.2) (0 : BitVec 8)

/-- Protocols and flags by their names; nothing else is looked for. -/
def named : Reading :=
  { blind with
    proto := fun text proto => (text, proto) ∈ [(bytes "tcp", 6), (bytes "udp", 17), (bytes "icmp", 1)]
    flags := fun mask comp flags => flags &&& flagBits mask == flagBits comp }

/-- A first packet from `eth1` to `br0`. -/
def fromWan : Packet := { fromLan with indev := ⟨.lit "eth1", length_eth1⟩, outdev := ⟨.lit "br0", length_br0⟩ }

/-- The filter from the WAN to the LAN is on and drops all, with the protection on or not. -/
def dropsAll (protection : String) : VarMap :=
  vars [("fw_wl_enable_x", "1"), ("filter_wl_default_x", "DROP"), ("fw_enable_x", protection)]

theorem fromWan_new : NewFrom (bytes "eth1") (bytes "br0") fromWan := ⟨by decide, by decide, rfl⟩

/-- No rule forwards anything to the LAN. -/
theorem dropsAll_run (protection : String) (h : protection = "0" ∨ protection = "1") : ∃ lines,
    startFirewallEx dottedLibc .nothing (bytes "eth1") (bytes "1.2.3.4") (bytes "br0") (bytes "192.168.1.1")
      (dropsAll protection) = some ([], lines) ∧
    natSetting dottedLibc .nothing (bytes "eth1") (bytes "1.2.3.4") (bytes "br0") (bytes "192.168.1.1")
      (logAccept (dropsAll protection)) (dropsAll protection) = some ([], []) := by
  have hnat : (natSetting dottedLibc .nothing (bytes "eth1") (bytes "1.2.3.4") (bytes "br0") (bytes "192.168.1.1")
      (logAccept (dropsAll protection)) (dropsAll protection)).any (fun r => r.1.isEmpty && r.2.isEmpty) = true := by
    rcases h with rfl | rfl <;> decide +kernel
  have hfilter : (filterSetting (bytes "eth1") (bytes "1.2.3.4") (bytes "br0") (logAccept (dropsAll protection))
      (logDrop (dropsAll protection)) [] (dropsAll protection)).isSome := by
    rcases h with rfl | rfl <;> decide +kernel
  obtain ⟨⟨nats, forwards⟩, hrun, hempty⟩ := (Option.any_eq_true _ _).mp hnat
  obtain ⟨lines, hlines⟩ := Option.isSome_iff_exists.mp hfilter
  obtain ⟨rfl, rfl⟩ : nats = [] ∧ forwards = [] := by simpa using hempty
  refine ⟨lines, ?_, hrun⟩
  simp [startFirewallEx, hrun, hlines]

/-- Without the protection it is not accepted. -/
theorem unasked_stopped : ∃ lines,
    startFirewallEx dottedLibc .nothing (bytes "eth1") (bytes "1.2.3.4") (bytes "br0") (bytes "192.168.1.1")
      (dropsAll "0") = some ([], lines) ∧ WanPolicy named (fun _ => true) [] lines (dropsAll "0") fromWan := by
  obtain ⟨lines, hrun, hnat⟩ := dropsAll_run "0" (Or.inl rfl)
  exact ⟨lines, hrun, (wan_policy_iff hrun hnat (by decide +kernel) named (fun _ => true) fromWan_new br0_eth1).mpr
    (by decide +kernel)⟩

/-- With it, the rule for first packets accepts it. -/
theorem unasked_passes : ¬∀ (L : Libc) (u : Undef) (wanIf wanIp lanIf lanIp : Bytes) (nv : VarMap)
    (nats forwards lines : List Line) (R : Reading) (token : ℕ → Bool) (p : Packet),
    startFirewallEx L u wanIf wanIp lanIf lanIp nv = some (nats, lines) →
      natSetting L u wanIf wanIp lanIf lanIp (logAccept nv) nv = some (nats, forwards) →
      nvramMatch nv "fw_wl_enable_x" "1" = true → NewFrom wanIf lanIf p → Interfaces wanIf lanIf →
      WanPolicy R token forwards lines nv p := by
  intro hclaim
  obtain ⟨lines, hrun, hnat⟩ := dropsAll_run "1" (Or.inr rfl)
  have h := hclaim _ _ _ _ _ _ _ _ _ _ named (fun _ => true) fromWan hrun hnat (by decide +kernel) fromWan_new br0_eth1
  have haccepted : (startFirewallEx dottedLibc .nothing (bytes "eth1") (bytes "1.2.3.4") (bytes "br0")
      (bytes "192.168.1.1") (dropsAll "1")).map (fun r => forwarded named (fun _ => true) r.2 fromWan) =
        some (some .accept) := by
    decide +kernel
  rw [hrun] at haccepted
  exact absurd (h (Option.some.inj haccepted)) (by decide +kernel)

end Rc
end Router
