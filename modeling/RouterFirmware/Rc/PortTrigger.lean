/-
# Port triggers

`router/rc/firewall_ex.c`: a range of ports is stored as `>80`, `=80`, `<80`, `80:90` or `80`. `portrange_ex_conv` prints
it as two numbers. `portrange_ex2_conv` prints it as well and gives the two numbers, which `porttrigger_setting` makes a
trigger of.

`trigger_sound_iff` says for which ranges the numbers are those that are printed.

A text with a colon goes through an array of 32 bytes; what a longer one does is not modelled, nor is a variable that is
not set: `none`. The pool `g_buf_pool` is taken to be large enough.
-/
import RouterFirmware.Lib.Search
import RouterFirmware.Nvparse.RoundTrip
import RouterFirmware.Rc.Rules

namespace Router
namespace Rc
namespace PortTrigger

open CMem CText Netconf
open Nvram (VarMap)
open Nvparse (NetconfApp Desc ifnameCopy matchZero numbered nvramSafeGet protoOf htons validAutofwPort)

/-! ### The code -/

/-- `"%d-%d"`. -/
def rangeText (start stop : ℤ) : Bytes := intText start ++ 45 :: intText stop

section Code

variable (nv : VarMap) (name : String) (idx : ℕ)

/-- `portrange_ex_conv(port_name, idx)`. -/
def portrangeExConv : Option Bytes := do
  let port := (← nv.lookup (numbered name idx)).bytes
  if port.head? = some 62 then some (rangeText (atoi (port.drop 1) + 1) 65535)
  else if port.head? = some 61 then some (rangeText (atoi (port.drop 1)) (atoi (port.drop 1)))
  else if port.head? = some 60 then some (rangeText 1 (atoi (port.drop 1) - 1))
  else if 58 ∈ port then
    if 32 ≤ port.length then none
    else some (rangeText (atoi port) (atoi ((port.dropWhile (· ≠ 58)).drop 1)))
  else if port ≠ [] then some (rangeText (atoi port) (atoi port))
  else some []

/-- `portrange_ex2_conv(port_name, idx, &start, &end)`: the text, and the numbers. -/
def portrangeEx2Conv : Option (Bytes × ℤ × ℤ) := do
  let port := (← nv.lookup (numbered name idx)).bytes
  if port.head? = some 62 then some (rangeText (atoi (port.drop 1) + 1) 65535, atoi (port.drop 1), 65535)
  else if port.head? = some 61 then
    some (rangeText (atoi (port.drop 1)) (atoi (port.drop 1)), atoi (port.drop 1), atoi (port.drop 1))
  else if port.head? = some 60 then some (rangeText 1 (atoi (port.drop 1) - 1), 1, atoi (port.drop 1))
  else if 58 ∈ port then
    if 32 ≤ port.length then none
    else
      let stop := atoi ((port.dropWhile (· ≠ 58)).drop 1)
      some (rangeText (atoi port) stop, atoi port, stop)
  else if port ≠ [] then some (rangeText (atoi port) (atoi port), atoi port, atoi port)
  else some ([], 0, 0)

/-- A turn of `porttrigger_setting`: the application, unless a protocol is neither TCP nor UDP. -/
def triggerApp (i : ℕ) : Option (Option NetconfApp) := do
  let outProto ← protoConv nv "autofw_outproto_x" i
  let out ← portrangeEx2Conv nv "autofw_outport_x" i
  let inProto ← protoConv nv "autofw_inproto_x" i
  let into ← portrangeEx2Conv nv "autofw_inport_x" i
  let desc := textConv nv "autofw_desc_x" i
  some do
    let ipproto ← protoOf outProto
    let proto ← protoOf inProto
    some {
      m := { matchZero with
        ipproto := ipproto
        src := { matchZero.src with ports := (0, htons 0xffff) }
        dst := { matchZero.dst with ports := (htons out.2.1, htons out.2.2) }
        inName := ifnameCopy (cstr (nvramText nv "lan_ifname")) }
      target := .app
      desc := .copy desc
      proto := .ofNat proto
      dport := (htons into.2.1, htons into.2.2)
      toPorts := (htons into.2.1, htons into.2.2) }

/-- `porttrigger_setting`: the applications that are added. -/
def porttriggerSetting : Option (List NetconfApp) :=
  if nvramInvmatch nv "wan_nat_X" "1" || nvramInvmatch nv "autofw_enable_x" "1" then some []
  else
    ((foreachX nv "autofw_num_x").mapM (triggerApp nv)).map fun apps =>
      apps.filterMap fun app => app.filter validAutofwPort

end Code

/-! ### What is stored -/

/-- The digits of a port number. -/
structure Numeral where
  text : Bytes
  ne_nil : text ≠ []
  digits : ∀ c ∈ text, isDigit c = true
  le : digitsVal text ≤ 65535

/-- A range as it is stored. -/
inductive Spec where
  | above (n : Numeral)
  | exactly (n : Numeral)
  | below (n : Numeral)
  | between (a b : Numeral)
  | single (n : Numeral)
  | empty

def Spec.text : Spec → Bytes
  | above n => 62 :: n.text
  | exactly n => 61 :: n.text
  | below n => 60 :: n.text
  | between a b => a.text ++ 58 :: b.text
  | single n => n.text
  | empty => []

/-- The variable holds the range. -/
def Stored (nv : VarMap) (name : String) (idx : ℕ) (s : Spec) : Prop :=
  (nv.lookup (numbered name idx)).map CStr.bytes = some s.text

/-- The numbers are printed in the text that comes with them and in the other one, and a trigger is for the ports that are
printed. -/
structure Sound (s : Spec) : Prop where
  read : ∀ nv name idx, Stored nv name idx s → ∃ start stop,
    portrangeEx2Conv nv name idx = some (rangeText start stop, start, stop) ∧
      portrangeExConv nv name idx = some (rangeText start stop)
  trigger : ∀ nv apps, porttriggerSetting nv = some apps → ∀ app ∈ apps, ∃ i, triggerApp nv i = some (some app) ∧
    (Stored nv "autofw_outport_x" i s → portrangeExConv nv "autofw_outport_x" i =
      some (rangeText (ntohs app.m.dst.ports.1).toNat (ntohs app.m.dst.ports.2).toNat)) ∧
    (Stored nv "autofw_inport_x" i s → portrangeExConv nv "autofw_inport_x" i =
      some (rangeText (ntohs app.dport.1).toNat (ntohs app.dport.2).toNat))

/-- Both ends are given, and the text goes into the array. -/
def Spec.Closed : Spec → Prop
  | above _ => False
  | exactly _ => True
  | below _ => False
  | between a b => (between a b).text.length < 32
  | single _ => True
  | empty => False

/-! ### Numbers in a text -/

def Numeral.value (n : Numeral) : ℕ := digitsVal n.text

theorem Numeral.atoi_append (n : Numeral) {rest : Bytes} (h : ∀ c ∈ rest.head?, isDigit c = false) :
    atoi (n.text ++ rest) = n.value :=
  atoi_digits n.ne_nil n.digits (lt_of_le_of_lt n.le (by decide)) h

theorem Numeral.atoi_text (n : Numeral) : atoi n.text = n.value := by
  have h := @Numeral.atoi_append n [] nofun
  rwa [List.append_nil] at h

theorem Numeral.notMem (n : Numeral) {c : UInt8} (h : isDigit c = false) : c ∉ n.text := by
  intro hc
  rw [n.digits c hc] at h
  cases h

theorem Numeral.head_ne (n : Numeral) {c : UInt8} (h : isDigit c = false) (rest : Bytes) :
    (n.text ++ rest).head? ≠ some c := by
  obtain ⟨d, l, hl⟩ := List.exists_cons_of_ne_nil n.ne_nil
  intro hc
  have hmem : c ∈ n.text := by
    rw [hl] at hc ⊢
    cases hc
    exact List.mem_cons_self
  exact n.notMem h hmem

theorem intText_inj {a b : ℤ} (h : intText a = intText b) : a = b := by
  have hminus : ∀ n : ℕ, (45 : UInt8) ∉ decimal n := notMem_decimal (by decide)
  unfold intText at h
  split_ifs at h with ha hb hb
  · have habs := decimal_inj (List.cons.inj h).2
    omega
  · exact absurd (h ▸ List.mem_cons_self) (hminus b.natAbs)
  · exact absurd (h.symm ▸ List.mem_cons_self) (hminus a.natAbs)
  · have habs := decimal_inj h
    omega

/-- Two numbers are printed in one way only. -/
theorem rangeText_inj {a a' : ℕ} {b b' : ℤ} (h : rangeText a b = rangeText a' b') : a = a' ∧ b = b' := by
  unfold rangeText at h
  rw [intText_natCast, intText_natCast] at h
  have hminus : ∀ n : ℕ, (45 : UInt8) ∉ decimal n := notMem_decimal (by decide)
  obtain ⟨hfirst, hsecond⟩ := append_cons_inj (hminus a) (hminus a') h
  exact ⟨decimal_inj hfirst, intText_inj hsecond⟩

/-! ### What is read -/

/-- What is printed, and the numbers. -/
def Spec.conv : Spec → Option (Bytes × ℤ × ℤ)
  | above n => some (rangeText (n.value + 1) 65535, n.value, 65535)
  | exactly n => some (rangeText n.value n.value, n.value, n.value)
  | below n => some (rangeText 1 (n.value - 1), 1, n.value)
  | between a b =>
    if 32 ≤ (between a b).text.length then none else some (rangeText a.value b.value, a.value, b.value)
  | single n => some (rangeText n.value n.value, n.value, n.value)
  | empty => some ([], 0, 0)

section Conv

variable {nv : VarMap} {name : String} {idx : ℕ} {s : Spec}

theorem portrangeEx2Conv_eq (h : Stored nv name idx s) : portrangeEx2Conv nv name idx = s.conv := by
  obtain ⟨v, hv, hbytes⟩ := Option.map_eq_some_iff.mp h
  rw [portrangeEx2Conv, hv]
  simp only [Option.bind_eq_bind, Option.bind_some, hbytes]
  cases s with
  | above n => simp [Spec.text, Spec.conv, n.atoi_text]
  | exactly n => simp [Spec.text, Spec.conv, n.atoi_text]
  | below n => simp [Spec.text, Spec.conv, n.atoi_text]
  | between a b =>
    have hcolon : isDigit 58 = false := by decide
    have hdrop : (a.text ++ 58 :: b.text).dropWhile (· ≠ 58) = 58 :: b.text := dropWhile_ne_append (a.notMem hcolon) _
    have hfirst : atoi (a.text ++ 58 :: b.text) = a.value := a.atoi_append fun c hc => by
      cases hc
      exact hcolon
    simp only [Spec.text, Spec.conv, a.head_ne (show isDigit 62 = false by decide),
      a.head_ne (show isDigit 61 = false by decide), a.head_ne (show isDigit 60 = false by decide), if_false,
      List.mem_append, List.mem_cons_self, or_true, if_true, hdrop, hfirst, List.drop_one, List.tail_cons, b.atoi_text]
    rfl
  | single n =>
    have hnil := List.append_nil n.text
    have hhead : ∀ {c : UInt8}, isDigit c = false → n.text.head? ≠ some c := by
      intro c hc
      rw [← hnil]
      exact n.head_ne hc []
    simp only [Spec.text, Spec.conv, hhead (show isDigit 62 = false by decide),
      hhead (show isDigit 61 = false by decide), hhead (show isDigit 60 = false by decide),
      n.notMem (show isDigit 58 = false by decide), if_false, ne_eq, n.ne_nil, not_false_eq_true, if_true, n.atoi_text]
  | empty => rfl

/-- The other function prints the same. -/
theorem portrangeExConv_eq (nv : VarMap) (name : String) (idx : ℕ) :
    portrangeExConv nv name idx = (portrangeEx2Conv nv name idx).map Prod.fst := by
  unfold portrangeExConv portrangeEx2Conv
  cases nv.lookup (numbered name idx) with
  | none => rfl
  | some v =>
    simp only [Option.bind_eq_bind, Option.bind_some]
    split_ifs <;> rfl

end Conv

/-! ### Triggers -/

theorem toNat_htons (n : ℕ) (h : n < 2 ^ 16) : (ntohs (htons n)).toNat = n := by
  rw [htons, ntohs_ntohs, Int.emod_eq_of_lt (by omega) (by omega), Int.toNat_natCast]
  exact UInt16.toNat_ofNat_of_lt' h

theorem mem_porttriggerSetting {nv : VarMap} {apps : List NetconfApp} (h : porttriggerSetting nv = some apps)
    {app : NetconfApp} (happ : app ∈ apps) : ∃ i, triggerApp nv i = some (some app) := by
  unfold porttriggerSetting at h
  split_ifs at h with hoff
  · cases h
    cases happ
  · obtain ⟨turns, hturns, rfl⟩ := Option.map_eq_some_iff.mp h
    obtain ⟨turn, hturn, hvalid⟩ := List.mem_filterMap.mp happ
    obtain ⟨i, -, hi⟩ := exists_of_mem_mapM hturns turn hturn
    obtain ⟨rfl, -⟩ := Option.filter_eq_some_iff.mp hvalid
    exact ⟨i, hi⟩

/-- The ports of an application are the numbers that were read. -/
theorem triggerApp_ports {nv : VarMap} {i : ℕ} {app : NetconfApp} (h : triggerApp nv i = some (some app)) :
    ∃ out into, portrangeEx2Conv nv "autofw_outport_x" i = some out ∧
      portrangeEx2Conv nv "autofw_inport_x" i = some into ∧
      app.m.dst.ports = (htons out.2.1, htons out.2.2) ∧ app.dport = (htons into.2.1, htons into.2.2) := by
  unfold triggerApp at h
  simp only [Option.bind_eq_bind] at h
  obtain ⟨outProto, -, h⟩ := Option.bind_eq_some_iff.mp h
  obtain ⟨out, hout, h⟩ := Option.bind_eq_some_iff.mp h
  obtain ⟨inProto, -, h⟩ := Option.bind_eq_some_iff.mp h
  obtain ⟨into, hinto, h⟩ := Option.bind_eq_some_iff.mp h
  obtain ⟨ipproto, -, h⟩ := Option.bind_eq_some_iff.mp (Option.some.inj h)
  obtain ⟨proto, -, h⟩ := Option.bind_eq_some_iff.mp h
  cases h
  exact ⟨out, into, hout, hinto, rfl, rfl⟩

/-! ### Which ranges are sound -/

/-- The ends of a range that is read as it is printed. -/
theorem Spec.conv_closed {s : Spec} (h : s.Closed) :
    ∃ start stop : ℕ, start ≤ 65535 ∧ stop ≤ 65535 ∧ s.conv = some (rangeText start stop, (start : ℤ), (stop : ℤ)) := by
  cases s with
  | above n => exact h.elim
  | exactly n => exact ⟨_, _, n.le, n.le, rfl⟩
  | below n => exact h.elim
  | between a b => exact ⟨_, _, a.le, b.le, if_neg (Nat.not_le.mpr h)⟩
  | single n => exact ⟨_, _, n.le, n.le, rfl⟩
  | empty => exact h.elim

/-- And the others are not. -/
theorem Spec.conv_open {s : Spec} (h : ¬s.Closed) (start stop : ℤ) : s.conv ≠ some (rangeText start stop, start, stop) := by
  intro hconv
  have htext : ∀ {text : Bytes} {a b : ℤ}, s.conv = some (text, a, b) → text = rangeText a b := by
    intro text a b h
    rw [hconv] at h
    cases h
    rfl
  cases s with
  | above n =>
    have heq : rangeText ((n.value + 1 : ℕ) : ℤ) 65535 = rangeText n.value 65535 := htext rfl
    have hfirst := (rangeText_inj heq).1
    omega
  | exactly n => exact h trivial
  | below n =>
    have heq : rangeText ((1 : ℕ) : ℤ) (n.value - 1) = rangeText ((1 : ℕ) : ℤ) n.value := htext rfl
    have hsecond := (rangeText_inj heq).2
    omega
  | between a b =>
    rw [Spec.conv, if_pos (Nat.le_of_not_lt h)] at hconv
    cases hconv
  | single n => exact h trivial
  | empty =>
    have heq : [] = rangeText 0 0 := htext rfl
    exact List.append_ne_nil_of_right_ne_nil _ (List.cons_ne_nil _ _) heq.symm

theorem Spec.nul_notMem (s : Spec) : (0 : UInt8) ∉ s.text := by
  have hnul : ∀ n : Numeral, (0 : UInt8) ∉ n.text := fun n => n.notMem (by decide)
  cases s <;> simp [Spec.text, hnul]

theorem not_sound {s : Spec} (h : ¬s.Closed) : ¬Sound s := by
  intro hsound
  have hlookup : ((∅ : VarMap).insert (numbered "autofw_outport_x" 0) ⟨s.text, s.nul_notMem⟩).lookup
      (numbered "autofw_outport_x" 0) = some ⟨s.text, s.nul_notMem⟩ := Finmap.lookup_insert _
  have hstored : Stored ((∅ : VarMap).insert (numbered "autofw_outport_x" 0) ⟨s.text, s.nul_notMem⟩)
      "autofw_outport_x" 0 s := by
    rw [Stored, hlookup]
    rfl
  obtain ⟨start, stop, hread, -⟩ := hsound.read _ _ _ hstored
  rw [portrangeEx2Conv_eq hstored] at hread
  exact Spec.conv_open h start stop hread

/-- **Which ranges are sound**: those that give their ends. -/
theorem trigger_sound_iff (s : Spec) : Sound s ↔ s.Closed := by
  constructor
  · intro hsound
    by_contra hopen
    exact not_sound hopen hsound
  · intro hclosed
    obtain ⟨start, stop, hstart, hstop, hconv⟩ := Spec.conv_closed hclosed
    have hprinted : ∀ {nv : VarMap} {name : String} {idx : ℕ}, Stored nv name idx s →
        portrangeEx2Conv nv name idx = some (rangeText start stop, (start : ℤ), (stop : ℤ)) ∧
          portrangeExConv nv name idx = some (rangeText start stop) := by
      intro nv name idx hstored
      have hread := portrangeEx2Conv_eq hstored
      rw [hconv] at hread
      refine ⟨hread, ?_⟩
      rw [portrangeExConv_eq, hread]
      rfl
    refine ⟨fun nv name idx hstored => ⟨start, stop, hprinted hstored⟩, fun nv apps happs app happ => ?_⟩
    obtain ⟨i, hturn⟩ := mem_porttriggerSetting happs happ
    obtain ⟨out, into, hout, hinto, hports, hdport⟩ := triggerApp_ports hturn
    refine ⟨i, hturn, fun hstored => ?_, fun hstored => ?_⟩
    · obtain ⟨hread, htext⟩ := hprinted hstored
      rw [hread] at hout
      cases hout
      rw [htext, hports, toNat_htons start (by omega), toNat_htons stop (by omega)]
    · obtain ⟨hread, htext⟩ := hprinted hstored
      rw [hread] at hinto
      cases hinto
      rw [htext, hdport, toNat_htons start (by omega), toNat_htons stop (by omega)]

/-- `>80` is printed as `81-65535`, and read as 80 to 65535. -/
theorem above_not_sound : ¬Sound (.above ⟨bytes "80", by decide, by decide, by decide⟩) := not_sound id

end PortTrigger
end Rc
end Router
