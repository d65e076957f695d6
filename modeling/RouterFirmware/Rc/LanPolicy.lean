/-
# From the LAN to the WAN

What the chains of `filter_setting` decide of a new connection from the LAN to the WAN. `lanPolicy` is what the comment
in the source says: the MAC filter first, then the filter from the LAN to the WAN.

The rule that drops what is not listed is written only when that filter is off. `lan_policy_iff` says that this is all
that goes wrong.
-/
import RouterFirmware.Nvparse.Asserts
import RouterFirmware.Rc.Firewall
import Mathlib.Data.Nat.Bitwise

namespace Router
namespace Rc

open CMem CText Netconf Chain
open Nvram (VarMap)
open Nvparse (Libc Undef dottedLibc vars)

/-! ### The rules of a chain -/

section Walk

variable (R : Reading) (token : ℕ → Bool) (e : ChainName → Outcome Verdict) (p : Packet) (c : ChainName)

/-- A packet on its way along what lines put at the end of a chain. -/
def walk (ls : List Line) : Outcome Verdict := follow e p (appended c (ls.map (Line.edit R token)))

theorem walk_append (ls ls' : List Line) :
    walk R token e p c (ls ++ ls') = (walk R token e p c ls).andThen (walk R token e p c ls') := by
  rw [walk, List.map_append, appended_append, follow_append]
  rfl

@[simp] theorem walk_nil : walk R token e p c [] = .off := rfl

@[simp] theorem walk_add (c' : ChainName) (parts : List Match) (action : Action) (ls : List Line) :
    walk R token e p c (add c' parts action :: ls) =
      if c' = c ∧ meets R token p parts = true then (action.target.reach e).andThen (walk R token e p c ls)
      else walk R token e p c ls := by
  by_cases hc : c' = c
  · simp [walk, appended, Line.edit, add, hc, follow]
  · simp [walk, appended, Line.edit, add, hc]

@[simp] theorem walk_ins (c' : ChainName) (parts : List Match) (action : Action) (ls : List Line) :
    walk R token e p c (ins c' parts action :: ls) = walk R token e p c ls := by
  simp [walk, appended, Line.edit, ins]

@[simp] theorem walk_ite (b : Prop) [Decidable b] (ls ls' : List Line) :
    walk R token e p c (if b then ls else ls') = if b then walk R token e p c ls else walk R token e p c ls' :=
  apply_ite _ _ _ _

variable {c}

/-- Lines of other chains, and lines that do not match. -/
theorem walk_other {ls : List Line} (h : ∀ l ∈ ls, l.chain = c → meets R token p l.parts = false) :
    walk R token e p c ls = .off := by
  refine follow_skip fun r hr ht => ?_
  obtain ⟨ed, hed, hchain, -, rfl⟩ := mem_appended.mp hr
  obtain ⟨l, hl, rfl⟩ := List.mem_map.mp hed
  have ht : meets R token p l.parts = true := ht
  rw [h l hl hchain] at ht
  cases ht

/-- Rules of one chain that all come to the same. -/
theorem walk_same {action : Action} {v : Verdict} (h : action.target.reach e = .verdict v) (front : List Match)
    (rows : List (List Match)) :
    walk R token e p c (rows.map fun row => add c (front ++ row) action) =
      if meets R token p front && rows.any (meets R token p) then .verdict v else .off := by
  induction rows with
  | nil => simp
  | cons row rows ih =>
    have hmeets : meets R token p (front ++ row) = (meets R token p front && meets R token p row) := List.all_append
    rw [List.map_cons, walk_add, ih, hmeets, h, List.any_cons]
    cases meets R token p front <;> cases meets R token p row <;> simp

/-- Rows of lines, each of which decides the same or nothing. -/
theorem walk_flatMap {α : Type*} {f : α → List Line} {t : α → Bool} {v : Verdict}
    (h : ∀ a, walk R token e p c (f a) = if t a then .verdict v else .off) (l : List α) :
    walk R token e p c (l.flatMap f) = if l.any t then .verdict v else .off := by
  induction l with
  | nil => rfl
  | cons a l ih =>
    rw [List.flatMap_cons, walk_append, h, ih, List.any_cons]
    cases t a <;> simp

/-- What lines put in front of a chain decides nothing. -/
def Quiet (c : ChainName) (ls : List Line) : Prop :=
  ∀ l ∈ ls, l.insert = true → l.chain = c → meets R token p l.parts = true → l.action.target.reach e = .off

@[simp] theorem quiet_nil : Quiet R token e p c [] := fun _ hl => absurd hl List.not_mem_nil

@[simp] theorem quiet_append (ls ls' : List Line) :
    Quiet R token e p c (ls ++ ls') ↔ Quiet R token e p c ls ∧ Quiet R token e p c ls' :=
  List.forall_mem_append

@[simp] theorem quiet_add (c' : ChainName) (parts : List Match) (action : Action) (ls : List Line) :
    Quiet R token e p c (add c' parts action :: ls) ↔ Quiet R token e p c ls := by
  simp [Quiet, add]

@[simp] theorem quiet_ins (c' : ChainName) (parts : List Match) (action : Action) (ls : List Line) :
    Quiet R token e p c (ins c' parts action :: ls) ↔
      (c' = c → meets R token p parts = true → action.target.reach e = .off) ∧ Quiet R token e p c ls := by
  simp [Quiet, ins]

@[simp] theorem quiet_ite (b : Prop) [Decidable b] (ls ls' : List Line) :
    Quiet R token e p c (if b then ls else ls') ↔ (b → Quiet R token e p c ls) ∧ (¬b → Quiet R token e p c ls') := by
  split_ifs with h <;> simp [h]

theorem quiet_of_added {ls : List Line} (h : ∀ l ∈ ls, l.insert = false) : Quiet R token e p c ls :=
  fun l hl hi => absurd hi (by simp [h l hl])

/-- A chain, when what was put in front of it decides nothing. -/
theorem enter_eq {ls : List Line} {depth : ℕ}
    (h : Quiet R token (enter (tables (ls.map (Line.edit R token))) p depth) p c ls) :
    enter (tables (ls.map (Line.edit R token))) p (depth + 1) c =
      walk R token (enter (tables (ls.map (Line.edit R token))) p depth) p c ls := by
  refine follow_edits fun r hr ht => ?_
  obtain ⟨ed, hed, hchain, hinsert, rfl⟩ := mem_inserted.mp hr
  obtain ⟨l, hl, rfl⟩ := List.mem_map.mp hed
  exact h l hl hinsert hchain ht

end Walk

/-! ### The policy -/

/-- The day is one of the schedule's, and the time between its two times, or not between them if the schedule goes over
midnight. -/
def inSchedule (t : TimeMatch) (p : Packet) : Prop :=
  p.wday ∈ t.days ∧
    if seconds t.start < seconds t.stop then seconds t.start ≤ p.time ∧ p.time ≤ seconds t.stop
    else seconds t.start ≤ p.time ∨ p.time ≤ seconds t.stop

instance (t : TimeMatch) (p : Packet) : Decidable (inSchedule t p) := by
  unfold inSchedule
  infer_instance

theorem testBit_days (days : List (Fin 7)) (d : Fin 7) : ∀ mask : ℕ,
    (days.foldl (fun mask d => mask ||| 1 <<< d.val) mask).testBit d.val = (mask.testBit d.val || decide (d ∈ days)) := by
  induction days with
  | nil => simp
  | cons d' days ih =>
    intro mask
    rw [List.foldl_cons, ih, Nat.testBit_or, Nat.one_shiftLeft, Nat.testBit_two_pow, Bool.or_assoc]
    congr 1
    simp [List.mem_cons, Fin.ext_iff, eq_comm]

/-- What the kernel matches is the schedule. -/
theorem timeMatch_info (t : TimeMatch) (p : Packet) : timeMatch t.info p = decide (inSchedule t p) := by
  have hday : ((1 <<< p.wday.val) &&& t.info.daysMatch != 0) = decide (p.wday ∈ t.days) := by
    have hbit := testBit_days t.days p.wday 0
    rw [Nat.zero_testBit, Bool.false_or] at hbit
    rw [Nat.one_shiftLeft, Nat.and_comm, Nat.and_two_pow, TimeMatch.info, hbit]
    cases decide (p.wday ∈ t.days) <;> simp
  unfold timeMatch inSchedule
  rw [hday]
  unfold TimeMatch.info
  by_cases hd : p.wday ∈ t.days <;> by_cases hlt : seconds t.start < seconds t.stop <;>
    simp [hd, hlt, ← decide_not, not_lt]

/-- Whether a rule of a filter takes the packet: one that matches, during the schedule. -/
def ruleMatches (R : Reading) (token : ℕ → Bool) (nv : VarMap) (filter : String) (p : Packet) : Bool :=
  ((timematchConv nv (filter ++ "_date_x") (filter ++ "_time_x")).all fun t => decide (inSchedule t p)) &&
    ((filterRows nv filter).getD [] ++ icmpRows nv filter).any (meets R token p)

/-- What a filter decides: its rules do the opposite of its default. -/
def filterDecision (R : Reading) (token : ℕ → Bool) (nv : VarMap) (filter : String) (p : Packet) : Verdict :=
  if dropsRest nv filter then if ruleMatches R token nv filter p then .accept else .drop
  else if ruleMatches R token nv filter p then .drop
  else .accept

/-- The filter from the LAN to the WAN. -/
def lanWanDecision (R : Reading) (token : ℕ → Bool) (nv : VarMap) (p : Packet) : Verdict :=
  if nvramMatch nv "fw_lw_enable_x" "1" then filterDecision R token nv "filter_lw" p else .accept

/-- The source address is in the list of the MAC filter. -/
def listed (R : Reading) (nv : VarMap) (p : Packet) : Bool :=
  (foreachX nv "macfilter_num_x").any fun i => p.mac.any (R.mac (macConv nv "macfilter_list_x" i))

/-- In accept mode what is listed is passed on, in drop mode what is not; the rest is dropped. -/
def lanPolicy (R : Reading) (token : ℕ → Bool) (nv : VarMap) (p : Packet) : Verdict :=
  if nvramMatch nv "macfilter_enable_x" "1" then if listed R nv p then lanWanDecision R token nv p else .drop
  else if nvramMatch nv "macfilter_enable_x" "2" then if listed R nv p then .drop else lanWanDecision R token nv p
  else lanWanDecision R token nv p

/-- The policy of the chain is to accept. -/
def settled : Outcome Verdict → Option Verdict
  | .verdict v => some v
  | .off => some .accept
  | .deep => none

/-- What is decided of a forwarded packet. -/
def forwarded (R : Reading) (token : ℕ → Bool) (lines : List Line) (p : Packet) : Option Verdict :=
  settled (outcome R token lines .forward p)

/-- Rules at the end that accept do not matter. -/
theorem settled_accepts (o : Outcome Verdict) (b : Bool) :
    settled (o.andThen (if b then .verdict .accept else .off)) = settled o := by
  cases o <;> cases b <;> rfl

/-- A new connection from one interface to another. -/
structure NewFrom (inIf outIf : Bytes) (p : Packet) : Prop where
  indev : p.indev.str.bytes = inIf
  outdev : p.outdev.str.bytes = outIf
  state : p.ctinfo = .new

/-- The interfaces of the LAN and of the WAN are two, and not that of the guests. -/
structure Interfaces (wanIf lanIf : Bytes) : Prop where
  ne : lanIf ≠ wanIf
  lan : lanIf ≠ guestIf
  wan : wanIf ≠ guestIf

/-! ### Parts of the chains -/

/-- The chains that log decide as their names say. -/
structure Logs (e : ChainName → Outcome Verdict) : Prop where
  accept : e .logaccept = .verdict .accept
  drop : e .logdrop = .verdict .drop

section Parts

variable {R : Reading} {token : ℕ → Bool} {e : ChainName → Outcome Verdict} (he : Logs e) {p : Packet}
  {nv : VarMap} {wanIf wanIp lanIf : Bytes}

include he in
theorem reach_logAccept : (logAccept nv).target.reach e = .verdict .accept := by
  unfold logAccept
  split_ifs
  · exact he.accept
  · rfl

include he in
theorem reach_logDrop : (logDrop nv).target.reach e = .verdict .drop := by
  unfold logDrop
  split_ifs
  · exact he.drop
  · rfl

theorem walk_localLines (logaccept logdrop : Action) {c : ChainName} (hc : c ≠ .input) :
    walk R token e p c (localLines wanIp lanIf logaccept logdrop nv) = .off := by
  simp [localLines, walk_append, hc.symm]

theorem walk_mssLines (c : ChainName) : walk R token e p c (mssLines nv) = .off := by
  simp [mssLines, bothChains, walk_append, Action.target, Target.reach]

theorem walk_logLines {c : ChainName} (ha : c ≠ .logaccept) (hd : c ≠ .logdrop) :
    walk R token e p c logLines = .off := by
  simp [logLines, ha.symm, hd.symm]

/-- The rules for a known state do not touch a new connection. -/
theorem walk_stateLines {inIf outIf : Bytes} (hp : NewFrom inIf outIf p) (hlan : inIf = lanIf → outIf ≠ lanIf)
    (hguest : inIf ≠ guestIf) (logaccept logdrop : Action) (c : ChainName) :
    walk R token e p c (stateLines lanIf logaccept logdrop nv) = .off := by
  have hredirect : ¬(inIf = lanIf ∧ outIf = lanIf) := fun h => hlan h.1 h.2
  simp [stateLines, bothChains, walk_append, meets, Match.holds, hp.indev, hp.outdev, hp.state, hguest, hredirect]

include he in
theorem walk_macLines {inIf outIf : Bytes} (hp : NewFrom inIf outIf p) (hguest : inIf ≠ guestIf) {v : Verdict}
    (hmacs : nvramInvmatch nv "macfilter_enable_x" "0" = true → nvramMatch nv "macfilter_enable_x" "2" = false →
      e .macs = .verdict v) :
    walk R token e p .forward (macLines lanIf (logAccept nv) (logDrop nv) nv) =
      if nvramInvmatch nv "macfilter_enable_x" "0" = true ∧ inIf = lanIf ∧ listed R nv p = true then
        .verdict (if nvramMatch nv "macfilter_enable_x" "2" then .drop else v)
      else .off := by
  unfold macLines
  by_cases hon : nvramInvmatch nv "macfilter_enable_x" "0" = true
  · have hftype : (if nvramMatch nv "macfilter_enable_x" "2" then logDrop nv else .chain .macs).target.reach e =
        .verdict (if nvramMatch nv "macfilter_enable_x" "2" then .drop else v) := by
      split_ifs with h2
      · exact reach_logDrop he
      · exact hmacs hon (by simpa using h2)
    rw [if_pos hon, walk_flatMap R token e p (t := fun i =>
      decide (inIf = lanIf) && p.mac.any (R.mac (macConv nv "macfilter_list_x" i)))
      (v := if nvramMatch nv "macfilter_enable_x" "2" then .drop else v)]
    · by_cases hlan : inIf = lanIf <;> simp [hon, hlan, listed]
    · intro i
      by_cases hlan : inIf = lanIf
      · simp only [walk_append, walk_add, walk_ite, walk_nil, hftype]
        simp [meets, Match.holds, hp.indev, hlan, hlan ▸ hguest]
      · simp [meets, Match.holds, hp.indev, hlan, hguest]
  · simp [hon]

theorem walk_dosLines {inIf outIf : Bytes} (hp : NewFrom inIf outIf p) (hwan : inIf ≠ wanIf) (logaccept : Action)
    (c : ChainName) : walk R token e p c (dosLines wanIf logaccept nv) = .off := by
  simp [dosLines, dosParts, meets, Match.holds, hp.indev, hwan]

/-- The rules of a filter do not touch what comes from elsewhere. -/
theorem walk_filterLines_other {inIf outIf inIf' outIf' : Bytes} (hp : NewFrom inIf outIf p) (hne : inIf ≠ inIf')
    {filter : String} {chain : ChainName} {logaccept logdrop : Action} {lines : List Line}
    (h : filterLines nv filter chain inIf' outIf' logaccept logdrop = some lines) (c : ChainName) :
    walk R token e p c lines = .off := by
  obtain ⟨rows, -, h⟩ := Option.bind_eq_some_iff.mp h
  rw [← Option.some.inj h]
  refine walk_other R token e p fun l hl _ => ?_
  obtain ⟨row, -, rfl⟩ := List.mem_map.mp hl
  simp [add, meets, Match.holds, hp.indev, hne]

include he in
theorem walk_filterLines {inIf outIf : Bytes} (hp : NewFrom inIf outIf p) {filter : String} {chain : ChainName}
    {lines : List Line}
    (h : filterLines nv filter chain inIf outIf (logAccept nv) (logDrop nv) = some lines) :
    walk R token e p chain lines =
      if ruleMatches R token nv filter p then .verdict (if dropsRest nv filter then .accept else .drop) else .off := by
  obtain ⟨rows, hrows, h⟩ := Option.bind_eq_some_iff.mp h
  have htype : (if dropsRest nv filter then logAccept nv else logDrop nv).target.reach e =
      .verdict (if dropsRest nv filter then .accept else .drop) := by
    split_ifs
    · exact reach_logAccept he
    · exact reach_logDrop he
  have hfront : meets R token p (timeParts (timematchConv nv (filter ++ "_date_x") (filter ++ "_time_x")) ++
      [.inIf inIf, .outIf outIf]) =
      (timematchConv nv (filter ++ "_date_x") (filter ++ "_time_x")).all fun t => decide (inSchedule t p) := by
    cases timematchConv nv (filter ++ "_date_x") (filter ++ "_time_x") <;>
      simp [timeParts, meets, Match.holds, hp.indev, hp.outdev, timeMatch_info]
  rw [← Option.some.inj h, walk_same R token e p htype, hfront, ruleMatches, hrows, Option.getD_some]

theorem macLines_added {logaccept logdrop : Action} : ∀ l ∈ macLines lanIf logaccept logdrop nv,
    l.insert = false ∧ (l.chain = .input ∨ l.chain = .forward) := by
  intro l hl
  unfold macLines at hl
  by_cases hon : nvramInvmatch nv "macfilter_enable_x" "0" = true
  · rw [if_pos hon] at hl
    obtain ⟨i, -, hl⟩ := List.mem_flatMap.mp hl
    simp only [List.mem_append, List.mem_ite_nil_right, List.mem_cons, List.not_mem_nil, or_false] at hl
    rcases hl with (rfl | rfl) | ⟨-, rfl | rfl⟩
    · exact ⟨rfl, Or.inl rfl⟩
    · exact ⟨rfl, Or.inr rfl⟩
    · exact ⟨rfl, Or.inl rfl⟩
    · exact ⟨rfl, Or.inr rfl⟩
  · rw [if_neg hon] at hl
    cases hl

theorem filterLines_added {filter : String} {chain : ChainName} {inIf outIf : Bytes} {logaccept logdrop : Action}
    {lines : List Line} (h : filterLines nv filter chain inIf outIf logaccept logdrop = some lines) :
    ∀ l ∈ lines, l.insert = false ∧ l.chain = chain := by
  obtain ⟨rows, -, h⟩ := Option.bind_eq_some_iff.mp h
  rw [← Option.some.inj h]
  intro l hl
  obtain ⟨row, -, rfl⟩ := List.mem_map.mp hl
  exact ⟨rfl, rfl⟩

theorem lanWanLines_added {logaccept logdrop : Action} {lines : List Line}
    (h : lanWanLines wanIf lanIf logaccept logdrop nv = some lines) :
    ∀ l ∈ lines, l.insert = false ∧ (l.chain = .forward ∨ l.chain = .macs) := by
  have hchain : lanWanChain nv = .forward ∨ lanWanChain nv = .macs := by
    unfold lanWanChain
    split_ifs
    · exact Or.inr rfl
    · exact Or.inl rfl
  unfold lanWanLines at h
  split_ifs at h
  · obtain ⟨rules, hrules, h⟩ := Option.bind_eq_some_iff.mp h
    rw [← Option.some.inj h]
    refine List.forall_mem_append.mpr ⟨fun l hl => ?_, fun l hl => ?_⟩
    · obtain ⟨hadd, hl⟩ := filterLines_added hrules l hl
      exact ⟨hadd, hl ▸ hchain⟩
    · rw [List.mem_singleton.mp hl]
      exact ⟨rfl, hchain⟩
  · rw [← Option.some.inj h]
    simp [add]
  · rw [← Option.some.inj h]
    simp

theorem wanLanLines_added {logaccept logdrop : Action} {lines : List Line}
    (h : wanLanLines wanIf lanIf logaccept logdrop nv = some lines) :
    ∀ l ∈ lines, l.insert = false ∧ l.chain = .forward := by
  unfold wanLanLines at h
  split_ifs at h
  · exact filterLines_added h
  · rw [← Option.some.inj h]
    simp

/-- The rules of `nat_setting` for the filter table: in the FORWARD chain, and all accept. -/
def Forwards (logaccept : Action) (ls : List Line) : Prop := ∀ l ∈ ls, l = add .forward l.parts logaccept

theorem upnpLines_forwards {u : Undef} {logaccept : Action} {i : ℕ} :
    ∀ x ∈ upnpLines u wanIp logaccept nv i, x.2 = add .forward x.2.parts logaccept := by
  intro x hx
  unfold upnpLines at hx
  split at hx
  · cases hx
  · split_ifs at hx
    · cases hx
    · obtain ⟨proto, -, rfl⟩ := List.mem_map.mp hx
      rfl

theorem vtsLines_forwards {logaccept : Action} {i : ℕ} {ls : List (Line × Line)}
    (h : vtsLines wanIp logaccept nv i = some ls) : ∀ x ∈ ls, x.2 = add .forward x.2.parts logaccept := by
  obtain ⟨proto, -, h⟩ := Option.bind_eq_some_iff.mp h
  rw [← Option.some.inj h]
  intro x hx
  simp only [List.mem_append, List.mem_ite_nil_right, List.mem_singleton] at hx
  obtain (⟨-, rfl⟩ | ⟨-, rfl⟩) | ⟨-, rfl⟩ := hx <;> rfl

theorem writeUpnpForward_forwards (u : Undef) (wanIp : Bytes) (logaccept : Action) (nv : VarMap) :
    Forwards logaccept (writeUpnpForward u wanIp logaccept nv).2 := by
  intro l hl
  rw [writeUpnpForward, List.unzip_eq_map] at hl
  obtain ⟨x, hx, rfl⟩ := List.mem_map.mp hl
  obtain ⟨i, -, hi⟩ := List.mem_flatMap.mp hx
  exact upnpLines_forwards x hi

theorem natSetting_forwards {L : Libc} {u : Undef} {lanIp : Bytes} {logaccept : Action} {nats forwards : List Line}
    (h : natSetting L u wanIf wanIp lanIf lanIp logaccept nv = some (nats, forwards)) :
    Forwards logaccept forwards := by
  unfold natSetting at h
  obtain ⟨vts, hvts, h⟩ := Option.bind_eq_some_iff.mp h
  rw [← (Prod.mk.inj (Option.some.inj h)).2]
  simp only [Forwards, List.forall_mem_append]
  refine ⟨⟨⟨?_, ?_⟩, ?_⟩, ?_⟩
  · split_ifs
    · exact writeUpnpForward_forwards u wanIp logaccept nv
    · simp
  · intro l hl
    obtain ⟨x, hx, rfl⟩ := List.mem_map.mp hl
    obtain ⟨ls, hls, hxls⟩ := List.mem_flatten.mp hx
    unfold virtualServer at hvts
    split_ifs at hvts
    · obtain ⟨i, -, hi⟩ := exists_of_mem_mapM hvts ls hls
      exact vtsLines_forwards hi x hxls
    · cases Option.some.inj hvts
      cases hls
  · split_ifs
    · exact fun l hl => List.mem_singleton.mp hl ▸ rfl
    · simp
  · split_ifs
    · exact fun l hl => List.mem_singleton.mp hl ▸ rfl
    · simp

theorem walk_forwards {logaccept : Action} (hacc : logaccept.target.reach e = .verdict .accept) {ls : List Line}
    (h : Forwards logaccept ls) : walk R token e p .forward ls =
      if ls.any (fun l => meets R token p l.parts) then .verdict .accept else .off := by
  induction ls with
  | nil => rfl
  | cons l ls ih =>
    have hl := h l (List.mem_cons_self ..)
    rw [hl, walk_add, ih fun l' hl' => h l' (List.mem_cons_of_mem _ hl'), hacc, List.any_cons]
    cases hm : meets R token p l.parts <;> simp [add, hm]

include he in
theorem walk_restLine {inIf outIf : Bytes} (hp : NewFrom inIf outIf p) (filter : String) (chain : ChainName) :
    walk R token e p chain [restLine nv filter chain inIf outIf (logAccept nv) (logDrop nv)] =
      .verdict (if dropsRest nv filter then .drop else .accept) := by
  have htype : (if dropsRest nv filter then logDrop nv else logAccept nv).target.reach e =
      .verdict (if dropsRest nv filter then .drop else .accept) := by
    split_ifs
    · exact reach_logDrop he
    · exact reach_logAccept he
  simp [restLine, meets, Match.holds, hp.indev, hp.outdev, htype]

theorem walk_restLine_other {inIf outIf inIf' outIf' : Bytes} (hp : NewFrom inIf outIf p) (hne : inIf ≠ inIf')
    (filter : String) (chain : ChainName) (logaccept logdrop : Action) (c : ChainName) :
    walk R token e p c [restLine nv filter chain inIf' outIf' logaccept logdrop] = .off := by
  simp [restLine, meets, Match.holds, hp.indev, hne]

include he in
/-- The filter from the LAN to the WAN decides, in its chain. -/
theorem walk_lanWanLines (hp : NewFrom lanIf wanIf p) {lines : List Line}
    (h : lanWanLines wanIf lanIf (logAccept nv) (logDrop nv) nv = some lines)
    (hon : nvramMatch nv "fw_lw_enable_x" "1" = true) :
    walk R token e p (lanWanChain nv) lines = .verdict (lanWanDecision R token nv p) := by
  unfold lanWanLines at h
  rw [if_pos hon] at h
  obtain ⟨rules, hrules, h⟩ := Option.bind_eq_some_iff.mp h
  rw [← Option.some.inj h, walk_append, walk_filterLines he hp hrules, walk_restLine he hp, lanWanDecision, if_pos hon,
    filterDecision]
  cases ruleMatches R token nv "filter_lw" p <;> cases dropsRest nv "filter_lw" <;> rfl

/-- What the filter from the WAN writes does not touch what comes from the LAN. -/
theorem walk_wanLan_other (hp : NewFrom lanIf wanIf p) (hne : lanIf ≠ wanIf) {wanLan : List Line}
    (hwan : wanLanLines wanIf lanIf (logAccept nv) (logDrop nv) nv = some wanLan) (c : ChainName) :
    walk R token e p c wanLan = .off ∧
      walk R token e p c (wanLanRest wanIf lanIf (logAccept nv) (logDrop nv) nv) = .off := by
  refine ⟨?_, ?_⟩
  · unfold wanLanLines at hwan
    split_ifs at hwan
    · exact walk_filterLines_other hp hne hwan c
    · rw [← Option.some.inj hwan]
      rfl
  · unfold wanLanRest
    split_ifs
    · exact walk_restLine_other hp hne _ _ _ _ c
    · rfl

include he in
/-- The rules from the LAN to the WAN, in the FORWARD chain. -/
theorem walk_lanWan_forward (hp : NewFrom lanIf wanIf p) {lanWan : List Line}
    (hlan : lanWanLines wanIf lanIf (logAccept nv) (logDrop nv) nv = some lanWan) :
    walk R token e p .forward lanWan =
      if nvramMatch nv "fw_lw_enable_x" "1" then
        if nvramMatch nv "macfilter_enable_x" "1" then .off else .verdict (lanWanDecision R token nv p)
      else if nvramMatch nv "macfilter_enable_x" "1" then .verdict .drop
      else .off := by
  by_cases hon : nvramMatch nv "fw_lw_enable_x" "1" = true
  · rw [if_pos hon]
    split_ifs with hmac
    · unfold lanWanLines lanWanChain at hlan
      rw [if_pos hon, if_pos hmac] at hlan
      obtain ⟨rules, hrules, hlan⟩ := Option.bind_eq_some_iff.mp hlan
      have hrules : walk R token e p .forward rules = .off := walk_other R token e p fun l hl hchain =>
        absurd ((filterLines_added hrules l hl).2.symm.trans hchain) (by decide)
      rw [← Option.some.inj hlan, walk_append, hrules]
      simp [restLine]
    · have hchain : lanWanChain nv = .forward := if_neg hmac
      exact hchain ▸ walk_lanWanLines he hp hlan hon
  · unfold lanWanLines at hlan
    rw [if_neg hon] at hlan ⊢
    split_ifs at hlan ⊢
    · rw [← Option.some.inj hlan]
      simp [meets, Match.holds, hp.indev, hp.outdev, reach_logDrop he]
    · rw [← Option.some.inj hlan]
      rfl

end Parts

/-! ### The decision -/

/-- What `filter_setting` writes, part by part. -/
theorem startFirewallEx_eq {L : Libc} {u : Undef} {wanIf wanIp lanIf lanIp : Bytes} {nv : VarMap}
    {nats lines : List Line} (h : startFirewallEx L u wanIf wanIp lanIf lanIp nv = some (nats, lines)) :
    ∃ bigpond lanWan wanLan forwards, (∀ l ∈ bigpond, l.chain = .input) ∧
      lanWanLines wanIf lanIf (logAccept nv) (logDrop nv) nv = some lanWan ∧
      wanLanLines wanIf lanIf (logAccept nv) (logDrop nv) nv = some wanLan ∧
      natSetting L u wanIf wanIp lanIf lanIp (logAccept nv) nv = some (nats, forwards) ∧
      lines = bigpond ++ macLines lanIf (logAccept nv) (logDrop nv) nv ++
        localLines wanIp lanIf (logAccept nv) (logDrop nv) nv ++ stateLines lanIf (logAccept nv) (logDrop nv) nv ++
        mssLines nv ++ dosLines wanIf (logAccept nv) nv ++ lanWan ++ wanLan ++ forwards ++
        wanLanRest wanIf lanIf (logAccept nv) (logDrop nv) nv ++ logLines := by
  obtain ⟨⟨nats', forwards⟩, hnat, h⟩ := Option.bind_eq_some_iff.mp h
  obtain ⟨lines', hfilter, h⟩ := Option.bind_eq_some_iff.mp h
  obtain ⟨rfl, rfl⟩ := Prod.mk.inj (Option.some.inj h)
  unfold filterSetting at hfilter
  obtain ⟨lanWan, hlan, hfilter⟩ := Option.bind_eq_some_iff.mp hfilter
  obtain ⟨wanLan, hwan, hfilter⟩ := Option.bind_eq_some_iff.mp hfilter
  refine ⟨_, lanWan, wanLan, forwards, ?_, hlan, hwan, hnat, (Option.some.inj hfilter).symm⟩
  split_ifs <;> simp [ins]

theorem nvramInvmatch_of_match {nv : VarMap} {name value value' : String} (h : nvramMatch nv name value = true)
    (hne : bytes value ≠ bytes value') : nvramInvmatch nv name value' = true := by
  unfold nvramMatch at h
  unfold nvramInvmatch
  cases hv : nv.lookup (cstr (bytes name)) with
  | none => simp [hv] at h
  | some v =>
    rw [hv, Option.any_some, beq_iff_eq] at h
    simp [h, hne]

theorem nvramMatch_unique {nv : VarMap} {name value value' : String} (h : nvramMatch nv name value = true)
    (hne : bytes value ≠ bytes value') : nvramMatch nv name value' = false := by
  unfold nvramMatch at h ⊢
  cases hv : nv.lookup (cstr (bytes name)) with
  | none => rfl
  | some v =>
    rw [hv, Option.any_some, beq_iff_eq] at h
    simp [h, hne]

section Decision

variable {L : Libc} {u : Undef} {wanIf wanIp lanIf lanIp : Bytes} {nv : VarMap} {nats lines : List Line}
  (hrun : startFirewallEx L u wanIf wanIp lanIf lanIp nv = some (nats, lines)) (R : Reading) (token : ℕ → Bool)
  {p : Packet}

include hrun

theorem quiet_lines (hin : p.indev.str.bytes ≠ guestIf) (hout : p.outdev.str.bytes ≠ guestIf) {c : ChainName}
    (hc : c ≠ .input) (e : ChainName → Outcome Verdict) : Quiet R token e p c lines := by
  obtain ⟨bigpond, lanWan, wanLan, forwards, hbig, hlan, hwan, hnat, rfl⟩ := startFirewallEx_eq hrun
  have hbigpond : Quiet R token e p c bigpond := fun l hl _ hchain => absurd (hchain.symm.trans (hbig l hl)) hc
  have hmac : Quiet R token e p c (macLines lanIf (logAccept nv) (logDrop nv) nv) :=
    quiet_of_added R token e p fun l hl => (macLines_added l hl).1
  have hlocal : Quiet R token e p c (localLines wanIp lanIf (logAccept nv) (logDrop nv) nv) := by
    simp [localLines, hc.symm, meets, Match.holds, hin, hout]
  have hstate : Quiet R token e p c (stateLines lanIf (logAccept nv) (logDrop nv) nv) := by
    simp [stateLines, bothChains]
  have hmss : Quiet R token e p c (mssLines nv) := by
    simp [mssLines, bothChains, Action.target, Target.reach]
  have hdos : Quiet R token e p c (dosLines wanIf (logAccept nv) nv) := by
    simp [dosLines, dosParts]
  have hlanWan : Quiet R token e p c lanWan := quiet_of_added R token e p fun l hl => (lanWanLines_added hlan l hl).1
  have hwanLan : Quiet R token e p c wanLan := quiet_of_added R token e p fun l hl => (wanLanLines_added hwan l hl).1
  have hforwards : Quiet R token e p c forwards := quiet_of_added R token e p fun l hl => by
    rw [natSetting_forwards hnat l hl]
    rfl
  have hrest : Quiet R token e p c (wanLanRest wanIf lanIf (logAccept nv) (logDrop nv) nv) := by
    simp [wanLanRest, restLine]
  have hlog : Quiet R token e p c logLines := by simp [logLines]
  simp only [quiet_append]
  exact ⟨⟨⟨⟨⟨⟨⟨⟨⟨⟨hbigpond, hmac⟩, hlocal⟩, hstate⟩, hmss⟩, hdos⟩, hlanWan⟩, hwanLan⟩, hforwards⟩, hrest⟩, hlog⟩

/-- No other line is in the chains that log. -/
theorem walk_front (e : ChainName → Outcome Verdict) {c : ChainName} (hc : c = .logaccept ∨ c = .logdrop) :
    walk R token e p c lines = walk R token e p c logLines := by
  obtain ⟨bigpond, lanWan, wanLan, forwards, hbig, hlan, hwan, hnat, rfl⟩ := startFirewallEx_eq hrun
  have hother : ∀ c', c' = .input ∨ c' = .forward ∨ c' = .macs → c' ≠ c := by
    rintro c' h rfl
    rcases hc with rfl | rfl <;> simp at h
  have hskip : ∀ {ls : List Line}, (∀ l ∈ ls, l.chain = .input ∨ l.chain = .forward ∨ l.chain = .macs) →
      walk R token e p c ls = .off :=
    fun h => walk_other R token e p fun l hl hchain => absurd hchain (hother _ (h l hl))
  have hbigpond := hskip fun l hl => Or.inl (hbig l hl)
  have hmac := hskip fun l hl => (@macLines_added nv lanIf (logAccept nv) (logDrop nv) l hl).2.imp_right Or.inl
  have hlocal := @walk_localLines R token e p nv wanIp lanIf (logAccept nv) (logDrop nv) c (hother _ (Or.inl rfl)).symm
  have hf : ChainName.forward ≠ c := hother _ (Or.inr (Or.inl rfl))
  have hm : ChainName.macs ≠ c := hother _ (Or.inr (Or.inr rfl))
  have hstate : walk R token e p c (stateLines lanIf (logAccept nv) (logDrop nv) nv) = .off := by
    simp [stateLines, bothChains, walk_append, hf, hm]
  have hdos : walk R token e p c (dosLines wanIf (logAccept nv) nv) = .off := by
    simp [dosLines, dosParts, hf]
  have hlanWan := hskip fun l hl => Or.inr (lanWanLines_added hlan l hl).2
  have hwanLan : walk R token e p c wanLan = .off :=
    hskip fun l hl => Or.inr (Or.inl (wanLanLines_added hwan l hl).2)
  have hforwards : walk R token e p c forwards = .off :=
    hskip fun l hl => Or.inr (Or.inl (by rw [natSetting_forwards hnat l hl]; rfl))
  have hrest : walk R token e p c (wanLanRest wanIf lanIf (logAccept nv) (logDrop nv) nv) = .off := by
    simp [wanLanRest, restLine, hf]
  simp only [walk_append, hbigpond, hmac, hlocal, hstate, walk_mssLines, hdos, hlanWan, hwanLan, hforwards, hrest,
    Outcome.off_andThen]

/-- The chains that log decide, at any depth. -/
theorem enter_logs (hin : p.indev.str.bytes ≠ guestIf) (hout : p.outdev.str.bytes ≠ guestIf) (depth : ℕ) :
    Logs (enter (tables (lines.map (Line.edit R token))) p (depth + 1)) := by
  constructor
  · rw [enter_eq R token p (quiet_lines hrun R token hin hout (by decide) _), walk_front hrun R token _ (Or.inl rfl)]
    simp [logLines, Action.target, Target.reach, meets]
  · rw [enter_eq R token p (quiet_lines hrun R token hin hout (by decide) _), walk_front hrun R token _ (Or.inr rfl)]
    simp [logLines, Action.target, Target.reach, meets]

/-- What the MAC filter passes on is decided by the filter from the LAN to the WAN. -/
theorem enter_macs (hp : NewFrom lanIf wanIf p) (hif : Interfaces wanIf lanIf)
    (hmode : nvramMatch nv "macfilter_enable_x" "1" = true) (depth : ℕ) :
    enter (tables (lines.map (Line.edit R token))) p (depth + 2) .macs =
      .verdict (lanWanDecision R token nv p) := by
  have hin : p.indev.str.bytes ≠ guestIf := hp.indev ▸ hif.lan
  have hout : p.outdev.str.bytes ≠ guestIf := hp.outdev ▸ hif.wan
  have he := enter_logs hrun R token hin hout depth
  rw [enter_eq R token p (quiet_lines hrun R token hin hout (by decide) _)]
  obtain ⟨bigpond, lanWan, wanLan, forwards, hbig, hlan, hwan, hnat, rfl⟩ := startFirewallEx_eq hrun
  generalize enter _ p (depth + 1) = e at he ⊢
  have hbigpond : walk R token e p .macs bigpond = .off :=
    walk_other R token e p fun l hl hchain => absurd ((hbig l hl).symm.trans hchain) (by decide)
  have hmac : walk R token e p .macs (macLines lanIf (logAccept nv) (logDrop nv) nv) = .off :=
    walk_other R token e p fun l hl hchain => absurd (macLines_added l hl).2 (by rw [hchain]; decide)
  have hstate := @walk_stateLines R token e p nv lanIf _ _ hp (fun _ => hif.ne.symm) hif.lan (logAccept nv) (logDrop nv)
    .macs
  have hdos := @walk_dosLines R token e p nv wanIf _ _ hp hif.ne (logAccept nv) .macs
  have hdecided : walk R token e p .macs lanWan = .verdict (lanWanDecision R token nv p) := by
    by_cases hon : nvramMatch nv "fw_lw_enable_x" "1" = true
    · have hchain : lanWanChain nv = .macs := if_pos hmode
      exact hchain ▸ walk_lanWanLines he hp hlan hon
    · unfold lanWanLines at hlan
      rw [if_neg hon, if_pos hmode] at hlan
      rw [← Option.some.inj hlan, lanWanDecision, if_neg hon]
      simp [meets, Match.holds, hp.indev, hp.outdev, reach_logAccept he]
  simp only [walk_append, hbigpond, hmac, walk_localLines _ _ (show ChainName.macs ≠ .input by decide), hstate,
    walk_mssLines, hdos, hdecided, Outcome.off_andThen, Outcome.verdict_andThen]

/-- What the FORWARD chain decides. -/
theorem forwarded_eq (hp : NewFrom lanIf wanIf p) (hif : Interfaces wanIf lanIf)
    (hmode : nvramInvmatch nv "macfilter_enable_x" "0" = true →
      nvramMatch nv "macfilter_enable_x" "1" = true ∨ nvramMatch nv "macfilter_enable_x" "2" = true) :
    forwarded R token lines p = some
      (if nvramMatch nv "macfilter_enable_x" "1" = true ∧ nvramMatch nv "fw_lw_enable_x" "1" = true ∧
          listed R nv p = false then .accept else lanPolicy R token nv p) := by
  have hin : p.indev.str.bytes ≠ guestIf := hp.indev ▸ hif.lan
  have hout : p.outdev.str.bytes ≠ guestIf := hp.outdev ▸ hif.wan
  have he := enter_logs hrun R token hin hout 1
  have hmacs := fun hmode => enter_macs hrun R token hp hif hmode 0
  rw [forwarded, outcome, enter_eq R token p (quiet_lines hrun R token hin hout (by decide) _)]
  obtain ⟨bigpond, lanWan, wanLan, forwards, hbig, hlan, hwan, hnat, rfl⟩ := startFirewallEx_eq hrun
  generalize enter _ p 2 = e at he hmacs ⊢
  have hbigpond : walk R token e p .forward bigpond = .off :=
    walk_other R token e p fun l hl hchain => absurd ((hbig l hl).symm.trans hchain) (by decide)
  have hstate := @walk_stateLines R token e p nv lanIf _ _ hp (fun _ => hif.ne.symm) hif.lan (logAccept nv) (logDrop nv)
    .forward
  have hdos := @walk_dosLines R token e p nv wanIf _ _ hp hif.ne (logAccept nv) .forward
  obtain ⟨hwanLan, hrest⟩ := @walk_wanLan_other R token e p nv wanIf lanIf hp hif.ne wanLan hwan .forward
  have hforwards := @walk_forwards R token e p _ (reach_logAccept he) forwards (natSetting_forwards hnat)
  simp only [walk_append, hbigpond, walk_localLines _ _ (show ChainName.forward ≠ .input by decide), hstate,
    walk_mssLines, hdos, walk_lanWan_forward he hp hlan, hwanLan, hforwards, hrest,
    walk_logLines (show ChainName.forward ≠ .logaccept by decide) (show ChainName.forward ≠ .logdrop by decide),
    Outcome.off_andThen, Outcome.andThen_off]
  have hmac := @walk_macLines R token e he p nv lanIf _ _ hp hif.lan (lanWanDecision R token nv p)
  rw [settled_accepts]
  by_cases h1 : nvramMatch nv "macfilter_enable_x" "1" = true
  · have h2 : nvramMatch nv "macfilter_enable_x" "2" = false := nvramMatch_unique h1 (by decide)
    have h0 : nvramInvmatch nv "macfilter_enable_x" "0" = true := nvramInvmatch_of_match h1 (by decide)
    rw [hmac fun _ _ => hmacs h1]
    simp only [h0, h1, h2, lanPolicy]
    cases listed R nv p <;> cases nvramMatch nv "fw_lw_enable_x" "1" <;> rfl
  · rw [hmac fun h0 h2 => absurd ((hmode h0).resolve_left h1) (by simp [h2])]
    have h1 : nvramMatch nv "macfilter_enable_x" "1" = false := by simpa using h1
    have hfilter : settled (if nvramMatch nv "fw_lw_enable_x" "1" = true then
        .verdict (lanWanDecision R token nv p) else .off) = some (lanWanDecision R token nv p) := by
      by_cases hon : nvramMatch nv "fw_lw_enable_x" "1" = true
      · rw [if_pos hon]
        rfl
      · rw [if_neg hon, lanWanDecision, if_neg hon]
        rfl
    cases h2 : nvramMatch nv "macfilter_enable_x" "2" with
    | true =>
      have h0 : nvramInvmatch nv "macfilter_enable_x" "0" = true := nvramInvmatch_of_match h2 (by decide)
      cases hl : listed R nv p with
      | false => simp [h0, h1, h2, hl, lanPolicy, hfilter]
      | true => simp [h0, h1, h2, hl, lanPolicy, settled]
    | false =>
      have h0 : nvramInvmatch nv "macfilter_enable_x" "0" = false := by
        by_contra h0
        have hor := hmode (by simpa using h0)
        simp [h1, h2] at hor
      simp [h0, h1, h2, lanPolicy, hfilter]

end Decision

/-- **From the LAN to the WAN.** A new connection is decided as the policy says, unless it is in accept mode from an
address that is not listed, with the filter from the LAN to the WAN on. -/
theorem lan_policy_iff {L : Libc} {u : Undef} {wanIf wanIp lanIf lanIp : Bytes} {nv : VarMap} {nats lines : List Line}
    (hrun : startFirewallEx L u wanIf wanIp lanIf lanIp nv = some (nats, lines)) (R : Reading) (token : ℕ → Bool)
    {p : Packet} (hp : NewFrom lanIf wanIf p) (hif : Interfaces wanIf lanIf)
    (hmode : nvramInvmatch nv "macfilter_enable_x" "0" = true →
      nvramMatch nv "macfilter_enable_x" "1" = true ∨ nvramMatch nv "macfilter_enable_x" "2" = true) :
    forwarded R token lines p = some (lanPolicy R token nv p) ↔
      ¬(nvramMatch nv "macfilter_enable_x" "1" = true ∧ nvramMatch nv "fw_lw_enable_x" "1" = true ∧
        listed R nv p = false) := by
  rw [forwarded_eq hrun R token hp hif hmode, Option.some_inj]
  split_ifs with h
  · simp [lanPolicy, h]
  · simp [h]

/-! ### Accept mode with an empty list -/

theorem length_eth1 : (CStr.lit "eth1").length < 16 := by decide

/-- A first packet from `br0` to `eth1`. -/
def fromLan : Packet where
  saddr := 0xc0a80102
  daddr := 0x08080808
  indev := ⟨.lit "br0", length_br0⟩
  outdev := ⟨.lit "eth1", length_eth1⟩
  protocol := 6
  offset := 0
  header := some ⟨1025, 80, 0x02, fun _ => false⟩
  mac := some 0x001122334455
  ctinfo := .new
  wday := sunday
  time := 0
  other := fun _ => false

/-- No packet has what a text says. -/
def blind : Reading :=
  ⟨fun _ _ => false, fun _ _ => false, fun _ _ => false, fun _ _ => false, fun _ _ _ => false, fun _ _ => false,
    fun _ _ => false, fun _ _ => false⟩

/-- Accept mode, with the filter from the LAN to the WAN on or not. -/
def acceptMode (filter : String) : VarMap := vars [("macfilter_enable_x", "1"), ("fw_lw_enable_x", filter)]

theorem fromLan_new : NewFrom (bytes "br0") (bytes "eth1") fromLan := ⟨by decide, by decide, rfl⟩

theorem br0_eth1 : Interfaces (bytes "eth1") (bytes "br0") := ⟨by decide, by decide, by decide⟩

theorem acceptMode_run (filter : String) (h : filter = "0" ∨ filter = "1") : ∃ r,
    startFirewallEx dottedLibc .nothing (bytes "eth1") (bytes "1.2.3.4") (bytes "br0") (bytes "192.168.1.1")
      (acceptMode filter) = some r := by
  rw [← Option.isSome_iff_exists]
  rcases h with rfl | rfl <;> decide +kernel

/-- With that filter off, what is not listed is dropped. -/
theorem unlisted_dropped : ∃ r,
    startFirewallEx dottedLibc .nothing (bytes "eth1") (bytes "1.2.3.4") (bytes "br0") (bytes "192.168.1.1")
      (acceptMode "0") = some r ∧ forwarded blind (fun _ => false) r.2 fromLan = some .drop := by
  obtain ⟨r, hr⟩ := acceptMode_run "0" (Or.inl rfl)
  have hpolicy := (lan_policy_iff hr blind (fun _ => false) fromLan_new br0_eth1 fun _ => Or.inl (by decide +kernel)).mpr
    (by decide +kernel)
  exact ⟨r, hr, hpolicy.trans (by decide +kernel)⟩

/-- With it on, it passes. -/
theorem unlisted_passes : ¬∀ (L : Libc) (u : Undef) (wanIf wanIp lanIf lanIp : Bytes) (nv : VarMap)
    (nats lines : List Line) (R : Reading) (token : ℕ → Bool) (p : Packet),
    startFirewallEx L u wanIf wanIp lanIf lanIp nv = some (nats, lines) → NewFrom lanIf wanIf p →
      Interfaces wanIf lanIf → (nvramMatch nv "macfilter_enable_x" "0" = true ∨
        nvramMatch nv "macfilter_enable_x" "1" = true ∨ nvramMatch nv "macfilter_enable_x" "2" = true) →
      forwarded R token lines p = some (lanPolicy R token nv p) := by
  intro hclaim
  obtain ⟨r, hr⟩ := acceptMode_run "1" (Or.inr rfl)
  have hmode : nvramMatch (acceptMode "1") "macfilter_enable_x" "1" = true := by decide +kernel
  have h := hclaim _ _ _ _ _ _ _ r.1 r.2 blind (fun _ => false) fromLan hr fromLan_new br0_eth1 (Or.inr (Or.inl hmode))
  rw [forwarded_eq hr blind (fun _ => false) fromLan_new br0_eth1 fun _ => Or.inl hmode] at h
  exact absurd h (by decide +kernel)

end Rc
end Router
