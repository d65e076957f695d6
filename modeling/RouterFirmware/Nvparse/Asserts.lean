/-
# When the conversion completes

The converters assert that what they have made of a deprecated entry is valid.
Whether that is so depends on the entry alone, and an entry is read before any
converter has touched it. So the conversion completes exactly if each entry
that is understood at all has its ports and addresses in order.
-/
import RouterFirmware.Nvparse.Frames
import RouterFirmware.Nvparse.RoundTrip

namespace Router
namespace Nvparse

open CMem CText Bits Netconf Stages
open Nvram (VarMap)

/-! ### The condition -/

section Condition

variable (L : Libc) (u : Undef)

/-- A word of `forward_tcp` or `forward_udp`: as far as it is understood it has an
address, neither port range runs backwards, and both are of one size. -/
def ForwardOk (ipproto : ℕ) (word : Bytes) : Prop :=
  ∀ nat, forwardWord L ipproto word = some nat →
    ordered nat.m.dst.ports = true ∧ nat.ipaddr ≠ 0 ∧ ordered nat.ports = true ∧
      extent nat.m.dst.ports = extent nat.ports

/-- A word of `filter_ip`: the addresses do not run backwards. -/
def IpOk (word : Bytes) : Prop :=
  ∀ r, filterIpWord L word = some r → r.1.m.src.ipaddr.toNat ≤ r.2.m.src.ipaddr.toNat

/-- A word of `filter_tcp` or `filter_udp`: the ports do not run backwards. -/
def ProtoOk (ipproto : ℕ) (word : Bytes) : Prop :=
  ∀ start, filterProtoWord L ipproto word = some start → ordered start.m.dst.ports = true

/-- `filter_port<i>`: TCP or UDP, ports that do not run backwards, days of the week and
times of the day. -/
def PortOk (nv : VarMap) (i : ℕ) : Prop :=
  ∀ r, filterPort L nv i = some r →
    ordered r.1.m.dst.ports = true ∧ (r.1.m.ipproto = ipprotoTcp ∨ r.1.m.ipproto = ipprotoUdp) ∧
      (r.1.m.days.1 ≤ 6 ∧ r.1.m.days.2 ≤ 6) ∧ r.1.m.secs.1 < 24 * 60 * 60 ∧ r.1.m.secs.2 < 24 * 60 * 60

/-- `autofw_port<i>`, with a single outbound port: neither of the other port ranges runs
backwards, and both are of one size. -/
def AutofwOk (nv : VarMap) (i : ℕ) : Prop :=
  ∀ l app, (value? u nv (numbered "autofw_port" i)).bind autofwLine = some l →
    (strsep (bytes "-") l.outPort).2 = none → autofwApp nv l = some app →
    ordered app.dport = true ∧ ordered app.toPorts = true ∧ extent app.dport = extent app.toPorts

/-- The condition, on all deprecated variables with an assertion. -/
def Convertible (nv : VarMap) : Prop :=
  (∀ w ∈ words 1000 (nvramSafeGet nv (.lit "forward_tcp")), ForwardOk L ipprotoTcp w) ∧
  (∀ w ∈ words 1000 (nvramSafeGet nv (.lit "forward_udp")), ForwardOk L ipprotoUdp w) ∧
  (∀ w ∈ words 1000 (nvramSafeGet nv (.lit "filter_ip")), IpOk L w) ∧
  (∀ w ∈ words 1000 (nvramSafeGet nv (.lit "filter_tcp")), ProtoOk L ipprotoTcp w) ∧
  (∀ w ∈ words 1000 (nvramSafeGet nv (.lit "filter_udp")), ProtoOk L ipprotoUdp w) ∧
  (∀ i ∈ [1, 2, 3, 4, 5, 6], PortOk L nv i) ∧ ∀ i ∈ List.range 10, AutofwOk u nv i

instance (ipproto : ℕ) (word : Bytes) : Decidable (ForwardOk L ipproto word) :=
  inferInstanceAs (Decidable (∀ nat ∈ forwardWord L ipproto word, _))

instance (word : Bytes) : Decidable (IpOk L word) := inferInstanceAs (Decidable (∀ r ∈ filterIpWord L word, _))

instance (ipproto : ℕ) (word : Bytes) : Decidable (ProtoOk L ipproto word) :=
  inferInstanceAs (Decidable (∀ start ∈ filterProtoWord L ipproto word, _))

instance (nv : VarMap) (i : ℕ) : Decidable (PortOk L nv i) :=
  inferInstanceAs (Decidable (∀ r ∈ filterPort L nv i, _))

instance (nv : VarMap) (i : ℕ) : Decidable (AutofwOk u nv i) :=
  decidable_of_iff (∀ l ∈ (value? u nv (numbered "autofw_port" i)).bind autofwLine,
    (strsep (bytes "-") l.outPort).2 = none → ∀ app ∈ autofwApp nv l,
      ordered app.dport = true ∧ ordered app.toPorts = true ∧ extent app.dport = extent app.toPorts)
    ⟨fun h l app hl hout happ => h l hl hout app happ, fun h l hl hout app happ => h l app hl hout happ⟩

instance (nv : VarMap) : Decidable (Convertible L u nv) := inferInstanceAs (Decidable (_ ∧ _))

end Condition

variable {L : Libc} {u : Undef} {nv nv' : VarMap}

/-! ### One entry -/

theorem isSome_assertValid (valid : Bool) (name : CStr) (pieces : List Bytes) :
    (assertValid (setIfValid valid true nv name pieces)).isSome = valid := by
  cases valid <;> rfl

theorem isSome_addClient (nv : VarMap) (i : ℕ) (start stop : NetconfFilter) :
    (addClient L u nv i start stop).isSome = validFilterClient start stop := by
  unfold addClient
  dsimp only
  rw [Option.isSome_map]
  exact isSome_assertValid _ _ _

theorem isSome_convertForward {ipproto : ℕ} (hp : ipproto = ipprotoTcp ∨ ipproto = ipprotoUdp) (nv : VarMap)
    (word : Bytes) : (convertForward L u ipproto nv word).isSome = true ↔ ForwardOk L ipproto word := by
  unfold convertForward ForwardOk
  cases hw : forwardWord L ipproto word with
  | none => simp
  | some nat =>
    have hproto : nat.m.ipproto = ipprotoTcp ∨ nat.m.ipproto = ipprotoUdp := by
      obtain ⟨r, -, hr⟩ := Option.bind_eq_some_iff.mp hw
      obtain ⟨r', -, hr'⟩ := Option.bind_eq_some_iff.mp hr
      cases hr'
      exact hp.imp (congrArg _) (congrArg _)
    dsimp only
    rw [show (assertValid (setForwardPort u true nv (freeFrom nv (forwardUsed L u nv) 0) nat)).isSome =
      validForwardPort nat from isSome_assertValid _ _ _]
    unfold validForwardPort
    simp [hproto, and_assoc]

theorem validFilterClient_ip {word : Bytes} {r : NetconfFilter × NetconfFilter}
    (h : filterIpWord L word = some r) {ipproto : ℕ} (hp : ipproto = ipprotoTcp ∨ ipproto = ipprotoUdp) :
    validFilterClient (withProto r.1 ipproto) (withProto r.2 ipproto) =
      decide (r.1.m.src.ipaddr.toNat ≤ r.2.m.src.ipaddr.toNat) := by
  obtain ⟨a, -, ha⟩ := Option.bind_eq_some_iff.mp h
  cases ha
  have hord : ordered (0, htons 65535) = true := by decide
  unfold validFilterClient withProto commonZero matchZero
  simp [hord, hp]

theorem isSome_convertIp (nv : VarMap) (word : Bytes) :
    (convertIp L u nv word).isSome = true ↔ IpOk L word := by
  unfold convertIp IpOk
  cases hw : filterIpWord L word with
  | none => simp
  | some r =>
    obtain ⟨start, stop⟩ := r
    have htcp := validFilterClient_ip hw (Or.inl rfl)
    have hudp := validFilterClient_ip hw (Or.inr rfl)
    dsimp only
    cases h1 : addClient L u nv 0 (withProto start ipprotoTcp) (withProto stop ipprotoTcp) with
    | none =>
      have hsome := isSome_addClient (L := L) (u := u) nv 0 (withProto start ipprotoTcp)
        (withProto stop ipprotoTcp)
      rw [h1, htcp] at hsome
      simpa using hsome
    | some r₁ =>
      obtain ⟨nv₁, i⟩ := r₁
      have hsome := isSome_addClient (L := L) (u := u) nv₁ i (withProto start ipprotoUdp)
        (withProto stop ipprotoUdp)
      rw [hudp] at hsome
      cases h2 : addClient L u nv₁ i (withProto start ipprotoUdp) (withProto stop ipprotoUdp) with
      | none =>
        rw [h2] at hsome
        simpa [h2] using hsome
      | some r₂ =>
        rw [h2] at hsome
        simpa [h2] using hsome

theorem isSome_convertProto {ipproto : ℕ} (hp : ipproto = ipprotoTcp ∨ ipproto = ipprotoUdp) (nv : VarMap)
    (word : Bytes) : (convertProto L u ipproto nv word).isSome = true ↔ ProtoOk L ipproto word := by
  unfold convertProto ProtoOk
  cases hw : filterProtoWord L ipproto word with
  | none => simp
  | some start =>
    have hvalid : validFilterClient start start = ordered start.m.dst.ports := by
      obtain ⟨a, -, ha⟩ := Option.bind_eq_some_iff.mp hw
      obtain ⟨b, -, hb⟩ := Option.bind_eq_some_iff.mp ha
      cases hb
      unfold validFilterClient commonZero matchZero
      simp [hp]
    dsimp only
    rw [Option.isSome_map, isSome_addClient, hvalid]
    simp

/-- The records of a `filter_port` line are alike but for their addresses. -/
theorem filterPortLine_alike {lanIpaddr : Addr} {value : Bytes} {r : NetconfFilter × NetconfFilter}
    (h : filterPortLine lanIpaddr value = some r) :
    r.1.m.src.netmask = 0 ∧ r.2.m.src.netmask = 0 ∧ r.2.m = { r.1.m with src := r.2.m.src } ∧
      r.1.desc = .copy [] ∧ r.1.target = .drop := by
  unfold filterPortLine at h
  -- nine fields, and when it is for
  iterate 10 obtain ⟨_, -, h⟩ := Option.bind_eq_some_iff.mp h
  cases h
  exact ⟨rfl, rfl, rfl, rfl, rfl⟩

theorem isSome_convertPort (nv : VarMap) (i : ℕ) : (convertPort L u nv i).isSome = true ↔ PortOk L nv i := by
  unfold convertPort PortOk
  cases hp : filterPort L nv i with
  | none => simp
  | some r =>
    have hline : ∃ a v, filterPortLine a v = some r := by
      unfold filterPort at hp
      cases hl : nv.lookup (numbered "filter_port" i) with
      | none =>
        rw [hl] at hp
        cases hp
      | some value =>
        rw [hl] at hp
        dsimp only at hp
        split_ifs at hp
        exact ⟨_, _, hp⟩
    obtain ⟨a, v, hline⟩ := hline
    obtain ⟨h1, h2, h3, -, -⟩ := filterPortLine_alike hline
    have hvalid : validFilterClient r.1 r.2 = true ↔
        ordered r.1.m.dst.ports = true ∧ (r.1.m.ipproto = ipprotoTcp ∨ r.1.m.ipproto = ipprotoUdp) ∧
          (r.1.m.days.1 ≤ 6 ∧ r.1.m.days.2 ≤ 6) ∧ r.1.m.secs.1 < 24 * 60 * 60 ∧
          r.1.m.secs.2 < 24 * 60 * 60 := by
      unfold validFilterClient
      rw [h1, h3]
      simp only [BEq.rfl, Bool.true_or, Bool.true_and, Bool.and_eq_true, decide_eq_true_eq, and_true,
        decide_true, Bool.and_true]
      tauto
    dsimp only
    rw [Option.isSome_map, isSome_addClient, hvalid]
    simp

theorem protoOf_cases {s : Bytes} {n : ℕ} (h : protoOf s = some n) : n = ipprotoTcp ∨ n = ipprotoUdp := by
  unfold protoOf at h
  split_ifs at h
  · exact Or.inl (Option.some.inj h).symm
  · exact Or.inr (Option.some.inj h).symm

/-- With a single outbound port, the outbound part of an application is in order. -/
theorem validAutofwPort_single {l : AutofwLine} {app : NetconfApp} (hout : (strsep (bytes "-") l.outPort).2 = none)
    (h : autofwApp nv l = some app) : validAutofwPort app = true ↔
      ordered app.dport = true ∧ ordered app.toPorts = true ∧ extent app.dport = extent app.toPorts := by
  obtain ⟨outProto, h1, h⟩ := Option.bind_eq_some_iff.mp h
  obtain ⟨inProto, h2, h⟩ := Option.bind_eq_some_iff.mp h
  cases h
  have hrange : rangeOf l.outPort = ((rangeOf l.outPort).1, (rangeOf l.outPort).1) := by
    unfold rangeOf
    rcases hsep : strsep (bytes "-") l.outPort with ⟨start, _ | stop⟩
    · rfl
    · rw [hsep] at hout
      cases hout
  have hord : ordered (portsOf (rangeOf l.outPort)) = true := by
    rw [hrange]
    exact decide_eq_true le_rfl
  have hin : (UInt16.ofNat inProto).toNat = inProto := by
    rcases protoOf_cases h2 with rfl | rfl
    · rfl
    · rfl
  unfold validAutofwPort
  simp only [hord, hin, protoOf_cases h1, protoOf_cases h2, decide_true, Bool.and_true, Bool.and_eq_true,
    decide_eq_true_eq, Nat.cast_inj, true_and, and_assoc]

theorem isSome_convertAutofw (nv : VarMap) (i : ℕ) :
    (convertAutofw u nv i).isSome = true ↔ AutofwOk u nv i := by
  unfold convertAutofw AutofwOk
  dsimp only
  cases hl : (value? u nv (numbered "autofw_port" i)).bind autofwLine with
  | none => simp
  | some l =>
    dsimp only
    cases hout : (strsep (bytes "-") l.outPort).2 with
    | some stop =>
      simp only [Option.isSome_some, if_true, true_iff]
      intro l' app hl' hout'
      cases hl'
      rw [hout] at hout'
      cases hout'
    | none =>
      cases ha : autofwApp nv l with
      | none =>
        simp only [Option.isSome_none, Bool.false_eq_true, if_false, Option.isSome_some, true_iff]
        intro l' app hl' _ happ
        cases hl'
        rw [ha] at happ
        cases happ
      | some app =>
        have hsome : (assertValid (setAutofwPort u true nv i app)).isSome = validAutofwPort app :=
          isSome_assertValid _ _ _
        have hvalid := validAutofwPort_single hout ha
        simp only [Option.isSome_none, Bool.false_eq_true, if_false, hsome, hvalid]
        constructor
        · intro h l' app' hl' _ happ'
          cases hl'
          rw [ha] at happ'
          cases happ'
          exact h
        · intro h
          exact h l app rfl hout ha

/-! ### The stages -/

theorem nvramSafeGet_congr {name : CStr} (h : Agree look [name] nv nv') :
    nvramSafeGet nv' name = nvramSafeGet nv name := by
  unfold nvramSafeGet
  rw [show nv'.lookup name = nv.lookup name from h name List.mem_cons_self]

/-- A list that is walked word by word. -/
theorem stage_words {T : CStr → Bool} {name : CStr} {g : VarMap → Bytes → Option VarMap} {ok : Bytes → Prop}
    (hname : T name = true) (hframe : ∀ {s a s'}, g s a = some s' → Frame look T s s')
    (hok : ∀ s w, (g s w).isSome = true ↔ ok w) :
    Stage look (fun nv => ((words 1000 (nvramSafeGet nv name)).foldlM g nv).map (·.erase name)) T
      (fun nv => ∀ w ∈ words 1000 (nvramSafeGet nv name), ok w) [name] where
  frame h := frame_list hname hframe h
  isSome_iff nv := by
    rw [Option.isSome_map]
    have hstable : ∀ {s w s' w'}, True → g s w = some s' → (ok w' ↔ ok w') := fun _ _ => Iff.rfl
    exact isSome_foldlM hok hstable (List.pairwise_of_forall fun _ _ => trivial) nv
  stable h := by rw [nvramSafeGet_congr h]

theorem stage_convertForwardProto (name : CStr) {ipproto : ℕ}
    (hp : ipproto = ipprotoTcp ∨ ipproto = ipprotoUdp) :
    Stage look (convertForwardProto L u name ipproto) (touched ["forward_port"] [name])
      (fun nv => ∀ w ∈ words 1000 (nvramSafeGet nv name), ForwardOk L ipproto w) [name] :=
  stage_words (touched_of_mem List.mem_cons_self) frame_convertForward (isSome_convertForward hp)

theorem stage_convertFilterIp :
    Stage look (convertFilterIp L u) (touched ["filter_client"] [.lit "filter_ip"])
      (fun nv => ∀ w ∈ words 1000 (nvramSafeGet nv (.lit "filter_ip")), IpOk L w) [.lit "filter_ip"] :=
  stage_words (touched_of_mem List.mem_cons_self) frame_convertIp isSome_convertIp

theorem stage_convertFilterProto (name : CStr) {ipproto : ℕ}
    (hp : ipproto = ipprotoTcp ∨ ipproto = ipprotoUdp) :
    Stage look (convertFilterProto L u name ipproto) (touched ["filter_client"] [name])
      (fun nv => ∀ w ∈ words 1000 (nvramSafeGet nv name), ProtoOk L ipproto w) [name] :=
  stage_words (touched_of_mem List.mem_cons_self) frame_convertProto (isSome_convertProto hp)

/-- A numbered name begins in no other way. -/
theorem touched_numbered_eq_false {bases : List String} {names : List CStr} {base : String} {i : ℕ}
    (hbase : (0 : UInt8) ∉ bytes base)
    (hb : ∀ b ∈ bases, (bytes b).take (bytes base).length ≠ (bytes base).take (bytes b).length)
    (hn : numbered base i ∉ names) : touched bases names (numbered base i) = false := by
  unfold touched
  rw [Bool.or_eq_false_iff, List.any_eq_false]
  refine ⟨fun b hbmem hpre => hb b hbmem ?_, ?_⟩
  · rw [numbered_bytes base hbase, List.isPrefixOf_iff_prefix] at hpre
    obtain ⟨rest, hrest⟩ := hpre
    have htake := congrArg (List.take (min (bytes b).length (bytes base).length)) hrest
    rw [List.take_append_of_le_length (min_le_left _ _), List.take_append_of_le_length (min_le_right _ _)] at htake
    rw [← List.take_length (l := bytes b), ← List.take_length (l := bytes base), List.take_take, List.take_take,
      List.take_length, List.take_length, min_comm (bytes base).length]
    exact htake
  · rw [Bool.eq_false_iff]
    exact fun hc => hn (List.contains_iff_mem.mp hc)

/-- No touched name begins in `base`. -/
def Apart (bases : List String) (names : List CStr) (base : String) : Prop :=
  (0 : UInt8) ∉ bytes base ∧
    (∀ b ∈ bases, (bytes b).take (bytes base).length ≠ (bytes base).take (bytes b).length) ∧
      ∀ n ∈ names, ¬ bytes base <+: n.bytes

instance (bases : List String) (names : List CStr) (base : String) : Decidable (Apart bases names base) :=
  inferInstanceAs (Decidable (_ ∧ _))

theorem Apart.touched_eq_false {bases : List String} {names : List CStr} {base : String}
    (h : Apart bases names base) (i : ℕ) : touched bases names (numbered base i) = false := by
  obtain ⟨hbase, hb, hn⟩ := h
  apply touched_numbered_eq_false hbase hb
  intro hmem
  apply hn _ hmem
  rw [numbered_bytes base hbase]
  exact List.prefix_append ..

theorem ne_numbered {base : String} {name : CStr} (hbase : (0 : UInt8) ∉ bytes base)
    (h : ¬ bytes base <+: name.bytes) (i : ℕ) : name ≠ numbered base i := by
  rintro rfl
  apply h
  rw [numbered_bytes base hbase]
  exact List.prefix_append ..

theorem filterPort_congr {i : ℕ} (h : Agree look [numbered "filter_port" i, .lit "lan_ipaddr"] nv nv') :
    filterPort L nv' i = filterPort L nv i := by
  unfold filterPort
  rw [show nv'.lookup (numbered "filter_port" i) = nv.lookup (numbered "filter_port" i) from
    h _ List.mem_cons_self, nvramSafeGet_congr fun k hk => h k (List.mem_cons_of_mem _ hk)]

/-- Unsetting one line does not touch another. -/
theorem filterPort_other {i j : ℕ} (hne : i ≠ j) (h : convertPort L u nv i = some nv') :
    filterPort L nv' j = filterPort L nv j := by
  have hframe : Frame look (touched ["filter_client"] [numbered "filter_port" i]) nv nv' :=
    frame_convertPort List.mem_cons_self h
  apply filterPort_congr
  apply hframe.agree
  intro k hk
  rcases List.mem_pair.mp hk with rfl | rfl
  · apply touched_numbered_eq_false (by decide) (by decide)
    rw [List.mem_singleton]
    exact fun he => hne (numbered_inj (by decide) he).symm
  · unfold touched
    rw [Bool.or_eq_false_iff, Bool.eq_false_iff (b := List.contains _ _)]
    refine ⟨by decide, fun hc => ?_⟩
    exact ne_numbered (by decide) (by decide) i (List.mem_singleton.mp (List.contains_iff_mem.mp hc))

theorem stage_convertFilterPort :
    Stage look (convertFilterPort L u) (touched ["filter_client"] filterPortNames)
      (fun nv => ∀ i ∈ [1, 2, 3, 4, 5, 6], PortOk L nv i)
      ([1, 2, 3, 4, 5, 6].map (numbered "filter_port") ++ [.lit "lan_ipaddr"]) where
  frame h := frame_convertFilterPort h
  isSome_iff nv := by
    unfold convertFilterPort
    rw [Option.isSome_map]
    refine isSome_foldlM (R := fun i j => i ≠ j) isSome_convertPort ?_ (by decide) nv
    intro s i s' j hne hs
    unfold PortOk
    rw [filterPort_other hne hs]
  stable h := by
    apply forall₂_congr
    intro i hi
    unfold PortOk
    rw [filterPort_congr]
    intro k hk
    rcases List.mem_pair.mp hk with rfl | rfl
    · exact h _ (List.mem_append_left _ (List.mem_map_of_mem hi))
    · exact h _ (List.mem_append_right _ List.mem_cons_self)

theorem autofwOk_congr {i : ℕ} (h : Agree look [numbered "autofw_port" i, .lit "lan_ifname"] nv nv') :
    AutofwOk u nv' i ↔ AutofwOk u nv i := by
  have hvalue : value? u nv' (numbered "autofw_port" i) = value? u nv (numbered "autofw_port" i) := by
    unfold value?
    rw [show nv'.lookup (numbered "autofw_port" i) = nv.lookup (numbered "autofw_port" i) from
      h _ List.mem_cons_self]
  have happ : ∀ l, autofwApp nv' l = autofwApp nv l := by
    intro l
    unfold autofwApp
    rw [nvramSafeGet_congr fun k hk => h k (List.mem_cons_of_mem _ hk)]
  unfold AutofwOk
  simp only [hvalue, happ]

theorem stage_convertAutofwPort :
    Stage look (convertAutofwPort u) (touched ["autofw_port"] []) (fun nv => ∀ i ∈ List.range 10, AutofwOk u nv i)
      ((List.range 10).map (numbered "autofw_port") ++ [.lit "lan_ifname"]) where
  frame h := frame_convertAutofwPort h
  isSome_iff nv := by
    refine isSome_foldlM (R := fun i j => i ≠ j) isSome_convertAutofw ?_ List.nodup_range nv
    intro s i s' j hne hs
    have hframe : Frame look (touched [] [numbered "autofw_port" i]) s s' :=
      frame_convertAutofw (touched_of_mem List.mem_cons_self) hs
    apply autofwOk_congr
    apply hframe.agree
    intro k hk
    rcases List.mem_pair.mp hk with rfl | rfl
    · apply touched_numbered_eq_false (by decide) (by decide)
      rw [List.mem_singleton]
      exact fun he => hne (numbered_inj (by decide) he).symm
    · rw [touched, List.any_nil, Bool.false_or, Bool.eq_false_iff]
      exact fun hc => ne_numbered (by decide) (by decide) i
        (List.mem_singleton.mp (List.contains_iff_mem.mp hc))
  stable h := by
    apply forall₂_congr
    intro i hi
    apply autofwOk_congr
    intro k hk
    rcases List.mem_pair.mp hk with rfl | rfl
    · exact h _ (List.mem_append_left _ (List.mem_map_of_mem hi))
    · exact h _ (List.mem_append_right _ List.mem_cons_self)

/-- A converter without an assertion. -/
theorem stage_total {T : CStr → Bool} {g : VarMap → VarMap} (hg : ∀ nv, Frame look T nv (g nv)) :
    Stage look (fun nv => some (g nv)) T (fun _ => True) [] where
  frame h := by
    cases h
    exact hg _
  isSome_iff _ := by simp
  stable _ := Iff.rfl

/-! ### The whole conversion -/

theorem isSome_convertDeprecated (L : Libc) (u : Undef) (nv : VarMap) :
    (convertDeprecated L u nv).isSome = true ↔ Convertible L u nv := by
  have hlast : Stage look (fun nv => some (convertWsec (convertStaticRoute (convertPppoe nv))))
      (fun _ => true) (fun _ => True) [] := stage_total fun _ k hk => by cases hk
  have h9 := (stage_convertAutofwPort (u := u)).andThen hlast (by simp)
  have h8 := (stage_total fun _ => frame_convertPppoeIfname).andThen h9 (by decide)
  have h7 := (stage_total fun _ => frame_convertMaclist (.lit "wl_mac") (.lit "wl_maclist")
    (.lit "wl_macmode")).andThen h8 (by decide)
  have h6 := (stage_total fun _ => frame_convertMaclist (.lit "filter_mac") (.lit "filter_maclist")
    (.lit "filter_macmode")).andThen h7 (by decide)
  have h5 := (stage_convertFilterPort (L := L) (u := u)).andThen h6 (by decide)
  have h4 := (stage_convertFilterProto (L := L) (u := u) (.lit "filter_udp") (Or.inr rfl)).andThen h5 (by decide)
  have h3 := (stage_convertFilterProto (L := L) (u := u) (.lit "filter_tcp") (Or.inl rfl)).andThen h4 (by decide)
  have h2 := (stage_convertFilterIp (L := L) (u := u)).andThen h3 (by decide)
  have h1 := (stage_convertForwardProto (L := L) (u := u) (.lit "forward_udp") (Or.inr rfl)).andThen h2 (by decide)
  have h0 := (stage_convertForwardProto (L := L) (u := u) (.lit "forward_tcp") (Or.inl rfl)).andThen h1 (by decide)
  have hall := h0.isSome_iff nv
  simp only [true_and, and_true] at hall
  exact hall

/-- A list of variables. -/
def vars (l : List (String × String)) : VarMap :=
  l.foldl (fun nv v => nv.insert (cstr (bytes v.1)) (cstr (bytes v.2))) ∅

end Nvparse
end Router
