/-
# What the conversion keeps

A converter puts what it has read at the first index that is free, so it adds to
what the entries say and overwrites none (`Table.Extends`). What it adds is what is
read back later: for a client filter, the range from the start to the end, or all
sources if neither address nor mask is set.
-/
import RouterFirmware.Nvparse.Entries
import RouterFirmware.Nvparse.Idempotent

namespace Router
namespace Nvparse

open CMem CText Bits Netconf Stages
open Nvram (VarMap)

variable {L : Libc} {u : Undef} {nv nv' : VarMap}

/-! ### Port forwards -/

/-- What is added for a word of `forward_tcp` or `forward_udp`. -/
def wordForwards (L : Libc) (ipproto : ℕ) (word : Bytes) : Set Forward :=
  {x | ∃ nat, forwardWord L ipproto word = some nat ∧ x ∈ forwarded nat}

theorem forwarded_congr {r nat : NetconfNat} (h : SameForward r nat) : forwarded r = forwarded nat := by
  obtain ⟨hproto, hwan, hip, hlan, hflags, -⟩ := h
  unfold forwarded
  rw [hproto, hwan, hip, hlan, hflags]

/-- Nothing describes a record that was made of a word. -/
theorem forwardWord_desc {ipproto : ℕ} {word : Bytes} {nat : NetconfNat} (h : forwardWord L ipproto word = some nat) :
    nat.desc = .copy [] := by
  obtain ⟨_, -, h⟩ := Option.bind_eq_some_iff.mp h
  obtain ⟨_, -, h⟩ := Option.bind_eq_some_iff.mp h
  cases h
  rfl

theorem convertForward_extends {ipproto : ℕ} {word : Bytes} (h : convertForward L u ipproto nv word = some nv') :
    (forwardTable L u).Extends (wordForwards L ipproto word) nv nv' := by
  unfold convertForward at h
  cases hw : forwardWord L ipproto word with
  | none =>
    rw [hw] at h
    cases h
    have hnone : wordForwards L ipproto word = ∅ := by simp [wordForwards, hw]
    rw [hnone]
    exact .refl
  | some nat =>
    rw [hw] at h
    obtain ⟨hvalid, rfl⟩ := assertValid_eq_some.mp h
    have hfree : getForwardPort L u nv (freeFrom nv (forwardUsed L u nv) 0) = none := by
      have hunused : ¬ forwardUsed L u nv (freeFrom nv (forwardUsed L u nv) 0) = true :=
        Bool.eq_false_iff.mp (forwardUsed_free L u nv 0)
      exact Option.not_isSome_iff_eq_none.mp hunused
    generalize freeFrom nv (forwardUsed L u nv) 0 = j at hfree ⊢
    obtain ⟨desc, r, hdesc, hget, hrdesc, halike⟩ := getForwardPort_set (L := L) (u := u) hvalid nv j
    have hpct : (37 : UInt8) ∉ nat.desc.str.bytes := by
      rw [forwardWord_desc hw]
      decide
    have hadds : (forwardTable L u).entry
        (nv.insert (numbered "forward_port" j) (cstr (putAll 1000 (forwardPieces u nat)))) j =
        wordForwards L ipproto word := by
      ext x
      simp [Table.entry, forwardTable, hget, wordForwards, hw, forwarded_congr (halike.same (hrdesc.trans (hdesc.same hpct)))]
    rw [← hadds]
    apply Table.Extends.of_unused hfree
    · intro i hij
      exact Finmap.lookup_insert_of_ne _ fun he => hij (numbered_inj (by decide) he)
    · exact fun k hk => absurd hk List.not_mem_nil

/-! ### Client filters -/

/-- Neither an address nor a mask is set. -/
def NoAddrs (start stop : NetconfFilter) : Prop :=
  start.m.src.ipaddr = 0 ∧ stop.m.src.ipaddr = 0 ∧ start.m.src.netmask = 0 ∧ stop.m.src.netmask = 0

/-- What is read of a pair that was set. -/
def stored (start stop : NetconfFilter) : Set Packet :=
  {x | x.Of start ∧ (NoAddrs start stop ∨
    start.m.src.ipaddr.toNat ≤ x.source.toNat ∧ x.source.toNat ≤ stop.m.src.ipaddr.toNat)}

theorem Packet.of_congr {x : Packet} {r start : NetconfFilter} {d : Desc} (h : SameClient r start d) :
    x.Of r ↔ x.Of start := by
  unfold Packet.Of
  rw [h.flags, h.ipproto, h.ports, h.days, h.secs]

/-- Both records that are read of a line have the mask. -/
theorem clientFilters_mask {value : Bytes} {r : NetconfFilter × NetconfFilter}
    (h : clientFilters L nv value = some r) : r.1.m.src.netmask = r.2.m.src.netmask := by
  unfold clientFilters at h
  iterate 6 obtain ⟨_, -, h⟩ := Option.bind_eq_some_iff.mp h
  cases h
  rfl

/-- A change elsewhere. -/
theorem extends_client {T : CStr → Bool} (h : Frame look T nv nv')
    (hname : ∀ i, T (numbered "filter_client" i) = false) (hif : T (.lit "lan_ifname") = false) :
    (clientTable L u).Extends ∅ nv nv' := by
  apply Table.Extends.of_frame h hname
  intro k hk
  rwa [List.mem_singleton.mp hk]

/-- An index that is free holds no valid pair: the end of a valid one is valid by itself. -/
theorem getFilterClient_of_free {i : ℕ} (h : clientUsed L u nv i = false) : getFilterClient L u nv i = none := by
  rw [← Option.not_isSome_iff_eq_none]
  intro hsome
  obtain ⟨r, hr⟩ := Option.isSome_iff_exists.mp hsome
  obtain ⟨value, hvalue, hr⟩ := Option.bind_eq_some_iff.mp hr
  obtain ⟨r', hr', hr⟩ := Option.bind_eq_some_iff.mp hr
  split_ifs at hr with hvalid
  cases hr
  have hmask := clientFilters_mask hr'
  have hself : validFilterClient r.2 r.2 = true := by
    unfold validFilterClient at hvalid ⊢
    simp only [Bool.and_eq_true, Bool.or_eq_true, beq_iff_eq, decide_eq_true_eq, and_true, le_refl] at hvalid ⊢
    obtain ⟨⟨⟨⟨⟨⟨haddrs, hord⟩, hports⟩, hproto⟩, hprotos⟩, hday1, hday2, hdays⟩, hsec1, hsec2, hsecs⟩ := hvalid
    rw [hmask] at haddrs
    rw [hports] at hord
    rw [hprotos] at hproto
    rw [hdays] at hday1 hday2
    rw [hsecs] at hsec1 hsec2
    exact ⟨⟨⟨⟨haddrs.imp id fun h => h.1.1, hord⟩, hproto⟩, hday1, hday2⟩, hsec1, hsec2⟩
  unfold clientUsed at h
  rw [hvalue, Option.bind_some, hr'] at h
  rw [Option.any_some, hself] at h
  cases h

theorem addClient_extends {i j : ℕ} {start stop : NetconfFilter} (h : addClient L u nv i start stop = some (nv', j)) :
    (clientTable L u).Extends (stored start stop) nv nv' := by
  unfold addClient at h
  obtain ⟨nv₁, h1, h2⟩ := Option.map_eq_some_iff.mp h
  cases h2
  obtain ⟨hvalid, rfl⟩ := assertValid_eq_some.mp h1
  have hfree := getFilterClient_of_free (clientUsed_free L u nv i)
  generalize freeFrom nv (clientUsed L u nv) i = j at hfree ⊢
  obtain ⟨desc, r, hdesc, hr, hread, hs1, hs2⟩ := clientFilters_set (L := L) (u := u) hvalid nv j
  have hrvalid := validFilterClient_read hvalid hread hs1 hs2
  obtain ⟨hip1, hip2, -, hmask⟩ := hread
  obtain ⟨value, hvalue, hclient⟩ := Option.bind_eq_some_iff.mp hr
  have hget : getFilterClient L u
      (nv.insert (numbered "filter_client" j) (cstr (putAll 1000 (clientPieces u start stop)))) j =
      if validFilterClient r.1 r.2 = true then some r else none := by
    unfold getFilterClient
    simp only [Option.bind_eq_bind, hvalue, hclient, Option.bind_some]
  have hadds : (clientTable L u).entry
      (nv.insert (numbered "filter_client" j) (cstr (putAll 1000 (clientPieces u start stop)))) j =
      stored start stop := by
    ext x
    have hentry : x ∈ (clientTable L u).entry
        (nv.insert (numbered "filter_client" j) (cstr (putAll 1000 (clientPieces u start stop)))) j ↔
        validFilterClient r.1 r.2 = true ∧ x ∈ filtered r := by
      show (∃ r', getFilterClient L u _ j = some r' ∧ x ∈ filtered r') ↔ _
      rw [hget]
      split_ifs with hv
      · simp [hv]
      · simp [hv]
    rw [hentry, hrvalid]
    unfold filtered stored clientSources
    simp only [Set.mem_ofPred_eq, Packet.of_congr hs1, hip1, hip2, hmask]
    by_cases hno : NoAddrs start stop
    · have hno' := hno
      unfold NoAddrs at hno'
      simp [hno, hno']
    · have hno' := hno
      unfold NoAddrs at hno'
      simp only [hno, if_neg hno', false_or]
      constructor
      · rintro ⟨-, hof, hx⟩
        exact ⟨hof, hx.resolve_left (by decide)⟩
      · rintro ⟨hof, hx⟩
        exact ⟨Or.inr (hx.1.trans hx.2), hof, Or.inr hx⟩
  rw [← hadds]
  apply Table.Extends.of_unused hfree
  · intro i hij
    exact Finmap.lookup_insert_of_ne _ fun he => hij (numbered_inj (by decide) he)
  · intro k hk
    cases List.mem_singleton.mp hk
    exact Finmap.lookup_insert_of_ne _ (ne_numbered (by decide) (by decide) _)

/-! ### Lists -/

/-- The words of a variable. -/
def wordsOf (nv : VarMap) (name : CStr) : List Bytes := words 1000 (nvramSafeGet nv name)

/-- A list that is walked word by word, and then unset. -/
theorem extends_words {ρ β : Type*} {E : Table look ℕ ρ β} {name : CStr} {g : VarMap → Bytes → Option VarMap}
    {B : Bytes → Set β} (hstep : ∀ {s w s'}, g s w = some s' → E.Extends (B w) s s')
    (hname : ∀ i, touched [] [name] (E.name i) = false) (hcommon : ∀ k ∈ E.common, touched [] [name] k = false)
    (h : ((wordsOf nv name).foldlM g nv).map (·.erase name) = some nv') :
    E.Extends {x | ∃ w ∈ wordsOf nv name, x ∈ B w} nv nv' := by
  obtain ⟨nv₁, h1, rfl⟩ := Option.map_eq_some_iff.mp h
  have hloop := Table.Extends.foldlM (B := fun _ w => B w) hstep (R := fun _ _ => True) (fun _ _ => rfl)
    (List.pairwise_of_forall fun _ _ => trivial) h1
  exact hloop.trans_same (.of_frame (frame_erase (touched_of_mem List.mem_cons_self)) hname hcommon)

/-- What is added for a word of `filter_ip`. -/
def wordIps (L : Libc) (word : Bytes) : Set Packet :=
  {x | ∃ r, filterIpWord L word = some r ∧
    (x ∈ stored (withProto r.1 ipprotoTcp) (withProto r.2 ipprotoTcp) ∨
      x ∈ stored (withProto r.1 ipprotoUdp) (withProto r.2 ipprotoUdp))}

theorem convertIp_extends {word : Bytes} (h : convertIp L u nv word = some nv') :
    (clientTable L u).Extends (wordIps L word) nv nv' := by
  unfold convertIp at h
  cases hw : filterIpWord L word with
  | none =>
    rw [hw] at h
    cases h
    have hnone : wordIps L word = ∅ := by simp [wordIps, hw]
    rw [hnone]
    exact .refl
  | some r =>
    rw [hw] at h
    obtain ⟨⟨nv₁, i⟩, h1, h⟩ := Option.bind_eq_some_iff.mp h
    obtain ⟨⟨nv₂, j⟩, h2, h⟩ := Option.bind_eq_some_iff.mp h
    cases h
    have hadds : wordIps L word = stored (withProto r.1 ipprotoTcp) (withProto r.2 ipprotoTcp) ∪
        stored (withProto r.1 ipprotoUdp) (withProto r.2 ipprotoUdp) := by
      ext x
      simp [wordIps, hw]
    rw [hadds]
    exact (addClient_extends h1).trans (addClient_extends h2)

/-- What is added for a word of `filter_tcp` or `filter_udp`. -/
def wordProtos (L : Libc) (ipproto : ℕ) (word : Bytes) : Set Packet :=
  {x | ∃ start, filterProtoWord L ipproto word = some start ∧ x ∈ stored start start}

theorem convertProto_extends {ipproto : ℕ} {word : Bytes} (h : convertProto L u ipproto nv word = some nv') :
    (clientTable L u).Extends (wordProtos L ipproto word) nv nv' := by
  unfold convertProto at h
  cases hw : filterProtoWord L ipproto word with
  | none =>
    rw [hw] at h
    cases h
    have hnone : wordProtos L ipproto word = ∅ := by simp [wordProtos, hw]
    rw [hnone]
    exact .refl
  | some start =>
    rw [hw] at h
    obtain ⟨⟨nv₁, i⟩, h1, h⟩ := Option.map_eq_some_iff.mp h
    cases h
    have hadds : wordProtos L ipproto word = stored start start := by
      ext x
      simp [wordProtos, hw]
    rw [hadds]
    exact addClient_extends h1

/-- What is added for a line of `filter_port`. -/
def linePorts (L : Libc) (nv : VarMap) (i : ℕ) : Set Packet :=
  {x | ∃ r, filterPort L nv i = some r ∧ x ∈ stored r.1 r.2}

theorem convertPort_extends {i : ℕ} (h : convertPort L u nv i = some nv') :
    (clientTable L u).Extends (linePorts L nv i) nv nv' := by
  have herase : ∀ s : VarMap, (clientTable L u).Extends ∅ s (s.erase (numbered "filter_port" i)) := by
    intro s
    have hframe : Frame look (touched ["filter_port"] []) s (s.erase (numbered "filter_port" i)) :=
      frame_erase (touched_numbered List.mem_cons_self (by decide) i)
    exact extends_client hframe (Apart.touched_eq_false (by decide)) (by decide)
  unfold convertPort at h
  cases hp : filterPort L nv i with
  | none =>
    rw [hp] at h
    cases h
    have hnone : linePorts L nv i = ∅ := by simp [linePorts, hp]
    rw [hnone]
    exact herase nv
  | some r =>
    rw [hp] at h
    obtain ⟨⟨nv₁, j⟩, h1, h⟩ := Option.map_eq_some_iff.mp h
    cases h
    have hadds : linePorts L nv i = stored r.1 r.2 := by
      ext x
      simp [linePorts, hp]
    rw [hadds]
    exact (addClient_extends h1).trans_same (herase nv₁)

theorem convertFilterPort_extends (h : convertFilterPort L u nv = some nv') :
    (clientTable L u).Extends {x | ∃ i ∈ [1, 2, 3, 4, 5, 6], x ∈ linePorts L nv i} nv nv' := by
  obtain ⟨nv₁, h1, rfl⟩ := Option.map_eq_some_iff.mp h
  have hstable : ∀ {s i s' j}, i ≠ j → convertPort L u s i = some s' → linePorts L s' j = linePorts L s j := by
    intro s i s' j hne hs
    unfold linePorts
    rw [filterPort_other hne hs]
  have hdistinct : [1, 2, 3, 4, 5, 6].Pairwise fun i j : ℕ => i ≠ j := by decide
  have hloop := Table.Extends.foldlM (E := clientTable L u) (B := linePorts L) (g := convertPort L u)
    (R := fun i j => i ≠ j) convertPort_extends hstable hdistinct h1
  have hframe : Frame look (touched [] [.lit "filter_port"]) nv₁ (nv₁.erase (.lit "filter_port")) :=
    frame_erase (touched_of_mem List.mem_cons_self)
  exact hloop.trans_same
    (extends_client hframe (Apart.touched_eq_false (by decide)) (by decide))

/-! ### Applications -/

theorem triggered_congr {r app : NetconfApp} (h : AppAlike r app) : triggered r = triggered app := by
  obtain ⟨hproto, hout, hrel, hin, hto, hflags⟩ := h
  unfold triggered
  rw [hproto, hout, hrel, hin, hto, hflags]

theorem getAutofwPort_eq (i : ℕ) : getAutofwPort u nv i =
    ((value? u nv (numbered "autofw_port" i)).bind autofwLine).bind fun l =>
      (autofwApp nv l).bind fun app => if validAutofwPort app then some app else none := by
  unfold getAutofwPort
  rw [Option.bind_assoc]
  rfl

theorem getAutofwPort_of_none {i : ℕ} (h : look nv (numbered "autofw_port" i) = none) : getAutofwPort u nv i = none := by
  unfold getAutofwPort value?
  rw [show nv.lookup (numbered "autofw_port" i) = none from h]
  rfl

/-- **An application is converted in its place**: it says what it said. -/
theorem convertAutofw_entry {i : ℕ} (h : convertAutofw u nv i = some nv') :
    (autofwTable u).entry nv' i = (autofwTable u).entry nv i := by
  have hentry : ∀ {s s' : VarMap}, getAutofwPort u s i = none → getAutofwPort u s' i = none →
      (autofwTable u).entry s' i = (autofwTable u).entry s i := by
    intro s s' hs hs'
    ext x
    simp [Table.entry, autofwTable, hs, hs']
  have herase : getAutofwPort u (nv.erase (numbered "autofw_port" i)) i = none :=
    getAutofwPort_of_none (Finmap.lookup_erase ..)
  unfold convertAutofw at h
  dsimp only at h
  have hget : getAutofwPort u nv i = _ := getAutofwPort_eq i
  cases hl : (value? u nv (numbered "autofw_port" i)).bind autofwLine with
  | none =>
    rw [hl] at h hget
    cases h
    exact hentry hget herase
  | some l =>
    rw [hl] at h hget
    dsimp only at h
    split_ifs at h with hnew
    · cases h
      rfl
    · cases ha : autofwApp nv l with
      | none =>
        rw [ha] at h
        cases h
        rw [Option.bind_some, ha] at hget
        exact hentry hget herase
      | some app =>
        rw [ha] at h
        obtain ⟨hvalid, rfl⟩ := assertValid_eq_some.mp h
        rw [Option.bind_some, ha, Option.bind_some, if_pos hvalid] at hget
        obtain ⟨desc, r, -, hget', -, halike⟩ := getAutofwPort_set (u := u) hvalid nv i
        ext x
        simp [Table.entry, autofwTable, hget, hget', triggered_congr halike]

/-- A line with a range of outbound ports, which is new. -/
def Ranged (u : Undef) (nv : VarMap) (i : ℕ) : Prop :=
  ∃ l, (value? u nv (numbered "autofw_port" i)).bind autofwLine = some l ∧
    (strsep (bytes "-") l.outPort).2.isSome = true

theorem ranged_congr {i : ℕ} (h : look nv' (numbered "autofw_port" i) = look nv (numbered "autofw_port" i))
    (hr : Ranged u nv i) : Ranged u nv' i := by
  unfold Ranged at hr ⊢
  rwa [value?_congr h]

/-- Each application says what it said, and new lines are the same. -/
structure AppsKept (u : Undef) (nv nv' : VarMap) : Prop where
  entry : ∀ i, (autofwTable u).entry nv' i = (autofwTable u).entry nv i
  ranged : ∀ i, Ranged u nv i → look nv' (numbered "autofw_port" i) = look nv (numbered "autofw_port" i)

theorem AppsKept.trans {nv'' : VarMap} (h : AppsKept u nv nv') (h' : AppsKept u nv' nv'') : AppsKept u nv nv'' where
  entry i := (h'.entry i).trans (h.entry i)
  ranged i hi := (h'.ranged i (ranged_congr (h.ranged i hi) hi)).trans (h.ranged i hi)

theorem AppsKept.of_frame {T : CStr → Bool} (h : Frame look T nv nv')
    (hname : ∀ i, T (numbered "autofw_port" i) = false) (hif : T (.lit "lan_ifname") = false) :
    AppsKept u nv nv' where
  entry i := by
    apply Table.entry_congr (h _ (hname i))
    apply h.agree
    intro k hk
    rwa [List.mem_singleton.mp hk]
  ranged i _ := h _ (hname i)

theorem convertAutofw_kept {i : ℕ} (h : convertAutofw u nv i = some nv') : AppsKept u nv nv' := by
  have hframe : Frame look (touched [] [numbered "autofw_port" i]) nv nv' :=
    frame_convertAutofw (touched_of_mem List.mem_cons_self) h
  have hother : ∀ j, j ≠ i → look nv' (numbered "autofw_port" j) = look nv (numbered "autofw_port" j) := by
    intro j hj
    apply hframe
    apply touched_numbered_eq_false (by decide) (by decide)
    rw [List.mem_singleton]
    exact fun he => hj (numbered_inj (by decide) he)
  have hif : look nv' (.lit "lan_ifname") = look nv (.lit "lan_ifname") := by
    apply hframe
    unfold touched
    rw [Bool.or_eq_false_iff, Bool.eq_false_iff (b := List.contains _ _)]
    refine ⟨rfl, fun hc => ?_⟩
    exact ne_numbered (by decide) (by decide) i (List.mem_singleton.mp (List.contains_iff_mem.mp hc))
  refine ⟨fun j => ?_, fun j hj => ?_⟩
  · by_cases hji : j = i
    · rw [hji]
      exact convertAutofw_entry h
    · apply Table.entry_congr (hother j hji)
      intro k hk
      rwa [List.mem_singleton.mp hk]
  · by_cases hji : j = i
    · have hidle := convertAutofw_idle (Or.inr (hji ▸ hj))
      rw [h] at hidle
      rw [Option.some.inj hidle]
    · exact hother j hji

theorem convertAutofwPort_kept (h : convertAutofwPort u nv = some nv') : AppsKept u nv nv' :=
  foldlM_inv (I := AppsKept u) (fun _ => ⟨fun _ => rfl, fun _ _ => rfl⟩) AppsKept.trans convertAutofw_kept h

/-! ### The whole conversion -/

/-- What the conversion adds to the port forwards. -/
def addedForwards (L : Libc) (nv : VarMap) : Set Forward :=
  {x | ∃ w ∈ wordsOf nv (.lit "forward_tcp"), x ∈ wordForwards L ipprotoTcp w} ∪
    {x | ∃ w ∈ wordsOf nv (.lit "forward_udp"), x ∈ wordForwards L ipprotoUdp w}

/-- What the conversion adds to the client filters. -/
def addedFilters (L : Libc) (nv : VarMap) : Set Packet :=
  {x | ∃ w ∈ wordsOf nv (.lit "filter_ip"), x ∈ wordIps L w} ∪
    {x | ∃ w ∈ wordsOf nv (.lit "filter_tcp"), x ∈ wordProtos L ipprotoTcp w} ∪
    {x | ∃ w ∈ wordsOf nv (.lit "filter_udp"), x ∈ wordProtos L ipprotoUdp w} ∪
    {x | ∃ i ∈ [1, 2, 3, 4, 5, 6], x ∈ linePorts L nv i}

/-- The variables of the converters between the filters and the applications. -/
def listNames : List CStr :=
  [.lit "filter_mac", .lit "filter_maclist", .lit "filter_macmode", .lit "wl_mac", .lit "wl_maclist",
    .lit "wl_macmode", .lit "wan_ifname", .lit "pppoe_ifname"]

/-- What the last converters touch. -/
def restTouched (name : CStr) : Bool :=
  touched [] (pppoeVars ++ [.lit "lan_route", .lit "wan_route", .lit "static_route"]) name || wlTouched name

theorem touched_mono {bases : List String} {names names' : List CStr} (h : names ⊆ names') (name : CStr)
    (ht : touched bases names name = true) : touched bases names' name = true := by
  unfold touched at ht ⊢
  rw [Bool.or_eq_true] at ht ⊢
  exact ht.imp id fun hc => List.contains_iff_mem.mpr (h (List.contains_iff_mem.mp hc))

theorem frame_lists : Frame look (touched [] listNames) nv
    (convertPppoeIfname (convertMaclist (.lit "wl_mac") (.lit "wl_maclist") (.lit "wl_macmode")
      (convertMaclist (.lit "filter_mac") (.lit "filter_maclist") (.lit "filter_macmode") nv))) := by
  refine Frame.trans ?_ (frame_convertPppoeIfname.mono (touched_mono (by decide)))
  refine Frame.trans ?_ ((frame_convertMaclist _ _ _).mono (touched_mono (by decide)))
  exact (frame_convertMaclist _ _ _).mono (touched_mono (by decide))

theorem frame_rest : Frame look restTouched nv (convertWsec (convertStaticRoute (convertPppoe nv))) := by
  have hleft : ∀ {names : List CStr}, names ⊆ pppoeVars ++ [.lit "lan_route", .lit "wan_route", .lit "static_route"] →
      ∀ k, touched [] names k = true → restTouched k = true := by
    intro names hsub k hk
    unfold restTouched
    rw [touched_mono hsub k hk, Bool.true_or]
  refine Frame.trans ?_ (frame_convertWsec.mono fun k hk => ?_)
  · exact (frame_convertPppoe.mono (hleft (List.subset_append_left _ _))).trans
      (frame_convertStaticRoute.mono (hleft (by decide)))
  · unfold restTouched
    rw [hk, Bool.or_true]

theorem wlTouched_numbered {base : String} (hbase : (0 : UInt8) ∉ bytes base)
    (hwl : (bytes base).take 2 ≠ bytes "wl") (hlen : 2 ≤ (bytes base).length) (i : ℕ) :
    wlTouched (numbered base i) = false := by
  unfold wlTouched
  rw [Bool.and_eq_false_iff]
  refine Or.inl (Bool.eq_false_iff.mpr fun hpre => hwl ?_)
  rw [numbered_bytes base hbase, List.isPrefixOf_iff_prefix] at hpre
  have htake := List.prefix_iff_eq_take.mp hpre
  rw [show (bytes "wl").length = 2 from rfl, List.take_append_of_le_length hlen] at htake
  exact htake.symm

theorem restTouched_numbered {base : String}
    (hrest : Apart [] (pppoeVars ++ [.lit "lan_route", .lit "wan_route", .lit "static_route"]) base)
    (hwl : (bytes base).take 2 ≠ bytes "wl") (hlen : 2 ≤ (bytes base).length) (i : ℕ) :
    restTouched (numbered base i) = false := by
  unfold restTouched
  rw [hrest.touched_eq_false, wlTouched_numbered hrest.1 hwl hlen, Bool.or_false]

theorem wordsOf_congr {T : CStr → Bool} {name : CStr} (h : Frame look T nv nv') (hname : T name = false) :
    wordsOf nv' name = wordsOf nv name := by
  unfold wordsOf
  rw [nvramSafeGet_congr (h.agree fun k hk => by rwa [List.mem_singleton.mp hk])]

/-- A change elsewhere. -/
theorem extends_forward {T : CStr → Bool} (h : Frame look T nv nv')
    (hname : ∀ i, T (numbered "forward_port" i) = false) : (forwardTable L u).Extends ∅ nv nv' :=
  .of_frame h hname fun _ hk => absurd hk List.not_mem_nil

theorem convertForwardProto_extends {name : CStr} {ipproto : ℕ} (hname : ¬ bytes "forward_port" <+: name.bytes)
    (h : convertForwardProto L u name ipproto nv = some nv') :
    (forwardTable L u).Extends {x | ∃ w ∈ wordsOf nv name, x ∈ wordForwards L ipproto w} nv nv' := by
  refine extends_words (g := convertForward L u ipproto) (B := wordForwards L ipproto) convertForward_extends ?_ ?_ h
  · exact Apart.touched_eq_false ⟨by decide, by decide, fun n hn => by rwa [List.mem_singleton.mp hn]⟩
  · exact fun k hk => absurd hk List.not_mem_nil

/-- The list itself is neither a client filter nor the interface name. -/
theorem extends_clientWords {name : CStr} {g : VarMap → Bytes → Option VarMap} {B : Bytes → Set Packet}
    (hstep : ∀ {s w s'}, g s w = some s' → (clientTable L u).Extends (B w) s s')
    (hname : ¬ bytes "filter_client" <+: name.bytes) (hif : touched [] [name] (.lit "lan_ifname") = false)
    (h : ((wordsOf nv name).foldlM g nv).map (·.erase name) = some nv') :
    (clientTable L u).Extends {x | ∃ w ∈ wordsOf nv name, x ∈ B w} nv nv' := by
  refine extends_words (g := g) (B := B) hstep ?_ ?_ h
  · exact Apart.touched_eq_false ⟨by decide, by decide, fun n hn => by rwa [List.mem_singleton.mp hn]⟩
  · intro k hk
    rwa [List.mem_singleton.mp hk]

theorem convertFilterIp_extends (h : convertFilterIp L u nv = some nv') :
    (clientTable L u).Extends {x | ∃ w ∈ wordsOf nv (.lit "filter_ip"), x ∈ wordIps L w} nv nv' :=
  extends_clientWords (g := convertIp L u) (B := wordIps L) convertIp_extends (by decide) (by decide) h

theorem convertFilterProto_extends {name : CStr} {ipproto : ℕ} (hname : ¬ bytes "filter_client" <+: name.bytes)
    (hif : touched [] [name] (.lit "lan_ifname") = false) (h : convertFilterProto L u name ipproto nv = some nv') :
    (clientTable L u).Extends {x | ∃ w ∈ wordsOf nv name, x ∈ wordProtos L ipproto w} nv nv' :=
  extends_clientWords (g := convertProto L u ipproto) (B := wordProtos L ipproto) convertProto_extends hname hif h

/-- The stores between the converters, and what those without an assertion touch. -/
theorem convertDeprecated_eq_some (h : convertDeprecated L u nv = some nv') :
    ∃ nv₁ nv₂ nv₃ nv₄ nv₅ nv₆ nv₇ nv₈, convertForwardProto L u (.lit "forward_tcp") ipprotoTcp nv = some nv₁ ∧
      convertForwardProto L u (.lit "forward_udp") ipprotoUdp nv₁ = some nv₂ ∧ convertFilterIp L u nv₂ = some nv₃ ∧
      convertFilterProto L u (.lit "filter_tcp") ipprotoTcp nv₃ = some nv₄ ∧
      convertFilterProto L u (.lit "filter_udp") ipprotoUdp nv₄ = some nv₅ ∧ convertFilterPort L u nv₅ = some nv₆ ∧
      Frame look (touched [] listNames) nv₆ nv₇ ∧ convertAutofwPort u nv₇ = some nv₈ ∧
      Frame look restTouched nv₈ nv' := by
  obtain ⟨nv₁, h1, h⟩ := Option.bind_eq_some_iff.mp h
  obtain ⟨nv₂, h2, h⟩ := Option.bind_eq_some_iff.mp h
  obtain ⟨nv₃, h3, h⟩ := Option.bind_eq_some_iff.mp h
  obtain ⟨nv₄, h4, h⟩ := Option.bind_eq_some_iff.mp h
  obtain ⟨nv₅, h5, h⟩ := Option.bind_eq_some_iff.mp h
  obtain ⟨nv₆, h6, h⟩ := Option.bind_eq_some_iff.mp h
  obtain ⟨nv₈, h8, h⟩ := Option.bind_eq_some_iff.mp h
  obtain rfl := Option.some.inj h
  exact ⟨nv₁, nv₂, nv₃, nv₄, nv₅, nv₆, _, nv₈, h1, h2, h3, h4, h5, h6, frame_lists, h8, frame_rest⟩

/-- **The conversion adds port forwards** to those there are. -/
theorem convertDeprecated_forwards (h : convertDeprecated L u nv = some nv') :
    (forwardTable L u).Extends (addedForwards L nv) nv nv' := by
  obtain ⟨nv₁, nv₂, nv₃, nv₄, nv₅, nv₆, nv₇, nv₈, h1, h2, h3, h4, h5, h6, h7, h8, h9⟩ := convertDeprecated_eq_some h
  have e1 := convertForwardProto_extends (by decide) h1
  have e2 := convertForwardProto_extends (by decide) h2
  rw [wordsOf_congr (frame_convertForwardProto h1) (by decide)] at e2
  have e3 := extends_forward (L := L) (u := u) (frame_convertFilterIp h3)
    (Apart.touched_eq_false (by decide))
  have e4 := extends_forward (L := L) (u := u) (frame_convertFilterProto h4)
    (Apart.touched_eq_false (by decide))
  have e5 := extends_forward (L := L) (u := u) (frame_convertFilterProto h5)
    (Apart.touched_eq_false (by decide))
  have e6 := extends_forward (L := L) (u := u) (frame_convertFilterPort h6)
    (Apart.touched_eq_false (by decide))
  have e7 := extends_forward (L := L) (u := u) h7 (Apart.touched_eq_false (by decide))
  have e8 := extends_forward (L := L) (u := u) (frame_convertAutofwPort h8)
    (Apart.touched_eq_false (by decide))
  have e9 := extends_forward (L := L) (u := u) h9
    (restTouched_numbered (by decide) (by decide) (by decide))
  exact (e1.trans e2).trans_same (e3.trans_same (e4.trans_same (e5.trans_same (e6.trans_same
    (e7.trans_same (e8.trans_same e9))))))

/-- **The conversion adds client filters** to those there are. -/
theorem convertDeprecated_filters (h : convertDeprecated L u nv = some nv') :
    (clientTable L u).Extends (addedFilters L nv) nv nv' := by
  obtain ⟨nv₁, nv₂, nv₃, nv₄, nv₅, nv₆, nv₇, nv₈, h1, h2, h3, h4, h5, h6, h7, h8, h9⟩ := convertDeprecated_eq_some h
  have f2 := (frame_convertForwardProto h1).andThen (frame_convertForwardProto h2)
  have f3 := f2.andThen (frame_convertFilterIp h3)
  have f4 := f3.andThen (frame_convertFilterProto h4)
  have f5 := f4.andThen (frame_convertFilterProto h5)
  have e1 := extends_client (L := L) (u := u) (frame_convertForwardProto h1)
    (Apart.touched_eq_false (by decide)) (by decide)
  have e2 := extends_client (L := L) (u := u) (frame_convertForwardProto h2)
    (Apart.touched_eq_false (by decide)) (by decide)
  -- each list is read as it was before the conversion
  have e3 := convertFilterIp_extends h3
  rw [wordsOf_congr f2 (by decide)] at e3
  have e4 := convertFilterProto_extends (by decide) (by decide) h4
  rw [wordsOf_congr f3 (by decide)] at e4
  have e5 := convertFilterProto_extends (by decide) (by decide) h5
  rw [wordsOf_congr f4 (by decide)] at e5
  have e6 := convertFilterPort_extends h6
  have hlines : {x | ∃ i ∈ [1, 2, 3, 4, 5, 6], x ∈ linePorts L nv₅ i} =
      {x | ∃ i ∈ [1, 2, 3, 4, 5, 6], x ∈ linePorts L nv i} := by
    ext x
    refine exists_congr fun i => and_congr_right fun hi => ?_
    unfold linePorts
    rw [filterPort_congr (f5.agree (by revert i; decide))]
  rw [hlines] at e6
  have e7 := extends_client (L := L) (u := u) h7
    (Apart.touched_eq_false (by decide)) (by decide)
  have e8 := extends_client (L := L) (u := u) (frame_convertAutofwPort h8)
    (Apart.touched_eq_false (by decide)) (by decide)
  have e9 := extends_client (L := L) (u := u) h9
    (restTouched_numbered (by decide) (by decide) (by decide)) (by decide)
  exact (e1.trans_same e2).same_trans ((((e3.trans e4).trans e5).trans e6).trans_same
    (e7.trans_same (e8.trans_same e9)))

/-- **The conversion keeps applications.** -/
theorem convertDeprecated_apps (h : convertDeprecated L u nv = some nv') : AppsKept u nv nv' := by
  obtain ⟨nv₁, nv₂, nv₃, nv₄, nv₅, nv₆, nv₇, nv₈, h1, h2, h3, h4, h5, h6, h7, h8, h9⟩ := convertDeprecated_eq_some h
  have e1 := AppsKept.of_frame (u := u) (frame_convertForwardProto h1)
    (Apart.touched_eq_false (by decide)) (by decide)
  have e2 := AppsKept.of_frame (u := u) (frame_convertForwardProto h2)
    (Apart.touched_eq_false (by decide)) (by decide)
  have e3 := AppsKept.of_frame (u := u) (frame_convertFilterIp h3)
    (Apart.touched_eq_false (by decide)) (by decide)
  have e4 := AppsKept.of_frame (u := u) (frame_convertFilterProto h4)
    (Apart.touched_eq_false (by decide)) (by decide)
  have e5 := AppsKept.of_frame (u := u) (frame_convertFilterProto h5)
    (Apart.touched_eq_false (by decide)) (by decide)
  have e6 := AppsKept.of_frame (u := u) (frame_convertFilterPort h6)
    (Apart.touched_eq_false (by decide)) (by decide)
  have e7 := AppsKept.of_frame (u := u) h7
    (Apart.touched_eq_false (by decide)) (by decide)
  have e9 := AppsKept.of_frame (u := u) h9
    (restTouched_numbered (by decide) (by decide) (by decide)) (by decide)
  exact e1.trans (e2.trans (e3.trans (e4.trans (e5.trans (e6.trans (e7.trans
    ((convertAutofwPort_kept h8).trans e9)))))))

end Nvparse
end Router
