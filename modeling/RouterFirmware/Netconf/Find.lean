/-
# Finding and deleting what was added

`netconf_fw_index` compares an entry with a record on its own terms: it wants
the record's address and mask, also where `netconf_add_fw` has stored none, and
it does not look at a match the record does not have. So an entry may not be
found for its own record (`takenFor_buildEntry`), and one in front of it may be
taken for it. What stands in front is decided by where the entry goes
(`front_not_taken`).
-/
import RouterFirmware.Netconf.Faithful

namespace Router
namespace Netconf

open CMem Bits

/-! ### An entry and its own record -/

/-- The side of a record as it is stored: the network is not zero, or neither
address, mask nor inversion is given. -/
def Side.plain (a : Side) (inv : Bool) : Bool :=
  a.given || (a.ipaddr == 0 && a.netmask == 0 && !inv)

/-- A side compared with what is stored of it. -/
theorem Side.plain_iff (a : Side) (inv : Bool) : a.plain inv = true ↔
    ((if a.given then a.ipaddr else 0) = a.ipaddr ∧ (if a.given then a.netmask else 0) = a.netmask) ∧
      ((a.given && inv) ^^ inv) = false := by
  unfold plain
  cases a.given with
  | true => simp
  | false =>
    simp only [Bool.false_or, Bool.and_eq_true, beq_iff_eq, Bool.not_eq_true', Bool.false_eq_true, if_false,
      Bool.false_and, Bool.false_xor]
    rw [@eq_comm _ (0 : Addr) a.ipaddr, @eq_comm _ (0 : Addr) a.netmask]

theorem sameIp_buildIp (m : Match) : sameIp m (buildIp m) =
    (m.src.plain (m.inv netconfInvSrcip) && m.dst.plain (m.inv netconfInvDstip)) := by
  obtain ⟨h1, h2, -⟩ := invflags_buildIp m
  unfold sameIp
  rw [h1, h2, buildIp_eq, Bool.eq_iff_iff]
  simp only [Bool.and_eq_true, decide_eq_true_eq, Bool.not_eq_true', Side.plain_iff, and_true]
  show ((_ ∧ ((m.src.given && m.inv netconfInvSrcip) ^^ m.inv netconfInvSrcip) = false) ∧
    ((m.dst.given && m.inv netconfInvDstip) ^^ m.inv netconfInvDstip) = false) ↔ _
  tauto

theorem samePorts_self (m : Match) :
    samePorts m (ntohs2 m.src.ports) (ntohs2 m.dst.ports)
      (flagTo m.flags netconfInvSrcpt iptInvSrcpt ||| flagTo m.flags netconfInvDstpt iptInvDstpt) = true := by
  unfold samePorts
  rw [hasBit_or, hasBit_or, hasBit_flagTo, hasBit_flagTo, hasBit_flagTo, hasBit_flagTo]
  generalize hasBit m.flags netconfInvSrcpt = a
  generalize hasBit m.flags netconfInvDstpt = b
  simp [hasBit, iptInvSrcpt, iptInvDstpt]

theorem sameProto_buildEntry (fw : Fw) : sameProto fw.m (buildEntry fw) = true := by
  unfold sameProto
  rw [tcp?_buildEntry, udp?_buildEntry]
  split_ifs
  · exact samePorts_self fw.m
  · exact samePorts_self fw.m
  · rfl

theorem sameMac_buildEntry (fw : Fw) : sameMac fw.m (buildEntry fw) = true := by
  unfold sameMac
  rw [mac?_buildEntry]
  by_cases h0 : fw.m.mac = 0
  · simp [h0]
  · rw [if_pos h0, Option.any_some]
    simp [Match.inv]

theorem sameState_buildEntry (fw : Fw) : sameState fw.m (buildEntry fw) = true := by
  unfold sameState
  rw [state?_buildEntry]
  by_cases h0 : fw.m.state = 0
  · simp [h0]
  · rw [if_pos h0, Option.any_some]
    simp only [hasBit_or, hasBit_flagTo]
    generalize hasBit fw.m.state netconfInvalid = a
    generalize hasBit fw.m.state netconfEstablished = b
    generalize hasBit fw.m.state netconfRelated = c
    generalize hasBit fw.m.state netconfNew = d
    simp [hasBit, Ctinfo.bit]

theorem sameTime_buildEntry (fw : Fw) : sameTime fw.m (buildEntry fw) = true := by
  unfold sameTime
  rw [time?_buildEntry]
  cases fw.m.timed <;> simp

theorem sameTarget_buildEntry {fw : Fw} (h : fw.act ≠ .other) : sameTarget fw (buildEntry fw) = true := by
  have hrange : ∀ ipaddr ports, sameRange fw.m ipaddr ports (natRange fw.m ipaddr ports) = true := by
    intro ipaddr ports
    obtain ⟨hip, hports⟩ := natRange_eq fw.m ipaddr ports
    unfold sameRange
    rw [hip]
    split_ifs with hp
    · have hp' := hports (by unfold Match.ported; exact decide_eq_true hp)
      simp [hp']
    · simp
  unfold sameTarget buildEntry buildTarget
  cases hact : fw.act with
  | filter target dir => cases target <;> rfl
  | nat target ipaddr ports => cases target <;> exact hrange ipaddr ports
  | app proto dport toPorts => simp
  | other => exact absurd hact h

/-- An entry is taken for its own record if the record's sides are as they are stored. -/
theorem takenFor_buildEntry {fw : Fw} (hproto : validIpproto fw.m.ipproto = true)
    (hact : fw.act ≠ .other) : takenFor fw (buildEntry fw) =
      (fw.m.src.plain (fw.m.inv netconfInvSrcip) && fw.m.dst.plain (fw.m.inv netconfInvDstip)) := by
  unfold takenFor
  rw [sameProto_buildEntry, sameMac_buildEntry, sameState_buildEntry, sameTime_buildEntry,
    sameTarget_buildEntry hact, proto_buildEntry hproto]
  simp only [decide_true, Bool.true_and, Bool.and_true]
  exact sameIp_buildIp fw.m

/-! ### Looking through a chain -/

variable {t : Tables} {fw : Fw} {c : Chain}

theorem netconfFwIndex_eq (hproto : validIpproto fw.m.ipproto = true) (hc : fw.act.chain = some c) :
    netconfFwIndex t fw =
      match (t c).findIdx? (takenFor fw) with
      | some i => (i : ℤ)
      | none => -enoent := by
  unfold netconfFwIndex
  rw [hproto, hc]
  rfl

theorem netconfFwExists_iff (hproto : validIpproto fw.m.ipproto = true) (hc : fw.act.chain = some c) :
    netconfFwExists t fw = true ↔ ∃ x ∈ t c, takenFor fw x = true := by
  unfold netconfFwExists
  rw [netconfFwIndex_eq hproto hc, decide_eq_true_eq]
  cases hi : (t c).findIdx? (takenFor fw) with
  | none =>
    rw [List.findIdx?_eq_none_iff] at hi
    constructor
    · intro h
      exact absurd h (by decide)
    · rintro ⟨x, hx, hx'⟩
      rw [hi x hx] at hx'
      cases hx'
  | some i =>
    obtain ⟨hlt, hi', -⟩ := List.findIdx?_eq_some_iff_getElem.mp hi
    exact ⟨fun _ => ⟨_, List.getElem_mem hlt, hi'⟩, fun _ => Int.natCast_nonneg i⟩

theorem netconfDelFw_eq (hproto : validIpproto fw.m.ipproto = true) (hc : fw.act.chain = some c) {i : ℕ}
    (hi : (t c).findIdx? (takenFor fw) = some i) :
    netconfDelFw t fw = (0, Function.update t c ((t c).eraseIdx i)) := by
  unfold netconfDelFw
  rw [netconfFwIndex_eq hproto hc, hi, hc]
  simp

/-- A deletion that succeeds takes one entry out. -/
theorem netconfDelFw_some {t' : Tables} (hproto : validIpproto fw.m.ipproto = true)
    (hc : fw.act.chain = some c) (h : netconfDelFw t fw = (0, t')) :
    ∃ i, (t c).findIdx? (takenFor fw) = some i ∧ t' = Function.update t c ((t c).eraseIdx i) := by
  cases hi : (t c).findIdx? (takenFor fw) with
  | none =>
    unfold netconfDelFw at h
    rw [netconfFwIndex_eq hproto hc, hi] at h
    cases h
  | some i =>
    rw [netconfDelFw_eq hproto hc hi] at h
    cases h
    exact ⟨i, rfl, rfl⟩

theorem findIdx?_append_cons {p : Entry → Bool} {l₁ l₂ : List Entry} {x : Entry}
    (h : ∀ y ∈ l₁, p y = false) (hx : p x = true) :
    (l₁ ++ x :: l₂).findIdx? p = some l₁.length := by
  rw [List.findIdx?_append, List.findIdx?_eq_none_iff.mpr h, List.findIdx?_cons, hx]
  simp

/-- Of a list in which `x` stands once, the list without `x` is had only by
taking out `x`. -/
theorem eraseIdx_eq_append {l₁ l₂ : List Entry} {x : Entry} {i : ℕ} (hx : x ∉ l₁ ++ l₂)
    (h : (l₁ ++ x :: l₂).eraseIdx i = l₁ ++ l₂) : i = l₁.length := by
  by_contra hne
  apply hx
  rw [← h, List.mem_eraseIdx_iff_getElem?]
  refine ⟨l₁.length, fun he => hne he.symm, ?_⟩
  simp

/-! ### What stands in front -/

/-- A record that matches everything: a default policy. -/
def Match.blank (m : Match) : Bool :=
  !m.src.given && !m.dst.given && m.inName.str.length == 0 && m.outName.str.length == 0 && !m.ported &&
    m.mac == 0 && m.state == 0 && !m.timed

/-- Whether the entry goes to the end of its chain. -/
def Fw.appended (fw : Fw) : Bool :=
  match fw.act with
  | .filter _ _ => fw.m.blank
  | _ => true

theorem matchers_isEmpty (fw : Fw) : (buildEntry fw).matchers.isEmpty =
    (!fw.m.ported && fw.m.mac == 0 && fw.m.state == 0 && !fw.m.timed) := by
  have hports : buildPorts fw.m = [] ↔ fw.m.ported = false := by
    unfold buildPorts Match.ported
    split_ifs with h1 h2
    · simp [h1]
    · simp [h2]
    · simp [h1, h2]
  have hmac : buildMac fw.m = [] ↔ fw.m.mac = 0 := by
    unfold buildMac
    split_ifs with h
    · exact iff_of_false id h
    · exact iff_of_true rfl (not_not.mp h)
  have hstate : buildState fw.m = [] ↔ fw.m.state = 0 := by
    unfold buildState
    split_ifs with h
    · exact iff_of_false id h
    · exact iff_of_true rfl (not_not.mp h)
  have htime : buildTime fw.m = [] ↔ fw.m.timed = false := by
    unfold buildTime
    cases fw.m.timed <;> simp
  show (buildPorts fw.m ++ buildMac fw.m ++ buildState fw.m ++ buildTime fw.m).isEmpty = _
  rw [Bool.eq_iff_iff]
  simp only [List.isEmpty_iff, List.append_eq_nil_iff, hports, hmac, hstate, htime, Bool.and_eq_true,
    Bool.not_eq_true', beq_iff_eq]

theorem Side.not_given {a : Side} (h : (if a.given then a.ipaddr else 0) = 0) : a.given = false := by
  cases hg : a.given with
  | false => rfl
  | true =>
    rw [hg, if_pos rfl] at h
    rw [given_iff, h] at hg
    exact absurd BitVec.zero_and hg

theorem buildIp_eq_blank (m : Match) (hported : m.ported = false) : buildIp m = IptIp.blank ↔
    m.src.given = false ∧ m.dst.given = false ∧ m.inName.str.length = 0 ∧ m.outName.str.length = 0 := by
  constructor
  · intro h
    rw [buildIp_eq] at h
    have hin : m.inName = .none := congrArg IptIp.iniface h
    have hout : m.outName = .none := congrArg IptIp.outiface h
    refine ⟨Side.not_given (congrArg IptIp.src h), Side.not_given (congrArg IptIp.dst h), ?_, ?_⟩
    · rw [hin]
      rfl
    · rw [hout]
      rfl
  · rintro ⟨hsrc, hdst, hin, hout⟩
    unfold Match.ported at hported
    rw [decide_eq_false_iff_not, not_or] at hported
    have hin' : m.inName = .none := Ifname.eq_none (by omega)
    have hout' : m.outName = .none := Ifname.eq_none (by omega)
    rw [buildIp_eq, hsrc, hdst, if_neg hported.1, if_neg hported.2, hin', hout']
    unfold IptIp.blank
    congr 1
    simp [bitIf, Ifname.none, CStr.length]

theorem isDefault_buildEntry (fw : Fw) : (buildEntry fw).isDefault = fw.m.blank := by
  have hip : (buildEntry fw).ip = buildIp fw.m := rfl
  unfold Entry.isDefault Match.blank
  rw [matchers_isEmpty, hip]
  cases hported : fw.m.ported with
  | true => simp
  | false =>
    rw [Bool.eq_iff_iff]
    simp only [Bool.and_eq_true, decide_eq_true_eq, buildIp_eq_blank fw.m hported, Bool.not_eq_true',
      beq_iff_eq, Bool.not_false, true_and]
    tauto

theorem filter_kind {target : FilterTarget} {dir : Option Dir} (h : fw.act = .filter target dir) :
    (buildEntry fw).isDrop = true ∨ (buildEntry fw).isAccept = true ∧ (buildEntry fw).isDrop = false := by
  unfold Entry.isDrop Entry.isAccept buildEntry buildTarget
  rw [h]
  cases target with
  | drop => exact Or.inl rfl
  | logDrop => exact Or.inl rfl
  | accept => exact Or.inr ⟨rfl, rfl⟩
  | logAccept => exact Or.inr ⟨rfl, rfl⟩

/-- An entry taken for a record drops if the record does. -/
theorem sameTarget_isDrop {x : Entry} (h : sameTarget fw x = true) :
    x.isDrop = (buildEntry fw).isDrop := by
  unfold sameTarget at h
  unfold Entry.isDrop buildEntry buildTarget
  split at h
  case h_9 => cases h
  case h_1 | h_2 | h_3 | h_4 =>
    rename_i hact htarget
    rw [htarget, hact]
  all_goals
    rename_i hact htarget
    rw [htarget, hact]
    rfl

/-- An entry that goes to the end stands behind the whole chain, and in front of
another stands none that is taken for its record. -/
theorem front_not_taken (hact : fw.act ≠ .other) (l : List Entry) :
    (∀ x ∈ l.take (insertAt (buildEntry fw) l), takenFor fw x = false) ↔
      (fw.appended = true → ∀ x ∈ l, takenFor fw x = false) := by
  have hall : insertAt (buildEntry fw) l = l.length → fw.appended = true →
      ((∀ x ∈ l.take (insertAt (buildEntry fw) l), takenFor fw x = false) ↔
        (fw.appended = true → ∀ x ∈ l, takenFor fw x = false)) := by
    intro hat happ
    rw [hat, List.take_length, happ]
    simp
  unfold Fw.appended at *
  cases hact' : fw.act with
  | other => exact absurd hact' hact
  | nat target ipaddr ports =>
    rw [hact'] at hall
    refine hall ?_ rfl
    unfold insertAt Entry.isDrop Entry.isAccept buildEntry buildTarget
    rw [hact']
    cases target <;> simp
  | app proto dport toPorts =>
    rw [hact'] at hall
    refine hall ?_ rfl
    unfold insertAt Entry.isDrop Entry.isAccept buildEntry buildTarget
    rw [hact']
    simp
  | filter target dir =>
    rw [hact'] at hall
    cases hblank : fw.m.blank with
    | true =>
      rw [hblank] at hall
      refine hall ?_ rfl
      unfold insertAt
      rw [isDefault_buildEntry, hblank]
      rfl
    | false =>
      simp only [Bool.false_eq_true, false_implies, iff_true]
      intro x hx
      have hdef : (buildEntry fw).isDefault = false := (isDefault_buildEntry fw).trans hblank
      rw [Bool.eq_false_iff]
      intro htaken
      have hsame : sameTarget fw x = true := by
        unfold takenFor at htaken
        rw [Bool.and_eq_true] at htaken
        exact htaken.2
      -- a record that drops goes to the head, and one that accepts behind entries that drop
      rcases filter_kind hact' with hdrop | ⟨hacc, hnodrop⟩
      · unfold insertAt at hx
        rw [hdef, hdrop] at hx
        cases hx
      · have hfront := (front_of_accept hdef hacc hx).1
        rw [sameTarget_isDrop hsame, hnodrop] at hfront
        cases hfront

/-! ### Adding, finding and deleting -/

/-- No entry equal to the one for the record. -/
def NoEqual (t : Tables) (fw : Fw) : Prop := ∀ c, fw.act.chain = some c → buildEntry fw ∉ t c

/-- After the record has been added it is found, and if no entry equal to it was
there before, deleting it leaves the tables as they were. -/
def AddIsUndone (t t' : Tables) (fw : Fw) : Prop :=
  netconfFwExists t' fw = true ∧ (NoEqual t fw → netconfDelFw t' fw = (0, t))

/-- The condition. If an entry equal to the one for the record is there already,
one must be found. Otherwise the time must be in range, both sides as they are
stored, and for an entry that goes to the end of its chain none may be found before. -/
def AddsCleanly (t : Tables) (fw : Fw) : Prop :=
  ∃ c, fw.act.chain = some c ∧
    if buildEntry fw ∈ t c then netconfFwExists t fw = true
    else
      fw.m.validTime = true ∧ fw.m.src.plain (fw.m.inv netconfInvSrcip) = true ∧
        fw.m.dst.plain (fw.m.inv netconfInvDstip) = true ∧
        (fw.appended = true → netconfFwExists t fw = false)

/-- Nothing was inserted: an error, reported with an `errno` of 0. -/
theorem addIsUndone_same (hproto : validIpproto fw.m.ipproto = true)
    (hbad : fw.m.validTime = false ∨ fw.act.chain = none) : AddIsUndone t t fw ↔ AddsCleanly t fw := by
  unfold AddIsUndone AddsCleanly NoEqual
  cases hc : fw.act.chain with
  | none =>
    have hno : netconfFwExists t fw = false := by
      unfold netconfFwExists netconfFwIndex
      rw [hproto, hc]
      exact decide_eq_false (show ¬ (-einval ≥ 0) by decide)
    simp [hno]
  | some c =>
    have hbad' : fw.m.validTime = false := hbad.resolve_right (by simp [hc])
    have hnever : netconfDelFw t fw ≠ (0, t) := by
      intro hdel
      obtain ⟨i, hi, ht⟩ := netconfDelFw_some hproto hc hdel
      obtain ⟨hlt, -⟩ := List.findIdx?_eq_some_iff_getElem.mp hi
      have hlen := congrArg List.length (congrFun ht c)
      rw [Function.update_self, List.length_eraseIdx_of_lt hlt] at hlen
      omega
    by_cases he : buildEntry fw ∈ t c
    · simp [he]
    · simp [he, hbad', hnever]

/-- If deleting after adding leaves the tables as they were, and no equal entry was
there, what was deleted is what was added. -/
theorem taken_of_deleted (hproto : validIpproto fw.m.ipproto = true) (hc : fw.act.chain = some c)
    (he : buildEntry fw ∉ t c)
    (hdel : netconfDelFw (Function.update t c (insertEntry (buildEntry fw) (t c))) fw = (0, t)) :
    takenFor fw (buildEntry fw) = true ∧
      ∀ x ∈ (t c).take (insertAt (buildEntry fw) (t c)), takenFor fw x = false := by
  have hsplit := List.take_append_drop (insertAt (buildEntry fw) (t c)) (t c)
  obtain ⟨i, hi, ht⟩ := netconfDelFw_some hproto hc hdel
  have hchain := congrFun ht c
  rw [Function.update_self, Function.update_self, insertEntry_eq] at hchain
  rw [Function.update_self, insertEntry_eq] at hi
  have hlen := eraseIdx_eq_append (by rwa [hsplit]) (hchain.symm.trans hsplit.symm)
  subst hlen
  obtain ⟨hlt, htaken, hfirst⟩ := List.findIdx?_eq_some_iff_getElem.mp hi
  rw [List.getElem_append_right le_rfl] at htaken
  simp only [Nat.sub_self, List.getElem_cons_zero] at htaken
  refine ⟨htaken, fun x hx => ?_⟩
  obtain ⟨j, hj, rfl⟩ := List.getElem_of_mem hx
  have hnot := hfirst j hj
  rw [List.getElem_append_left hj] at hnot
  exact Bool.eq_false_iff.mpr hnot

/-- **Add, find and delete**: where `netconf_add_fw` returns 0, what was added is
found and deleted again, and nothing else is, exactly under the condition. -/
theorem add_is_undone_iff {errno : ℤ} {t t' : Tables} {fw : Fw}
    (h : netconfAddFw errno t fw = (0, t')) : AddIsUndone t t' fw ↔ AddsCleanly t fw := by
  have hproto : validIpproto fw.m.ipproto = true := by
    by_contra hbad
    unfold netconfAddFw at h
    rw [Bool.not_eq_true] at hbad
    rw [hbad] at h
    cases h
  rcases netconfAddFw_cases errno t fw with ⟨-, hvalid, c, hc, hadd⟩ | ⟨hbad, hsame⟩
  · rw [hadd] at h
    cases h
    have hact : fw.act ≠ .other := by
      intro hact
      rw [hact] at hc
      cases hc
    have hself := takenFor_buildEntry hproto hact
    have hfront := front_not_taken hact (t c)
    have hsplit := List.take_append_drop (insertAt (buildEntry fw) (t c)) (t c)
    have hinsert := insertEntry_eq (buildEntry fw) (t c)
    have hmem : ∀ x, x ∈ insertEntry (buildEntry fw) (t c) ↔ x = buildEntry fw ∨ x ∈ t c := by
      intro x
      rw [hinsert, List.perm_middle.mem_iff, hsplit, List.mem_cons]
    have hbefore := netconfFwExists_iff (t := t) hproto hc
    unfold AddIsUndone AddsCleanly NoEqual
    rw [netconfFwExists_iff hproto hc, Function.update_self]
    simp only [hc, Option.some.injEq, exists_eq_left', forall_eq']
    by_cases he : buildEntry fw ∈ t c
    · simp only [he, not_true_eq_false, false_implies, and_true, if_true, hbefore, hmem]
      constructor
      · rintro ⟨x, rfl | hx, htaken⟩
        · exact ⟨_, he, htaken⟩
        · exact ⟨x, hx, htaken⟩
      · rintro ⟨x, hx, htaken⟩
        exact ⟨x, Or.inr hx, htaken⟩
    · simp only [he, not_false_eq_true, true_implies, if_false, hvalid, true_and]
      rw [← and_assoc, ← Bool.and_eq_true, ← hself]
      have hnone : netconfFwExists t fw = false ↔ ∀ x ∈ t c, takenFor fw x = false := by
        rw [Bool.eq_false_iff, ne_eq, hbefore]
        simp
      rw [hnone, ← hfront]
      constructor
      · rintro ⟨-, hdel⟩
        exact taken_of_deleted hproto hc he hdel
      · rintro ⟨htaken, hnot⟩
        refine ⟨⟨buildEntry fw, (hmem _).mpr (Or.inl rfl), htaken⟩, ?_⟩
        have hidx : (Function.update t c (insertEntry (buildEntry fw) (t c)) c).findIdx? (takenFor fw) =
            some ((t c).take (insertAt (buildEntry fw) (t c))).length := by
          rw [Function.update_self, hinsert]
          exact findIdx?_append_cons hnot htaken
        rw [netconfDelFw_eq hproto hc hidx, Function.update_self, hinsert,
          List.eraseIdx_append_of_length_le le_rfl, Nat.sub_self, List.eraseIdx_zero, List.tail_cons, hsplit,
          Function.update_idem, Function.update_eq_self]
  · rw [h] at hsame
    cases hsame
    exact addIsUndone_same hproto (hbad.resolve_left (by simp [hproto]))

theorem add_is_undone_iff_lan :
    netconfAddFw 0 (fun _ => []) lanRule =
        (0, Function.update (fun _ => []) .forward [buildEntry lanRule]) ∧
      (AddIsUndone (fun _ => []) (Function.update (fun _ => []) .forward [buildEntry lanRule]) lanRule ↔
        AddsCleanly (fun _ => []) lanRule) := by
  have hadd : netconfAddFw 0 (fun _ => []) lanRule =
      (0, Function.update (fun _ => []) .forward [buildEntry lanRule]) :=
    netconfAddFw_eq (by decide) (by decide) rfl
  exact ⟨hadd, add_is_undone_iff hadd⟩

/-- TCP to port 80, from the address 0.0.0.0 under a full mask. -/
def anyRule : Fw where
  m := { ipproto := 6, src := ⟨0, 0xffffffff, (0, 0xffff)⟩, dst := ⟨0, 0, (0x5000, 0x5000)⟩, mac := 0,
         inName := .none, outName := .none, state := 0, flags := 0, days := (0, 0), secs := (0, 0) }
  act := .filter .drop (some .forward)

/-- It is added without a source, and not found for having one. -/
theorem added_not_found :
    netconfAddFw 0 (fun _ => []) anyRule =
        (0, Function.update (fun _ => []) .forward [buildEntry anyRule]) ∧
      netconfFwExists (Function.update (fun _ => []) .forward [buildEntry anyRule]) anyRule = false := by
  refine ⟨netconfAddFw_eq (by decide) (by decide) rfl, ?_⟩
  have htaken : takenFor anyRule (buildEntry anyRule) = false := by decide
  rw [Bool.eq_false_iff, ne_eq, netconfFwExists_iff (c := .forward) (by decide) rfl, Function.update_self]
  rintro ⟨x, hx, htrue⟩
  rw [List.mem_singleton.mp hx, htaken] at htrue
  cases htrue

end Netconf
end Router
